import Xv6.Append.Model
import Xv6.Content.Bytes
import Xv6.Lib.Abut
import Xv6.Lib.Ends

/-!
# The chunks of all writers lie side by side

As long as no chunk fails, the chunks that have been written cover the file from the first offset
to the current one, in the order in which they ran, and the bytes of each are in the file: a chunk
is written beyond all earlier ones, by the only process that is inside of the inode lock.
-/

namespace Xv6.Append

open Xv6.Lib
open Xv6.Content (Disk chunkMax)

/-- The number of bytes of a chunk. -/
def Chunk.size {P : Type} (c : Chunk P) : Nat := c.bytes.length

/-- The bytes `buf` are in the file from `a` on. -/
def Holds (s : Disk) (a : Nat) (buf : List UInt8) : Prop :=
  ∀ j < buf.length, buf[j]? = some (s.byteOf 0 (a + j))

namespace Pc

/-- The process is inside of the inode lock. -/
def inLock : Pc → Bool
  | .loop .. => true
  | .out .. => true
  | _ => false

/-- How many bytes of the call are written. -/
def pos : Pc → Option Nat
  | .idle => none
  | .top _ i => some i
  | .lock _ i _ => some i
  | .loop _ i _ _ _ _ => some i
  | .out _ i _ _ _ _ => some i

/-- What a process has done of its chunk, with the offset and the blocks as they are. -/
def Writes (off : Nat) (disk : Disk) : Pc → Prop
  | .lock _ _ n1 => n1 ≤ chunkMax
  | .loop _ _ n1 tot o buf => n1 ≤ chunkMax ∧ off + n1 ≤ MAXFILE * BSIZE ∧ o = off + tot ∧ tot ≤ n1 ∧
      buf.length = tot ∧ Holds disk off buf
  | .out _ _ n1 r _ buf => n1 ≤ chunkMax ∧
      (r = n1 → off + n1 ≤ MAXFILE * BSIZE ∧ buf.length = n1 ∧ Holds disk off buf)
  | _ => True

theorem Writes.outside {off off' : Nat} {disk disk' : Disk} {c : Pc} (h : c.Writes off disk)
    (hc : c.inLock = false) : c.Writes off' disk' := by
  cases c with
  | idle | top n i => trivial
  | lock n i n1 => exact h
  | loop n i n1 tot o buf | out n i n1 r o buf => cases hc

end Pc

namespace Valid

variable {s s' : Disk}

theorem mapped {bn b : Nat} (h : Valid s) (hm : s.Mapped s' 0 bn b) : Valid s' :=
  ⟨hm.sound, fun j k hj hk => (hm.other j k hj hk).trans (h.lone j k hj hk)⟩

theorem blit (h : Valid s) (b o n : Nat) (src : Nat → UInt8) : Valid (s.blit b o n src) :=
  ⟨Disk.blit_sound h.sound b o n src, h.lone⟩

theorem stretch (h : Valid s) (n : Nat) : Valid (s.stretch 0 n) :=
  ⟨Disk.stretch_sound h.sound 0 n, fun j k hj hk => (Disk.stretch_held ..).trans (h.lone j k hj hk)⟩

end Valid

variable {P : Type} [DecidableEq P]

namespace Sys

/-- The chunks of call `k` of a process. -/
def ofCall (s : Sys P) (p : P) (k : Nat) : List (Chunk P) :=
  s.log.filter fun c => decide (c.proc = p ∧ c.call = k)

/-- The chunks of the current call of a process. -/
def mine (s : Sys P) (p : P) : List (Chunk P) := s.ofCall p (s.calls p)

theorem ofCall_snoc {s t : Sys P} {x : Chunk P} (ht : t.log = s.log ++ [x]) (p : P) (k : Nat) :
    t.ofCall p k = if x.proc = p ∧ x.call = k then s.ofCall p k ++ [x] else s.ofCall p k := by
  unfold ofCall
  rw [ht, List.filter_append]
  by_cases hx : x.proc = p ∧ x.call = k
  · rw [if_pos hx]
    simp [hx]
  · rw [if_neg hx]
    simp [hx]

end Sys

/-- **The invariant**, for a file whose offset was `a`. -/
structure Inv (a : Nat) (s : Sys P) : Prop where
  valid : Valid s.disk
  chain : Abut Chunk.start Chunk.size a s.log s.off
  small : s.off < 2 ^ 32
  inside : s.log ≠ [] → s.off ≤ MAXFILE * BSIZE
  sized : ∀ c ∈ s.log, c.size ≤ chunkMax
  bytes : ∀ c ∈ s.log, Holds s.disk c.start c.bytes
  locked : ∀ p, (s.pc p).inLock = true → s.lock = some p
  writes : ∀ p, (s.pc p).Writes s.off s.disk
  calls : ∀ c ∈ s.log, c.call ≤ s.calls c.proc
  order : s.log.Pairwise fun c d => c.proc = d.proc → c.call ≤ d.call
  each : ∀ p k, ∃ i, Abut Chunk.i Chunk.size 0 (s.ofCall p k) i
  mine : ∀ p i, (s.pc p).pos = some i → Abut Chunk.i Chunk.size 0 (s.mine p) i

namespace Inv

variable {a : Nat} {s s' : Sys P} {p : P}

theorem outside (h : Inv a s) (hl : ∀ q, s.lock = some q → q = p) {q : P} (hq : q ≠ p) :
    (s.pc q).inLock = false := by
  by_contra hc
  exact hq (hl q (h.locked q (by simpa using hc)))

/-- Nobody else is inside of the lock that a process has. -/
theorem holder (h : Inv a s) {c : Pc} (hpc : s.pc p = c) (hc : c.inLock = true) :
    ∀ q, q ≠ p → (s.pc q).inLock = false := by
  have hl := h.locked p (by rw [hpc]; exact hc)
  exact fun q hq => h.outside (fun q' hq' => Option.some.inj (hq'.symm.trans hl)) hq

theorem bytes_of_below (h : Inv a s) {disk : Disk}
    (hkeep : ∀ x, x < s.off → x < MAXFILE * BSIZE → disk.byteOf 0 x = s.disk.byteOf 0 x) :
    ∀ c ∈ s.log, Holds disk c.start c.bytes := by
  intro c hc j hj
  have hbound := (h.chain.bounds hc).2
  have hin := h.inside (List.ne_nil_of_mem hc)
  have hlt : c.start + j < s.off := by
    have : c.start + c.bytes.length ≤ s.off := hbound
    omega
  rw [h.bytes c hc j hj, hkeep _ hlt (Nat.lt_of_lt_of_le hlt hin)]

/-- **One process goes on inside of a chunk**: the log and the offset are as they were. -/
theorem move (h : Inv a s) {c : Pc} (hpc : s'.pc = upd s.pc p c) (hlog : s'.log = s.log)
    (hoff : s'.off = s.off) (hcalls : s'.calls = s.calls) (hvalid : Valid s'.disk)
    (hkeep : ∀ x, x < s.off → x < MAXFILE * BSIZE → s'.disk.byteOf 0 x = s.disk.byteOf 0 x)
    (hlock : c.inLock = true → s'.lock = some p)
    (hfree : ∀ q, q ≠ p → (s.pc q).inLock = true → s'.lock = some q)
    (hout : s'.disk = s.disk ∨ ∀ q, q ≠ p → (s.pc q).inLock = false)
    (hwrites : c.Writes s.off s'.disk) (hpos : ∀ i, c.pos = some i → (s.pc p).pos = some i) :
    Inv a s' := by
  refine
    { valid := hvalid
      chain := by rw [hlog, hoff]; exact h.chain
      small := by rw [hoff]; exact h.small
      inside := by rw [hlog, hoff]; exact h.inside
      sized := by rw [hlog]; exact h.sized
      bytes := by rw [hlog]; exact h.bytes_of_below hkeep
      locked := fun q hq => ?_
      writes := fun q => ?_
      calls := by rw [hlog, hcalls]; exact h.calls
      order := by rw [hlog]; exact h.order
      each := by unfold Sys.ofCall; rw [hlog]; exact h.each
      mine := fun q i hi => ?_ }
  · rw [hpc, upd_apply] at hq
    split at hq
    · subst q
      exact hlock hq
    · exact hfree q ‹_› hq
  · rw [hpc, hoff, upd_apply]
    split
    · exact hwrites
    · rcases hout with he | ho
      · rw [he]
        exact h.writes q
      · exact (h.writes q).outside (ho q ‹_›)
  · have hmine : s'.mine q = s.mine q := by
      unfold Sys.mine Sys.ofCall
      rw [hlog, hcalls]
    rw [hmine]
    rw [hpc, upd_apply] at hi
    split at hi
    · subst q
      exact h.mine p i (hpos i hi)
    · exact h.mine q i hi

/-- The map of the free blocks changes outside of the file. -/
theorem other (h : Inv a s) {b : Nat} (hb0 : b ≠ 0) (hb : ∀ k < MAXFILE + 1, s.disk.held 0 k ≠ b) (used : Bool) :
    Inv a { s with disk := { s.disk with used := upd s.disk.used b used } } := by
  refine { h with valid := ⟨⟨?_, fun j k hk hne => ?_, h.valid.sound.inj⟩, h.valid.lone⟩ }
  · exact (upd_other _ _ hb0.symm).trans h.valid.sound.boot
  · have hheld : s.disk.held j k ≠ b := by
      by_cases hj : j = 0
      · rw [hj]
        exact hb k (Nat.lt_succ_of_le hk)
      · rw [h.valid.lone j k hj hk]
        exact hb0.symm
    exact (upd_other _ _ hheld).trans (h.valid.sound.used j k hk hne)

theorem call (h : Inv a s) (hpc : s.pc p = .idle) (n : Int) :
    Inv a { s.goTo p (.top n 0) with calls := upd s.calls p (s.calls p + 1) } := by
  refine
    { h with
      locked := fun q hq => ?_
      writes := fun q => ?_
      calls := fun c hc => ?_
      mine := fun q i hi => ?_ }
  · have hq' : (upd s.pc p (.top n 0) q).inLock = true := hq
    rw [upd_apply] at hq'
    split at hq'
    · cases hq'
    · exact h.locked q hq'
  · show (upd s.pc p (.top n 0) q).Writes s.off s.disk
    rw [upd_apply]
    split
    · trivial
    · exact h.writes q
  · have hold := h.calls c hc
    show c.call ≤ upd s.calls p (s.calls p + 1) c.proc
    rw [upd_apply]
    split
    · rename_i hp
      rw [hp] at hold
      omega
    · exact hold
  · show Abut Chunk.i Chunk.size 0 (s.ofCall q (upd s.calls p (s.calls p + 1) q)) i
    have hi' : (upd s.pc p (.top n 0) q).pos = some i := hi
    rw [upd_apply] at hi' ⊢
    by_cases hqp : q = p
    · subst hqp
      rw [if_pos rfl] at hi' ⊢
      cases hi'
      have hnil : s.ofCall q (s.calls q + 1) = [] := by
        refine List.filter_eq_nil_iff.2 fun c hc hd => ?_
        obtain ⟨hp, hcall⟩ := of_decide_eq_true hd
        have hold := h.calls c hc
        rw [hp] at hold
        omega
      rw [hnil]
      rfl
    · rw [if_neg hqp] at hi' ⊢
      exact h.mine q i hi'

/-- The chunk that is complete comes behind those of its call. -/
theorem complete (h : Inv a s) {n : Int} {i n1 : Nat} {r : Int} {o : Nat} {buf : List UInt8}
    (hpc : s.pc p = .out n i n1 r o buf) (hr : r = n1) :
    Inv a ({ s with
      lock := none
      off := if 0 < r then (s.off + r.toNat) % 2 ^ 32 else s.off
      log := s.log ++ [(⟨p, s.calls p, i, s.off, buf⟩ : Chunk P)] }.goTo p (.top n (i + n1))) := by
  have hw := h.writes p
  rw [hpc] at hw
  obtain ⟨hmax, hw⟩ := hw
  obtain ⟨htop, hlen, hbytes⟩ := hw hr
  have hoff : (if 0 < r then (s.off + r.toNat) % 2 ^ 32 else s.off) = s.off + n1 := by
    subst hr
    have hlt : s.off + n1 < 2 ^ 32 := Nat.lt_of_le_of_lt htop (by decide)
    split
    · rw [Int.toNat_natCast, Nat.mod_eq_of_lt hlt]
    · have : n1 = 0 := by omega
      rw [this, Nat.add_zero]
  have hout := h.holder hpc rfl
  have hmine : Abut Chunk.i Chunk.size 0 (s.mine p ++ [(⟨p, s.calls p, i, s.off, buf⟩ : Chunk P)]) (i + n1) := by
    have hnew := (h.mine p i (by rw [hpc]; rfl)).snoc (x := (⟨p, s.calls p, i, s.off, buf⟩ : Chunk P)) rfl
    rwa [show Chunk.size (⟨p, s.calls p, i, s.off, buf⟩ : Chunk P) = n1 from hlen] at hnew
  rw [hoff]
  generalize ht : ({ s with
      lock := none
      off := s.off + n1
      log := s.log ++ [(⟨p, s.calls p, i, s.off, buf⟩ : Chunk P)] } : Sys P).goTo p (.top n (i + n1)) = t
  have hlog : t.log = s.log ++ [(⟨p, s.calls p, i, s.off, buf⟩ : Chunk P)] := by rw [← ht]; rfl
  have hcalls : t.calls = s.calls := by rw [← ht]; rfl
  have hpc' : t.pc = upd s.pc p (.top n (i + n1)) := by rw [← ht]; rfl
  have hdisk : t.disk = s.disk := by rw [← ht]; rfl
  have hoff' : t.off = s.off + n1 := by rw [← ht]; rfl
  refine
    { valid := by rw [hdisk]; exact h.valid
      chain := ?_
      small := by rw [hoff']; exact Nat.lt_of_le_of_lt htop (by decide)
      inside := fun _ => by rw [hoff']; exact htop
      sized := ?_
      bytes := ?_
      locked := fun q hq => ?_
      writes := fun q => ?_
      calls := ?_
      order := ?_
      each := fun q k => ?_
      mine := fun q j hj => ?_ }
  · have hnew := h.chain.snoc (x := (⟨p, s.calls p, i, s.off, buf⟩ : Chunk P)) rfl
    rw [show Chunk.size (⟨p, s.calls p, i, s.off, buf⟩ : Chunk P) = n1 from hlen] at hnew
    rw [hlog, hoff']
    exact hnew
  · rw [hlog]
    refine List.forall_mem_append.2 ⟨h.sized, List.forall_mem_singleton.2 ?_⟩
    show buf.length ≤ chunkMax
    omega
  · rw [hlog, hdisk]
    exact List.forall_mem_append.2 ⟨h.bytes, List.forall_mem_singleton.2 hbytes⟩
  · rw [hpc', upd_apply] at hq
    split at hq
    · cases hq
    · rw [hout q ‹_›] at hq
      cases hq
  · rw [hpc', upd_apply]
    split
    · trivial
    · exact (h.writes q).outside (hout q ‹_›)
  · rw [hlog, hcalls]
    exact List.forall_mem_append.2 ⟨h.calls, List.forall_mem_singleton.2 (Nat.le_refl _)⟩
  · rw [hlog]
    refine List.pairwise_append.2 ⟨h.order, List.pairwise_singleton _ _, fun c hc d hd hp => ?_⟩
    rw [List.mem_singleton.1 hd] at hp ⊢
    have hold := h.calls c hc
    rw [hp] at hold
    exact hold
  · rw [Sys.ofCall_snoc hlog]
    split
    case isTrue hx =>
      obtain ⟨rfl, rfl⟩ := hx
      exact ⟨i + n1, hmine⟩
    case isFalse => exact h.each q k
  · rw [hpc', upd_apply] at hj
    unfold Sys.mine
    rw [Sys.ofCall_snoc hlog, hcalls]
    split at hj
    case isTrue hqp =>
      subst hqp
      cases hj
      rw [if_pos ⟨rfl, rfl⟩]
      exact hmine
    case isFalse hqp =>
      rw [if_neg fun hx => hqp hx.1.symm]
      exact h.mine q j hj

end Inv

/-! ### The steps -/

section

variable {a : Nat} {s s' : Sys P} {p : P}

/-- The checks of `writei` rule out that the end of the chunk wraps around. -/
theorem writeiBegin_spec {size off n1 : Nat} (hoff : off < 2 ^ 32) (hn : n1 ≤ chunkMax)
    (h : writeiBegin size off n1 = true) : off + n1 ≤ MAXFILE * BSIZE := by
  unfold writeiBegin at h
  simp only [Bool.and_eq_true, Bool.not_eq_true', Bool.or_eq_false_iff, decide_eq_false_iff_not] at h
  obtain ⟨⟨-, hwrap⟩, hmax⟩ := h
  have hn' : n1 ≤ 3072 := hn
  have hmax' : ¬ 274432 < (off + n1) % 2 ^ 32 := hmax
  show off + n1 ≤ 274432
  omega

/-- **A process goes on** outside of the loop of `writei`. -/
theorem inv_run (h : s.failed = false → Inv a s) :
    Ends (run s p (s.pc p)) (fun s' => s'.failed = false → Inv a s') fun _ => True := by
  cases hpc : s.pc p with
  | idle => trivial
  | top n i =>
    refine .ite (fun _ hf => ?_) fun _ hf => ?_
    · refine (h hf).move rfl rfl rfl rfl (h hf).valid (fun _ _ _ => rfl) nofun
        (fun q _ hq => (h hf).locked q hq) (.inl rfl) (Nat.min_le_right _ _) fun j hj => ?_
      rw [hpc]
      exact hj
    · exact (h hf).move rfl rfl rfl rfl (h hf).valid (fun _ _ _ => rfl) nofun
        (fun q _ hq => (h hf).locked q hq) (.inl rfl) trivial nofun
  | lock n i n1 =>
    refine .ite (fun _ => trivial) fun hl => ?_
    have hnone : s.lock = none := by simpa using hl
    have hpos : ∀ j, some i = some j → (s.pc p).pos = some j := fun j hj => by rw [hpc]; exact hj
    have hmax : s.failed = false → n1 ≤ chunkMax := by
      intro hf
      have := (h hf).writes p
      rwa [hpc] at this
    have hfree : s.failed = false → ∀ q, q ≠ p → (s.pc q).inLock = true → some p = some q := by
      intro hf q _ hq
      have := (h hf).locked q hq
      rw [hnone] at this
      cases this
    refine .ite (fun hb hf => ?_) fun _ hf => ?_
    · exact (h hf).move rfl rfl rfl rfl (h hf).valid (fun _ _ _ => rfl) (fun _ => rfl) (hfree hf) (.inl rfl)
        ⟨hmax hf, writeiBegin_spec (h hf).small (hmax hf) hb, rfl, Nat.zero_le _, rfl, nofun⟩ hpos
    · exact (h hf).move rfl rfl rfl rfl (h hf).valid (fun _ _ _ => rfl) (fun _ => rfl) (hfree hf) (.inl rfl)
        ⟨hmax hf, fun hr => by omega⟩ hpos
  | loop n i n1 tot off buf =>
    refine .ite (fun _ => trivial) fun htot hf => ?_
    have hw := (h hf).writes p
    rw [hpc] at hw
    obtain ⟨hmax, htop, -, hle, hlen, hbytes⟩ := hw
    refine (h hf).move rfl rfl rfl rfl ((h hf).valid.stretch off) (fun _ _ _ => Disk.stretch_byteOf ..)
      (fun _ => (h hf).locked p (by rw [hpc]; rfl)) (fun q _ hq => (h hf).locked q hq)
      (.inr ((h hf).holder hpc rfl)) ⟨hmax, fun _ => ⟨htop, by omega, fun j hj => ?_⟩⟩ fun j hj => ?_
    · rw [hbytes j hj]
      exact congrArg some (Disk.stretch_byteOf ..).symm
    · rw [hpc]
      exact hj
  | out n i n1 r off buf => exact .ite (fun hr hf => (h hf).complete hpc hr) fun _ => nofun

/-- **A round of the loop of `writei`.** -/
theorem inv_round (h : s.failed = false → Inv a s) (c : Copy) :
    Ends (round s p c (s.pc p)) (fun s' => s'.failed = false → Inv a s') fun _ => True := by
  cases hpc : s.pc p with
  | idle | top | lock | out => trivial
  | loop n i n1 tot off buf =>
    refine .ite (fun htot => ?_) fun _ => trivial
    cases hfail : s.failed with
    | true =>
      -- a round does not undo a failure
      have hno : ∀ {t : Sys P}, t.failed = true → t.failed = false → Inv a t := by
        intro t ht hf
        rw [ht] at hf
        cases hf
      split
      · trivial
      · refine .ite (fun _ => hno rfl) fun _ => ?_
        cases c with
        | done src => exact hno rfl
        | fault k src => exact hno rfl
    | false =>
    replace h := h hfail
    have hw := h.writes p
    rw [hpc] at hw
    obtain ⟨hmax, htop, hoff, hle, hlen, hbytes⟩ := hw
    have hholder := h.locked p (by rw [hpc]; rfl)
    have hout := h.holder hpc rfl
    have hdiv : ∀ x, x < MAXFILE * BSIZE → x / BSIZE < MAXFILE := fun x hx =>
      Nat.div_lt_of_lt_mul (by rw [Nat.mul_comm]; exact hx)
    have hbn : off / BSIZE < MAXFILE := hdiv off (by omega)
    obtain ⟨addr, disk, hbmap, hmapped⟩ := h.valid.sound.bmap 0 hbn
    have hvalid := h.valid.mapped hmapped
    rw [hbmap]
    dsimp only
    -- where the round may write
    have hm : min (n1 - tot) (BSIZE - off % BSIZE) ≤ BSIZE - off % BSIZE := Nat.min_le_right _ _
    have hm' : min (n1 - tot) (BSIZE - off % BSIZE) ≤ n1 - tot := Nat.min_le_left _ _
    generalize min (n1 - tot) (BSIZE - off % BSIZE) = m at hm hm' ⊢
    have hpos : ∀ j, some i = some j → (s.pc p).pos = some j := by
      intro j hj
      rw [hpc]
      exact hj
    refine .ite (fun _ _ => ?_) fun hne => ?_
    · -- `bmap` found no block
      exact h.move rfl rfl rfl rfl (hvalid.stretch off)
        (fun x _ hx => (Disk.stretch_byteOf ..).trans (hmapped.byteOf 0 x (hdiv x hx)))
        (fun _ => hholder) (fun q _ hq => h.locked q hq)
        (.inr hout) ⟨hmax, fun hr => by omega⟩ hpos
    have hblit : ∀ k src x, k ≤ m → x < MAXFILE * BSIZE →
        (disk.blit addr (off % BSIZE) k src).byteOf 0 x =
          if off ≤ x ∧ x < off + k then src (x - off) else s.disk.byteOf 0 x := by
      intro k src x hk hx
      rw [← hmapped.block, hmapped.sound.byteOf_blit hbn (by rw [hmapped.block]; exact hne)
        (Nat.le_trans hk hm) (hdiv x hx), hmapped.byteOf 0 x (hdiv x hx)]
      simp only [true_and]
    have hbelow : ∀ k src x, k ≤ m → x < s.off → x < MAXFILE * BSIZE →
        (disk.blit addr (off % BSIZE) k src).byteOf 0 x = s.disk.byteOf 0 x := by
      intro k src x hk hlt hx
      rw [hblit k src x hk hx, if_neg (by omega)]
    cases c with
    | done src =>
      refine fun _ => h.move rfl rfl rfl rfl (hvalid.blit ..)
        (fun x hlt hx => hbelow m src x (Nat.le_refl _) hlt hx) (fun _ => hholder)
        (fun q _ hq => h.locked q hq) (.inr hout)
        ⟨hmax, htop, by omega, by omega, by simp [hlen], fun j hj => ?_⟩ hpos
      have hlen' : (buf ++ (List.range m).map src).length = tot + m := by simp [hlen]
      rw [hlen'] at hj
      show _ = some ((disk.blit addr (off % BSIZE) m src).byteOf 0 (s.off + j))
      rw [hblit m src _ (Nat.le_refl _) (by omega)]
      by_cases hjt : j < tot
      · -- a byte of an earlier round
        rw [if_neg (by omega), List.getElem?_append_left (by omega)]
        exact hbytes j (by omega)
      · rw [if_pos (by omega), List.getElem?_append_right (by omega), hlen, List.getElem?_map,
          List.getElem?_range (by omega)]
        show some (src (j - tot)) = some (src (s.off + j - off))
        rw [hoff]
        congr 2
        omega
    | fault k src =>
      exact fun _ => h.move rfl rfl rfl rfl ((hvalid.blit ..).stretch off) (fun x hlt hx =>
          (Disk.stretch_byteOf ..).trans (hbelow (min k m) src x (Nat.min_le_right _ _) hlt hx)) (fun _ => hholder)
        (fun q _ hq => h.locked q hq) (.inr hout) ⟨hmax, fun hr => by omega⟩ hpos

/-- **Each step**: as long as no chunk has failed the invariant holds. -/
theorem inv_step (h : s.failed = false → Inv a s) (act : Act P) :
    Ends (step s act) (fun s' => s'.failed = false → Inv a s') fun _ => True := by
  cases act with
  | call p n =>
    exact .ite (fun hpc => .ite (fun _ hf => (h hf).call hpc n) fun _ hf => { h hf with }) fun _ => trivial
  | go p => exact inv_run h
  | round p c => exact inv_round h c
  | other b used => exact .ite (fun hb hf => (h hf).other hb.1 hb.2 used) fun _ => trivial

end

/-! ### Every run -/

theorem inv_start {disk : Disk} (hv : Valid disk) {off : Nat} (hoff : off < 2 ^ 32) (w : Bool) :
    Inv off (start w off disk : Sys P) where
  valid := hv
  chain := rfl
  small := hoff
  inside := fun h => absurd rfl h
  sized := fun c hc => by cases hc
  bytes := fun c hc => by cases hc
  locked := fun p hp => by cases hp
  writes := fun p => trivial
  calls := fun c hc => by cases hc
  order := List.Pairwise.nil
  each := fun p k => ⟨0, rfl⟩
  mine := fun p i hi => by cases hi

end Xv6.Append
