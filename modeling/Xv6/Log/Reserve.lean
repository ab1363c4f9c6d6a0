import Xv6.Log.Step
import Mathlib.Algebra.BigOperators.Group.List.Basic

/-!
# Space in the log

`begin_op` lets an operation in only while there is room in the log for `MAXOPBLOCKS` blocks
of every operation that is running.  A run is followed here together with the blocks that each
operation has recorded so far (`Booked`); an operation is *small* if these are `MAXOPBLOCKS`
at most.

`Booking` is the invariant: the blocks in the log and those that the running operations may
still add fit into it.  `log_write` compares `log.lh.n` with `LOGBLOCKS` before it looks for
the block in the log, and so it stops in a full log also for a block that it would absorb:
`rewrite_in_full_log_stops`.  Apart from that (`Spare`) there is always room:
`log_reservation`.
-/

namespace Xv6.Log

open Xv6.Lib

/-- The file system, and the blocks that each operation has recorded. -/
abbrev Booked : Type := Traced × (Nat → List Nat)

/-- The blocks that each operation has recorded after one more act. -/
def book (x : Booked) : Act → Nat → List Nat
  | .beginOp o => upd x.2 o []
  | .logWrite o i => upd x.2 o ((x.2 o).insert (x.1.fs.buf i).blockno)
  | _ => x.2

def bookedStep (x : Booked) (a : Act) : Except Stop Booked :=
  match step x.1 a with
  | .ok y => .ok (y, book x a)
  | .error e => .error e

/-- The operations are small, and the machine does not crash. -/
def Small (x : Booked) : Act → Prop
  | .logWrite o i => ((x.2 o).insert (x.1.fs.buf i).blockno).length ≤ MAXOPBLOCKS
  | .crash => False
  | _ => True

/-- A block is recorded again only while the log is not full. -/
def Spare (x : Booked) : Act → Prop
  | .logWrite _ i => (x.1.fs.buf i).blockno ∈ x.1.fs.lh → x.1.fs.lh.length < LOGBLOCKS
  | _ => True

instance (x : Booked) (a : Act) : Decidable (Small x a) :=
  match a with
  | .logWrite o i =>
    inferInstanceAs (Decidable (((x.2 o).insert (x.1.fs.buf i).blockno).length ≤ MAXOPBLOCKS))
  | .crash => inferInstanceAs (Decidable False)
  | .beginOp _ | .bread _ _ _ | .setData _ _ _ | .brelse _ _ | .endOp _ | .work _ _ =>
    inferInstanceAs (Decidable True)

instance (x : Booked) (a : Act) : Decidable (Spare x a) :=
  match a with
  | .logWrite _ i =>
    inferInstanceAs (Decidable ((x.1.fs.buf i).blockno ∈ x.1.fs.lh →
      x.1.fs.lh.length < LOGBLOCKS))
  | .crash | .beginOp _ | .bread _ _ _ | .setData _ _ _ | .brelse _ _ | .endOp _ | .work _ _ =>
    inferInstanceAs (Decidable True)

/-- `initlog` has returned: the log is empty and no operation has begun. -/
structure Ready (x : Traced) : Prop where
  pc : x.fs.pc = .idle
  committing : x.fs.committing = false
  lh : x.fs.lh = []
  outstanding : x.fs.outstanding = 0
  ops : x.ops = []

/-! ### What a step does to the log -/

variable {x y : Traced} {w w' : Nat → List Nat} {s : Fs} {o : Nat}

theorem along_bread (v : Fin NBUF) (b : Nat) : Along SameLog (bread o v b) := by
  intro s
  refine wp_conseq (bread_buf v b) ?_
  rintro i t ⟨B, rfl⟩
  exact ⟨rfl, rfl, rfl, rfl, rfl, rfl⟩

theorem along_brelse (i : Fin NBUF) : Along SameLog (brelse o i) := by
  intro s
  unfold brelse
  rw [wp_bind, wp_get]
  split
  · exact wp_set.2 ⟨rfl, rfl, rfl, rfl, rfl, rfl⟩
  · exact wp_throw.2 trivial

theorem along_setData (i : Fin NBUF) (g : Block) : Along SameLog (setData o i g) := by
  intro s
  unfold setData
  rw [wp_bind, wp_get]
  split
  · exact wp_set.2 ⟨rfl, rfl, rfl, rfl, rfl, rfl⟩
  · exact wp_throw.2 trivial

theorem along_bwrite (i : Fin NBUF) : Along SameLog (bwrite o i) := by
  intro s
  unfold bwrite
  rw [wp_bind, wp_get]
  split
  · exact wp_set.2 ⟨rfl, rfl, rfl, rfl, rfl, rfl⟩
  · exact wp_throw.2 trivial

theorem along_bunpin (i : Fin NBUF) : Along SameLog (bunpin i) :=
  Along.modify fun _ => ⟨rfl, rfl, rfl, rfl, rfl, rfl⟩

theorem sameLog_trans (s t u : Fs) : SameLog s t → SameLog t u → SameLog s u := SameLog.trans

theorem along_writeLogBlock (tail : Nat) (v w : Fin NBUF) :
    Along SameLog (writeLogBlock tail v w) := by
  refine Along.bind sameLog_trans (Along.get SameLog.refl) fun s => ?_
  refine Along.bind sameLog_trans (along_bread _ _) fun dst => ?_
  refine Along.bind sameLog_trans (along_bread _ _) fun src => ?_
  refine Along.bind sameLog_trans (Along.get SameLog.refl) fun t => ?_
  refine Along.bind sameLog_trans (along_setData _ _) fun _ => ?_
  refine Along.bind sameLog_trans (along_bwrite _) fun _ => ?_
  exact Along.bind sameLog_trans (along_brelse _) fun _ => along_brelse _

theorem along_installBlock (recovering : Bool) (tail : Nat) (v w : Fin NBUF) :
    Along SameLog (installBlock recovering tail v w) := by
  refine Along.bind sameLog_trans (Along.get SameLog.refl) fun s => ?_
  refine Along.bind sameLog_trans (along_bread _ _) fun lbuf => ?_
  refine Along.bind sameLog_trans (along_bread _ _) fun dbuf => ?_
  refine Along.bind sameLog_trans (Along.get SameLog.refl) fun t => ?_
  refine Along.bind sameLog_trans (along_setData _ _) fun _ => ?_
  refine Along.bind sameLog_trans (along_bwrite _) fun _ => ?_
  refine Along.bind sameLog_trans (Along.when SameLog.refl (along_bunpin _)) fun _ => ?_
  exact Along.bind sameLog_trans (along_brelse _) fun _ => along_brelse _

theorem along_writeHead (v : Fin NBUF) : Along SameLog (writeHead v) := by
  refine Along.bind sameLog_trans (Along.get SameLog.refl) fun s => ?_
  refine Along.bind sameLog_trans (along_bread _ _) fun i => ?_
  refine Along.bind sameLog_trans (Along.get SameLog.refl) fun t => ?_
  refine Along.bind sameLog_trans (along_setData _ _) fun _ => ?_
  exact Along.bind sameLog_trans (along_bwrite _) fun _ => along_brelse _

/-- What a step of `commit` leaves of the log. -/
structure Committed (s t : Fs) : Prop where
  up : t.pc.up = true
  outstanding : t.outstanding = s.outstanding
  lh : t.lh = s.lh ∨ t.lh = []
  committing : t.committing = true ↔ t.pc ≠ .idle

theorem wp_along_goto {code : FsM Unit} (h : Along SameLog code) (hc : s.committing = true)
    {pc : Pc} (hup : pc.up = true) (hpc : pc ≠ .idle) :
    wp (code >>= fun _ => goto pc) s (fun _ t => Committed s t) (fun _ => True) := by
  refine wp_seq (h s) ?_
  intro _ t ht
  refine wp_modify.2 ⟨hup, ht.outstanding, Or.inl ht.lh, ?_⟩
  exact ⟨fun _ => hpc, fun _ => ht.committing.trans hc⟩

theorem wp_work_committed (v w : Fin NBUF) (hup : s.pc.up = true) (hc : s.committing = true) :
    wp (work v w) s (fun _ t => Committed s t) (fun _ => True) := by
  unfold work
  rw [wp_bind, wp_get]
  cases hpc : s.pc with
  | idle => exact wp_throw.2 trivial
  | readHead | recover tail | recoverEnd => rw [hpc] at hup; cases hup
  | writeLog tail =>
    dsimp only
    split
    · exact wp_along_goto (along_writeLogBlock tail v w) hc rfl Pc.noConfusion
    · refine wp_modify.2 ⟨rfl, rfl, Or.inl rfl, ?_⟩
      exact ⟨fun _ => Pc.noConfusion, fun _ => hc⟩
  | writeHead => exact wp_along_goto (along_writeHead v) hc rfl Pc.noConfusion
  | install tail =>
    dsimp only
    split
    · exact wp_along_goto (along_installBlock false tail v w) hc rfl Pc.noConfusion
    · rw [wp_bind]
      refine wp_modify.2 (wp_modify.2 ⟨rfl, rfl, Or.inr rfl, ?_⟩)
      exact ⟨fun _ => Pc.noConfusion, fun _ => hc⟩
  | clear => exact wp_along_goto (along_writeHead v) hc rfl Pc.noConfusion
  | finish =>
    rw [wp_bind]
    refine wp_modify.2 (wp_modify.2 ⟨rfl, rfl, Or.inl rfl, ?_⟩)
    exact ⟨fun h => Bool.noConfusion h, fun h => absurd rfl h⟩

theorem beginOp_room (h : step x (.beginOp o) = .ok y) :
    x.fs.lh.length + (x.fs.outstanding + 1) * MAXOPBLOCKS ≤ LOGBLOCKS := by
  rw [step] at h
  obtain ⟨-, h⟩ := of_guard h
  obtain ⟨u, t, hc, -⟩ := Traced.run_ok h
  have hspec : wp beginOp x.fs (fun _ _ =>
      x.fs.lh.length + (x.fs.outstanding + 1) * MAXOPBLOCKS ≤ LOGBLOCKS) (fun _ => True) := by
    unfold beginOp
    rw [wp_bind, wp_get]
    split
    · exact wp_throw.2 trivial
    · split
      · exact wp_throw.2 trivial
      · rename_i hroom
        exact wp_set.2 (Nat.le_of_not_lt hroom)
  have hroom := wp_ok hspec hc
  exact hroom

variable {i : Fin NBUF} {ops : List Nat}

theorem logWrite_mem (h : step x (.logWrite o i) = .ok y) : (x.fs.buf i).blockno ∈ y.fs.lh := by
  rw [step] at h
  obtain ⟨-, h⟩ := of_guard h
  obtain ⟨u, t, hc, rfl⟩ := Traced.run_ok h
  have hspec : wp (logWrite i) x.fs (fun _ t => (x.fs.buf i).blockno ∈ t.lh)
      (fun _ => True) := by
    unfold logWrite
    rw [wp_bind, wp_get]
    split
    · exact wp_throw.2 trivial
    split
    · exact wp_throw.2 trivial
    split
    · rename_i hmem
      exact wp_pure.2 hmem
    · rw [wp_bind]
      refine wp_modify.2 (wp_modify.2 ?_)
      refine List.mem_append_right _ ?_
      rw [Fs.setBuf_buf, upd_same]
      exact List.mem_singleton_self _
  have hmem := wp_ok hspec hc
  exact hmem

theorem logWrite_tooBig (h : step x (.logWrite o i) = .error .tooBig) :
    o ∈ x.ops ∧ LOGBLOCKS ≤ x.fs.lh.length := by
  rw [step] at h
  split at h
  · cases h
  · rename_i hup
    simp only [not_or, not_not] at hup
    refine ⟨hup.2.1, ?_⟩
    rw [Traced.run] at h
    split at h
    · cases h
    · rename_i e he
      have hspec : wp (logWrite i) x.fs (fun _ _ => True)
          (fun e => e = .tooBig → LOGBLOCKS ≤ x.fs.lh.length) := by
        unfold logWrite
        rw [wp_bind, wp_get]
        split
        · rename_i hfull
          exact wp_throw.2 fun _ => hfull
        split
        · exact wp_throw.2 fun h => Stop.noConfusion h
        split
        · exact wp_pure.2 trivial
        · rw [wp_bind]
          exact wp_modify.2 (wp_modify.2 trivial)
      exact wp_error hspec he (Except.error.inj h)

/-! ### The invariant -/

/-- The blocks that the running operations may still record. -/
def reserved (ops : List Nat) (w : Nat → List Nat) : Nat :=
  (ops.map fun o => MAXOPBLOCKS - (w o).length).sum

theorem reserved_le (ops : List Nat) (w : Nat → List Nat) :
    reserved ops w ≤ ops.length * MAXOPBLOCKS := by
  induction ops with
  | nil => exact Nat.zero_le _
  | cons o ops ih =>
    have h1 : reserved (o :: ops) w = (MAXOPBLOCKS - (w o).length) + reserved ops w := rfl
    rw [h1, List.length_cons, Nat.add_mul, Nat.one_mul]
    omega

theorem reserved_congr (h : ∀ o ∈ ops, w' o = w o) : reserved ops w' = reserved ops w := by
  rw [reserved, reserved]
  refine congrArg List.sum (List.map_congr_left ?_)
  intro o ho
  rw [h o ho]

theorem reserved_erase (ho : o ∈ ops) :
    MAXOPBLOCKS - (w o).length + reserved (ops.erase o) w = reserved ops w :=
  List.sum_map_erase (fun o => MAXOPBLOCKS - (w o).length) ho

theorem reserved_upd (hn : ops.Nodup) (ho : o ∈ ops) (l : List Nat) :
    reserved ops (upd w o l) + (MAXOPBLOCKS - (w o).length) =
      reserved ops w + (MAXOPBLOCKS - l.length) := by
  have hrest : reserved (ops.erase o) (upd w o l) = reserved (ops.erase o) w := by
    refine reserved_congr ?_
    intro p hp
    refine upd_other _ _ ?_
    rintro rfl
    exact (List.Nodup.not_mem_erase hn) hp
  have h1 := reserved_erase (w := upd w o l) ho
  have h2 := reserved_erase (w := w) ho
  rw [upd_same, hrest] at h1
  omega

structure Booking (x : Traced) (w : Nat → List Nat) : Prop where
  up : x.fs.pc.up = true
  nodup : x.ops.Nodup
  outstanding : x.fs.outstanding = x.ops.length
  committing : x.fs.committing = true ↔ x.fs.pc ≠ .idle
  alone : x.fs.committing = true → x.ops = []
  distinct : x.fs.lh.Nodup
  recorded : ∀ o ∈ x.ops, (w o).length ≤ MAXOPBLOCKS ∧ ∀ b ∈ w o, b ∈ x.fs.lh
  space : x.fs.lh.length + reserved x.ops w ≤ LOGBLOCKS

theorem Ready.booking (h : Ready x) : Booking x (fun _ => []) where
  up := by rw [h.pc]; rfl
  nodup := by rw [h.ops]; exact List.nodup_nil
  outstanding := by rw [h.outstanding, h.ops]; rfl
  committing := by simp [h.committing, h.pc]
  alone hc := h.ops
  distinct := by rw [h.lh]; exact List.nodup_nil
  recorded o ho := by rw [h.ops] at ho; exact absurd ho List.not_mem_nil
  space := by rw [h.lh, h.ops]; exact Nat.zero_le _

theorem Booking.congr (h : Booking x w) (hpc : y.fs.pc = x.fs.pc) (hops : y.ops = x.ops)
    (hout : y.fs.outstanding = x.fs.outstanding) (hcom : y.fs.committing = x.fs.committing)
    (hlh : y.fs.lh = x.fs.lh) : Booking y w := by
  obtain ⟨h1, h2, h3, h4, h5, h6, h7, h8⟩ := h
  rw [← hpc] at h1 h4
  rw [← hops] at h2 h3 h5 h7 h8
  rw [← hout] at h3
  rw [← hcom] at h4 h5
  rw [← hlh] at h6 h7 h8
  exact ⟨h1, h2, h3, h4, h5, h6, h7, h8⟩

theorem booking_beginOp (h : Booking x w) (hs : step x (.beginOp o) = .ok y) :
    Booking y (upd w o []) := by
  have hroom := beginOp_room hs
  obtain ⟨hup, hno, hcom, rfl⟩ := beginOp_step hs
  have hother : ∀ p ∈ x.ops, upd w o [] p = w p := by
    intro p hp
    refine upd_other _ _ ?_
    rintro rfl
    exact hno hp
  refine ⟨h.up, List.nodup_cons.2 ⟨hno, h.nodup⟩, ?_, h.committing, ?_, h.distinct, ?_, ?_⟩
  · rw [List.length_cons, ← h.outstanding]
  · intro hc
    rw [show x.fs.committing = true from hc] at hcom
    cases hcom
  · intro p hp
    rcases List.mem_cons.1 hp with rfl | hp
    · rw [upd_same]
      exact ⟨Nat.zero_le _, fun b hb => absurd hb List.not_mem_nil⟩
    · rw [hother p hp]
      exact h.recorded p hp
  · have h1 : reserved (o :: x.ops) (upd w o []) =
        (MAXOPBLOCKS - (upd w o [] o).length) + reserved x.ops (upd w o []) := rfl
    have h2 := reserved_le x.ops w
    show x.fs.lh.length + reserved (o :: x.ops) (upd w o []) ≤ LOGBLOCKS
    rw [h1, upd_same, reserved_congr hother]
    rw [h.outstanding, Nat.add_mul, Nat.one_mul] at hroom
    simp only [List.length_nil]
    omega

theorem booking_logWrite (h : Booking x w)
    (hsmall : ((w o).insert (x.fs.buf i).blockno).length ≤ MAXOPBLOCKS)
    (hs : step x (.logWrite o i) = .ok y) :
    Booking y (upd w o ((w o).insert (x.fs.buf i).blockno)) := by
  have hmem := logWrite_mem hs
  obtain ⟨ho, -, B, l, rfl, hl, -⟩ := logWrite_step hs
  have hmem' : (x.fs.buf i).blockno ∈ l := hmem
  have hsub : ∀ b ∈ x.fs.lh, b ∈ l := by
    intro b hb
    rcases hl with rfl | ⟨rfl, -⟩
    · exact hb
    · exact List.mem_append_left _ hb
  have hres := reserved_upd (w := w) h.nodup ho ((w o).insert (x.fs.buf i).blockno)
  have hwo := (h.recorded o ho).1
  have hspace := h.space
  refine ⟨h.up, h.nodup, h.outstanding, h.committing, h.alone, ?_, ?_, ?_⟩
  · rcases hl with rfl | ⟨rfl, hnot⟩
    · exact h.distinct
    · exact nodup_concat h.distinct hnot
  · intro p hp
    by_cases hpo : p = o
    · subst hpo
      rw [upd_same]
      refine ⟨hsmall, ?_⟩
      intro b hb
      rcases List.mem_insert_iff.1 hb with rfl | hb
      · exact hmem'
      · exact hsub b ((h.recorded p ho).2 b hb)
    · rw [upd_other _ _ hpo]
      exact ⟨(h.recorded p hp).1, fun b hb => hsub b ((h.recorded p hp).2 b hb)⟩
  · -- a block that is new in the log is new for the operation
    show l.length + reserved x.ops _ ≤ LOGBLOCKS
    by_cases hb : (x.fs.buf i).blockno ∈ w o
    · have hin := (h.recorded o ho).2 _ hb
      rw [List.insert_of_mem hb] at hres ⊢
      rcases hl with rfl | ⟨-, hnot⟩
      · omega
      · exact absurd hin hnot
    · rw [List.length_insert_of_not_mem hb] at hsmall hres
      rcases hl with rfl | ⟨rfl, -⟩
      · omega
      · rw [List.length_append, List.length_singleton]
        omega

theorem booking_endOp (h : Booking x w) (hs : step x (.endOp o) = .ok y) : Booking y w := by
  obtain ⟨ho, hcom, ⟨hout, pc, n, hpc, rfl⟩ | ⟨hout, rfl⟩⟩ := endOp_step hs
  · have hlen := List.length_erase_of_mem ho
    have hnil : x.ops.erase o = [] := by
      rw [h.outstanding] at hout
      exact List.eq_nil_of_length_eq_zero (by omega)
    have hpc' : pc.up = true ∧ pc ≠ .idle := by
      rcases hpc with ⟨-, rfl, -⟩ | ⟨-, rfl, -⟩
      · exact ⟨rfl, Pc.noConfusion⟩
      · exact ⟨rfl, Pc.noConfusion⟩
    have hspace := h.space
    refine ⟨hpc'.1, ?_, ?_, ⟨fun _ => hpc'.2, fun _ => rfl⟩, fun _ => hnil, h.distinct, ?_, ?_⟩
    · show (x.ops.erase o).Nodup
      rw [hnil]
      exact List.nodup_nil
    · show 0 = (x.ops.erase o).length
      rw [hnil]
      rfl
    · intro p hp
      exact h.recorded p (List.mem_of_mem_erase hp)
    · show x.fs.lh.length + reserved (x.ops.erase o) w ≤ LOGBLOCKS
      have := reserved_erase (w := w) ho
      omega
  · have hlen := List.length_erase_of_mem ho
    refine ⟨h.up, h.nodup.erase o, ?_, h.committing, ?_, h.distinct, ?_, ?_⟩
    · show x.fs.outstanding - 1 = (x.ops.erase o).length
      rw [hlen, h.outstanding]
    · intro hc
      rw [show x.fs.committing = true from hc] at hcom
      cases hcom
    · intro p hp
      exact h.recorded p (List.mem_of_mem_erase hp)
    · show x.fs.lh.length + reserved (x.ops.erase o) w ≤ LOGBLOCKS
      have := reserved_erase (w := w) ho
      have := h.space
      omega

theorem booking_work {v v' : Fin NBUF} (h : Booking x w) (hs : step x (.work v v') = .ok y) :
    Booking y w := by
  rw [step] at hs
  obtain ⟨u, t, hc, rfl⟩ := Traced.run_ok hs
  by_cases hcom : x.fs.committing = true
  · have ht := wp_ok (wp_work_committed v v' h.up hcom) hc
    have hops := h.alone hcom
    have hspace := h.space
    refine ⟨ht.up, h.nodup, ht.outstanding.trans h.outstanding, ht.committing, fun _ => hops,
      ?_, ?_, ?_⟩
    · rcases ht.lh with hl | hl
      · rw [hl]; exact h.distinct
      · rw [hl]; exact List.nodup_nil
    · intro p hp
      rw [show x.ops = [] from hops] at hp
      exact absurd hp List.not_mem_nil
    · show t.lh.length + reserved x.ops w ≤ LOGBLOCKS
      rcases ht.lh with hl | hl
      · rw [hl]; exact hspace
      · rw [hl, List.length_nil]; omega
  · -- nobody commits
    have hidle : x.fs.pc = .idle := by
      by_contra hne
      exact hcom (h.committing.2 hne)
    have hnot : wp (work v v') x.fs (fun _ _ => False) (fun _ => True) := by
      unfold work
      rw [wp_bind, wp_get, hidle]
      exact wp_throw.2 trivial
    exact (wp_ok hnot hc).elim

/-- **A step keeps the space that was reserved.** -/
theorem booking_step {a : Act} {p q : Booked} (h : Booking p.1 p.2) (hsmall : Small p a)
    (hs : bookedStep p a = .ok q) : Booking q.1 q.2 := by
  obtain ⟨x, w⟩ := p
  rw [bookedStep] at hs
  split at hs
  · rename_i y hy
    cases hs
    cases a with
    | beginOp o => exact booking_beginOp h hy
    | bread o v b =>
      obtain ⟨-, B, rfl, -⟩ := bread_step hy
      exact h.congr rfl rfl rfl rfl rfl
    | setData o i g =>
      obtain ⟨-, B, rfl, -⟩ := setData_step hy
      exact h.congr rfl rfl rfl rfl rfl
    | logWrite o i => exact booking_logWrite h hsmall hy
    | brelse o i =>
      rw [step] at hy
      obtain ⟨-, hy⟩ := of_guard hy
      obtain ⟨u, t, hc, rfl⟩ := Traced.run_ok hy
      have ht := wp_ok (along_brelse i x.fs) hc
      exact h.congr ht.pc rfl ht.outstanding ht.committing ht.lh
    | endOp o => exact booking_endOp h hy
    | work v v' => exact booking_work h hy
    | crash => exact hsmall.elim
  · cases hs

/-- What is said of the log at one moment of a run. -/
structure Reserved (p : Booked) : Prop where
  /-- The log has not grown beyond its blocks. -/
  le : p.1.fs.lh.length ≤ LOGBLOCKS
  distinct : p.1.fs.lh.Nodup
  /-- `commit` runs only when no operation is outstanding. -/
  alone : p.1.fs.pc ≠ .idle → p.1.fs.outstanding = 0 ∧ p.1.ops = []
  /-- `log_write` does not stop with "too big a transaction". -/
  fits : ∀ o i, Small p (.logWrite o i) → Spare p (.logWrite o i) →
    bookedStep p (.logWrite o i) ≠ .error .tooBig

theorem Booking.reserved {p : Booked} (h : Booking p.1 p.2) : Reserved p := by
  have hspace := h.space
  refine ⟨by omega, h.distinct, ?_, ?_⟩
  · intro hpc
    have hops := h.alone (h.committing.2 hpc)
    exact ⟨by rw [h.outstanding, hops]; rfl, hops⟩
  · intro o i hsmall hspare hs
    have hstop : step p.1 (.logWrite o i) = .error .tooBig := by
      rw [bookedStep] at hs
      split at hs
      · cases hs
      · rename_i e he
        rw [he, Except.error.inj hs]
    obtain ⟨ho, hfull⟩ := logWrite_tooBig hstop
    by_cases hmem : (p.1.fs.buf i).blockno ∈ p.1.fs.lh
    · exact absurd (hspare hmem) (Nat.not_lt_of_le hfull)
    · -- the operation has a block left, and so has the log
      have hnew : (p.1.fs.buf i).blockno ∉ p.2 o := fun hb =>
        hmem ((h.recorded o ho).2 _ hb)
      have hlen : ((p.2 o).insert (p.1.fs.buf i).blockno).length ≤ MAXOPBLOCKS := hsmall
      rw [List.length_insert_of_not_mem hnew] at hlen
      have := reserved_erase (w := p.2) ho
      omega

/-- **Every operation has the space that it needs**, in any interleaving of small operations
that record no block again while the log is full. -/
theorem log_reservation {x : Traced} (hx : Ready x) {as : List Act} {p : Booked}
    (h : Run bookedStep (fun q a => Small q a ∧ Spare q a) (x, fun _ => []) as p) :
    Reserved p := by
  have hinv : Booking p.1 p.2 := by
    refine h.invariant (I := fun q => Booking q.1 q.2) hx.booking ?_
    intro q a r hq hok hs
    exact booking_step hq hok.1 hs
  exact hinv.reserved

/-- A machine on which `initlog` has returned. -/
def ready : Traced :=
  { boot 2 (fun _ _ => 0) with fs := { reboot 2 (fun _ _ => 0) with pc := .idle } }

theorem ready_ready : Ready ready := ⟨rfl, rfl, rfl, rfl, rfl⟩

/-- The operation `o` records `n` blocks from `b` on, one buffer for each; it keeps the last. -/
def recordBlocks (o b : Nat) : Nat → List Act
  | 0 => []
  | n + 1 =>
    [.bread o (Fin.ofNat NBUF b) (100 + b), .logWrite o (Fin.ofNat NBUF b)] ++
      (if n = 0 then [] else [.brelse o (Fin.ofNat NBUF b)]) ++ recordBlocks o (b + 1) n

theorem log_reservation_record : ∃ p, Run bookedStep (fun q a => Small q a ∧ Spare q a)
    (ready, fun _ => []) ([.beginOp 0] ++ recordBlocks 0 0 2) p ∧ p.1.fs.lh = [100, 101] ∧
      Reserved p := by
  obtain ⟨p, hrun, hp⟩ := exists_run bookedStep (fun q a => decide (Small q a ∧ Spare q a))
    (fun p => decide (p.1.fs.lh = [100, 101])) (ready, fun _ => [])
    ([.beginOp 0] ++ recordBlocks 0 0 2) (by decide +kernel)
  have hrun' := hrun.mono fun q a ha => of_decide_eq_true ha
  exact ⟨p, hrun', of_decide_eq_true hp, log_reservation ready_ready hrun'⟩

/-- Three operations record ten blocks each, and the last one records its last block once
more. -/
theorem rewrite_in_full_log_stops : ∃ p, Run bookedStep Small (ready, fun _ => [])
    ([.beginOp 0, .beginOp 1, .beginOp 2] ++ recordBlocks 0 0 10 ++ recordBlocks 1 10 10 ++
      recordBlocks 2 20 10) p ∧
    Small p (.logWrite 2 29) ∧ bookedStep p (.logWrite 2 29) = .error .tooBig := by
  obtain ⟨p, hrun, hp, hs⟩ := exists_run_error bookedStep (fun q a => decide (Small q a))
    (fun p => decide (Small p (.logWrite 2 29))) (ready, fun _ => [])
    ([.beginOp 0, .beginOp 1, .beginOp 2] ++ recordBlocks 0 0 10 ++ recordBlocks 1 10 10 ++
      recordBlocks 2 20 10) (.logWrite 2 29) .tooBig (by decide +kernel)
  exact ⟨p, hrun.mono fun q a ha => of_decide_eq_true ha, of_decide_eq_true hp, hs⟩

end Xv6.Log
