import Xv6.Smp.Calls

/-!
# Pipes

The counters wrap at `2 ^ 32`, which `PIPESIZE` divides: the slot of a byte is its number in the
stream modulo `PIPESIZE`, and the tests for an empty and for a full buffer are exact.

A routine that leaves the pipe with bytes in it, or with room in it, has awoken the readers or
the writers.  `pipewrite` returns without a `wakeup` when it finds that it was killed; so it has
to know that it was not killed since it put in its first byte.  This is what `calm` is for.
-/

namespace Xv6.Smp

open Xv6.Lib

/-! ### The buffer -/

namespace Pipe

variable {pi : Pipe} {m ch : Nat}

theorem Holds.full_iff (h : pi.Holds m) : pi.full = true ↔ pi.sent.length - m = PIPESIZE := by
  have := h.le
  have := h.bound
  rw [full, beq_iff_eq, h.nread, h.nwrite]
  simp only [PIPESIZE] at *
  omega

theorem Holds.empty_iff (h : pi.Holds m) : pi.empty = true ↔ m = pi.sent.length := by
  have := h.le
  have := h.bound
  rw [empty, beq_iff_eq, h.nread, h.nwrite]
  simp only [PIPESIZE] at *
  omega

theorem Holds.put (h : pi.Holds m) (hf : pi.full = false) : (pi.put ch).Holds m := by
  have hroom : pi.sent.length - m ≠ PIPESIZE := by
    intro he
    rw [h.full_iff.2 he] at hf
    cases hf
  have hb := h.bound
  have hslot : pi.nwrite % PIPESIZE = pi.sent.length % PIPESIZE := by
    rw [h.nwrite]
    simp only [PIPESIZE]
    omega
  have hlen : (pi.put ch).sent.length = pi.sent.length + 1 := by
    show (pi.sent ++ [ch]).length = _
    rw [List.length_append, List.length_singleton]
  refine ⟨h.nread, ?_, ?_, ?_, ?_, ?_⟩
  · rw [hlen]
    show (pi.nwrite + 1) % 2 ^ 32 = _
    rw [h.nwrite]
    omega
  · have := h.le
    omega
  · rw [hlen]
    simp only [PIPESIZE] at *
    omega
  · intro j hj hm
    show upd pi.data (pi.nwrite % PIPESIZE) ch (j % PIPESIZE) = (pi.sent ++ [ch]).get ⟨j, hj⟩
    rw [hslot]
    rw [hlen] at hj
    by_cases hlast : j = pi.sent.length
    · subst hlast
      rw [upd_same, List.get_eq_getElem, List.getElem_append_right le_rfl]
      simp
    · have hlt : j < pi.sent.length := by omega
      have hne : j % PIPESIZE ≠ pi.sent.length % PIPESIZE := by
        simp only [PIPESIZE] at *
        omega
      rw [upd_other _ _ hne, h.data j hlt hm, List.get_eq_getElem, List.get_eq_getElem,
        List.getElem_append_left hlt]
  · exact h.order.trans (List.prefix_append _ _)

theorem Settled.put (h : pi.Settled) (hf : pi.full = false) : (pi.put ch).Settled :=
  Holds.put h hf

/-- The next byte to read is the first one that nobody has been given. -/
theorem Settled.next_order (h : pi.Settled) (he : pi.empty = false) :
    pi.got ++ [pi.next] <+: pi.sent := by
  have hlt : pi.got.length < pi.sent.length := by
    refine lt_of_le_of_ne h.le ?_
    intro heq
    rw [h.empty_iff.2 heq] at he
    cases he
  have hnext : pi.next = pi.sent.get ⟨pi.got.length, hlt⟩ := by
    rw [← h.data _ hlt le_rfl, next, h.nread]
    congr 1
    simp only [PIPESIZE]
    omega
  obtain ⟨rest, hrest⟩ := h.order
  cases rest with
  | nil =>
    rw [List.append_nil] at hrest
    rw [← hrest] at hlt
    exact absurd hlt (Nat.lt_irrefl _)
  | cons a rest =>
    have ha : pi.next = a := by
      rw [hnext, List.get_eq_getElem]
      simp only [← hrest, List.getElem_append_right le_rfl, Nat.sub_self, List.getElem_cons_zero]
    refine ⟨rest, ?_⟩
    rw [ha, List.append_assoc]
    exact hrest

theorem Settled.given (h : pi.Settled) (he : pi.empty = false) :
    Pipe.Holds { pi with got := pi.got ++ [pi.next] } pi.got.length :=
  ⟨h.nread, h.nwrite, h.le, h.bound, h.data, h.next_order he⟩

theorem Settled.take (h : pi.Settled) (he : pi.empty = false) :
    Pipe.Settled { pi with got := pi.got ++ [pi.next], nread := (pi.nread + 1) % 2 ^ 32 } := by
  have ho := h.next_order he
  have hlen : (pi.got ++ [pi.next]).length = pi.got.length + 1 := by
    rw [List.length_append, List.length_singleton]
  have hle := ho.length_le
  rw [hlen] at hle
  have hb := h.bound
  refine ⟨?_, h.nwrite, ?_, ?_, ?_, ho⟩
  · show (pi.nread + 1) % 2 ^ 32 = (pi.got ++ [pi.next]).length % 2 ^ 32
    rw [hlen, h.nread]
    omega
  · show (pi.got ++ [pi.next]).length ≤ _
    rw [hlen]
    exact hle
  · show pi.sent.length - (pi.got ++ [pi.next]).length ≤ _
    rw [hlen]
    omega
  · intro j hj hm
    refine h.data j hj ?_
    have hm' : (pi.got ++ [pi.next]).length ≤ j := hm
    rw [hlen] at hm'
    omega

end Pipe

/-! ### The routines -/

variable {quiet : Prop} {x y z : Loc} {p : Fin NPROC} {pi : Pipe}

theorem pipe_cond : Lock.pipe.Cond := fun _ h => Lock.noConfusion h

/-- A process has the lock of the pipe. -/
structure InPipe (p : Fin NPROC) (x : Loc) (pi : Pipe) : Prop extends Has p .pipe x where
  pipe : x.pipe = some pi
  settled : pi.Settled

/-- Nobody sleeps on the channel. -/
def Loc.Clear (x : Loc) (chan : Chan) : Prop := ∀ i, x.clear i (chan, .pipe)

theorem Loc.woke_iff : x.Woke quiet pi ↔ quiet →
    (¬(pi.empty = true ∧ pi.writeopen = true) → x.Clear .nread) ∧
      (¬(pi.full = true ∧ pi.readopen = true) → x.Clear .nwrite) := by
  refine ⟨?_, ?_⟩
  · intro h hq
    exact ⟨fun hn i => h hq _ (Or.inl ⟨rfl, hn⟩) i, fun hn i => h hq _ (Or.inr ⟨rfl, hn⟩) i⟩
  · rintro h hq n (⟨rfl, hn⟩ | ⟨rfl, hn⟩) i
    · exact (h hq).1 hn i
    · exact (h hq).2 hn i

theorem Keeps.clearAll {chan : Chan} (h : Keeps x y) (hc : x.Clear chan) : y.Clear chan :=
  fun i => h.clear i _ (hc i)

theorem Keeps.woke (h : Keeps x y) (hw : x.Woke quiet pi) : y.Woke quiet pi :=
  fun hq n hn i => h.clear i n (hw hq n hn i)

theorem InPipe.keeps (h : InPipe p x pi) (hk : Keeps x y) : InPipe p y pi :=
  ⟨h.toHas.keeps hk, hk.pipe.trans h.pipe, h.settled⟩

theorem InPipe.set {pi' : Pipe} (h : InPipe p x pi) (hs : pi'.Settled)
    (hw : ({ x with pipe := some pi' } : Loc).WF) : InPipe p { x with pipe := some pi' } pi' :=
  ⟨⟨h.held, h.cpu, h.born, hw⟩, rfl, hs⟩

variable {K : Unit → Loc → Prop}

theorem fits_acquire_inPipe (hx : Idle p x)
    (hK : ∀ y pi, InPipe p y pi → y.Woke quiet pi → K () y) :
    Code.Fits (acquire .pipe) (some p) quiet x K := by
  refine fits_acquire_pipe hx.not_mem ?_
  intro pi hs hw
  refine hK _ pi ⟨⟨congrArg (_ :: ·) hx.held, hx.cpu, hx.born, hw⟩, rfl, hs⟩ ?_
  intro hq n hn i
  exact Or.inr ⟨hq, hn⟩

theorem fits_release_inPipe (hx : InPipe p x pi) (hw : x.Woke quiet pi)
    (hK : ∀ y, Idle p y → K () y) : Code.Fits (release .pipe) (some p) quiet x K := by
  refine fits_release_cond pipe_cond hx.mem ?_ fun hwf => hK _ (hx.unlockCond hwf)
  intro pi' _ hpi
  cases hx.pipe.symm.trans hpi
  exact ⟨hx.settled, hw⟩

theorem fits_wakeup_inPipe {chan : Chan} (hx : InPipe p x pi)
    (hK : ∀ y, InPipe p y pi → Keeps x y → y.Clear chan → K () y) :
    Code.Fits (wakeup chan) (some p) quiet x K := by
  refine Eff.Uses.mono (fits_wakeup hx.wf hx.cpu (hx.noProc pipe_cond)) ?_
  rintro _ y ⟨hy, hc⟩
  exact hK y (hx.keeps hy) hy fun i => hc i .pipe pipe_cond hx.mem

theorem fits_sleep_inPipe {chan : Chan} (hx : InPipe p x pi)
    (hch : chan = .nread ∨ chan = .nwrite) (hu : ¬pi.Unawaited (chan, .pipe))
    (hw : x.Woke quiet pi) (hK : ∀ y pi', InPipe p y pi' → y.Woke quiet pi' → K () y) :
    Code.Fits (sleep chan .pipe) (some p) quiet x K := by
  refine Eff.Uses.mono (fits_sleep rfl hx.cpu pipe_cond hx.held ⟨fun _ => rfl, fun _ => hch⟩ ?_) ?_
  · intro pi' _ hpi
    cases hx.pipe.symm.trans hpi
    exact ⟨hx.settled, hu, hw⟩
  · intro _ y hy
    have hhas := hx.toHas.awake hy
    obtain ⟨pi', hpi'⟩ := Option.isSome_iff_exists.1 (hy.wf.pipe.2 hhas.mem)
    obtain ⟨hs, hwoke⟩ := hy.pipe pi' rfl hpi'
    exact hK y pi' ⟨hhas, hpi', hs⟩ hwoke

theorem fits_pipeclose {writable : Bool} (hx : Idle p x) :
    Code.Fits (pipeclose writable) (some p) quiet x fun _ y => Idle p y := by
  refine fits_bind (fits_acquire_inPipe hx ?_)
  intro y pi hy hw
  refine fits_bind (fits_pipe hy.pipe hy.mem ?_)
  rw [Loc.woke_iff] at hw
  cases writable with
  | true =>
    have hs : Pipe.Settled { pi with writeopen := false } := ⟨hy.settled.nread, hy.settled.nwrite,
      hy.settled.le, hy.settled.bound, hy.settled.data, hy.settled.order⟩
    refine fits_bind (fits_setPipe hy.mem hs.sound ?_)
    intro hwf
    refine fits_bind (fits_wakeup_inPipe (hy.set hs hwf) ?_)
    intro z hz hk hc
    refine fits_release_inPipe hz (Loc.woke_iff.2 ?_) fun u hu => hu
    intro hq
    exact ⟨fun _ => hc, fun hn => hk.clearAll ((hw hq).2 hn)⟩
  | false =>
    have hs : Pipe.Settled { pi with readopen := false } := ⟨hy.settled.nread, hy.settled.nwrite,
      hy.settled.le, hy.settled.bound, hy.settled.data, hy.settled.order⟩
    refine fits_bind (fits_setPipe hy.mem hs.sound ?_)
    intro hwf
    refine fits_bind (fits_wakeup_inPipe (hy.set hs hwf) ?_)
    intro z hz hk hc
    refine fits_release_inPipe hz (Loc.woke_iff.2 ?_) fun u hu => hu
    intro hq
    exact ⟨fun hn => hk.clearAll ((hw hq).1 hn), fun _ => hc⟩

/-- In the loop of `pipewrite`: the readers have been awoken, or the writer has put something in
and will do it; then it knows that it is not killed and that the pipe has a reader. -/
def Writing (quiet : Prop) (x : Loc) (pi : Pipe) : Prop :=
  quiet → (¬(pi.full = true ∧ pi.readopen = true) → x.Clear .nwrite) ∧
    ((¬(pi.empty = true ∧ pi.writeopen = true) → x.Clear .nread) ∨
      x.calm = true ∧ pi.readopen = true)

theorem Loc.Woke.writing (h : x.Woke quiet pi) : Writing quiet x pi := fun hq =>
  ⟨(Loc.woke_iff.1 h hq).2, Or.inl (Loc.woke_iff.1 h hq).1⟩

theorem fits_writeEnd (hx : InPipe p x pi) (hw : Writing quiet x pi) :
    Code.Fits (wakeup .nread >>= fun _ => release .pipe) (some p) quiet x fun _ y => Idle p y := by
  refine fits_bind (fits_wakeup_inPipe hx ?_)
  intro y hy hk hc
  refine fits_release_inPipe hy (Loc.woke_iff.2 ?_) fun u hu => hu
  intro hq
  exact ⟨fun _ => hc, fun hn => hk.clearAll ((hw hq).1 hn)⟩

theorem fits_pipewriteLoop {k n : Nat} (hx : InPipe p x pi) (hw : Writing quiet x pi) :
    Code.Fits (pipewriteLoop p k n) (some p) quiet x fun _ y => Idle p y := by
  induction k generalizing n x pi with
  | zero => exact fits_rounds
  | succ k ih =>
    rw [pipewriteLoop]
    split
    case isTrue => exact fits_writeEnd hx hw
    case isFalse =>
      refine fits_bind (fits_pipe hx.pipe hx.mem ?_)
      cases hro : pi.readopen with
      | false =>
        -- no reader: nothing was put in since the lock was taken
        refine fits_release_inPipe hx (Loc.woke_iff.2 ?_) fun u hu => hu
        intro hq
        refine ⟨?_, (hw hq).1⟩
        rcases (hw hq).2 with h | h
        · exact h
        · rw [hro] at h
          exact absurd h.2 Bool.false_ne_true
      | true =>
        refine fits_bind (Eff.Uses.mono (fits_killed hx.wf hx.cpu (hx.noProc pipe_cond)) ?_)
        rintro dead y ⟨hy, hcalm, hseen⟩
        have hy' := hx.keeps hy
        cases dead with
        | true =>
          -- killed: the process did not know that it was not
          refine fits_release_inPipe hy' (Loc.woke_iff.2 ?_) fun u hu => hu
          intro hq
          refine ⟨?_, fun hn => hy.clearAll ((hw hq).1 hn)⟩
          rcases (hw hq).2 with h | h
          · exact fun hn => hy.clearAll (h hn)
          · exact Bool.noConfusion (hcalm hq h.1 rfl)
        | false =>
          have hw' : Writing quiet y pi := fun hq =>
            ⟨fun hn => hy.clearAll ((hw hq).1 hn), Or.inr ⟨hseen rfl hx.mem rfl, hro⟩⟩
          show Code.Fits (if pi.full = true then _ else _) (some p) quiet y _
          split
          case isTrue hf =>
            refine fits_bind (fits_wakeup_inPipe hy' ?_)
            intro z hz hk hc
            refine fits_bind (fits_sleep_inPipe hz (Or.inr rfl) ?_ (Loc.woke_iff.2 ?_) ?_)
            · rintro (⟨h, -⟩ | ⟨-, h⟩)
              · cases h
              · exact h ⟨hf, hro⟩
            · intro hq
              exact ⟨fun _ => hc, fun hn => hk.clearAll ((hw' hq).1 hn)⟩
            · intro u pi' hu hwoke
              exact ih hu hwoke.writing
          case isFalse hf =>
            have hf' : pi.full = false := Bool.eq_false_iff.2 hf
            refine fits_bind (fits_ask ?_)
            intro fail
            cases fail with
            | true => exact fits_writeEnd hy' hw'
            | false =>
              rw [if_neg Bool.false_ne_true]
              refine fits_bind (fits_choose ?_)
              intro ch
              have hs : (pi.put (ch % 256)).Settled := hy'.settled.put hf'
              refine fits_bind (fits_setPipe hy'.mem hs.sound ?_)
              intro hwf
              refine ih (hy'.set hs hwf) ?_
              intro hq
              exact ⟨fun _ => (hw' hq).1 fun h => hf h.1, Or.inr ⟨hseen rfl hx.mem rfl, hro⟩⟩

theorem fits_pipewrite {n k : Nat} (hx : Idle p x) :
    Code.Fits (pipewrite n k) (some p) quiet x fun _ y => Idle p y := by
  refine fits_bind (fits_self hx.cpu ?_)
  intro y hy
  refine fits_bind (fits_acquire_inPipe (hx.keeps hy) ?_)
  intro z pi hz hw
  exact fits_pipewriteLoop hz hw.writing

theorem fits_pipereadWait {k : Nat} (hx : InPipe p x pi) (hw : x.Woke quiet pi) :
    Code.Fits (pipereadWait p k) (some p) quiet x fun r y =>
      if r then ∃ pi, InPipe p y pi ∧ (quiet → y.Clear .nread) else Idle p y := by
  induction k generalizing x pi with
  | zero => exact fits_rounds
  | succ k ih =>
    refine fits_bind (fits_pipe hx.pipe hx.mem ?_)
    split
    case isFalse hne =>
      refine fits_pure ?_
      rw [if_pos rfl]
      refine ⟨pi, hx, ?_⟩
      intro hq
      refine (Loc.woke_iff.1 hw hq).1 ?_
      rw [← Bool.and_eq_true]
      exact hne
    case isTrue he =>
      have he' := Bool.and_eq_true_iff.1 he
      refine fits_bind (Eff.Uses.mono (fits_killed hx.wf hx.cpu (hx.noProc pipe_cond)) ?_)
      rintro dead y ⟨hy, -⟩
      have hy' := hx.keeps hy
      cases dead with
      | true =>
        refine fits_bind (fits_release_inPipe hy' (hy.woke hw) ?_)
        intro z hz
        refine fits_pure ?_
        rw [if_neg Bool.false_ne_true]
        exact hz
      | false =>
        refine fits_bind (fits_sleep_inPipe hy' (Or.inl rfl) ?_ (hy.woke hw) ?_)
        · rintro (⟨-, h⟩ | ⟨h, -⟩)
          · exact h he'
          · cases h
        · intro z pi' hz hwoke
          exact ih hz hwoke

theorem fits_pipereadCopy {n : Nat} (hx : InPipe p x pi) (hc : quiet → x.Clear .nread) :
    Code.Fits (pipereadCopy n) (some p) quiet x fun _ y =>
      ∃ pi, InPipe p y pi ∧ (quiet → y.Clear .nread) := by
  induction n generalizing x pi with
  | zero => exact fits_pure ⟨pi, hx, hc⟩
  | succ n ih =>
    refine fits_bind (fits_pipe hx.pipe hx.mem ?_)
    split
    case isTrue => exact fits_pure ⟨pi, hx, hc⟩
    case isFalse he =>
      have he' : pi.empty = false := Bool.eq_false_iff.2 he
      have hgiven := hx.settled.given he'
      refine fits_bind ⟨⟨pi, hx.pipe, pi.got.length, ?_, hgiven⟩, ?_⟩
      · show _ ≤ (pi.got ++ [pi.next]).length
        rw [List.length_append]
        exact Nat.le_add_right _ _
      rintro ok y ⟨⟨pi', hpi', rfl⟩, hwf⟩
      cases hx.pipe.symm.trans hpi'
      cases ok with
      | false => exact fits_pure ⟨pi, hx, hc⟩
      | true =>
        show Code.Fits (pipe >>= fun pi => setPipe { pi with nread := (pi.nread + 1) % 2 ^ 32 } >>=
          fun _ => pipereadCopy n) (some p) quiet _ _
        refine fits_bind (fits_pipe rfl hx.mem ?_)
        have hs := hx.settled.take he'
        refine fits_bind (fits_setPipe hx.mem hs.sound ?_)
        intro hwf'
        exact ih ⟨⟨hx.held, hx.cpu, hx.born, hwf'⟩, rfl, hs⟩ hc

theorem fits_piperead {n k : Nat} (hx : Idle p x) :
    Code.Fits (piperead n k) (some p) quiet x fun _ y => Idle p y := by
  refine fits_bind (fits_self hx.cpu ?_)
  intro y hy
  refine fits_bind (fits_acquire_inPipe (hx.keeps hy) ?_)
  intro z pi hz hw
  refine fits_bind ((fits_pipereadWait hz hw).mono ?_)
  intro r u hu
  cases r with
  | false => exact fits_pure hu
  | true =>
    rw [if_pos rfl] at hu ⊢
    obtain ⟨pi, hu, hc⟩ := hu
    refine fits_bind ((fits_pipereadCopy hu hc).mono ?_)
    rintro _ t ⟨pi, ht, hc⟩
    refine fits_bind (fits_wakeup_inPipe ht ?_)
    intro a ha hk hca
    refine fits_release_inPipe ha (Loc.woke_iff.2 ?_) fun b hb => hb
    intro hq
    exact ⟨fun _ => hk.clearAll (hc hq), fun _ => hca⟩

/-! ### Everything a process does in the kernel -/

theorem fits_op (op : Op) (hx : Idle p x) :
    Code.Fits op.code (some p) quiet x fun _ y => Idle p y := by
  have hback : ∀ {c : Code Unit}, (c.Fits (some p) quiet x fun _ y => Keeps x y) →
      c.Fits (some p) quiet x fun _ y => Idle p y := fun h => h.mono fun _ y hy => hx.keeps hy
  cases op with
  | yield => exact (fits_yield rfl hx.cpu hx.held).mono fun _ y hy => hx.back hy
  | kill => exact fits_bind ((fits_kkill hx.wf hx.cpu hx.noProc).mono fun _ y hy => fits_pure (hx.keeps hy))
  | getnice =>
    exact fits_bind ((fits_findPid hx.wf hx.cpu hx.noProc).mono fun _ y hy => fits_pure (hx.keeps hy))
  | setnice =>
    exact fits_bind ((fits_ksetnice hx.wf hx.cpu hx.noProc).mono fun _ y hy => fits_pure (hx.keeps hy))
  | ps => exact hback (fits_kps hx.wf hx.cpu hx.noProc)
  | fork => exact fits_kfork hx
  | exit => exact fits_kexit hx
  | setkilled =>
    refine fits_bind (fits_self hx.cpu ?_)
    intro y hy
    have hy' := hx.keeps hy
    exact (fits_setkilled hy'.wf hy'.cpu hy'.noProc).mono fun _ z hz => hy'.keeps hz
  | wait k => exact fits_kwait hx
  | waitpid k => exact fits_kwaitpid hx
  | acquiresleep n m k => exact fits_acquiresleep hx
  | releasesleep n m => exact (fits_releasesleep hx.cpu hx.held).mono fun _ y hy => hx.back hy
  | piperead n k => exact fits_piperead hx
  | pipewrite n k => exact fits_pipewrite hx
  | pipeclose w => exact fits_pipeclose hx

theorem fits_intr {me : Option (Fin NPROC)} (h : Intr) (hc : x.cpu = me)
    (hh : x.held = []) : Code.Fits h.code me quiet x fun _ y => Back x y := by
  cases h with
  | device n m => exact fits_releasesleep hc hh
  | timer =>
    refine fits_bind (fits_myproc ?_)
    intro y hy _
    have hby : Back x y := ⟨hy.held.trans hh, hy.cpu, hy.born, hy.wf⟩
    cases hcpu : x.cpu with
    | none => exact fits_pure hby
    | some p =>
      refine fits_bind (fits_ask ?_)
      intro used
      cases used with
      | false => exact fits_pure hby
      | true =>
        refine Eff.Uses.mono (fits_yield (hc.symm.trans hcpu) (hy.cpu.trans hcpu) hby.held) ?_
        intro _ z hz
        exact ⟨hz.held, hz.cpu.trans hy.cpu, hz.born.trans hy.born, hz.wf⟩

end Xv6.Smp
