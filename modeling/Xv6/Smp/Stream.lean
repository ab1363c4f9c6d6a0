import Xv6.Smp.Dispatch

/-!
# Pipes on several CPUs

* `pipe_fifo`: what the readers are given is the beginning of what the writers have put in, for
  as long as the counters go round.
* `no_stranded_sleeper`: when the lock of the pipe is free, a process sleeps in `piperead` only if
  there is nothing to read and somebody may still write, and in `pipewrite` only if there is no
  room and somebody may still read.  For this no process may be killed while it holds the lock:
  a writer that is killed between two bytes returns without awaking the readers
  (`killed_writer_strands_reader`).
-/

namespace Xv6.Smp

open Xv6.Lib

variable {C : Type} [DecidableEq C] {s : Sys C} {cur : C → Option (Fin NPROC)}
  {home : Fin NPROC → Option C} {ready : Fin NPROC → Bool} {as : List (Act C)}

/-- **A pipe is a bounded queue.**  `m` bytes have left the buffer, and no more than were copied
to a reader. -/
theorem pipe_fifo (h : Placed cur home)
    (hrun : Run step (fun _ _ => True) (start cur home ready) as s) :
    s.pipe.got <+: s.pipe.sent ∧
      (∃ m, m ≤ s.pipe.got.length ∧ m ≤ s.pipe.sent.length ∧
        s.pipe.sent.length - m ≤ PIPESIZE ∧ s.pipe.nread = m % 2 ^ 32 ∧
        s.pipe.nwrite = s.pipe.sent.length % 2 ^ 32 ∧
        (s.pipe.nwrite + 2 ^ 32 - s.pipe.nread) % 2 ^ 32 = s.pipe.sent.length - m) ∧
      (s.owner .pipe = none → s.pipe.nread = s.pipe.got.length % 2 ^ 32) := by
  have hsh := (good_of_any h hrun).shared
  obtain ⟨m, hm, hh⟩ := hsh.sound
  refine ⟨hh.order, ⟨m, hm, hh.le, hh.bound, hh.nread, hh.nwrite, ?_⟩, fun ho => (hsh.pipe ho).1.nread⟩
  have := hh.le
  have := hh.bound
  rw [hh.nread, hh.nwrite]
  simp only [PIPESIZE] at *
  omega

/-- The process on the CPU 0 writes one byte, and the one on the CPU 1 reads it. -/
def passOne : List (Act (Fin 3)) :=
  .call 0 (.pipewrite 1 5) :: carryOut (List.replicate 7 (0, 0) ++ (0, 65) ::
    List.replicate (1 + 253 + 2) (0, 0)) ++
  .call 1 (.piperead 1 2) :: carryOut (List.replicate (7 + 253 + 2) (1, 0))

theorem pipe_fifo_read :
    ∃ s, Run step (fun _ _ => True) (start firstThree onFirst fun _ => true) passOne s ∧
      s.pipe.sent = [65] ∧ s.pipe.got = [65] ∧ s.pipe.got <+: s.pipe.sent ∧
      s.pipe.nread = s.pipe.got.length % 2 ^ 32 := by
  obtain ⟨s, hr, hs⟩ := exists_run step (fun _ _ => true)
    (fun s => decide (s.pipe.sent = [65] ∧ s.pipe.got = [65] ∧ s.owner .pipe = none))
    (start firstThree onFirst fun _ => true) passOne (by decide +kernel)
  obtain ⟨hsent, hgot, hfree⟩ := of_decide_eq_true hs
  have hr' : Run step (fun _ _ => True) _ _ _ := hr.mono fun _ _ _ => trivial
  obtain ⟨horder, -, hnread⟩ := pipe_fifo placed_firstThree hr'
  exact ⟨s, hr', hsent, hgot, horder, hnread hfree⟩

/-- **No reader or writer is left sleeping**, as long as no process is killed while it holds the
lock of the pipe. -/
theorem no_stranded_sleeper (h : Placed cur home)
    (hrun : Run step (fun s a => a.Spares s) (start cur home ready) as s)
    (hfree : s.owner .pipe = none) (i : Fin NPROC) (hs : (s.proc i).state = .sleeping) :
    ((s.proc i).chan = some .nread → s.pipe.empty = true ∧ s.pipe.writeopen = true) ∧
      ((s.proc i).chan = some .nwrite → s.pipe.full = true ∧ s.pipe.readopen = true) := by
  have hgood : Good True s := good_of_run h (hrun.mono fun _ _ ha _ => ha)
  have hsh := hgood.shared
  obtain ⟨chan, l, hn, hch⟩ := hsh.doze i hs
  have hwoke := (hsh.pipe hfree).2 trivial i
  refine ⟨?_, ?_⟩
  · intro hr
    cases hch.symm.trans hr
    have hl := (hsh.napPipe i _ l hn).1 (Or.inl rfl)
    subst hl
    by_contra hne
    exact hwoke _ (Or.inl ⟨rfl, hne⟩) hn
  · intro hw
    cases hch.symm.trans hw
    have hl := (hsh.napPipe i _ l hn).1 (Or.inr rfl)
    subst hl
    by_contra hne
    exact hwoke _ (Or.inr ⟨rfl, hne⟩) hn

/-- The process on the CPU 1 goes to sleep in `piperead`. -/
def readNone : List (Act (Fin 3)) :=
  .call 1 (.piperead 1 2) :: carryOut (List.replicate 15 (1, 0))

/-- The next step is not to kill. -/
def Sys.peaceful (s : Sys (Fin 3)) : Act (Fin 3) → Bool
  | .run c _ => match s.code c with
    | .ask (.write _ .kill) _ => false
    | _ => true
  | _ => true

theorem Sys.spares_of_peaceful {s : Sys (Fin 3)} {a : Act (Fin 3)} (h : s.peaceful a = true) :
    a.Spares s := by
  cases a with
  | run c n =>
    intro i w k hc hw
    subst hw
    rw [Sys.peaceful, hc] at h
    cases h
  | call c op | intr c hd | again c => trivial

theorem no_stranded_sleeper_read :
    ∃ s, Run step (fun s a => a.Spares s) (start firstThree onFirst fun _ => true) readNone s ∧
      s.owner .pipe = none ∧ (s.proc 1).state = .sleeping ∧ (s.proc 1).chan = some .nread ∧
      s.pipe.empty = true ∧ s.pipe.writeopen = true := by
  obtain ⟨s, hr, hs⟩ := exists_run step Sys.peaceful
    (fun s => decide (s.owner .pipe = none ∧ (s.proc 1).state = .sleeping ∧
      (s.proc 1).chan = some .nread)) (start firstThree onFirst fun _ => true) readNone
    (by decide +kernel)
  obtain ⟨h1, h2, h3⟩ := of_decide_eq_true hs
  have hr' : Run step (fun s a => a.Spares s) _ _ _ := hr.mono fun _ _ h => Sys.spares_of_peaceful h
  obtain ⟨h4, h5⟩ := (no_stranded_sleeper placed_firstThree hr' h1 1 h2).1 h3
  exact ⟨s, hr', h1, h2, h3, h4, h5⟩

/-- The process on the CPU 0 has begun to write, and has put in one byte. -/
def writeOne : List (Act (Fin 3)) :=
  .call 0 (.pipewrite 2 5) :: carryOut (List.replicate 7 (0, 0) ++ [(0, 65), (0, 0)])

/-- The reader sleeps; the writer puts in a byte and is killed by the process on the CPU 2 before
it looks at the next one. -/
def killBetweenBytes : List (Act (Fin 3)) :=
  readNone ++ writeOne ++
    .call 2 .kill :: carryOut [(2, 0), (2, 1), (2, 0), (2, 0), (2, 0)] ++
    carryOut (List.replicate 5 (0, 0))

/-- A reader is left sleeping at a pipe with a byte in it, whose lock is free. -/
theorem killed_writer_strands_reader :
    ∃ s, Run step (fun _ _ => True) (start firstThree onFirst fun _ => true) killBetweenBytes s ∧
      s.owner .pipe = none ∧ (s.proc 1).state = .sleeping ∧ (s.proc 1).chan = some .nread ∧
      s.pipe.empty = false := by
  obtain ⟨s, hr, hs⟩ := exists_run step (fun _ _ => true)
    (fun s => decide (s.owner .pipe = none ∧ (s.proc 1).state = .sleeping ∧
      (s.proc 1).chan = some .nread ∧ s.pipe.empty = false))
    (start firstThree onFirst fun _ => true) killBetweenBytes (by decide +kernel)
  exact ⟨s, hr.mono fun _ _ _ => trivial, of_decide_eq_true hs⟩

end Xv6.Smp
