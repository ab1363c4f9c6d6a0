import Xv6.Mmap

/-!
# Processes

`struct proc`, the process table and the EEVDF bookkeeping of `kernel/proc.c`: a
process carries a nice value and the weight it stands for, the virtual time it has
used, and the virtual deadline of its current slice.  The functions here act on one
process or on the table of all of them; the ones that also allocate memory are in
`Xv6/Kernel.lean`.
-/

namespace Xv6

open Xv6.Lib

inductive ProcState
  | unused | used | sleeping | runnable | running | zombie
  deriving DecidableEq, Repr

abbrev NICE_DEFAULT : Int := 20
abbrev BASE_SLICE : Int := 5
abbrev MILLI_TICK : Nat := 1000
abbrev NICE_20_WEIGHT : Nat := 1024

/-- `nice_to_weight`. -/
def niceToWeightTable : List Nat :=
  [88761, 71755, 56483, 46273, 36291, 29154, 23254, 18705, 14949, 11916,
   9548, 7620, 6100, 4904, 3906, 3121, 2501, 1991, 1586, 1277,
   1024, 820, 655, 526, 423, 335, 272, 215, 172, 137,
   110, 87, 70, 56, 45, 36, 29, 23, 18, 15]

/-- `nice_to_weight[nice]`. -/
def niceToWeight (nice : Int) : Nat := niceToWeightTable.getD nice.toNat 0

/-- A call of `exec` that is collecting its arguments: the file it will run, where
the user's argument vector lies, and the pages of the arguments fetched so far. -/
structure ExecArgs where
  ip : Option Nat
  name : List UInt8
  uargv : Nat
  argv : List Nat

/-- `struct proc`. -/
structure Proc where
  state : ProcState := .unused
  chan : Nat := 0
  killed : Bool := false
  xstate : Int := 0
  pid : Int := 0
  nice : Int := 0
  weight : Nat := 0
  runtime : Nat := 0
  vruntime : Nat := 0
  vdeadline : Nat := 0
  remainSlice : Int := 0
  eligible : Bool := false
  parent : Option (Fin NPROC) := none
  sz : Nat := 0
  pagetable : Nat := 0
  trapframe : Nat := 0
  ofile : Fin NOFILE → Option (Fin NFILE) := fun _ => none
  name : List UInt8 := []
  exec : Option ExecArgs := none

/-- The array `proc`. -/
abbrev ProcTable : Type := Fin NPROC → Proc

/-! ### Virtual time -/

/-- `eevdf_slice_delta`. -/
def eevdfSliceDelta (weight : Nat) : Nat :=
  BASE_SLICE.toNat * MILLI_TICK * NICE_20_WEIGHT / weight

/-- `eevdf_refresh_deadline`. -/
def eevdfRefreshDeadline (p : Proc) : Proc :=
  { p with vdeadline := (p.vruntime + eevdfSliceDelta p.weight) % 2 ^ 64 }

/-- The virtual time one tick costs. -/
def eevdfTickDelta (weight : Nat) : Nat := MILLI_TICK * NICE_20_WEIGHT / weight

/-- `eevdf_tick`. -/
def eevdfTick (p : Proc) : Proc :=
  { p with
    runtime := (p.runtime + MILLI_TICK) % 2 ^ 64
    vruntime := (p.vruntime + eevdfTickDelta p.weight) % 2 ^ 64
    remainSlice := if 0 < p.remainSlice then p.remainSlice - 1 else p.remainSlice }

/-- The timer branch of `usertrap` and `kerneltrap` on the running process: the
accounting, and at the end of the slice a new one; the flag says whether it yields. -/
def timerTick (p : Proc) : Proc × Bool :=
  let p := eevdfTick p
  if p.remainSlice ≤ 0 then
    (eevdfRefreshDeadline { p with remainSlice := BASE_SLICE }, true)
  else (p, false)

/-! ### The run queue -/

/-- `eevdf_on_rq`. -/
def eevdfOnRq (p : Proc) : Bool := p.state == .runnable || p.state == .running

/-- `struct eevdf_rq_stats`. -/
structure RqStats where
  v0 : Nat := 0
  sumWeight : Nat := 0
  avgNumer : Nat := 0
  nr : Nat := 0
  deriving DecidableEq

/-- The body of the loop of `eevdf_find_min_vruntime`; `found` is `0 < nr`. -/
def findMinSlot (st : RqStats) (p : Proc) : RqStats :=
  if eevdfOnRq p then
    { st with
      v0 := if st.nr = 0 ∨ p.vruntime < st.v0 then p.vruntime else st.v0
      nr := st.nr + 1 }
  else st

/-- The body of the loop of `eevdf_calc_rq_stats`. -/
def calcSlot (st : RqStats) (p : Proc) : RqStats :=
  if eevdfOnRq p then
    { st with
      sumWeight := (st.sumWeight + p.weight) % 2 ^ 64
      avgNumer := (st.avgNumer + (p.vruntime + 2 ^ 64 - st.v0) % 2 ^ 64 * p.weight) % 2 ^ 64 }
  else st

/-- `eevdf_find_min_vruntime`. -/
def eevdfFindMinVruntime (t : ProcTable) : RqStats :=
  (List.finRange NPROC).foldl (fun st i => findMinSlot st (t i)) {}

/-- `eevdf_calc_rq_stats`. -/
def eevdfCalcRqStats (t : ProcTable) (st : RqStats) : RqStats :=
  if st.nr = 0 then { st with sumWeight := 0, avgNumer := 0 }
  else (List.finRange NPROC).foldl (fun st i => calcSlot st (t i))
    { st with sumWeight := 0, avgNumer := 0 }

/-- `eevdf_collect_rq_stats`. -/
def eevdfCollectRqStats (t : ProcTable) : RqStats := eevdfCalcRqStats t (eevdfFindMinVruntime t)

/-- `eevdf_is_eligible`. -/
def eevdfIsEligible (p : Proc) (st : RqStats) : Bool :=
  if st.nr = 0 ∨ st.sumWeight = 0 then false
  else if !eevdfOnRq p then false
  else if p.vruntime < st.v0 then false
  else (p.vruntime - st.v0) * st.sumWeight % 2 ^ 64 ≤ st.avgNumer

/-! ### Selection -/

/-- The body of the selection loop of `scheduler`: the candidate so far and the
table, whose `eligible` flags it sets. -/
def selectSlot (st : RqStats) (bt : Option (Fin NPROC) × ProcTable) (i : Fin NPROC) :
    Option (Fin NPROC) × ProcTable :=
  let p := bt.2 i
  if p.state = .runnable then
    let e := eevdfIsEligible p st
    let t := upd bt.2 i { p with eligible := e }
    if e then
      match bt.1 with
      | none => (some i, t)
      | some b => if p.vdeadline < (bt.2 b).vdeadline then (some i, t) else (some b, t)
    else (bt.1, t)
  else (bt.1, upd bt.2 i { p with eligible := false })

/-- Of the table the slot's flag is set, and a new candidate is runnable and eligible. -/
theorem selectSlot_cases (st : RqStats) (bt : Option (Fin NPROC) × ProcTable) (i : Fin NPROC) :
    (∃ e, (selectSlot st bt i).2 = upd bt.2 i { bt.2 i with eligible := e }) ∧
    ∀ b, (selectSlot st bt i).1 = some b → bt.1 = some b ∨
      b = i ∧ (bt.2 i).state = .runnable ∧ eevdfIsEligible (bt.2 i) st = true := by
  unfold selectSlot
  dsimp only
  split
  · rename_i hr
    split
    · rename_i he
      have hi : ∀ b, some i = some b → bt.1 = some b ∨ b = i ∧ (bt.2 i).state = .runnable ∧ _ :=
        fun b hb => .inr ⟨(Option.some.inj hb).symm, hr, he⟩
      split
      · exact ⟨⟨_, rfl⟩, hi⟩
      · split
        · exact ⟨⟨_, rfl⟩, hi⟩
        · exact ⟨⟨_, rfl⟩, fun b hb => .inl (hb ▸ ‹_›)⟩
    · exact ⟨⟨_, rfl⟩, fun b hb => .inl hb⟩
  · exact ⟨⟨_, rfl⟩, fun b hb => .inl hb⟩

/-- One pass of `scheduler` that nothing interferes with: the process it dispatches
and the table after it. -/
def schedulerPass (t : ProcTable) : Option (Fin NPROC) × ProcTable :=
  let st := eevdfCollectRqStats t
  let bt := (List.finRange NPROC).foldl (selectSlot st) (none, t)
  match bt.1 with
  | none => bt
  | some b => (some b, upd bt.2 b { bt.2 b with state := .running })

/-! ### Sleeping, waking and killing -/

/-- The body of the loop of `wakeup`. -/
def wakeSlot (chan : Nat) (p : Proc) : Proc :=
  if p.state = .sleeping ∧ p.chan = chan then
    { eevdfRefreshDeadline { p with remainSlice := BASE_SLICE } with state := .runnable }
  else p

/-- `wakeup`, called while `me` is the current process, if any. -/
def wakeup (me : Option (Fin NPROC)) (chan : Nat) (t : ProcTable) : ProcTable := fun i =>
  if some i = me then t i else wakeSlot chan (t i)

/-- What `kkill` does to the process it finds. -/
def killSlot (p : Proc) : Proc :=
  if p.state = .sleeping then
    { eevdfRefreshDeadline { p with killed := true, remainSlice := BASE_SLICE, eligible := false }
      with state := .runnable }
  else { p with killed := true }

/-- `kkill`: `0` or `-1`, and the table after it. -/
def kkill (pid : Int) (t : ProcTable) : Int × ProcTable :=
  match (List.finRange NPROC).find? fun i => (t i).pid == pid with
  | none => (-1, t)
  | some i => (0, upd t i (killSlot (t i)))

/-- `kgetnice`. -/
def kgetnice (pid : Int) (t : ProcTable) : Int :=
  match (List.finRange NPROC).find? fun i => (t i).state != .unused && (t i).pid == pid with
  | none => -1
  | some i => (t i).nice

/-- `ksetnice`: `0` or `-1`, and the table after it. -/
def ksetnice (pid value : Int) (t : ProcTable) : Int × ProcTable :=
  if value < 0 ∨ 39 < value then (-1, t)
  else
    match (List.finRange NPROC).find? fun i => (t i).state != .unused && (t i).pid == pid with
    | none => (-1, t)
    | some i =>
      (0, upd t i
        (eevdfRefreshDeadline { t i with nice := value, weight := niceToWeight value }))

end Xv6
