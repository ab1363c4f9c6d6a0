import Xv6.Smp.Model

/-!
# What one context can rely on

A context is the scheduler of a CPU or the kernel thread of a process.  While it holds a lock it
knows what the lock protects, and nothing that another CPU does can change that: `Loc` is this
knowledge.  The service `kernel` says what a context has to establish before each request and
what it learns from the answer, and the theorems here say that each routine keeps to it.

* Before it takes the lock of a process, a context holds only locks of earlier processes.
* When it releases the lock of a process, the process is `RUNNING` if and only if it is the
  current process of a CPU, and its context is stored otherwise: `View.Free`.
* It switches with no other lock than that of the process it switches to or from.
* `clear i (chan, lk)` says that the process `i` has not released `lk` inside `sleep(chan, lk)`
  and gone on sleeping.  While the context holds `lk` this remains true.  `wakeup` makes it true
  for all processes.

What is known of the pipe is in `Xv6.Smp.Pipe`; `quiet` there stands for the condition under
which the sleeping readers and writers of the pipe are awoken.
-/

namespace Xv6.Smp

open Xv6.Lib

/-! ### Pipes -/

namespace Pipe

/-- The buffer holds what has been put in after the first `m` bytes. -/
structure Holds (pi : Pipe) (m : Nat) : Prop where
  nread : pi.nread = m % 2 ^ 32
  nwrite : pi.nwrite = pi.sent.length % 2 ^ 32
  le : m ≤ pi.sent.length
  bound : pi.sent.length - m ≤ PIPESIZE
  data : ∀ j (h : j < pi.sent.length), m ≤ j → pi.data (j % PIPESIZE) = pi.sent.get ⟨j, h⟩
  order : pi.got <+: pi.sent

/-- The pipe between two steps of a routine: a byte that has been copied to a reader may still be
in the buffer. -/
def Sound (pi : Pipe) : Prop := ∃ m, m ≤ pi.got.length ∧ pi.Holds m

/-- The pipe when its lock is free: what has been copied to readers is what has left it. -/
def Settled (pi : Pipe) : Prop := pi.Holds pi.got.length

theorem Settled.sound {pi : Pipe} (h : pi.Settled) : pi.Sound := ⟨_, le_rfl, h⟩

/-- Nobody should be sleeping in this way: on `nread` if there is something to read or nothing to
wait for, on `nwrite` if there is room or nobody to read. -/
def Unawaited (pi : Pipe) (n : Chan × Lock) : Prop :=
  (n = (.nread, .pipe) ∧ ¬(pi.empty = true ∧ pi.writeopen = true)) ∨
    (n = (.nwrite, .pipe) ∧ ¬(pi.full = true ∧ pi.readopen = true))

end Pipe

/-! ### Views -/

/-- What the lock of a process protects: its fields, whether it is the current process of a CPU,
whether its context is stored, and the sleep it is in. -/
structure View where
  proc : Proc
  live : Bool
  saved : Bool
  nap : Option (Chan × Lock)

/-- What holds of a process when its lock is free. -/
structure View.Free (v : View) : Prop where
  live : v.live = true ↔ v.proc.state = .running
  saved : v.saved = !v.live
  nap : ∀ chan l, v.nap = some (chan, l) → v.proc.state = .sleeping ∧ v.proc.chan = some chan

theorem View.Free.nap_none {v : View} (h : v.Free) (hs : v.proc.state ≠ .sleeping) :
    v.nap = none := by
  cases hn : v.nap with
  | none => rfl
  | some n => exact absurd (h.nap n.1 n.2 hn).1 hs

namespace Write

def nap : Write → Option (Chan × Lock) → Option (Chan × Lock)
  | rouse _, _ => none
  | _, n => n

def view (w : Write) (v : View) : View := { v with proc := w.proc v.proc, nap := w.nap v.nap }

/-- The process that the context is creating. -/
def born (i : Fin NPROC) : Write → Option (Fin NPROC) → Option (Fin NPROC)
  | create, _ => some i
  | start, _ => none
  | free, b => if b = some i then none else b
  | _, b => b

/-- What may be written to a process, in view of what it is. -/
def Allowed (me b : Option (Fin NPROC)) (i : Fin NPROC) (v : View) : Write → Prop
  | rouse chan => v.proc.state = .sleeping ∧ ∀ ch, chan = some ch → v.proc.chan = some ch
  | kill => True
  | run => v.proc.state = .runnable ∧ v.live = false
  | yield => me = some i ∧ v.proc.state = .running
  | doze chan => me = some i ∧ v.proc.state = .running ∧ ∃ l, v.nap = some (chan, l)
  | exit => me = some i ∧ v.proc.state = .running ∧ b = none
  | unchan => v.proc.state = .running
  | create => v.proc.state = .unused ∧ v.live = false ∧ b = none
  | start => b = some i
  | free => v.proc.state = .zombie ∨ b = some i

end Write

/-- Not the lock of a process. -/
def Lock.Cond (l : Lock) : Prop := ∀ i, l ≠ .proc i

/-! ### Local knowledge -/

structure Loc where
  held : List Lock
  /-- `c->proc`. -/
  cpu : Option (Fin NPROC)
  known : Fin NPROC → Option View
  /-- The process that is being created. -/
  born : Option (Fin NPROC)
  clear : Fin NPROC → Chan × Lock → Prop
  pipe : Option Pipe
  /-- The process has seen that it is not killed, since it has the lock of the pipe. -/
  calm : Bool

namespace Loc

/-- Knowledge comes with a lock. -/
structure WF (x : Loc) : Prop where
  known : ∀ i, (x.known i).isSome = true ↔ Lock.proc i ∈ x.held
  pipe : x.pipe.isSome = true ↔ Lock.pipe ∈ x.held
  clear : ∀ i n, x.clear i n → n.2 ∈ x.held ∧ n.2.Cond
  calm : x.calm = true → Lock.pipe ∈ x.held

def lock (x : Loc) (i : Fin NPROC) (v : View) : Loc :=
  { x with held := .proc i :: x.held, known := upd x.known i (some v) }

def lockPipe (x : Loc) (quiet : Prop) (pi : Pipe) : Loc :=
  { x with
    held := .pipe :: x.held
    pipe := some pi
    clear := fun i n => x.clear i n ∨ quiet ∧ pi.Unawaited n }

def lockCond (x : Loc) (l : Lock) : Loc := { x with held := l :: x.held }

def unlock (x : Loc) (i : Fin NPROC) : Loc :=
  { x with
    held := x.held.erase (.proc i)
    known := upd x.known i none
    clear := fun j n => x.clear j n ∨
      j = i ∧ n.2 ∈ x.held ∧ n.2.Cond ∧ ∀ v, x.known i = some v → v.nap ≠ some n }

def unlockCond (x : Loc) (l : Lock) : Loc :=
  { x with
    held := x.held.erase l
    clear := fun j n => x.clear j n ∧ n.2 ≠ l
    pipe := if l = .pipe then none else x.pipe
    calm := if l = .pipe then false else x.calm }

/-- The context knows a process, and nothing else. -/
def only (x : Loc) (i : Fin NPROC) (v : View) : Loc :=
  { x with
    held := [.proc i]
    known := upd (fun _ => none) i (some v)
    clear := fun _ _ => False
    pipe := none
    calm := false }

def set (x : Loc) (i : Fin NPROC) (v : View) : Loc :=
  { x with known := upd x.known i (some v) }

def written (x : Loc) (i : Fin NPROC) (w : Write) (v : View) : Loc :=
  { x.set i (w.view v) with born := w.born i x.born }

/-- What is known if nobody should be sleeping on the pipe in the state it is in. -/
def Woke (x : Loc) (quiet : Prop) (pi : Pipe) : Prop :=
  quiet → ∀ n, pi.Unawaited n → ∀ i, x.clear i n

end Loc

/-! ### The service -/

/-- What a context has to establish. -/
def Ok (me : Option (Fin NPROC)) (quiet : Prop) (x : Loc) : Req → Prop
  | .acquire l => l ∉ x.held ∧ ∀ i, l = .proc i → ∀ j, Lock.proc j ∈ x.held → j < i
  | .release l => l ∈ x.held ∧
      (∀ i v, l = .proc i → x.known i = some v →
        v.Free ∧ (x.cpu = some i → me = some i)) ∧
      ∀ pi, l = .pipe → x.pipe = some pi → pi.Settled ∧ x.Woke quiet pi
  | .releaseTo chan l => ∃ i v, me = some i ∧ x.held = [.proc i, l] ∧ l.Cond ∧
      x.known i = some v ∧ v.proc.state = .running ∧
      (chan = .nread ∨ chan = .nwrite ↔ l = .pipe) ∧
      ∀ pi, l = .pipe → x.pipe = some pi →
        pi.Settled ∧ ¬pi.Unawaited (chan, l) ∧ x.Woke quiet pi
  | .read i => Lock.proc i ∈ x.held
  | .write i w => ∃ v, x.known i = some v ∧ w.Allowed me x.born i v
  | .setCpu none => me = none ∧ ∃ i v, x.cpu = some i ∧ x.known i = some v
  | .setCpu (some i) => me = none ∧ x.cpu = none ∧ ∃ v, x.known i = some v ∧ v.live = false
  | .save => ∃ i v, x.cpu = some i ∧ x.held = [.proc i] ∧ x.known i = some v ∧
      (me = none ∨ me = some i ∧ v.proc.state ≠ .running)
  | .load none => ∃ i v, me = some i ∧ x.cpu = some i ∧ x.held = [.proc i] ∧
      x.known i = some v ∧ v.live = true ∧ v.saved = true ∧ v.proc.state ≠ .running ∧
      (∀ chan l, v.nap = some (chan, l) → v.proc.state = .sleeping ∧ v.proc.chan = some chan) ∧
      (v.proc.state = .zombie → x.born = none)
  | .load (some i) => ∃ v, me = none ∧ x.cpu = some i ∧ x.held = [.proc i] ∧
      x.known i = some v ∧ v.live = true ∧ v.saved = true ∧ v.proc.state = .running ∧
      v.nap = none
  | .pipe => Lock.pipe ∈ x.held
  | .setPipe pi => Lock.pipe ∈ x.held ∧ pi.Sound
  | .copyout ch => ∃ pi, x.pipe = some pi ∧ Pipe.Sound { pi with got := pi.got ++ [ch] }
  | .woken chan => ∀ i l, l.Cond → l ∈ x.held → x.clear i (chan, l)
  | _ => True

/-- What a context learns. -/
def Gives (me : Option (Fin NPROC)) (quiet : Prop) (x : Loc) : (q : Req) → q.Ans → Loc → Prop
  | .acquire (.proc i), _, y => ∃ v : View, v.Free ∧ (x.cpu = some i → v.live = true) ∧
      (x.born = some i → v.proc.state = .used) ∧
      (quiet → x.calm = true → me = some i → v.proc.killed = false) ∧ y = x.lock i v
  | .acquire .pipe, _, y => ∃ pi : Pipe, pi.Settled ∧ y = x.lockPipe quiet pi
  | .acquire l, _, y => y = x.lockCond l
  | .release (.proc i), _, y => y = x.unlock i
  | .release l, _, y => y = x.unlockCond l
  | .releaseTo chan l, _, y => ∃ i v, me = some i ∧ x.known i = some v ∧
      y = x.only i { v with nap := some (chan, l) }
  | .holding l, a, y => a = decide (l ∈ x.held) ∧ y = x
  | .noff, a, y => a = x.held.length ∧ y = x
  | .myproc, a, y => a = x.cpu ∧ y = { x with
      clear := fun i n => x.clear i n ∨
        me = some i ∧ Lock.proc i ∉ x.held ∧ n.2 ∈ x.held ∧ n.2.Cond }
  | .read i, a, y => ∃ v, x.known i = some v ∧ a = v.proc ∧ y = { x with
      calm := x.calm || decide (me = some i ∧ Lock.pipe ∈ x.held ∧ v.proc.killed = false) }
  | .write i w, _, y => ∃ v, x.known i = some v ∧
      y = x.written i w v
  | .setCpu none, _, y => ∃ i v, x.cpu = some i ∧ x.known i = some v ∧
      y = { x.set i { v with live := false } with cpu := none }
  | .setCpu (some i), _, y => ∃ v, x.known i = some v ∧
      y = { x.set i { v with live := true } with cpu := some i }
  | .save, _, y => match me with
    | none => y = x
    | some i => ∃ v, x.known i = some v ∧ y = x.set i { v with saved := true }
  | .load none, _, y => ∃ i v v', me = some i ∧ x.known i = some v ∧
      v.proc.state ≠ .zombie ∧ v'.proc.state = .running ∧ v'.live = true ∧ v'.saved = false ∧
      v'.nap = none ∧ y = x.only i v'
  | .load (some i), _, y => ∃ v', v'.proc.state ≠ .running ∧ v'.live = true ∧
      v'.saved = true ∧
      (∀ chan l, v'.nap = some (chan, l) →
        v'.proc.state = .sleeping ∧ v'.proc.chan = some chan) ∧ y = x.only i v'
  | .pipe, a, y => x.pipe = some a ∧ y = x
  | .setPipe pi, _, y => y = { x with pipe := some pi }
  | .copyout ch, a, y => ∃ pi, x.pipe = some pi ∧
      y = if a then { x with pipe := some { pi with got := pi.got ++ [ch] } } else x
  | .choose, _, y => y = x
  | .woken _, _, y => y = x

def kernel (me : Option (Fin NPROC)) (quiet : Prop) : Service Req Req.Ans Loc where
  ok := Ok me quiet
  gives x q a y := Gives me quiet x q a y ∧ y.WF

/-- The panics that the source means to have: `init` may not exit.  Running out of rounds is
none. -/
def Fine (e : Panic) : Prop := e = .rounds ∨ e = .initExiting

abbrev Code.Fits {α : Type} (c : Code α) (me : Option (Fin NPROC)) (quiet : Prop) (x : Loc)
    (K : α → Loc → Prop) : Prop := c.Uses (kernel me quiet) x K Fine

variable {me : Option (Fin NPROC)} {quiet : Prop} {x y : Loc} {i p : Fin NPROC} {v : View}
  {l : Lock} {chan : Chan} {α : Type}

theorem fits_bind {β : Type} {c : Code α} {f : α → Code β} {K : β → Loc → Prop}
    (h : Code.Fits c me quiet x fun a y => Code.Fits (f a) me quiet y K) :
    Code.Fits (c >>= f) me quiet x K := Eff.uses_bind.2 h

theorem fits_pure {a : α} {K : α → Loc → Prop} (h : K a x) :
    Code.Fits (pure a) me quiet x K := h

theorem fits_rounds {K : α → Loc → Prop} : Code.Fits (panic .rounds) me quiet x K := Or.inl rfl

variable {K : Unit → Loc → Prop} {ps : List (Fin NPROC)}

theorem fits_acquire_proc (hi : Lock.proc i ∉ x.held)
    (ho : ∀ j, Lock.proc j ∈ x.held → j < i)
    (hK : ∀ v : View, v.Free → (x.cpu = some i → v.live = true) →
      (x.born = some i → v.proc.state = .used) →
      (quiet → x.calm = true → me = some i → v.proc.killed = false) →
      (x.lock i v).WF → K () (x.lock i v)) :
    Code.Fits (acquire (.proc i)) me quiet x K := by
  refine ⟨⟨hi, ?_⟩, ?_⟩
  · intro j hj k hk
    cases hj
    exact ho k hk
  · rintro _ y ⟨⟨v, hv, hl, hb, hc, rfl⟩, hy⟩
    exact hK v hv hl hb hc hy

theorem fits_acquire_pipe (hp : Lock.pipe ∉ x.held)
    (hK : ∀ pi : Pipe, pi.Settled → (x.lockPipe quiet pi).WF → K () (x.lockPipe quiet pi)) :
    Code.Fits (acquire .pipe) me quiet x K := by
  refine ⟨⟨hp, fun i hi => Lock.noConfusion hi⟩, ?_⟩
  rintro _ y ⟨⟨pi, hpi, rfl⟩, hy⟩
  exact hK pi hpi hy

theorem fits_acquire_cond (hl : l.Cond) (hp : l ≠ .pipe) (hh : l ∉ x.held)
    (hK : (x.lockCond l).WF → K () (x.lockCond l)) : Code.Fits (acquire l) me quiet x K := by
  refine ⟨⟨hh, fun i hi => absurd hi (hl i)⟩, ?_⟩
  rintro _ y ⟨hg, hy⟩
  cases l with
  | proc i => exact absurd rfl (hl i)
  | pipe => exact absurd rfl hp
  | wait | pid | other n => cases hg; exact hK hy

theorem fits_release_proc (hm : x.cpu = some i → me = some i) (hv : x.known i = some v)
    (hi : Lock.proc i ∈ x.held) (hf : v.Free) (hK : (x.unlock i).WF → K () (x.unlock i)) :
    Code.Fits (release (.proc i)) me quiet x K := by
  refine ⟨⟨hi, ?_, fun pi h => Lock.noConfusion h⟩, ?_⟩
  · intro j w hj hw
    cases hj
    rw [hv] at hw
    cases hw
    exact ⟨hf, hm⟩
  · rintro _ y ⟨rfl, hy⟩
    exact hK hy

theorem fits_release_cond (hl : l.Cond) (hh : l ∈ x.held)
    (hpi : ∀ pi, l = .pipe → x.pipe = some pi → pi.Settled ∧ x.Woke quiet pi)
    (hK : (x.unlockCond l).WF → K () (x.unlockCond l)) : Code.Fits (release l) me quiet x K := by
  refine ⟨⟨hh, fun i w hi => absurd hi (hl i), hpi⟩, ?_⟩
  rintro _ y ⟨hg, hy⟩
  cases l with
  | proc i => exact absurd rfl (hl i)
  | pipe | wait | pid | other n => cases hg; exact hK hy

theorem fits_read {K : Proc → Loc → Prop} (hv : x.known i = some v)
    (hi : Lock.proc i ∈ x.held)
    (hK : ∀ b : Bool, (x.calm = true → b = true) →
      (me = some i → Lock.pipe ∈ x.held → v.proc.killed = false → b = true) →
      ({ x with calm := b } : Loc).WF → K v.proc { x with calm := b }) :
    Code.Fits (read i) me quiet x K := by
  refine ⟨hi, ?_⟩
  rintro a y ⟨⟨w, hw, rfl, rfl⟩, hy⟩
  rw [hv] at hw
  cases hw
  refine hK _ ?_ ?_ hy
  · intro hc
    rw [hc, Bool.true_or]
  · intro hm hp hk
    rw [decide_eq_true ⟨hm, hp, hk⟩, Bool.or_true]

theorem fits_write {w : Write} (hv : x.known i = some v) (ha : w.Allowed me x.born i v)
    (hK : (x.written i w v).WF → K () (x.written i w v)) : Code.Fits (write i w) me quiet x K := by
  refine ⟨⟨v, hv, ha⟩, ?_⟩
  rintro _ y ⟨⟨v', hv', rfl⟩, hy⟩
  rw [hv] at hv'
  cases hv'
  exact hK hy

theorem fits_choose {K : Nat → Loc → Prop} (hK : ∀ n, K n x) :
    Code.Fits choose me quiet x K := by
  refine ⟨trivial, ?_⟩
  rintro a y ⟨rfl, -⟩
  exact hK a

theorem fits_ask {K : Bool → Loc → Prop} (hK : ∀ b, K b x) : Code.Fits ask me quiet x K :=
  fits_bind (fits_choose fun _ => fits_pure (hK _))

theorem fits_pipe {pi : Pipe} {K : Pipe → Loc → Prop} (hp : x.pipe = some pi)
    (hh : Lock.pipe ∈ x.held) (hK : K pi x) : Code.Fits pipe me quiet x K := by
  refine ⟨hh, ?_⟩
  rintro a y ⟨⟨ha, rfl⟩, -⟩
  rw [hp] at ha
  cases ha
  exact hK

theorem fits_setPipe {pi : Pipe} (hh : Lock.pipe ∈ x.held) (hpi : pi.Sound)
    (hK : ({ x with pipe := some pi } : Loc).WF → K () { x with pipe := some pi }) :
    Code.Fits (setPipe pi) me quiet x K := by
  refine ⟨⟨hh, hpi⟩, ?_⟩
  rintro _ y ⟨rfl, hy⟩
  exact hK hy

/-! ### What a routine leaves as it was -/

/-- The same locks are held and what they protect is the same. -/
structure Keeps (x y : Loc) : Prop where
  held : y.held = x.held
  cpu : y.cpu = x.cpu
  known : y.known = x.known
  born : y.born = x.born
  pipe : y.pipe = x.pipe
  clear : ∀ i n, x.clear i n → y.clear i n
  calm : x.calm = true → y.calm = true
  wf : y.WF

theorem Keeps.trans {z : Loc} (h : Keeps x y) (h' : Keeps y z) : Keeps x z where
  held := h'.held.trans h.held
  cpu := h'.cpu.trans h.cpu
  known := h'.known.trans h.known
  born := h'.born.trans h.born
  pipe := h'.pipe.trans h.pipe
  clear i n hn := h'.clear i n (h.clear i n hn)
  calm hc := h'.calm (h.calm hc)
  wf := h'.wf

theorem Keeps.rfl (h : x.WF) : Keeps x x :=
  ⟨by rfl, by rfl, by rfl, by rfl, by rfl, fun _ _ h => h, fun h => h, h⟩

theorem Loc.WF.known_none (h : x.WF) (hi : Lock.proc i ∉ x.held) : x.known i = none := by
  cases hk : x.known i with
  | none => rfl
  | some v => exact absurd ((h.known i).1 (by rw [hk]; rfl)) hi

theorem Loc.WF.known_some (h : x.WF) (hi : Lock.proc i ∈ x.held) : ∃ v, x.known i = some v :=
  Option.isSome_iff_exists.1 ((h.known i).2 hi)

/-- The lock of a process is held as well; only this process may have been written to. -/
structure Within (i : Fin NPROC) (x y : Loc) : Prop where
  held : y.held = .proc i :: x.held
  cpu : y.cpu = x.cpu
  known : ∀ j, j ≠ i → y.known j = x.known j
  born : y.born = x.born
  pipe : y.pipe = x.pipe
  clear : ∀ j n, x.clear j n → y.clear j n
  calm : x.calm = true → y.calm = true

namespace Within

theorem lock : Within i x (x.lock i v) where
  held := rfl
  cpu := rfl
  known _ hj := upd_other _ _ hj
  born := rfl
  pipe := rfl
  clear _ _ h := h
  calm h := h

theorem setCalm {b : Bool} (h : Within i x y) (hb : y.calm = true → b = true) :
    Within i x { y with calm := b } :=
  ⟨h.held, h.cpu, h.known, h.born, h.pipe, h.clear, fun hc => hb (h.calm hc)⟩

theorem write {w : Write} (h : Within i x y) (hb : w.born i y.born = y.born) :
    Within i x (y.written i w v) :=
  ⟨h.held, h.cpu, fun j hj => (upd_other _ _ hj).trans (h.known j hj), hb.trans h.born, h.pipe,
    h.clear, h.calm⟩

theorem mem (h : Within i x y) : Lock.proc i ∈ y.held := by
  rw [h.held]
  exact List.mem_cons_self

theorem keeps (h : Within i x y) (hx : x.WF) (hi : Lock.proc i ∉ x.held)
    (hw : (y.unlock i).WF) : Keeps x (y.unlock i) where
  held := by
    show y.held.erase (.proc i) = x.held
    rw [h.held, List.erase_cons_head]
  cpu := h.cpu
  known := by
    funext j
    show upd y.known i none j = x.known j
    by_cases hj : j = i
    · rw [hj, upd_same, hx.known_none hi]
    · rw [upd_other _ _ hj, h.known j hj]
  born := h.born
  pipe := h.pipe
  clear j n hn := Or.inl (h.clear j n hn)
  calm := h.calm
  wf := hw

/-- What is released is known not to sleep in any other way than it was seen to. -/
theorem clear_unlock (h : Within i x y) (hv : y.known i = some v) {n : Chan × Lock}
    (hh : n.2 ∈ x.held) (hc : n.2.Cond) (hn : v.nap ≠ some n) : (y.unlock i).clear i n := by
  refine Or.inr ⟨rfl, ?_, hc, ?_⟩
  · rw [h.held]
    exact List.mem_cons_of_mem _ hh
  · intro w hw
    rw [hv] at hw
    cases hw
    exact hn

end Within

@[simp] theorem Loc.known_lock : (x.lock i v).known i = some v := upd_same ..

@[simp] theorem Loc.known_set : (x.set i v).known i = some v := upd_same ..

@[simp] theorem Loc.known_written {w : Write} : (x.written i w v).known i = some (w.view v) :=
  upd_same ..

@[simp] theorem Loc.known_only : (x.only i v).known i = some v :=
  upd_same (fun _ => none) i (some v)

/-! ### Loops over the process table -/

/-- **The loop rule**: what each round keeps is kept. -/
theorem fits_each {f : Fin NPROC → Code Unit} {I : Loc → Prop}
    (hf : ∀ p y, I y → Code.Fits (f p) me quiet y fun _ z => I z) (hx : I x) :
    Code.Fits (each f ps) me quiet x fun _ y => I y := by
  induction ps generalizing x with
  | nil => exact fits_pure hx
  | cons p ps ih => exact fits_bind ((hf p x hx).mono fun _ y hy => ih hy)

theorem fits_search {f : Fin NPROC → Code (Option α)} {I : Loc → Prop} {K : α → Loc → Prop}

    (hf : ∀ p y, I y → Code.Fits (f p) me quiet y fun r z =>
      match r with
      | none => I z
      | some a => K a z) (hx : I x) :
    Code.Fits (search f ps) me quiet x fun r y =>
      match r with
      | none => I y
      | some a => K a y := by
  induction ps generalizing x with
  | nil => exact fits_pure hx
  | cons p ps ih =>
    refine fits_bind ((hf p x hx).mono ?_)
    intro r y hy
    cases r with
    | none => exact ih hy
    | some a => exact fits_pure hy

/-- No lock of a process is held. -/
def Loc.NoProc (x : Loc) : Prop := ∀ j, Lock.proc j ∉ x.held

theorem Keeps.noProc (h : Keeps x y) (hx : x.NoProc) : y.NoProc := by
  intro j hj
  rw [h.held] at hj
  exact hx j hj

theorem fits_acquire_alone (hn : x.NoProc) (hK : ∀ v : View, v.Free → K () (x.lock i v)) :
    Code.Fits (acquire (.proc i)) me quiet x K :=
  fits_acquire_proc (hn i) (fun j hj => absurd hj (hn j)) fun v hv _ _ _ _ => hK v hv

/-- The lock that was taken in between is released. -/
theorem Within.fits_release (hin : Within i x y) (hx : x.WF) (hc : x.cpu = me)
    (hi : Lock.proc i ∉ x.held) (hv : y.known i = some v) (hf : v.Free)
    (hK : ∀ z, Keeps x z → K () z) : Code.Fits (release (.proc i)) me quiet y K :=
  fits_release_proc (fun h => (hin.cpu.trans hc).symm.trans h) hv hin.mem hf
    fun hw => hK _ (hin.keeps hx hi hw)

theorem fits_look (hx : x.WF) (hc : x.cpu = me) (hi : Lock.proc p ∉ x.held)
    (ho : ∀ j, Lock.proc j ∈ x.held → j < p) :
    Code.Fits (look p) me quiet x fun _ y => Keeps x y := by
  refine fits_bind (fits_acquire_proc hi ho ?_)
  intro v hv _ _ _ _
  refine fits_bind (fits_read Loc.known_lock List.mem_cons_self ?_)
  intro b hb _ _
  exact (Within.lock.setCalm hb).fits_release hx hc hi Loc.known_lock hv fun _ hz => hz

theorem fits_eachLook (hx : x.WF) (hc : x.cpu = me) (hn : x.NoProc) :
    Code.Fits (each look ps) me quiet x fun _ y => Keeps x y := by
  refine fits_each (I := Keeps x) ?_ (Keeps.rfl hx)
  intro p y hy
  have hny := hy.noProc hn
  exact (fits_look hy.wf (hy.cpu.trans hc) (hny p) fun j hj => absurd hj (hny j)).mono
    fun _ z hz => hy.trans hz

theorem fits_eevdfCollectRqStats (hx : x.WF) (hc : x.cpu = me) (hn : x.NoProc) :
    Code.Fits eevdfCollectRqStats me quiet x fun _ y => Keeps x y := by
  refine fits_bind ((fits_eachLook hx hc hn).mono ?_)
  intro _ y hy
  exact (fits_eachLook hy.wf (hy.cpu.trans hc) (hy.noProc hn)).mono fun _ z hz => hy.trans hz

/-! ### `sched`, `sleep` and `wakeup` -/

theorem fits_myproc {K : Option (Fin NPROC) → Loc → Prop}
    (hK : ∀ y, Keeps x y → (∀ i n, me = some i → Lock.proc i ∉ x.held → n.2 ∈ x.held →
      n.2.Cond → y.clear i n) → K x.cpu y) : Code.Fits myproc me quiet x K := by
  refine ⟨trivial, ?_⟩
  rintro a y ⟨⟨rfl, rfl⟩, hy⟩
  refine hK _ ⟨rfl, rfl, rfl, rfl, rfl, fun _ _ h => Or.inl h, fun h => h, hy⟩ ?_
  intro i n hm hi hh hc
  exact Or.inr ⟨hm, hi, hh, hc⟩

theorem fits_self {K : Fin NPROC → Loc → Prop} (hc : x.cpu = some p)
    (hK : ∀ y, Keeps x y → K p y) : Code.Fits self me quiet x K := by
  refine fits_bind (fits_myproc ?_)
  intro y hy _
  rw [hc]
  exact fits_pure (hK y hy)

/-- The thread of a process that has been switched back to. -/
structure Resumed (p : Fin NPROC) (x y : Loc) : Prop where
  held : y.held = [.proc p]
  cpu : y.cpu = x.cpu
  born : y.born = x.born
  view : ∃ v, y.known p = some v ∧ v.proc.state = .running ∧ v.live = true ∧
    v.saved = false ∧ v.nap = none
  wf : y.WF

theorem fits_sched (hm : me = some p) (hc : x.cpu = some p) (hh : x.held = [.proc p])
    (hv : x.known p = some v) (hl : v.live = true) (hr : v.proc.state ≠ .running)
    (hn : ∀ chan l, v.nap = some (chan, l) →
      v.proc.state = .sleeping ∧ v.proc.chan = some chan)
    (hb : v.proc.state = .zombie → x.born = none) :
    Code.Fits (sched p) me quiet x fun _ y => v.proc.state ≠ .zombie ∧ Resumed p x y := by
  have hmem : Lock.proc p ∈ x.held := by
    rw [hh]
    exact List.mem_cons_self
  refine fits_bind ⟨trivial, ?_⟩
  rintro a y ⟨⟨rfl, rfl⟩, -⟩
  rw [decide_eq_true hmem]
  refine fits_bind ⟨trivial, ?_⟩
  rintro a z ⟨⟨rfl, rfl⟩, -⟩
  rw [hh]
  refine fits_bind (fits_read hv hmem ?_)
  intro b _ _ _
  rw [if_neg hr]
  refine fits_bind ⟨⟨p, v, hc, hh, hv, Or.inr ⟨hm, hr⟩⟩, ?_⟩
  subst hm
  rintro _ y ⟨⟨w, hw, rfl⟩, -⟩
  have hwv : w = v := by
    have : some w = some v := hw.symm.trans hv
    exact Option.some.inj this
  subst hwv
  refine ⟨⟨p, { w with saved := true }, rfl, hc, hh, Loc.known_set, hl, rfl, hr, hn, hb⟩, ?_⟩
  rintro _ y ⟨⟨i, u, v', hi, hu, hz, hrun, hlive, hsav, hnap, rfl⟩, hy⟩
  cases hi
  have hu' : some u = some { w with saved := true } := hu.symm.trans Loc.known_set
  cases hu'
  exact ⟨hz, rfl, rfl, rfl, ⟨v', Loc.known_only, hrun, hlive, hsav, hnap⟩, hy⟩

/-- Back to where the thread was, with no lock. -/
structure Back (x y : Loc) : Prop where
  held : y.held = []
  cpu : y.cpu = x.cpu
  born : y.born = x.born
  wf : y.WF

theorem free_of_resumed {v : View} (hr : v.proc.state = .running) (hl : v.live = true)
    (hs : v.saved = false) (hn : v.nap = none) : v.Free where
  live := by rw [hl, hr]; exact ⟨fun _ => rfl, fun _ => rfl⟩
  saved := by rw [hl, hs]; rfl
  nap chan l h := by
    rw [hn] at h
    cases h

theorem fits_acquire_self (hc : x.cpu = some p)
    (hn : x.NoProc)
    (hK : ∀ v : View, v.Free → v.proc.state = .running → v.live = true → v.saved = false →
      v.nap = none → (quiet → x.calm = true → me = some p → v.proc.killed = false) →
      (x.lock p v).WF → K () (x.lock p v)) :
    Code.Fits (acquire (.proc p)) me quiet x K := by
  refine fits_acquire_proc (hn p) (fun j hj => absurd hj (hn j)) ?_
  intro v hv hl _ hcalm hw
  have hlive := hl hc
  have hr := hv.live.1 hlive
  refine hK v hv hr hlive ?_ (hv.nap_none (by rw [hr]; exact ProcState.noConfusion)) hcalm hw
  rw [hv.saved, hlive]
  rfl

theorem fits_release_resumed (hm : me = some p) (hy : Resumed p x y) (hK : ∀ z, Back x z → K () z) :
    Code.Fits (release (.proc p)) me quiet y K := by
  obtain ⟨v, hv, hr, hl, hs, hn⟩ := hy.view
  refine fits_release_proc (fun _ => hm) hv (by rw [hy.held]; exact List.mem_cons_self)
    (free_of_resumed hr hl hs hn) ?_
  intro hw
  refine hK _ ⟨?_, hy.cpu, hy.born, hw⟩
  show y.held.erase (.proc p) = []
  rw [hy.held, List.erase_cons_head]

theorem fits_yield (hm : me = some p) (hc : x.cpu = some p) (hh : x.held = []) :
    Code.Fits yield me quiet x fun _ y => Back x y := by
  refine fits_bind (fits_self hc ?_)
  intro y hy
  have hny : y.NoProc := by
    intro j hj
    rw [hy.held, hh] at hj
    cases hj
  refine fits_bind (fits_acquire_self (hy.cpu.trans hc) hny ?_)
  intro v _ hr hl hs hn _ _
  refine fits_bind (fits_write (w := .yield) Loc.known_lock ⟨hm, hr⟩ ?_)
  intro _
  refine fits_bind (Eff.Uses.mono (fits_sched hm ?_ ?_ Loc.known_written hl
    (fun h => ProcState.noConfusion h) ?_ (fun h => ProcState.noConfusion h)) ?_)
  · exact hy.cpu.trans hc
  · show Lock.proc p :: y.held = _
    rw [hy.held, hh]
  · intro chan l h
    have h' : v.nap = some (chan, l) := h
    rw [hn] at h'
    cases h'
  · rintro _ z ⟨-, hz⟩
    refine fits_release_resumed hm hz ?_
    intro u hu
    exact ⟨hu.held, hu.cpu.trans hy.cpu, hu.born.trans hy.born, hu.wf⟩

/-- The thread has the condition lock again, after it slept. -/
structure Awake (l : Lock) (quiet : Prop) (x y : Loc) : Prop where
  held : y.held = [l]
  cpu : y.cpu = x.cpu
  born : y.born = x.born
  pipe : ∀ pi, l = .pipe → y.pipe = some pi → pi.Settled ∧ y.Woke quiet pi
  wf : y.WF

theorem fits_sleep (hm : me = some p) (hc : x.cpu = some p) (hl : l.Cond) (hh : x.held = [l])
    (hch : chan = .nread ∨ chan = .nwrite ↔ l = .pipe)
    (hpi : ∀ pi, l = .pipe → x.pipe = some pi →
      pi.Settled ∧ ¬pi.Unawaited (chan, l) ∧ x.Woke quiet pi) :
    Code.Fits (sleep chan l) me quiet x fun _ y => Awake l quiet x y := by
  refine fits_bind (fits_self hc ?_)
  intro y hy
  have hny : y.NoProc := by
    intro j hj
    rw [hy.held, hh, List.mem_singleton] at hj
    exact hl j hj.symm
  refine fits_bind (fits_acquire_self (hy.cpu.trans hc) hny ?_)
  intro v _ hr hlive hs hn _ _
  have hheld : (y.lock p v).held = [.proc p, l] := by
    show Lock.proc p :: y.held = _
    rw [hy.held, hh]
  refine fits_bind ⟨⟨p, v, hm, hheld, hl, Loc.known_lock, hr, hch, ?_⟩, ?_⟩
  · intro pi hlp hp
    obtain ⟨h1, h2, h3⟩ := hpi pi hlp (hy.pipe ▸ hp)
    exact ⟨h1, h2, fun hq n hun i => hy.clear i n (h3 hq n hun i)⟩
  rintro _ z ⟨⟨i, w, hi, hw, rfl⟩, -⟩
  cases hm.symm.trans hi
  have hwv : some w = some v := hw.symm.trans Loc.known_lock
  cases hwv
  refine fits_bind (fits_write (w := .doze chan) Loc.known_only ⟨hm, hr, l, rfl⟩ ?_)
  intro _
  refine fits_bind (Eff.Uses.mono (fits_sched hm ?_ ?_ Loc.known_written hlive
    (fun h => ProcState.noConfusion h) ?_ (fun h => ProcState.noConfusion h)) ?_)
  · exact hy.cpu.trans hc
  · rfl
  · intro ch k h
    have h' : some (chan, l) = some (ch, k) := h
    cases h'
    exact ⟨rfl, rfl⟩
  rintro _ u ⟨-, hu⟩
  obtain ⟨v', hv', hr', hl', hs', hn'⟩ := hu.view
  refine fits_bind (fits_write (w := .unchan) hv' hr' ?_)
  intro hw'
  refine fits_bind (fits_release_resumed hm
    ⟨hu.held, hu.cpu, hu.born, ⟨_, Loc.known_written, hr', hl', hs', hn'⟩, hw'⟩ ?_)
  intro t ht
  have hnot : l ∉ t.held := by
    rw [ht.held]
    exact List.not_mem_nil
  by_cases hlp : l = .pipe
  · subst hlp
    refine fits_acquire_pipe hnot ?_
    intro pi hset hwf
    refine ⟨?_, ht.cpu.trans hy.cpu, ht.born.trans hy.born, ?_, hwf⟩
    · show Lock.pipe :: t.held = _
      rw [ht.held]
    · intro pi' _ hp'
      cases hp'
      exact ⟨hset, fun hq n hun i => Or.inr ⟨hq, hun⟩⟩
  · refine fits_acquire_cond hl hlp hnot ?_
    intro hwf
    refine ⟨?_, ht.cpu.trans hy.cpu, ht.born.trans hy.born, fun _ h => absurd h hlp, hwf⟩
    show l :: t.held = _
    rw [ht.held]

/-- After `wakeup(chan)` nobody is sleeping on the channel with a lock that the context holds. -/
theorem fits_wakeup (hx : x.WF) (hc : x.cpu = me) (hn : x.NoProc) :
    Code.Fits (wakeup chan) me quiet x fun _ y =>
      Keeps x y ∧ ∀ i l, l.Cond → l ∈ x.held → y.clear i (chan, l) := by
  -- the processes that the loop has not come to yet are left out
  have hloop : ∀ ps : List (Fin NPROC), ∀ y, Keeps x y →
      (∀ q, q ∉ ps → ∀ l, l.Cond → l ∈ x.held → y.clear q (chan, l)) →
      Code.Fits (each (wakeupAt chan) ps) me quiet y fun _ z =>
        Keeps x z ∧ ∀ i l, l.Cond → l ∈ x.held → z.clear i (chan, l) := by
    intro ps
    induction ps with
    | nil =>
      intro y hy hcl
      exact fits_pure ⟨hy, fun i => hcl i List.not_mem_nil⟩
    | cons p ps ih =>
      intro y hy hcl
      have hnext : ∀ z, Keeps y z → (∀ l, l.Cond → l ∈ x.held → z.clear p (chan, l)) →
          ∀ q, q ∉ ps → ∀ l, l.Cond → l ∈ x.held → z.clear q (chan, l) := by
        intro z hz hp q hq l hl hh
        by_cases hqp : q = p
        · rw [hqp]
          exact hp l hl hh
        · refine hz.clear q _ (hcl q ?_ l hl hh)
          intro hmem
          rcases List.mem_cons.1 hmem with h | h
          · exact hqp h
          · exact hq h
      refine fits_bind (fits_bind (fits_myproc ?_))
      intro z hz hself
      have hxz := hy.trans hz
      by_cases hp : y.cpu = some p
      · rw [if_pos hp]
        refine fits_pure (ih z hxz (hnext z hz ?_))
        intro l hl hh
        refine hself p _ (hc.symm.trans (hy.cpu.symm.trans hp)) (hy.noProc hn p) ?_ hl
        rw [hy.held]
        exact hh
      · rw [if_neg hp]
        have hnz := hxz.noProc hn
        refine fits_bind (fits_acquire_alone hnz ?_)
        intro v hv
        refine fits_bind (fits_read Loc.known_lock List.mem_cons_self ?_)
        intro b hb _ _
        have hin : Within p z { z.lock p v with calm := b } := Within.lock.setCalm hb
        -- either way, the process does not sleep on the channel when its lock is released
        have hend : ∀ (u : Loc) (w : View), Within p z u → u.known p = some w → w.Free →
            (∀ l, w.nap ≠ some (chan, l)) →
            Code.Fits (release (.proc p)) me quiet u fun _ t =>
              Code.Fits (each (wakeupAt chan) ps) me quiet t fun _ z =>
                Keeps x z ∧ ∀ i l, l.Cond → l ∈ x.held → z.clear i (chan, l) := by
          intro u w hu hw hfree hnap
          have hcu : u.cpu = me := hu.cpu.trans (hxz.cpu.trans hc)
          refine fits_release_proc (fun h => hcu.symm.trans h) hw hu.mem hfree ?_
          intro hwf
          have hk := hu.keeps hxz.wf (hnz p) hwf
          refine ih _ (hxz.trans hk) (hnext _ (hz.trans hk) ?_)
          intro l hl hh
          refine hu.clear_unlock hw ?_ hl (hnap l)
          rw [hxz.held]
          exact hh
        by_cases hs : v.proc.state = .sleeping ∧ v.proc.chan = some chan
        · rw [if_pos hs]
          refine fits_bind (fits_write (w := .rouse (some chan)) Loc.known_lock ⟨hs.1, ?_⟩ ?_)
          · intro ch hch
            cases hch
            exact hs.2
          intro _
          refine hend _ _ (hin.write rfl) Loc.known_written ⟨⟨?_, ?_⟩, hv.saved, ?_⟩ ?_
          · intro hl
            have := hv.live.1 hl
            rw [hs.1] at this
            exact ProcState.noConfusion this
          · exact fun h => ProcState.noConfusion h
          · intro ch l h
            cases h
          · intro l h
            cases h
        · rw [if_neg hs]
          refine hend _ v hin Loc.known_lock hv ?_
          intro l hnap
          exact hs (hv.nap chan l hnap)
  refine fits_bind ((hloop procs x (Keeps.rfl hx) ?_).mono ?_)
  · intro q hq
    exact absurd (List.mem_finRange q) hq
  · rintro _ y ⟨hy, hcl⟩
    refine ⟨?_, ?_⟩
    · intro i l hl hh
      rw [hy.held] at hh
      exact hcl i l hl hh
    · rintro _ z ⟨rfl, -⟩
      exact ⟨hy, hcl⟩

end Xv6.Smp
