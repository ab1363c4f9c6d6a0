import Xv6.Fs.Block
import Xv6.Log.Coherent

/-!
# Threads in the file system

Threads run the code of `Xv6.Fs.Block`, one request of the buffer cache at a time and in
any order among each other, inside and outside transactions, together with the steps of
`commit` and `recover_from_log` and with crashes.

`recording` is the order in which the code has to use a buffer: a change is recorded with
`log_write` before the buffer is released.  All of `fs.c` keeps to it, except `writei` when
`either_copyin` fails after it has copied something.  So the buffer cache is coherent in
every run in which no write is cut short inside a block.
-/

namespace Xv6.Fs

open Xv6.Lib
open Xv6.Log (Block NBUF Traced Stop Tracked)

/-! ### Changes are recorded -/

/-- The blocks with changes that are not recorded yet; a buffer with one is not released. -/
def recording : Protocol BufReq (List Nat) where
  ok := fun bs q => match q with
    | .brelse b => b ∉ bs
    | _ => True
  next := fun bs q => match q with
    | .setData b _ => b :: bs
    | .logWrite b => bs.filter (· ≠ b)
    | _ => bs

section Requests

variable {bs : List Nat} {b : Nat} {α : Type}

variable {K : Unit → List Nat → Prop}

@[simp] theorem follows_bread : (bread b).Follows recording bs K ↔ K () bs :=
  ⟨fun h => h.2 (), fun h => ⟨trivial, fun _ => h⟩⟩

@[simp] theorem follows_data {K : Block → List Nat → Prop} :
    (data b).Follows recording bs K ↔ ∀ g, K g bs :=
  ⟨fun h => h.2, fun h => ⟨trivial, h⟩⟩

@[simp] theorem follows_setData {g : Block} :
    (setData b g).Follows recording bs K ↔ K () (b :: bs) :=
  ⟨fun h => h.2 (), fun h => ⟨trivial, fun _ => h⟩⟩

@[simp] theorem follows_logWrite : (logWrite b).Follows recording bs K ↔ K () (bs.filter (· ≠ b)) :=
  ⟨fun h => h.2 (), fun h => ⟨trivial, fun _ => h⟩⟩

@[simp] theorem follows_brelse : (brelse b).Follows recording bs K ↔ b ∉ bs ∧ K () bs :=
  ⟨fun h => ⟨h.1, h.2 ()⟩, fun h => ⟨h.1, fun _ => h.2⟩⟩

end Requests

/-- Code that has recorded all its changes when it returns, and before it releases them. -/
def Tidy {α : Type} (c : Code α) : Prop := c.Follows recording [] fun _ bs => bs = []

namespace Tidy

variable {α β : Type}

theorem ret (a : α) : Tidy (pure a : Code α) := rfl

theorem follows {c : Code α} (h : Tidy c) {K : α → List Nat → Prop} (hK : ∀ a, K a []) :
    c.Follows recording [] K :=
  Eff.Follows.mono h fun a _ hbs => hbs ▸ hK a

theorem bind {c : Code α} {f : α → Code β} (h : Tidy c) (hf : ∀ a, Tidy (f a)) :
    Tidy (c >>= f) :=
  Eff.follows_bind.2 (h.follows hf)

end Tidy

theorem tidy_rewrite {α : Type} (b : Nat) (g : Block) {c : Code α} (hc : Tidy c) :
    Tidy (do setData b g; logWrite b; brelse b; c) := by
  unfold Tidy at *
  simpa [Eff.follows_bind] using hc

theorem tidy_bzero (bno : Nat) : Tidy (bzero bno) := by
  unfold bzero Tidy
  simp [Eff.follows_bind]

theorem tidy_ballocIn (sb : Superblock) (b : Nat) : Tidy (ballocIn sb b) := by
  unfold ballocIn Tidy
  rw [Eff.follows_bind, follows_bread, Eff.follows_bind, follows_data]
  intro g
  split
  · exact tidy_rewrite _ _ ((tidy_bzero _).bind fun _ => .ret _)
  · rw [Eff.follows_bind, follows_brelse]
    exact ⟨List.not_mem_nil, rfl⟩

theorem tidy_balloc (sb : Superblock) : Tidy (balloc sb) := by
  have hloop : ∀ bs, Tidy (ballocLoop sb bs) := by
    intro bs
    induction bs with
    | nil => exact .ret _
    | cons b bs ih =>
      refine (tidy_ballocIn sb b).bind fun r => ?_
      cases r with
      | none => exact ih
      | some a => exact .ret _
  exact hloop _

theorem tidy_bfree (sb : Superblock) (b : Nat) : Tidy (bfree sb b) := by
  unfold bfree Tidy
  rw [Eff.follows_bind, follows_bread, Eff.follows_bind, follows_data]
  intro g
  split
  · exact trivial
  · simp [Eff.follows_bind]

theorem tidy_readInode (sb : Superblock) (inum : Nat) : Tidy (readInode sb inum) := by
  unfold readInode Tidy
  rw [Eff.follows_bind, follows_bread, Eff.follows_bind, follows_data]
  intro g
  rw [Eff.follows_bind, follows_brelse]
  refine ⟨List.not_mem_nil, ?_⟩
  split
  · exact trivial
  · exact rfl

theorem tidy_iupdate (sb : Superblock) (ip : Inode) : Tidy (iupdate sb ip) := by
  unfold iupdate Tidy
  simp [Eff.follows_bind]

theorem tidy_ialloc (sb : Superblock) (type : Nat) : Tidy (ialloc sb type) := by
  have hloop : ∀ is, Tidy (iallocLoop sb type is) := by
    intro is
    induction is with
    | nil => exact .ret _
    | cons inum is ih =>
      unfold iallocLoop Tidy
      rw [Eff.follows_bind, follows_bread, Eff.follows_bind, follows_data]
      intro g
      split
      · exact tidy_rewrite _ _ (.ret _)
      · rw [Eff.follows_bind, follows_brelse]
        exact ⟨List.not_mem_nil, ih⟩
  exact hloop _

theorem tidy_bmapSlot (sb : Superblock) (ip : Inode) (j : Nat) : Tidy (bmapSlot sb ip j) := by
  unfold bmapSlot
  split
  · refine (tidy_balloc sb).bind fun addr => ?_
    split
    · exact .ret _
    · exact .ret _
  · exact .ret _

/-- The indirect block stays locked while `balloc` runs; it has no change to record then. -/
theorem tidy_bmapIndirect (sb : Superblock) (ind bn : Nat) : Tidy (bmapIndirect sb ind bn) := by
  unfold bmapIndirect Tidy
  rw [Eff.follows_bind, follows_bread, Eff.follows_bind, follows_data]
  intro a
  split
  · rw [Eff.follows_bind]
    refine (tidy_balloc sb).follows fun addr => ?_
    split
    · simp [Eff.follows_bind, Eff.follows_pure]
    · simp [Eff.follows_bind, Eff.follows_pure]
  · simp [Eff.follows_bind, Eff.follows_pure]

theorem tidy_bmap (sb : Superblock) (ip : Inode) (bn : Nat) : Tidy (bmap sb ip bn) := by
  unfold bmap
  split
  · exact tidy_bmapSlot sb ip bn
  · split
    · refine (tidy_bmapSlot sb ip NDIRECT).bind fun r => ?_
      dsimp only
      split
      · exact .ret _
      · exact (tidy_bmapIndirect sb _ _).bind fun _ => .ret _
    · exact trivial

theorem tidy_itruncDirect (sb : Superblock) (js : List Nat) (ip : Inode) :
    Tidy (itruncDirect sb js ip) := by
  induction js generalizing ip with
  | nil => exact .ret _
  | cons j js ih =>
    unfold itruncDirect
    split
    · exact ih ip
    · exact (tidy_bfree sb _).bind fun _ => ih _

theorem tidy_itruncIndirect (sb : Superblock) (a : Block) (js : List Nat) :
    Tidy (itruncIndirect sb a js) := by
  induction js with
  | nil => exact .ret _
  | cons j js ih =>
    unfold itruncIndirect
    split
    · exact (Tidy.ret ()).bind fun _ => ih
    · exact (tidy_bfree sb _).bind fun _ => ih

theorem tidy_itruncSecond (sb : Superblock) (ip : Inode) : Tidy (itruncSecond sb ip) := by
  unfold itruncSecond
  split
  · exact .ret _
  · unfold Tidy
    rw [Eff.follows_bind, follows_bread, Eff.follows_bind, follows_data]
    intro a
    rw [Eff.follows_bind]
    refine (tidy_itruncIndirect sb a _).follows fun _ => ?_
    rw [Eff.follows_bind, follows_brelse]
    exact ⟨List.not_mem_nil, (tidy_bfree sb _).bind fun _ => .ret _⟩

theorem tidy_itrunc (sb : Superblock) (ip : Inode) : Tidy (itrunc sb ip) :=
  (tidy_itruncDirect sb _ ip).bind fun _ => (tidy_itruncSecond sb _).bind fun _ =>
    (tidy_iupdate sb _).bind fun _ => .ret _

theorem tidy_readi (sb : Superblock) (ip : Inode) (dst : Sink) (off n : Nat) :
    Tidy (readi sb ip dst off n) := by
  have hloop : ∀ m fuel ip off tot out, Tidy (readiLoop sb dst m fuel ip off tot out) := by
    intro m fuel
    induction fuel with
    | zero => intros; exact .ret _
    | succ fuel ih =>
      intro ip off tot out
      unfold readiLoop
      split
      · refine (tidy_bmap sb ip _).bind fun r => ?_
        dsimp only
        split
        · exact .ret _
        · unfold Tidy
          rw [Eff.follows_bind, follows_bread, Eff.follows_bind, follows_data]
          intro g
          split
          · rw [Eff.follows_bind, follows_brelse]
            exact ⟨List.not_mem_nil, ih _ _ _ _⟩
          · rw [Eff.follows_bind, follows_brelse]
            exact ⟨List.not_mem_nil, rfl⟩
      · exact .ret _
  unfold readi
  split
  · exact .ret _
  · exact hloop _ _ _ _ _ _

/-! ### Writes that are not cut short -/

/-- In the rounds of `writei` no copy fails after it has copied a byte. -/
def wholeFrom (src : Source) (n : Nat) : Nat → Nat → Nat → Bool
  | 0, _, _ => true
  | fuel + 1, off, tot =>
    if tot < n then
      let r := src.copy tot (min (n - tot) (BSIZE - off % BSIZE))
      if r.2 then
        wholeFrom src n fuel (off + min (n - tot) (BSIZE - off % BSIZE))
          (tot + min (n - tot) (BSIZE - off % BSIZE))
      else r.1 = []
    else true

/-- The source of a write does not end inside a block. -/
def Whole (src : Source) (off n : Nat) : Prop := wholeFrom src n n off 0 = true

theorem tidy_writei (sb : Superblock) (ip : Inode) (src : Source) (off n : Nat)
    (hw : Whole src off n) : Tidy (writei sb ip src off n) := by
  have hloop : ∀ fuel ip off tot, wholeFrom src n fuel off tot = true →
      Tidy (writeiLoop sb src n fuel ip off tot) := by
    intro fuel
    induction fuel with
    | zero => intros; exact .ret _
    | succ fuel ih =>
      intro ip off tot hw
      unfold writeiLoop
      unfold wholeFrom at hw
      split
      · rename_i ht
        rw [if_pos ht] at hw
        dsimp only at hw
        refine (tidy_bmap sb ip _).bind fun r => ?_
        dsimp only
        split
        · exact .ret _
        · unfold Tidy
          rw [Eff.follows_bind, follows_bread, Eff.follows_bind, follows_data]
          intro g
          rw [Eff.follows_bind]
          unfold arrive
          cases hok : (src.copy tot (min (n - tot) (BSIZE - off % BSIZE))).2 with
          | true =>
            rw [hok, if_pos rfl] at hw
            have hrest := ih r.1 _ _ hw
            unfold Tidy at hrest
            split
            · simpa [Eff.follows_bind, Eff.follows_pure] using hrest
            · simpa [Eff.follows_bind] using hrest
          | false =>
            -- nothing was copied, so there is nothing to record
            rw [hok, if_neg Bool.false_ne_true, decide_eq_true_eq] at hw
            rw [if_pos hw]
            simp [Eff.follows_bind, Eff.follows_pure]
      · exact .ret _
  unfold writei
  split
  · exact .ret _
  · split
    · exact .ret _
    · exact (hloop n ip off 0 hw).bind fun r => (tidy_iupdate sb _).bind fun _ => .ret _

/-! ### The machine -/

/-- The calls through which the system calls use buffers. -/
inductive Call
  | ilock (inum : Nat)
  | iupdate (ip : Inode)
  | ialloc (type : Nat)
  | itrunc (ip : Inode)
  | readi (ip : Inode) (dst : Sink) (off n : Nat)
  | writei (ip : Inode) (src : Source) (off n : Nat)

def Call.code (sb : Superblock) : Call → Code Unit
  | .ilock inum => do
    let _ ← readInode sb inum
    pure ()
  | .iupdate ip => Fs.iupdate sb ip
  | .ialloc type => do
    let _ ← Fs.ialloc sb type
    pure ()
  | .itrunc ip => do
    let _ ← Fs.itrunc sb ip
    pure ()
  | .readi ip dst off n => do
    let _ ← Fs.readi sb ip dst off n
    pure ()
  | .writei ip src off n => do
    let _ ← Fs.writei sb ip src off n
    pure ()

/-- The buffer cache and the log, and the code that each thread is in. -/
structure Sys where
  log : Traced
  prog : Nat → Option (Code Unit)

inductive Halt
  | log (e : Stop)
  | panic (msg : String)
  deriving DecidableEq

inductive Act
  | beginOp (o : Nat)
  | endOp (o : Nat)
  | call (o : Nat) (c : Call)
  /-- The thread makes its next request; `v` is the buffer to recycle. -/
  | go (o : Nat) (v : Fin NBUF)
  | work (v w : Fin NBUF)
  | crash

/-- The buffer in which the thread `o` has the block `b`. -/
def held (s : Log.Fs) (o b : Nat) : Option (Fin NBUF) :=
  (List.finRange NBUF).find? fun i => (s.buf i).lock = some o ∧ (s.buf i).caches b = true

/-- A step of the log machine with a buffer that the thread has. -/
def withHeld (x : Traced) (o b : Nat) (a : Fin NBUF → Log.Act) : Except Stop Traced :=
  match held x.fs o b with
  | some i => Log.step x (a i)
  | none => .error .blocked

/-- A request of the thread `o`. -/
def request (x : Traced) (o : Nat) (v : Fin NBUF) : (q : BufReq) → Except Stop (q.Ans × Traced)
  | .bread b => (Log.step x (.bread o v b)).map fun y => ((), y)
  | .data b => match held x.fs o b with
    | some i => .ok ((x.fs.buf i).data, x)
    | none => .error .blocked
  | .setData b g => (withHeld x o b fun i => .setData o i g).map fun y => ((), y)
  | .logWrite b => (withHeld x o b fun i => .logWrite o i).map fun y => ((), y)
  | .brelse b => (withHeld x o b fun i => .brelse o i).map fun y => ((), y)

/-- A step of the log machine that leaves the threads alone. -/
def Sys.lift (s : Sys) (r : Except Stop Traced) : Except Halt Sys :=
  match r with
  | .ok x => .ok { s with log := x }
  | .error e => .error (.log e)

/-- One step. -/
def step (sb : Superblock) (s : Sys) : Act → Except Halt Sys
  | .beginOp o =>
    if (s.prog o).isSome then .error (.log .blocked) else s.lift (Log.step s.log (.beginOp o))
  | .endOp o =>
    if (s.prog o).isSome then .error (.log .blocked) else s.lift (Log.step s.log (.endOp o))
  | .call o c =>
    if (s.prog o).isSome then .error (.log .blocked)
    else .ok { s with prog := upd s.prog o (some (c.code sb)) }
  | .go o v => match s.prog o with
    | none => .error (.log .blocked)
    | some (.ret _) => .ok { s with prog := upd s.prog o none }
    | some (.stop msg) => .error (.panic msg)
    | some (.ask q k) => match request s.log o v q with
      | .ok (a, x) => .ok { log := x, prog := upd s.prog o (some (k a)) }
      | .error e => .error (.log e)
  | .work v w => s.lift (Log.step s.log (.work v w))
  | .crash => match Log.step s.log .crash with
    | .ok x => .ok { log := x, prog := fun _ => none }
    | .error e => .error (.log e)

/-- The machine is switched on with the disk `d`. -/
def boot (sb : Superblock) (d : Nat → Block) : Sys where
  log := Log.boot sb.logstart d
  prog := fun _ => none

/-- No write is cut short inside a block. -/
def Act.Whole : Act → Prop
  | .call _ (.writei _ src off n) => Fs.Whole src off n
  | _ => True

/-! ### Coherence -/

/-- The code that a thread is in will record the changes that it has made. -/
def Records (c : Option (Code Unit)) (bs : List Nat) : Prop :=
  match c with
  | none => bs = []
  | some c => c.Follows recording bs fun _ bs => bs = []

/-- **The invariant.** -/
structure SysInv (s : Sys) : Prop where
  tracked : Tracked s.log
  records : ∀ o, Records (s.prog o) (s.log.dirty o)

section Steps

variable {x y : Traced} {o : Nat}

theorem held_some {s : Log.Fs} {b : Nat} {i : Fin NBUF} (h : held s o b = some i) :
    (s.buf i).blockno = b := by
  have := List.find?_some h
  simp only [decide_eq_true_eq] at this
  exact (Log.Buf.caches_iff.1 this.2).2

theorem withHeld_ok {b : Nat} {a : Fin NBUF → Log.Act} (h : withHeld x o b a = .ok y) :
    ∃ i, (x.fs.buf i).blockno = b ∧ Log.step x (a i) = .ok y := by
  unfold withHeld at h
  split at h
  · exact ⟨_, held_some ‹_›, h⟩
  · cases h

theorem map_ok {α : Type} {r : Except Stop Traced} {a : α} {p : α × Traced}
    (h : r.map (fun y => (a, y)) = .ok p) : r = .ok p.2 := by
  cases r with
  | error e => cases h
  | ok z => cases h; rfl

/-- **A request that keeps to the order**: the log machine records what the code does. -/
theorem tracked_request {v : Fin NBUF} {q : BufReq} {a : q.Ans} (h : Tracked x)
    (hok : recording.ok (x.dirty o) q) (hs : request x o v q = .ok (a, y)) :
    Tracked y ∧ y.dirty o = recording.next (x.dirty o) q ∧ ∀ o', o' ≠ o → y.dirty o' = x.dirty o' := by
  cases q with
  | bread b =>
    have hs := map_ok hs
    refine ⟨Log.tracked_step (a := .bread o v b) h trivial hs, ?_⟩
    obtain ⟨-, B, rfl, -⟩ := Log.bread_step hs
    exact ⟨rfl, fun _ _ => rfl⟩
  | data b =>
    unfold request at hs
    dsimp only at hs
    split at hs
    · cases hs
      exact ⟨h, rfl, fun _ _ => rfl⟩
    · cases hs
  | setData b g =>
    obtain ⟨i, rfl, hs⟩ := withHeld_ok (map_ok hs)
    refine ⟨Log.tracked_step (a := .setData o i g) h trivial hs, ?_⟩
    obtain ⟨-, B, rfl, -⟩ := Log.setData_step hs
    exact ⟨upd_same _ _ _, fun o' ho' => upd_other _ _ ho'⟩
  | logWrite b =>
    obtain ⟨i, rfl, hs⟩ := withHeld_ok (map_ok hs)
    refine ⟨Log.tracked_step (a := .logWrite o i) h trivial hs, ?_⟩
    obtain ⟨-, -, B, l, rfl, -⟩ := Log.logWrite_step hs
    exact ⟨upd_same _ _ _, fun o' ho' => upd_other _ _ ho'⟩
  | brelse b =>
    obtain ⟨i, rfl, hs⟩ := withHeld_ok (map_ok hs)
    refine ⟨Log.tracked_step (a := .brelse o i) h hok hs, ?_⟩
    obtain ⟨-, B, rfl, -⟩ := Log.brelse_step hs hok
    exact ⟨rfl, fun _ _ => rfl⟩

theorem tidy_code (sb : Superblock) (c : Call)
    (hw : ∀ ip src off n, c = .writei ip src off n → Whole src off n) : Tidy (c.code sb) := by
  cases c with
  | ilock inum => exact (tidy_readInode sb inum).bind fun _ => .ret _
  | iupdate ip => exact tidy_iupdate sb ip
  | ialloc type => exact (tidy_ialloc sb type).bind fun _ => .ret _
  | itrunc ip => exact (tidy_itrunc sb ip).bind fun _ => .ret _
  | readi ip dst off n => exact (tidy_readi sb ip dst off n).bind fun _ => .ret _
  | writei ip src off n => exact (tidy_writei sb ip src off n (hw _ _ _ _ rfl)).bind fun _ => .ret _

theorem SysInv.lift {s t : Sys} (h : SysInv s) {a : Log.Act} (hok : Log.Recorded s.log a)
    (hd : ∀ y, Log.step s.log a = .ok y → y.dirty = s.log.dirty)
    (hs : s.lift (Log.step s.log a) = .ok t) : SysInv t := by
  unfold Sys.lift at hs
  split at hs
  · rename_i y hy
    cases hs
    refine ⟨Log.tracked_step h.tracked hok hy, fun o => ?_⟩
    show Records (s.prog o) (y.dirty o)
    rw [hd y hy]
    exact h.records o
  · cases hs

theorem sysInv_step {sb : Superblock} {s t : Sys} {a : Act} (h : SysInv s) (hw : a.Whole)
    (hs : step sb s a = .ok t) : SysInv t := by
  cases a with
  | beginOp o =>
    unfold step at hs
    dsimp only at hs
    split at hs
    · cases hs
    · refine h.lift (a := .beginOp o) trivial (fun y hy => ?_) hs
      obtain ⟨-, -, -, rfl⟩ := Log.beginOp_step hy
      rfl
  | endOp o =>
    unfold step at hs
    dsimp only at hs
    split at hs
    · cases hs
    · rename_i hprog
      -- outside its calls a thread has nothing to record
      have hclean : s.log.dirty o = [] := by
        have := h.records o
        rw [Option.not_isSome_iff_eq_none.1 hprog] at this
        exact this
      refine h.lift (a := .endOp o) hclean (fun y hy => ?_) hs
      obtain ⟨-, -, ⟨-, pc, n, -, rfl⟩ | ⟨-, rfl⟩⟩ := Log.endOp_step hy
      · rfl
      · rfl
  | call o c =>
    unfold step at hs
    dsimp only at hs
    split at hs
    · cases hs
    · rename_i hprog
      cases hs
      refine ⟨h.tracked, fun o' => ?_⟩
      by_cases ho : o' = o
      · subst ho
        have hclean := h.records o'
        rw [Option.not_isSome_iff_eq_none.1 hprog] at hclean
        show Records (upd s.prog o' _ o') (s.log.dirty o')
        rw [upd_same, show s.log.dirty o' = [] from hclean]
        refine tidy_code sb c fun ip src off n hc => ?_
        subst hc
        exact hw
      · show Records (upd s.prog o _ o') (s.log.dirty o')
        rw [upd_other _ _ ho]
        exact h.records o'
  | go o v =>
    have hr := h.records o
    unfold step at hs
    dsimp only at hs
    split at hs
    · cases hs
    · rename_i hprog
      cases hs
      rw [hprog] at hr
      refine ⟨h.tracked, fun o' => ?_⟩
      by_cases ho : o' = o
      · subst ho
        show Records (upd s.prog o' none o') (s.log.dirty o')
        rw [upd_same]
        exact hr
      · show Records (upd s.prog o none o') (s.log.dirty o')
        rw [upd_other _ _ ho]
        exact h.records o'
    · cases hs
    · rename_i q k hprog
      rw [hprog] at hr
      split at hs
      · rename_i a x hreq
        cases hs
        obtain ⟨hx, hself, hothers⟩ := tracked_request h.tracked hr.1 hreq
        refine ⟨hx, fun o' => ?_⟩
        by_cases ho : o' = o
        · subst ho
          show Records (upd s.prog o' (some (k a)) o') (x.dirty o')
          rw [upd_same, hself]
          exact hr.2 a
        · show Records (upd s.prog o (some (k a)) o') (x.dirty o')
          rw [upd_other _ _ ho, hothers o' ho]
          exact h.records o'
      · cases hs
  | work v w =>
    refine h.lift (a := .work v w) trivial (fun y hy => ?_) hs
    rw [Log.step] at hy
    obtain ⟨-, t, -, rfl⟩ := Log.Traced.run_ok hy
    rfl
  | crash =>
    unfold step at hs
    dsimp only at hs
    split at hs
    · rename_i x hx
      cases hs
      refine ⟨Log.tracked_crash hx, fun o => ?_⟩
      cases hx
      exact rfl
    · cases hs

end Steps

/-- **In every run in which no write is cut short inside a block, the buffer cache is
coherent**: each valid buffer that nobody holds and whose block is not in the current
transaction holds what is on the disk. -/
theorem coherent_of_run {sb : Superblock} {d : Nat → Block} {as : List Act} {s : Sys}
    (h : Run (step sb) (fun _ a => a.Whole) (boot sb d) as s) : s.log.fs.Coherent := by
  have h0 : SysInv (boot sb d) := ⟨Log.tracked_boot sb.logstart d, fun _ => rfl⟩
  exact (h.invariant h0 fun _ _ _ hi hw hs => sysInv_step hi hw hs).tracked.coherent

/-! ### A write over the end of a mapped page -/

/-- A small disk. -/
def smallDisk : Superblock :=
  { size := 200, ninodes := 16, logstart := 2, inodestart := 33, bmapstart := 34 }

/-- A file with one block, 60. -/
def smallFile : Inode :=
  { inum := 2, type := 2, major := 0, minor := 0, nlink := 1, size := 1024
    addrs := fun j => if j = 0 then 60 else 0 }

/-- The thread 1 starts the machine, overwrites the first two bytes of the file from the
address 4095 on, with the pages `page`, and commits. -/
def overwrite (page : Nat → Option (Nat → Nat)) (requests blocks : Nat) : List Act :=
  List.replicate 3 (.work 0 0) ++
    [.beginOp 1, .call 1 (.writei smallFile (.user page 4095) 0 2), .go 1 1] ++
    List.replicate requests (.go 1 3) ++ [.endOp 1] ++ List.replicate (2 * blocks + 5) (.work 0 2)

/-- A write of two bytes of which the first is in a page and the second is not. -/
theorem cut_write_incoherent : ∃ s,
    Run (step smallDisk) (fun _ _ => True) (boot smallDisk fun _ _ => 0)
      (overwrite (fun p => if p = 0 then some fun _ => 7 else none) 9 1) s ∧
    s.log.fs.pc = .idle ∧ ¬s.log.fs.Coherent := by
  obtain ⟨s, hrun, hs⟩ := exists_run (step smallDisk) (fun _ _ => true)
    (fun s => decide (s.log.fs.pc = .idle ∧ (s.log.fs.buf 1).valid = true ∧
      (s.log.fs.buf 1).lock = none ∧ (s.log.fs.buf 1).blockno ∉ s.log.fs.lh ∧
      (s.log.fs.buf 1).data 0 ≠ s.log.fs.disk (s.log.fs.buf 1).blockno 0))
    (boot smallDisk fun _ _ => 0)
    (overwrite (fun p => if p = 0 then some fun _ => 7 else none) 9 1) (by decide +kernel)
  obtain ⟨hidle, hv, hl, hlh, hne⟩ := of_decide_eq_true hs
  exact ⟨s, hrun.mono fun _ _ _ => trivial, hidle, fun hc => hne (congrFun (hc 1 hv hl hlh) 0)⟩

instance (a : Act) : Decidable a.Whole :=
  match a with
  | .call _ (.writei _ src off n) => inferInstanceAs (Decidable (wholeFrom src n n off 0 = true))
  | .call _ (.ilock _) | .call _ (.iupdate _) | .call _ (.ialloc _) | .call _ (.itrunc _)
  | .call _ (.readi _ _ _ _) | .beginOp _ | .endOp _ | .go _ _ | .work _ _ | .crash =>
    inferInstanceAs (Decidable True)

/-- The same write with both pages present. -/
theorem coherent_of_run_overwrite : ∃ s,
    Run (step smallDisk) (fun _ a => a.Whole) (boot smallDisk fun _ _ => 0)
      (overwrite (fun _ => some fun _ => 7) 10 2) s ∧
    (s.log.fs.disk 60 0 ≠ 0 ∧ s.log.fs.pc = .idle) ∧ s.log.fs.Coherent := by
  obtain ⟨s, hrun, hs⟩ := exists_run (step smallDisk) (fun _ a => decide a.Whole)
    (fun s => decide (s.log.fs.disk 60 0 ≠ 0 ∧ s.log.fs.pc = .idle)) (boot smallDisk fun _ _ => 0)
    (overwrite (fun _ => some fun _ => 7) 10 2) (by decide +kernel)
  have hrun' := hrun.mono fun _ _ h => of_decide_eq_true h
  exact ⟨s, hrun', of_decide_eq_true hs, coherent_of_run hrun'⟩

end Xv6.Fs
