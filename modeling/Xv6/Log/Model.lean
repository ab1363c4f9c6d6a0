import Xv6.Lib.Run
import Xv6.Lib.Upd
import Xv6.Lib.Wp
import Xv6.Param

/-!
# The buffer cache and the log

`kernel/bio.c` and `kernel/log.c` over a disk that writes one block at a time.  A block
is kept as its 32-bit words; the header block of the log has the number of logged blocks
in word 0 and their numbers in the words after it.

A thread is a number.  Between `begin_op` and `end_op` it takes buffers with `bread`,
changes their data, records them with `log_write` and gives them back with `brelse`; each
of these is a step, and threads interleave freely.  `commit` and `recover_from_log` take
one step for each block they write, so that a crash can fall between any two of them; a
crash leaves only the disk.

`bget` recycles an unused buffer.  Which one is an argument here (the source takes the one
that was released first), so that what is proved does not depend on the order.
-/

namespace Xv6.Log

open Xv6.Lib

abbrev MAXOPBLOCKS : Nat := 10
abbrev LOGBLOCKS : Nat := MAXOPBLOCKS * 3
abbrev NBUF : Nat := MAXOPBLOCKS * 3

instance : NeZero NBUF := ⟨by decide⟩
abbrev ROOTDEV : Nat := 1

/-- The 32-bit words of a disk block. -/
abbrev Block : Type := Nat → Nat

/-- `struct buf`; `lock` is the thread that holds its sleep lock. -/
structure Buf where
  valid : Bool := false
  dev : Nat := 0
  blockno : Nat := 0
  lock : Option Nat := none
  refcnt : Nat := 0
  data : Block := fun _ => 0

/-- Where the thread stands that runs `recover_from_log` or `commit`. -/
inductive Pc
  /-- `recover_from_log`: `read_head`, `install_trans(1)` at `tail`, the last `write_head`. -/
  | readHead
  | recover (tail : Nat)
  | recoverEnd
  /-- Nobody does either. -/
  | idle
  /-- `commit`: `write_log` at `tail`, `write_head`, `install_trans(0)` at `tail`, the
  last `write_head`, and the end of `end_op`. -/
  | writeLog (tail : Nat)
  | writeHead
  | install (tail : Nat)
  | clear
  | finish
  deriving DecidableEq

/-- The disk, the buffer cache and `struct log`. -/
structure Fs where
  disk : Nat → Block
  buf : Fin NBUF → Buf
  start : Nat
  outstanding : Nat
  committing : Bool
  /-- The first `log.lh.n` entries of `log.lh.block`. -/
  lh : List Nat
  pc : Pc
  /-- The thread that commits or recovers. -/
  worker : Nat

/-- Why a step does not happen. -/
inductive Stop
  /-- The thread has to wait, or may not do this now. -/
  | blocked
  | noBuffers
  | bwrite
  | brelse
  | committing
  | tooBig
  | outsideTrans
  deriving DecidableEq

abbrev FsM (α : Type) : Type := Prog Fs Stop α

def Fs.setBuf (s : Fs) (i : Fin NBUF) (b : Buf) : Fs := { s with buf := upd s.buf i b }

/-! ### `bio.c` -/

/-- The buffer holds the block `b` of the disk, or is about to. -/
def Buf.caches (x : Buf) (b : Nat) : Bool := x.dev == ROOTDEV && x.blockno == b

/-- The unused buffer that is recycled: `v` if it is one. -/
def victim (s : Fs) (v : Fin NBUF) : Option (Fin NBUF) :=
  if (s.buf v).refcnt = 0 then some v
  else (List.finRange NBUF).find? fun i => (s.buf i).refcnt = 0

/-- `bget` by the thread `o`.  If the lock is taken it is no step, and the reference of a thread that
waits is not counted; it is in `Xv6/Log/Supply.lean`. -/
def bget (o : Nat) (v : Fin NBUF) (b : Nat) : FsM (Fin NBUF) := do
  let s ← get
  match (List.finRange NBUF).find? fun i => (s.buf i).caches b with
  | some i =>
    if (s.buf i).lock = none then do
      set (s.setBuf i { s.buf i with refcnt := (s.buf i).refcnt + 1, lock := some o })
      pure i
    else throw .blocked
  | none =>
    match victim s v with
    | some i => do
      set (s.setBuf i
        { s.buf i with dev := ROOTDEV, blockno := b, valid := false, refcnt := 1, lock := some o })
      pure i
    | none => throw .noBuffers

/-- `bread`. -/
def bread (o : Nat) (v : Fin NBUF) (b : Nat) : FsM (Fin NBUF) := do
  let i ← bget o v b
  let s ← get
  if (s.buf i).valid then pure i
  else do
    set (s.setBuf i { s.buf i with data := s.disk b, valid := true })
    pure i

/-- `bwrite`. -/
def bwrite (o : Nat) (i : Fin NBUF) : FsM Unit := do
  let s ← get
  if (s.buf i).lock = some o then
    set { s with disk := upd s.disk (s.buf i).blockno (s.buf i).data }
  else throw .bwrite

/-- `brelse`. -/
def brelse (o : Nat) (i : Fin NBUF) : FsM Unit := do
  let s ← get
  if (s.buf i).lock = some o then
    set (s.setBuf i { s.buf i with lock := none, refcnt := (s.buf i).refcnt - 1 })
  else throw .brelse

/-- `bpin`. -/
def bpin (i : Fin NBUF) : FsM Unit :=
  modify fun s => s.setBuf i { s.buf i with refcnt := (s.buf i).refcnt + 1 }

/-- `bunpin`. -/
def bunpin (i : Fin NBUF) : FsM Unit :=
  modify fun s => s.setBuf i { s.buf i with refcnt := (s.buf i).refcnt - 1 }

/-- A change of the data of a buffer that the thread has locked. -/
def setData (o : Nat) (i : Fin NBUF) (g : Block) : FsM Unit := do
  let s ← get
  if (s.buf i).lock = some o then set (s.setBuf i { s.buf i with data := g })
  else throw .blocked

/-! ### `log.c` -/

/-- `begin_op`. -/
def beginOp : FsM Unit := do
  let s ← get
  if s.committing then throw .blocked
  else if LOGBLOCKS < s.lh.length + (s.outstanding + 1) * MAXOPBLOCKS then throw .blocked
  else set { s with outstanding := s.outstanding + 1 }

/-- `log_write`; a block that is recorded already is absorbed. -/
def logWrite (i : Fin NBUF) : FsM Unit := do
  let s ← get
  if LOGBLOCKS ≤ s.lh.length then throw .tooBig
  else if s.outstanding < 1 then throw .outsideTrans
  else if (s.buf i).blockno ∈ s.lh then pure ()
  else do
    bpin i
    modify fun s => { s with lh := s.lh ++ [(s.buf i).blockno] }

/-- The header with `n` and `block[0..n-1]` replaced. -/
def setHeader (g : Block) (l : List Nat) : Block := fun w =>
  if w = 0 then l.length else if w ≤ l.length then l.getD (w - 1) 0 else g w

/-- `lh->block[0..n-1]` of a header block. -/
def header (g : Block) : List Nat := (List.range (g 0)).map fun i => g (i + 1)

/-- `end_op` up to `commit`; the last operation commits. -/
def endOp (o : Nat) : FsM Unit := do
  let s ← get
  if s.committing then throw .committing
  else if s.outstanding - 1 = 0 then
    set { s with
      outstanding := 0, committing := true, worker := o
      pc := if 0 < s.lh.length then .writeLog 0 else .finish }
  else set { s with outstanding := s.outstanding - 1 }

/-- The body of the loop of `write_log`. -/
def writeLogBlock (tail : Nat) (v w : Fin NBUF) : FsM Unit := do
  let s ← get
  let dst ← bread s.worker v (s.start + tail + 1)
  let src ← bread s.worker w (s.lh.getD tail 0)
  let s ← get
  setData s.worker dst (s.buf src).data
  bwrite s.worker dst
  brelse s.worker src
  brelse s.worker dst

/-- The body of the loop of `install_trans`. -/
def installBlock (recovering : Bool) (tail : Nat) (v w : Fin NBUF) : FsM Unit := do
  let s ← get
  let lbuf ← bread s.worker v (s.start + tail + 1)
  let dbuf ← bread s.worker w (s.lh.getD tail 0)
  let s ← get
  setData s.worker dbuf (s.buf lbuf).data
  bwrite s.worker dbuf
  when (recovering = false) (bunpin dbuf)
  brelse s.worker lbuf
  brelse s.worker dbuf

/-- `read_head`. -/
def readHead (v : Fin NBUF) : FsM Unit := do
  let s ← get
  let i ← bread s.worker v s.start
  let s ← get
  set { s with lh := header (s.buf i).data }
  brelse s.worker i

/-- `write_head`. -/
def writeHead (v : Fin NBUF) : FsM Unit := do
  let s ← get
  let i ← bread s.worker v s.start
  let s ← get
  setData s.worker i (setHeader (s.buf i).data s.lh)
  bwrite s.worker i
  brelse s.worker i

/-- Go on at `pc`. -/
def goto (pc : Pc) : FsM Unit := modify fun s => { s with pc }

/-- The next step of `commit` or `recover_from_log`: it writes one block at most. -/
def work (v w : Fin NBUF) : FsM Unit := do
  let s ← get
  match s.pc with
  | .idle => throw .blocked
  | .readHead => do
    readHead v
    goto (.recover 0)
  | .recover tail =>
    if tail < s.lh.length then do
      installBlock true tail v w
      goto (.recover (tail + 1))
    else do
      modify fun s => { s with lh := [] }
      goto .recoverEnd
  | .recoverEnd => do
    writeHead v
    goto .idle
  | .writeLog tail =>
    if tail < s.lh.length then do
      writeLogBlock tail v w
      goto (.writeLog (tail + 1))
    else goto .writeHead
  | .writeHead => do
    writeHead v
    goto (.install 0)
  | .install tail =>
    if tail < s.lh.length then do
      installBlock false tail v w
      goto (.install (tail + 1))
    else do
      modify fun s => { s with lh := [] }
      goto .clear
  | .clear => do
    writeHead v
    goto .finish
  | .finish => do
    modify fun s => { s with committing := false }
    goto .idle

/-- The file system when `initlog` starts: everything but the disk is new. -/
def reboot (start : Nat) (disk : Nat → Block) : Fs where
  disk
  buf := fun _ => {}
  start
  outstanding := 0
  committing := false
  lh := []
  pc := .readHead
  worker := 0

/-! ### Operations and their history -/

/-- What an operation does: it begins, changes a block, ends. -/
inductive Event
  | began (o : Nat)
  | wrote (o b : Nat) (g : Block)
  | ended (o : Nat)

/-- The blocks after the changes of some events. -/
def replay (es : List Event) (d : Nat → Block) : Nat → Block :=
  es.foldl (fun d e => match e with
    | .wrote _ b g => upd d b g
    | _ => d) d

/-- The threads that are inside an operation after one more event; `none` if the event
is out of place. -/
def Event.running (l : List Nat) : Event → Option (List Nat)
  | .began o => if o ∈ l then none else some (o :: l)
  | .wrote o _ _ => if o ∈ l then some l else none
  | .ended o => if o ∈ l then some (l.erase o) else none

/-- The threads that are inside an operation after some events. -/
def running (es : List Event) : Option (List Nat) := es.foldlM Event.running []

/-- Every operation of the group begins and ends in it, and changes blocks in between. -/
def Complete (es : List Event) : Prop := running es = some []

/-- The file system with its history: the threads inside an operation, the blocks that
each of them has changed and not yet recorded, the events since the last commit began,
and the groups of events of the commits; `durable` of them are on the disk, and the
`commit` of `returned` of them has returned. -/
structure Traced where
  fs : Fs
  ops : List Nat
  dirty : Nat → List Nat
  cur : List Event
  groups : List (List Event)
  durable : Nat
  returned : Nat

inductive Act
  | beginOp (o : Nat)
  | bread (o : Nat) (v : Fin NBUF) (b : Nat)
  | setData (o : Nat) (i : Fin NBUF) (g : Block)
  | logWrite (o : Nat) (i : Fin NBUF)
  | brelse (o : Nat) (i : Fin NBUF)
  | endOp (o : Nat)
  /-- `commit` or `recover_from_log` goes on. -/
  | work (v w : Fin NBUF)
  | crash

/-- No operation starts before `initlog` has returned. -/
def Pc.up : Pc → Bool
  | .readHead | .recover _ | .recoverEnd => false
  | _ => true

/-- Run a piece of code and record what it means for the history. -/
def Traced.run (x : Traced) {α : Type} (code : FsM α) (f : Fs → Traced) : Except Stop Traced :=
  match code x.fs with
  | .ok (_, s) => .ok (f s)
  | .error e => .error e

/-- One step. -/
def step (x : Traced) : Act → Except Stop Traced
  | .beginOp o =>
    if x.fs.pc.up = false ∨ o ∈ x.ops then .error .blocked
    else x.run beginOp fun s =>
      { x with fs := s, ops := o :: x.ops, cur := x.cur ++ [.began o] }
  | .bread o v b =>
    if x.fs.pc.up = false then .error .blocked
    else x.run (bread o v b) fun s => { x with fs := s }
  | .setData o i g =>
    if x.fs.pc.up = false ∨ o ∉ x.ops then .error .blocked
    else x.run (setData o i g) fun s =>
      { x with
        fs := s, dirty := upd x.dirty o ((x.fs.buf i).blockno :: x.dirty o)
        cur := x.cur ++ [.wrote o (x.fs.buf i).blockno g] }
  | .logWrite o i =>
    if x.fs.pc.up = false ∨ o ∉ x.ops ∨ (x.fs.buf i).lock ≠ some o then .error .blocked
    else x.run (logWrite i) fun s =>
      { x with
        fs := s, dirty := upd x.dirty o ((x.dirty o).filter (· ≠ (x.fs.buf i).blockno)) }
  | .brelse o i =>
    if x.fs.pc.up = false then .error .blocked
    else x.run (brelse o i) fun s => { x with fs := s }
  | .endOp o =>
    if x.fs.pc.up = false ∨ o ∉ x.ops then .error .blocked
    else x.run (endOp o) fun s =>
      if s.committing then
        -- the last operation closes the group; an empty one has nothing to write
        { x with
          fs := s, ops := x.ops.erase o, cur := []
          groups := x.groups ++ [x.cur ++ [.ended o]]
          durable := if s.lh = [] then x.durable + 1 else x.durable }
      else { x with fs := s, ops := x.ops.erase o, cur := x.cur ++ [.ended o] }
  | .work v w =>
    x.run (work v w) fun s =>
      { x with
        fs := s
        durable := if x.fs.pc = .writeHead then x.durable + 1 else x.durable
        returned := if x.fs.pc = .finish then x.returned + 1 else x.returned }
  | .crash => .ok
      { x with
        fs := reboot x.fs.start x.fs.disk, ops := [], dirty := fun _ => [], cur := []
        groups := x.groups.take x.durable }

/-- The block is outside the log. -/
def Fs.home (s : Fs) (b : Nat) : Prop := b < s.start ∨ s.start + LOGBLOCKS < b

instance (s : Fs) (b : Nat) : Decidable (s.home b) :=
  inferInstanceAs (Decidable (b < s.start ∨ s.start + LOGBLOCKS < b))

/-- The order in which a buffer is used: a change is recorded before the buffer is given
back and before the operation ends. -/
def Recorded (x : Traced) : Act → Prop
  | .brelse o i => (x.fs.buf i).blockno ∉ x.dirty o
  | .endOp o => x.dirty o = []
  | _ => True

/-- How the operations use the buffers: changes are recorded, and the blocks of the log
are left alone. -/
def Disciplined (x : Traced) (a : Act) : Prop :=
  Recorded x a ∧ match a with
    | .logWrite _ i => x.fs.home (x.fs.buf i).blockno
    | _ => True

instance (x : Traced) (a : Act) : Decidable (Recorded x a) :=
  match a with
  | .brelse o i => inferInstanceAs (Decidable ((x.fs.buf i).blockno ∉ x.dirty o))
  | .endOp o => inferInstanceAs (Decidable (x.dirty o = []))
  | .beginOp _ | .bread _ _ _ | .setData _ _ _ | .logWrite _ _ | .work _ _ | .crash =>
    inferInstanceAs (Decidable True)

instance (x : Traced) (a : Act) : Decidable (Disciplined x a) :=
  match a with
  | .logWrite o i =>
    inferInstanceAs (Decidable (Recorded x (.logWrite o i) ∧ x.fs.home (x.fs.buf i).blockno))
  | .brelse o i => inferInstanceAs (Decidable (Recorded x (.brelse o i) ∧ True))
  | .endOp o => inferInstanceAs (Decidable (Recorded x (.endOp o) ∧ True))
  | .beginOp _ | .bread _ _ _ | .setData _ _ _ | .work _ _ | .crash =>
    inferInstanceAs (Decidable (True ∧ True))

/-- The only things that happen before `initlog` has returned. -/
def Act.Recovers : Act → Prop
  | .work _ _ | .crash => True
  | _ => False

/-- The machine is switched on with the disk `d`. -/
def boot (start : Nat) (d : Nat → Block) : Traced where
  fs := reboot start d
  ops := []
  dirty := fun _ => []
  cur := []
  groups := []
  durable := 0
  returned := 0

end Xv6.Log
