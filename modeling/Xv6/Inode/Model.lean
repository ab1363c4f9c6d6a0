import Xv6.Param
import Xv6.Lib.Run
import Xv6.Lib.Upd

/-!
# The in-memory inodes, lock region by lock region

`iget`, `idup`, `ilock`, `iunlock`, `iput`, `ialloc` and `iupdate` of `kernel/fs.c` as they
interleave.  What a function does under `itable.lock`, or with one buffer in its hands, is one
step, and so is taking or releasing a sleep lock.  The `acquiresleep` in `iput` is inside a
region of `itable.lock`: if the lock is taken there, the kernel would sleep with a spinlock held,
and the step stops with `Stop.sleeping`.

A pointer to an entry is held by a process, for itself or for an open file or a current
directory; it may be handed on.  A process that has locked an entry does not give up its last
pointer to it: the callers of `iput` unlock first (`iunlockput`), or they have a second pointer, as
`dirlink` has when the name that it looks up is `.` and it drops what `dirlookup` has found.  Of an
inode there is its type, its link count and the rest of
its fields; `gen` says which allocation of the inode number they belong to.

A step that a process cannot take where it is, or with a pointer or a lock that it does not have,
is no step: `Stop.idle`.
-/

namespace Xv6.Inode

open Xv6.Lib

/-- What the disk holds of an inode. -/
structure Dinode where
  type : Nat
  nlink : Int
  rest : Nat
  /-- The allocations of this inode number so far. -/
  gen : Nat
  deriving DecidableEq

/-- `(dev, inum)`. -/
abbrev Key : Type := Nat × Nat

/-- `struct inode`. -/
structure Entry (P : Type) where
  key : Key
  ref : Nat
  valid : Bool
  copy : Dinode
  lock : Option P

abbrev NINODE : Nat := 50

instance : NeZero NINODE := ⟨by decide⟩

/-- Where a process stands. -/
inductive Pc
  | user
  /-- `ilock` has the lock and finds the entry not valid. -/
  | fill (e : Fin NINODE)
  /-- `iput` has released `itable.lock` to free the inode. -/
  | trunc (e : Fin NINODE)
  /-- Before the `iupdate` of `iput`. -/
  | update (e : Fin NINODE)
  /-- Before `ip->valid = 0`. -/
  | inval (e : Fin NINODE)
  /-- Before `ip->ref--`. -/
  | drop (e : Fin NINODE)
  /-- `ialloc`, before it calls `iget`. -/
  | alloced (key : Key)
  deriving DecidableEq

structure Sys (P : Type) where
  entry : Fin NINODE → Entry P
  disk : Key → Dinode
  /-- The pointers there are, with their holders. -/
  ptrs : List (P × Fin NINODE)
  pc : P → Pc

inductive Act (P : Type)
  | iget (p : P) (key : Key)
  | idup (p : P) (e : Fin NINODE)
  | ilock (p : P) (e : Fin NINODE)
  | iunlock (p : P) (e : Fin NINODE)
  /-- A holder of the lock changes the link count and other fields. -/
  | change (p : P) (e : Fin NINODE) (nlink : Int) (rest : Nat)
  | iupdate (p : P) (e : Fin NINODE)
  | iput (p : P) (e : Fin NINODE)
  /-- `ialloc` finds a free inode. -/
  | ialloc (p : P) (key : Key) (type : Nat)
  /-- The process goes on inside `ilock`, `iput` or `ialloc`. -/
  | go (p : P)
  /-- A pointer is handed on. -/
  | give (p q : P) (e : Fin NINODE)

inductive Stop
  | idle
  /-- The lock is taken. -/
  | blocked
  /-- `acquiresleep` has to wait, with `itable.lock` held. -/
  | sleeping
  | noInodes | ilock | noType | iunlock
  deriving DecidableEq

variable {P : Type} [DecidableEq P]

namespace Sys

def set (s : Sys P) (e : Fin NINODE) (x : Entry P) : Sys P := { s with entry := upd s.entry e x }

def goTo (s : Sys P) (p : P) (c : Pc) : Sys P := { s with pc := upd s.pc p c }

/-- The loop of `iget`: the entry of the inode, or else the first one that is not in use. -/
def find (s : Sys P) (key : Key) : Option (Fin NINODE) × Option (Fin NINODE) :=
  ((List.finRange NINODE).find? fun e => decide (0 < (s.entry e).ref ∧ (s.entry e).key = key),
    (List.finRange NINODE).find? fun e => decide ((s.entry e).ref = 0))

/-- Another reference to an entry. -/
def ref (s : Sys P) (p : P) (e : Fin NINODE) : Sys P :=
  { s.set e { s.entry e with ref := (s.entry e).ref + 1 } with ptrs := (p, e) :: s.ptrs }

/-- `ip->ref--`. -/
def unref (s : Sys P) (p : P) (e : Fin NINODE) : Sys P :=
  { s.set e { s.entry e with ref := (s.entry e).ref - 1 } with ptrs := s.ptrs.erase (p, e) }

/-- The process may give up a pointer: it has not locked the entry, or it has another pointer. -/
def Spare (s : Sys P) (p : P) (e : Fin NINODE) : Prop :=
  (s.entry e).lock = some p → 2 ≤ s.ptrs.count (p, e)

instance (s : Sys P) (p : P) (e : Fin NINODE) : Decidable (s.Spare p e) :=
  inferInstanceAs (Decidable (_ → _))

def iget (s : Sys P) (p : P) (key : Key) : Except Stop (Sys P) :=
  match s.find key with
  | (some e, _) => .ok (s.ref p e)
  | (none, some e) =>
    .ok { s.set e { s.entry e with key := key, ref := 1, valid := false } with
      ptrs := (p, e) :: s.ptrs }
  | (none, none) => .error .noInodes

/-- `iupdate`: the copy goes to disk. -/
def iupdate (s : Sys P) (e : Fin NINODE) : Sys P :=
  { s with disk := upd s.disk (s.entry e).key (s.entry e).copy }

end Sys

def step (s : Sys P) : Act P → Except Stop (Sys P)
  | .iget p key => if s.pc p = .user then s.iget p key else .error .idle
  | .idup p e =>
    if s.pc p = .user ∧ (p, e) ∈ s.ptrs then .ok (s.ref p e) else .error .idle
  | .ilock p e =>
    if s.pc p = .user ∧ (p, e) ∈ s.ptrs then
      if (s.entry e).ref < 1 then .error .ilock
      else if (s.entry e).lock = none then
        let t := s.set e { s.entry e with lock := some p }
        .ok (if (s.entry e).valid then t else t.goTo p (.fill e))
      else .error .blocked
    else .error .idle
  | .iunlock p e =>
    if s.pc p = .user ∧ (s.entry e).lock = some p then
      if (s.entry e).ref < 1 then .error .iunlock
      else .ok (s.set e { s.entry e with lock := none })
    else .error .idle
  | .change p e nlink rest =>
    if s.pc p = .user ∧ (s.entry e).lock = some p then
      .ok (s.set e { s.entry e with copy := { (s.entry e).copy with nlink := nlink, rest := rest } })
    else .error .idle
  | .iupdate p e =>
    if s.pc p = .user ∧ (s.entry e).lock = some p then .ok (s.iupdate e) else .error .idle
  | .iput p e =>
    if s.pc p = .user ∧ (p, e) ∈ s.ptrs ∧ s.Spare p e then
      if (s.entry e).ref = 1 ∧ (s.entry e).valid ∧ (s.entry e).copy.nlink = 0 then
        if (s.entry e).lock = none then
          .ok ((s.set e { s.entry e with lock := some p }).goTo p (.trunc e))
        else .error .sleeping
      else .ok (s.unref p e)
    else .error .idle
  | .ialloc p key type =>
    if s.pc p = .user ∧ (s.disk key).type = 0 ∧ type ≠ 0 then
      .ok ({ s with disk := upd s.disk key ⟨type, 0, 0, (s.disk key).gen + 1⟩ }.goTo p (.alloced key))
    else .error .idle
  | .go p =>
    match s.pc p with
    | .user => .error .idle
    | .fill e =>
      let d := s.disk (s.entry e).key
      if d.type = 0 then .error .noType
      else .ok ((s.set e { s.entry e with copy := d, valid := true }).goTo p .user)
    | .trunc e =>
      let c := (s.entry e).copy
      .ok ((s.set e { s.entry e with copy := { c with rest := 0, type := 0 } }).goTo p (.update e))
    | .update e => .ok ((s.iupdate e).goTo p (.inval e))
    | .inval e => .ok ((s.set e { s.entry e with valid := false, lock := none }).goTo p (.drop e))
    | .drop e => .ok ((s.unref p e).goTo p .user)
    | .alloced key => do
      let t ← s.iget p key
      return t.goTo p .user
  | .give p q e =>
    if s.pc p = .user ∧ (p, e) ∈ s.ptrs ∧ s.Spare p e then
      .ok { s with ptrs := (q, e) :: s.ptrs.erase (p, e) }
    else .error .idle

/-- The table is empty, and the disk is any. -/
def boot (disk : Key → Dinode) : Sys P :=
  ⟨fun _ => ⟨(0, 0), 0, false, ⟨0, 0, 0, 0⟩, none⟩, disk, [], fun _ => .user⟩

end Xv6.Inode
