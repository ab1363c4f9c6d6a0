import Xv6.Lib.Upd
import Xv6.Lib.Wp
import Xv6.Param
import Mathlib.Algebra.Group.Nat.Defs
import Mathlib.Algebra.Ring.Int.Defs
import Mathlib.Data.List.Dedup

/-!
# Directories and link counts

The inode and directory layers of kernel/fs.c and the system calls of kernel/sysfile.c on
names: `iget`, `iput`, `ilock`, `ialloc`, `dirlookup`, `dirlink`, `namex`, and `create`,
`link`, `unlink`, `open`, `mkdir`, `mknod`, `chdir` over them.

A system call is one step here, so that the locks of the inodes are not seen: the runs are those in
which each call returns before the next one begins.  The contents of
a directory are its entries; the contents of files are left out.  What the blocks left on the
disk decide, whether a directory can grow by one block, is an argument `room` of the call.
The table of in-memory inodes is the list of the references to them: between system calls
there is one for each current directory and one for each open file.  The table with its entries and
locks is in `Xv6/Inode`, and the bytes of a directory are in `Xv6/Content`.
-/

namespace Xv6.Dir

open Xv6.Lib

abbrev NINODE : Nat := 50

abbrev NDEV : Nat := 10

/-- Entries in a block, `BSIZE / sizeof(struct dirent)`. -/
abbrev EPB : Nat := BSIZE / 16

abbrev Name : Type := List Char

def dot : Name := ['.']

def dotdot : Name := ['.', '.']

structure Dirent where
  inum : Nat
  name : Name
  deriving DecidableEq

inductive FileType
  | free
  | dir
  | file
  | device
  deriving DecidableEq

structure Inode where
  type : FileType
  major : Int
  minor : Int
  nlink : Int
  entries : List Dirent
  deriving DecidableEq

/-- A `short` after it was incremented or decremented. -/
def short (n : Int) : Int := (n + 2 ^ 15) % 2 ^ 16 - 2 ^ 15

structure Fs where
  ninodes : Nat
  inode : Nat → Inode
  /-- The references in `itable`, each by the number of its inode. -/
  refs : List Nat
  valid : Nat → Bool

inductive Stop
  | noInodes
  | noType
  | notDir
  | nlinkLow
  deriving DecidableEq

abbrev FsM := Prog Fs Stop

/-! ## Inodes -/

def iget (i : Nat) : FsM Unit := do
  let s ← get
  if i ∈ s.refs then set { s with refs := i :: s.refs }
  else if NINODE ≤ s.refs.dedup.length then throw .noInodes
  else set { s with refs := i :: s.refs, valid := upd s.valid i false }

def idup (i : Nat) : FsM Unit := modify fun s => { s with refs := i :: s.refs }

/-- `ilock`, which reads the inode if it is not valid. -/
def ilock (i : Nat) : FsM Unit := do
  let s ← get
  if s.valid i then pure ()
  else if (s.inode i).type = .free then throw .noType
  else set { s with valid := upd s.valid i true }

/-- `itrunc` and the type 0 of an inode that is freed. -/
def Inode.freed (a : Inode) : Inode := { a with type := .free, entries := [] }

def iput (i : Nat) : FsM Unit := modify fun s =>
  if s.refs.count i = 1 ∧ s.valid i = true ∧ (s.inode i).nlink = 0 then
    { s with
      inode := upd s.inode i (s.inode i).freed
      valid := upd s.valid i false
      refs := s.refs.erase i }
  else { s with refs := s.refs.erase i }

/-- `iupdate` after a change of the inode. -/
def update (i : Nat) (f : Inode → Inode) : FsM Unit := modify fun s =>
  { s with inode := upd s.inode i (f (s.inode i)) }

/-- The first free inode on the disk. -/
def Fs.freeInode (s : Fs) : Option Nat :=
  (List.range' 1 (s.ninodes - 1)).find? fun i => (s.inode i).type = .free

def ialloc (type : FileType) : FsM (Option Nat) := do
  let s ← get
  match s.freeInode with
  | none => pure none
  | some i => do
    update i fun _ => ⟨type, 0, 0, 0, []⟩
    iget i
    pure (some i)

/-! ## Directories -/

/-- The first entry with the name: its place and its inode. -/
def lookup (es : List Dirent) (name : Name) : Option (Nat × Nat) :=
  match es.findIdx? fun e => e.inum ≠ 0 && e.name == name with
  | none => none
  | some k => es[k]?.map fun e => (k, e.inum)

/-- `dirlookup`: the place of the entry and the inode it names, with a reference to it. -/
def dirlookup (dp : Nat) (name : Name) : FsM (Option (Nat × Nat)) := do
  let s ← get
  if (s.inode dp).type ≠ .dir then throw .notDir
  else
    match lookup (s.inode dp).entries name with
    | none => pure none
    | some (k, i) => do
      iget i
      pure (some (k, i))

/-- The entries once `e` is written into the first empty one or at the end. -/
def place (es : List Dirent) (e : Dirent) (room : Bool) : Option (List Dirent) :=
  match es.findIdx? fun e => e.inum = 0 with
  | some k => some (es.set k e)
  | none =>
    if MAXFILE * EPB ≤ es.length then none
    else if es.length % EPB = 0 && !room then none
    else some (es ++ [e])

def dirlink (dp : Nat) (name : Name) (i : Nat) (room : Nat → Bool) : FsM Bool := do
  let r ← dirlookup dp name
  match r with
  | some (_, ip) => do
    iput ip
    pure false
  | none => do
    let s ← get
    match place (s.inode dp).entries ⟨i % 2 ^ 16, name⟩ (room dp) with
    | none => pure false
    | some es => do
      update dp fun a => { a with entries := es }
      pure true

/-! ## Paths -/

/-- The next element of a path, and the path after it. -/
def skipelem (path : List Char) : Option (Name × List Char) :=
  match path.dropWhile (· == '/') with
  | [] => none
  | s => some ((s.takeWhile (· != '/')).take DIRSIZ,
      (s.dropWhile (· != '/')).dropWhile (· == '/'))

/-- The loop of `namex` from the inode `ip`.  Each round takes an element from the path, so
that its length bounds the rounds. -/
def namexLoop (parent : Bool) : Nat → Nat → List Char → FsM (Option (Nat × Name))
  | 0, _, _ => pure none
  | fuel + 1, ip, path =>
    match skipelem path with
    | none =>
      if parent then do
        iput ip
        pure none
      else pure (some (ip, []))
    | some (name, rest) => do
      ilock ip
      let s ← get
      if (s.inode ip).type ≠ .dir then do
        iput ip
        pure none
      else if parent && rest == [] then pure (some (ip, name))
      else do
        let r ← dirlookup ip name
        match r with
        | none => do
          iput ip
          pure none
        | some (_, next) => do
          iput ip
          namexLoop parent fuel next rest

/-- `namex` for a process in the directory `cwd`. -/
def namex (parent : Bool) (cwd : Nat) (path : List Char) : FsM (Option (Nat × Name)) :=
  if path.head? = some '/' then do
    iget ROOTINO
    namexLoop parent (path.length + 1) ROOTINO path
  else do
    idup cwd
    namexLoop parent (path.length + 1) cwd path

def namei (cwd : Nat) (path : List Char) : FsM (Option Nat) := do
  let r ← namex false cwd path
  pure (r.map Prod.fst)

def nameiparent (cwd : Nat) (path : List Char) : FsM (Option (Nat × Name)) := namex true cwd path

/-! ## System calls -/

/-- The entries `.` and `..` of a new directory. -/
def makeDots (type : FileType) (ip dp : Nat) (room : Nat → Bool) : FsM Bool :=
  if type = .dir then do
    let ok ← dirlink ip dot ip room
    if ok then dirlink ip dotdot dp room else pure false
  else pure true

/-- The inode that `create` could not link is freed. -/
def createFail (ip dp : Nat) : FsM (Option Nat) := do
  update ip fun a => { a with nlink := 0 }
  iput ip
  iput dp
  pure none

/-- The part of `create` after `ialloc`. -/
def createNew (type : FileType) (major minor : Int) (dp : Nat) (name : Name) (ip : Nat)
    (room : Nat → Bool) : FsM (Option Nat) := do
  ilock ip
  update ip fun a => { a with major := major, minor := minor, nlink := 1 }
  let ok ← makeDots type ip dp room
  if ok then do
    let ok ← dirlink dp name ip room
    if ok then do
      when (type = .dir) (update dp fun a => { a with nlink := short (a.nlink + 1) })
      iput dp
      pure (some ip)
    else createFail ip dp
  else createFail ip dp

def create (cwd : Nat) (path : List Char) (type : FileType) (major minor : Int)
    (room : Nat → Bool) : FsM (Option Nat) := do
  let r ← nameiparent cwd path
  match r with
  | none => pure none
  | some (dp, name) => do
    ilock dp
    let r ← dirlookup dp name
    match r with
    | some (_, ip) => do
      iput dp
      ilock ip
      let s ← get
      if type = .file ∧ ((s.inode ip).type = .file ∨ (s.inode ip).type = .device) then
        pure (some ip)
      else do
        iput ip
        pure none
    | none => do
      let r ← ialloc type
      match r with
      | none => do
        iput dp
        pure none
      | some ip => createNew type major minor dp name ip room

/-- The part of `sys_open` after the inode was found; `slot` says whether there is a file and a
descriptor left. -/
def openInode (ip : Nat) (slot : Bool) : FsM (Option Nat) := do
  let s ← get
  if (s.inode ip).type = .device ∧ ((s.inode ip).major < 0 ∨ NDEV ≤ (s.inode ip).major) then do
    iput ip
    pure none
  else if slot then pure (some ip)
  else do
    iput ip
    pure none

/-- `sys_open`: the inode of the new open file.  `rdonly` is `omode == O_RDONLY`. -/
def sysOpen (cwd : Nat) (path : List Char) (ocreate rdonly slot : Bool) (room : Nat → Bool) :
    FsM (Option Nat) :=
  if ocreate then do
    let r ← create cwd path .file 0 0 room
    match r with
    | none => pure none
    | some ip => openInode ip slot
  else do
    let r ← namei cwd path
    match r with
    | none => pure none
    | some ip => do
      ilock ip
      let s ← get
      if (s.inode ip).type = .dir ∧ rdonly = false then do
        iput ip
        pure none
      else openInode ip slot

/-- `sys_mkdir` and `sys_mknod`. -/
def sysMake (cwd : Nat) (path : List Char) (type : FileType) (major minor : Int)
    (room : Nat → Bool) : FsM Unit := do
  let r ← create cwd path type major minor room
  match r with
  | none => pure ()
  | some ip => iput ip

def sysMkdir (cwd : Nat) (path : List Char) (room : Nat → Bool) : FsM Unit :=
  sysMake cwd path .dir 0 0 room

def sysMknod (cwd : Nat) (path : List Char) (major minor : Int) (room : Nat → Bool) : FsM Unit :=
  sysMake cwd path .device major minor room

/-- `sys_chdir`: the new current directory. -/
def sysChdir (cwd : Nat) (path : List Char) : FsM (Option Nat) := do
  let r ← namei cwd path
  match r with
  | none => pure none
  | some ip => do
    ilock ip
    let s ← get
    if (s.inode ip).type ≠ .dir then do
      iput ip
      pure none
    else do
      iput cwd
      pure (some ip)

/-- The `bad` branch of `sys_link`. -/
def linkFail (ip : Nat) : FsM Unit := do
  ilock ip
  update ip fun a => { a with nlink := short (a.nlink - 1) }
  iput ip

/-- The part of `sys_link` after the inode was given its link. -/
def linkEntry (cwd ip : Nat) (new : List Char) (room : Nat → Bool) : FsM Unit := do
  let r ← nameiparent cwd new
  match r with
  | none => linkFail ip
  | some (dp, name) => do
    ilock dp
    let ok ← dirlink dp name ip room
    iput dp
    if ok then iput ip else linkFail ip

def sysLink (cwd : Nat) (old new : List Char) (room : Nat → Bool) : FsM Unit := do
  let r ← namei cwd old
  match r with
  | none => pure ()
  | some ip => do
    ilock ip
    let s ← get
    if (s.inode ip).type = .dir then iput ip
    else do
      update ip fun a => { a with nlink := short (a.nlink + 1) }
      linkEntry cwd ip new room

/-- `isdirempty`. -/
def isdirempty (es : List Dirent) : Bool := (es.drop 2).all fun e => e.inum = 0

/-- The part of `sys_unlink` once the entry is found and may go. -/
def unlinkEntry (dp ip k : Nat) : FsM Unit := do
  update dp fun a => { a with entries := a.entries.set k ⟨0, []⟩ }
  let s ← get
  when ((s.inode ip).type = .dir) (update dp fun a => { a with nlink := short (a.nlink - 1) })
  iput dp
  update ip fun a => { a with nlink := short (a.nlink - 1) }
  iput ip

def sysUnlink (cwd : Nat) (path : List Char) : FsM Unit := do
  let r ← nameiparent cwd path
  match r with
  | none => pure ()
  | some (dp, name) => do
    ilock dp
    if name = dot ∨ name = dotdot then iput dp
    else do
      let r ← dirlookup dp name
      match r with
      | none => iput dp
      | some (k, ip) => do
        ilock ip
        let s ← get
        if (s.inode ip).nlink < 1 then throw .nlinkLow
        else if (s.inode ip).type = .dir ∧ isdirempty (s.inode ip).entries = false then do
          iput ip
          iput dp
        else unlinkEntry dp ip k

/-- `kexec` looks its program up, reads it and lets it go. -/
def exec (cwd : Nat) (path : List Char) : FsM Unit := do
  let r ← namei cwd path
  match r with
  | none => pure ()
  | some ip => do
    ilock ip
    iput ip

/-! ## Runs -/

/-- The file system with its users: the current directory of each process and the inode of
each open file. -/
structure Sys where
  fs : Fs
  cwd : List Nat
  files : List Nat

inductive Act
  | open (p : Nat) (path : List Char) (ocreate rdonly slot : Bool) (room : Nat → Bool)
  | mkdir (p : Nat) (path : List Char) (room : Nat → Bool)
  | mknod (p : Nat) (path : List Char) (major minor : Int) (room : Nat → Bool)
  | link (p : Nat) (old new : List Char) (room : Nat → Bool)
  | unlink (p : Nat) (path : List Char)
  | chdir (p : Nat) (path : List Char)
  | exec (p : Nat) (path : List Char)
  /-- The last `close` of an open file. -/
  | close (k : Nat)
  | fork (p : Nat)
  | exit (p : Nat)

/-- Why there is no next state. -/
inductive Halt
  | panic (e : Stop)
  /-- There is no such process or open file. -/
  | refused
  deriving DecidableEq

/-- A system call over the file system, and what it leaves for its caller. -/
def Sys.call {α : Type} (s : Sys) (x : FsM α) (f : α → Fs → Sys) : Except Halt Sys :=
  match x s.fs with
  | .ok (a, t) => .ok (f a t)
  | .error e => .error (.panic e)

/-- The call of a process in its current directory. -/
def Sys.callBy {α : Type} (s : Sys) (p : Nat) (x : Nat → FsM α) (f : α → Fs → Sys) :
    Except Halt Sys :=
  match s.cwd[p]? with
  | none => .error .refused
  | some d => s.call (x d) f

/-- One call, from its start to its end. -/
def step (s : Sys) : Act → Except Halt Sys
  | .open p path ocreate rdonly slot room =>
    s.callBy p (fun d => sysOpen d path ocreate rdonly slot room)
      fun o t => { s with fs := t, files := o.toList ++ s.files }
  | .mkdir p path room => s.callBy p (fun d => sysMkdir d path room) fun _ t => { s with fs := t }
  | .mknod p path major minor room =>
    s.callBy p (fun d => sysMknod d path major minor room) fun _ t => { s with fs := t }
  | .link p old new room =>
    s.callBy p (fun d => sysLink d old new room) fun _ t => { s with fs := t }
  | .unlink p path => s.callBy p (fun d => sysUnlink d path) fun _ t => { s with fs := t }
  | .chdir p path =>
    s.callBy p (fun d => sysChdir d path) fun o t =>
      match o with
      | none => { s with fs := t }
      | some ip => { s with fs := t, cwd := s.cwd.set p ip }
  | .exec p path => s.callBy p (fun d => exec d path) fun _ t => { s with fs := t }
  | .close k =>
    match s.files[k]? with
    | none => .error .refused
    | some i => s.call (iput i) fun _ t => { s with fs := t, files := s.files.eraseIdx k }
  | .fork p => s.callBy p (fun d => do idup d; pure d) fun d t =>
      { s with fs := t, cwd := s.cwd ++ [d] }
  | .exit p => s.callBy p iput fun _ t => { s with fs := t, cwd := s.cwd.eraseIdx p }

end Xv6.Dir
