import Xv6.Content.Model
import Xv6.Lib.Run

/-!
# Writing through a shared open file

`filewrite` of `kernel/file.c` on a `struct file` of type `FD_INODE` that any number of processes
share, with `writei` and `bmap` of `kernel/fs.c` below it.  A write is cut into chunks of at most
`3 * BSIZE` bytes; a chunk takes the inode lock, reads the offset, writes block by block, advances
the offset and lets the lock go.  A step is one round of the loop of `writei`, or what stands before
or after that loop, or a round of the loop of `filewrite` up to the lock.

The blocks are those of `Content`, with the file as inode 0; of other files there are only the blocks
that they have taken in the free map, which change at any time.  The environment answers with the bytes
that `either_copyin` copies.  `log`, `failed` and the number of a call are not in the source: they
record the chunks in the order in which they ran.
-/

namespace Xv6.Append

open Xv6.Lib
open Xv6.Content (Disk chunkMax)

/-! ### The processes -/

/-- Where a process stands in `filewrite`. -/
inductive Pc
  | idle
  /-- At the test of the loop: `n`, and `i` bytes are written. -/
  | top (n : Int) (i : Nat)
  /-- Before `ilock`, with a chunk of `n1` bytes. -/
  | lock (n : Int) (i n1 : Nat)
  /-- In the loop of `writei`; `buf` holds the `tot` bytes written so far. -/
  | loop (n : Int) (i n1 tot off : Nat) (buf : List UInt8)
  /-- `writei` is to return `tot`, or `-1`. -/
  | out (n : Int) (i n1 : Nat) (r : Int) (off : Nat) (buf : List UInt8)
  deriving DecidableEq

/-- A chunk that was written completely. -/
structure Chunk (P : Type) where
  proc : P
  /-- Which call of the process. -/
  call : Nat
  /-- Where the chunk is in the buffer of the call. -/
  i : Nat
  /-- Where it is in the file. -/
  start : Nat
  bytes : List UInt8

structure Sys (P : Type) where
  /-- `f->writable` and `f->off`. -/
  writable : Bool
  off : Nat
  disk : Disk
  lock : Option P
  pc : P → Pc
  /-- How many calls the process has made. -/
  calls : P → Nat
  ret : P → Int
  log : List (Chunk P)
  failed : Bool

/-- What `either_copyin` does: all bytes, or a fault after `k` of them. -/
inductive Copy
  | done (src : Nat → UInt8)
  | fault (k : Nat) (src : Nat → UInt8)

inductive Act (P : Type)
  | call (p : P) (n : Int)
  | go (p : P)
  /-- A round of the loop of `writei`, with the answer of `either_copyin`. -/
  | round (p : P) (c : Copy)
  /-- Another file takes a block, or gives it back. -/
  | other (b : Nat) (used : Bool)

inductive Stop
  | wait
  | panic
  deriving DecidableEq

variable {P : Type} [DecidableEq P]

namespace Sys

def goTo (s : Sys P) (p : P) (c : Pc) : Sys P := { s with pc := upd s.pc p c }

end Sys

/-- `writei` up to its loop, for a chunk of `n1` bytes at `off`. -/
def writeiBegin (size off n1 : Nat) : Bool :=
  !(decide (size < off) || decide ((off + n1) % 2 ^ 32 < off)) &&
    !decide (MAXFILE * BSIZE < (off + n1) % 2 ^ 32)

/-- The next step of a process that is not in the loop of `writei`. -/
def run (s : Sys P) (p : P) : Pc → Except Stop (Sys P)
  | .idle => .error .wait
  | .top n i =>
    if (i : Int) < n then .ok (s.goTo p (.lock n i (min (n - i).toNat chunkMax)))
    else .ok { s.goTo p .idle with ret := upd s.ret p (if (i : Int) = n then n else -1) }
  | .lock n i n1 =>
    if s.lock.isSome then .error .wait
    else if writeiBegin (s.disk.size 0) s.off n1 then
      .ok { s.goTo p (.loop n i n1 0 s.off []) with lock := some p }
    else .ok { s.goTo p (.out n i n1 (-1) s.off []) with lock := some p }
  | .loop n i n1 tot off buf =>
    -- the loop ends when all is written
    if tot < n1 then .error .wait
    else .ok ({ s with disk := s.disk.stretch 0 off }.goTo p (.out n i n1 tot off buf))
  | .out n i n1 r _ buf =>
    let s' : Sys P := { s with lock := none, off := if 0 < r then (s.off + r.toNat) % 2 ^ 32 else s.off }
    if r = n1 then
      .ok ({ s' with log := s.log ++ [(⟨p, s.calls p, i, s.off, buf⟩ : Chunk P)] }.goTo p (.top n (i + n1)))
    else
      .ok { s'.goTo p .idle with
        failed := true, ret := upd s.ret p (if (i : Int) = n then n else -1) }

/-- One round of the loop of `writei`. -/
def round (s : Sys P) (p : P) (c : Copy) : Pc → Except Stop (Sys P)
  | .loop n i n1 tot off buf =>
    if tot < n1 then
      match s.disk.bmap 0 (off / BSIZE) with
      | none => .error .panic
      | some (addr, disk) =>
        let m := min (n1 - tot) (BSIZE - off % BSIZE)
        if addr = 0 then
          .ok ({ s with disk := disk.stretch 0 off }.goTo p (.out n i n1 tot off buf))
        else
          match c with
          | .done src =>
            .ok ({ s with disk := disk.blit addr (off % BSIZE) m src }.goTo p
              (.loop n i n1 (tot + m) (off + m) (buf ++ (List.range m).map src)))
          | .fault k src =>
            .ok ({ s with disk := (disk.blit addr (off % BSIZE) (min k m) src).stretch 0 off }.goTo p
              (.out n i n1 tot off buf))
    else .error .wait
  | _ => .error .wait

def step (s : Sys P) : Act P → Except Stop (Sys P)
  | .call p n =>
    if s.pc p = .idle then
      if s.writable then .ok { s.goTo p (.top n 0) with calls := upd s.calls p (s.calls p + 1) }
      else .ok { s with ret := upd s.ret p (-1) }
    else .error .wait
  | .go p => run s p (s.pc p)
  | .round p c => round s p c (s.pc p)
  | .other b used =>
    if b ≠ 0 ∧ ∀ k < MAXFILE + 1, s.disk.held 0 k ≠ b then
      .ok { s with disk := { s.disk with used := upd s.disk.used b used } }
    else .error .wait

/-- The state in which no process is writing. -/
def start (writable : Bool) (off : Nat) (disk : Disk) : Sys P :=
  ⟨writable, off, disk, none, fun _ => .idle, fun _ => 0, fun _ => 0, [], false⟩

/-- The blocks of the file are in use and distinct, and no other file has any. -/
structure Valid (s : Disk) : Prop where
  sound : s.Sound
  lone : ∀ j k, j ≠ 0 → k ≤ MAXFILE → s.held j k = 0

end Xv6.Append
