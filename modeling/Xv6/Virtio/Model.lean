import Mathlib.Algebra.Group.Nat.Defs
import Xv6.Lib.Ring
import Xv6.Lib.Run

/-!
# The virtio disk driver and its device

`kernel/virtio_disk.c` as any number of threads run it, beside a device.  A thread steps through
`virtio_disk_rw` and `virtio_disk_intr` one access at a time where the device or another thread can
see the difference: each `alloc_desc`, each `free_desc`, the formatting of a chain, the increment of
`avail->idx`, each test of `b->disk`, each entry of the used ring.  A sleeping thread may wake up at
any time; `sleep` and `wakeup` themselves are not modelled.

The device takes heads from the available ring, serves them in any order, and makes the entries of
the used ring visible in groups of any size.  It reads the request from the memory the driver has
written.  A buffer is passed to `virtio_disk_rw` by the thread that holds its sleep lock, as `bread`
and `bwrite` do.  The tags of the requests and the list `served` are not in the source.
-/

namespace Xv6.Virtio

open Xv6.Lib

/-- The number of descriptors. -/
abbrev NUM : Nat := 8

/-- The indices of the rings are 16 bits wide. -/
abbrev IDX : Nat := 2 ^ 16

variable {T B : Type}

/-- What a descriptor points to. -/
inductive Addr (B : Type)
  | zero
  /-- `&disk.ops[i]` -/
  | op (i : Nat)
  /-- `b->data` -/
  | data (b : B)
  /-- `&disk.info[i].status` -/
  | status (i : Nat)

structure Desc (B : Type) where
  addr : Addr B
  len : Nat
  /-- `VRING_DESC_F_NEXT` -/
  hasNext : Bool
  /-- `VRING_DESC_F_WRITE` -/
  write : Bool
  next : Nat

/-- `struct virtio_blk_req`: the type is whether the request writes the disk. -/
structure BlkReq where
  tag : Nat
  write : Bool
  sector : Nat

/-- A call of `virtio_disk_rw`. -/
structure Job (B : Type) where
  tag : Nat
  buf : B
  blockno : Nat
  write : Bool

/-- `b->blockno * (BSIZE / 512)`. -/
def Job.sector (j : Job B) : Nat := j.blockno * 2 % 2 ^ 32

/-- What the device has done. -/
structure Done (B : Type) where
  tag : Nat
  buf : B
  sector : Nat
  write : Bool

def Job.done (j : Job B) : Done B := ⟨j.tag, j.buf, j.sector, j.write⟩

/-- Where a thread stands. -/
inductive Pc (B : Type)
  | idle
  /-- `virtio_disk_rw` before `acquire`. -/
  | acquire (j : Job B)
  /-- In `alloc3_desc`, with the descriptors so far. -/
  | alloc (j : Job B) (ids : List Nat)
  /-- `alloc3_desc` gives back what it has. -/
  | undo (j : Job B) (ids : List Nat)
  /-- Asleep on `disk.free[0]`. -/
  | waitFree (j : Job B)
  | format (j : Job B) (i0 i1 i2 : Nat)
  /-- Before the increment of `avail->idx`. -/
  | publish (j : Job B) (i0 i1 i2 : Nat)
  /-- At the test of `b->disk`. -/
  | wait (j : Job B) (i0 i1 i2 : Nat)
  /-- Asleep on `b`. -/
  | asleep (j : Job B) (i0 i1 i2 : Nat)
  /-- `free_chain` at descriptor `i`; `left` are those it has not freed. -/
  | chain (j : Job B) (i : Nat) (left : List Nat)
  /-- Before `release`. -/
  | release (j : Job B)
  /-- `virtio_disk_intr` before `acquire`. -/
  | intrAcquire
  | intr

structure Sys (T B : Type) where
  free : Nat → Bool
  desc : Nat → Desc B
  ops : Nat → BlkReq
  /-- `disk.info[i].b` and `disk.info[i].status` -/
  infoB : Nat → Option B
  status : Nat → Nat
  /-- `avail->ring` and `avail->idx` -/
  avail : Nat → Nat
  availIdx : Nat
  /-- `used->ring` and `used->idx` -/
  used : Nat → Nat
  usedIdx : Nat
  /-- `disk.used_idx` -/
  driverIdx : Nat
  /-- The holder of `vdisk_lock`. -/
  lock : Option T
  /-- `b->disk` -/
  disk : B → Bool
  /-- The holder of `b->lock`. -/
  owner : B → Option T
  pc : T → Pc B
  /-- The device: the entries of the available ring it has seen, the heads it is working on, and
  where it writes the next entry of the used ring. -/
  seen : Nat
  busy : List Nat
  next : Nat
  calls : Nat
  served : List (Done B)

inductive Act (T B : Type)
  /-- `acquiresleep` and `releasesleep` of a buffer. -/
  | lockBuf (t : T) (b : B)
  | unlockBuf (t : T) (b : B)
  | rw (t : T) (b : B) (blockno : Nat) (write : Bool)
  | interrupt (t : T)
  | go (t : T)
  /-- The device: take a head, serve one, make `k` entries visible. -/
  | fetch
  | serve (head : Nat)
  | reveal (k : Nat)

inductive Stop
  | wait
  /-- `free_desc 1`, `free_desc 2` and `virtio_disk_intr status` -/
  | freeDesc1 | freeDesc2 | intrStatus
  /-- `disk.info[id].b` is no buffer. -/
  | noBuf
  /-- The device finds no request where it looks. -/
  | badChain
  deriving DecidableEq

variable [DecidableEq T] [DecidableEq B]

namespace Sys

def goTo (s : Sys T B) (t : T) (c : Pc B) : Sys T B := { s with pc := upd s.pc t c }

def zeroDesc : Desc B := ⟨.zero, 0, false, false, 0⟩

/-- `alloc_desc` -/
def allocDesc (s : Sys T B) : Option (Nat × Sys T B) :=
  match (List.range NUM).find? s.free with
  | none => none
  | some i => some (i, { s with free := upd s.free i false })

/-- `free_desc` -/
def freeDesc (s : Sys T B) (i : Nat) : Except Stop (Sys T B) :=
  if NUM ≤ i then .error .freeDesc1
  else if s.free i then .error .freeDesc2
  else .ok { s with desc := upd s.desc i zeroDesc, free := upd s.free i true }

/-- The three descriptors and `disk.info`, and the slot of the available ring. -/
def format (s : Sys T B) (j : Job B) (i0 i1 i2 : Nat) : Sys T B :=
  { s with
    ops := upd s.ops i0 ⟨j.tag, j.write, j.sector⟩
    desc := upd (upd (upd s.desc i0 ⟨.op i0, 16, true, false, i1⟩)
      i1 ⟨.data j.buf, 1024, true, !j.write, i2⟩) i2 ⟨.status i0, 1, false, true, 0⟩
    status := upd s.status i0 0xff
    disk := upd s.disk j.buf true
    infoB := upd s.infoB i0 (some j.buf)
    avail := upd s.avail (s.availIdx % NUM) i0 }

end Sys

/-- The next step of a thread. -/
def run (s : Sys T B) (t : T) : Pc B → Except Stop (Sys T B)
  | .idle => .error .wait
  | .acquire j =>
    if s.lock.isSome then .error .wait else .ok ({ s with lock := some t }.goTo t (.alloc j []))
  | .alloc j [i0, i1, i2] => .ok (s.goTo t (.format j i0 i1 i2))
  | .alloc j ids =>
    match s.allocDesc with
    | some (i, s') => .ok (s'.goTo t (.alloc j (ids ++ [i])))
    | none => .ok (s.goTo t (.undo j ids))
  | .undo j [] => .ok ({ s with lock := none }.goTo t (.waitFree j))
  | .undo j (i :: ids) =>
    match s.freeDesc i with
    | .error e => .error e
    | .ok s' => .ok (s'.goTo t (.undo j ids))
  | .waitFree j =>
    if s.lock.isSome then .error .wait else .ok ({ s with lock := some t }.goTo t (.alloc j []))
  | .format j i0 i1 i2 => .ok ((s.format j i0 i1 i2).goTo t (.publish j i0 i1 i2))
  | .publish j i0 i1 i2 =>
    .ok ({ s with availIdx := (s.availIdx + 1) % IDX }.goTo t (.wait j i0 i1 i2))
  | .wait j i0 i1 i2 =>
    if s.disk j.buf then .ok ({ s with lock := none }.goTo t (.asleep j i0 i1 i2))
    else .ok ({ s with infoB := upd s.infoB i0 none }.goTo t (.chain j i0 [i0, i1, i2]))
  | .asleep j i0 i1 i2 =>
    if s.lock.isSome then .error .wait
    else .ok ({ s with lock := some t }.goTo t (.wait j i0 i1 i2))
  | .chain j i left =>
    match s.freeDesc i with
    | .error e => .error e
    | .ok s' =>
      if (s.desc i).hasNext then .ok (s'.goTo t (.chain j (s.desc i).next left.tail))
      else .ok (s'.goTo t (.release j))
  | .release _ => .ok ({ s with lock := none }.goTo t .idle)
  | .intrAcquire =>
    if s.lock.isSome then .error .wait else .ok ({ s with lock := some t }.goTo t .intr)
  | .intr =>
    if s.driverIdx = s.usedIdx then .ok ({ s with lock := none }.goTo t .idle)
    else
      let id := s.used (s.driverIdx % NUM)
      if s.status id ≠ 0 then .error .intrStatus
      else
        match s.infoB id with
        | none => .error .noBuf
        | some b =>
          .ok { s with disk := upd s.disk b false, driverIdx := (s.driverIdx + 1) % IDX }

/-- The device serves the chain at `head`: it follows the descriptors to the request, the data and
the status. -/
def serve (s : Sys T B) (head : Nat) : Except Stop (Sys T B) :=
  let d0 := s.desc head
  let d1 := s.desc d0.next
  let d2 := s.desc d1.next
  match d0.addr, d1.addr, d2.addr with
  | .op i, .data b, .status k =>
    if d0.hasNext && d1.hasNext && !d2.hasNext && (d1.write == !(s.ops i).write) && d2.write then
      .ok { s with
        status := upd s.status k 0
        served := s.served ++ [⟨(s.ops i).tag, b, (s.ops i).sector, (s.ops i).write⟩]
        busy := s.busy.erase head
        used := upd s.used (s.next % NUM) head
        next := (s.next + 1) % IDX }
    else .error .badChain
  | _, _, _ => .error .badChain

def step (s : Sys T B) : Act T B → Except Stop (Sys T B)
  | .lockBuf t b =>
    if (s.owner b).isSome then .error .wait else .ok { s with owner := upd s.owner b (some t) }
  | .unlockBuf t b =>
    match s.pc t with
    | .idle =>
      if s.owner b = some t then .ok { s with owner := upd s.owner b none } else .error .wait
    | _ => .error .wait
  | .rw t b blockno write =>
    match s.pc t with
    | .idle =>
      if s.owner b = some t then
        .ok ({ s with calls := s.calls + 1 }.goTo t (.acquire ⟨s.calls, b, blockno, write⟩))
      else .error .wait
    | _ => .error .wait
  | .interrupt t =>
    match s.pc t with
    | .idle => .ok (s.goTo t .intrAcquire)
    | _ => .error .wait
  | .go t => run s t (s.pc t)
  | .fetch =>
    if s.seen = s.availIdx then .error .wait
    else .ok { s with busy := s.avail (s.seen % NUM) :: s.busy, seen := (s.seen + 1) % IDX }
  | .serve head => if head ∈ s.busy then serve s head else .error .wait
  | .reveal k =>
    if k ≤ (s.next + IDX - s.usedIdx) % IDX then .ok { s with usedIdx := (s.usedIdx + k) % IDX }
    else .error .wait

/-- After `virtio_disk_init`. -/
def start : Sys T B where
  free := fun _ => true
  desc := fun _ => Sys.zeroDesc
  ops := fun _ => ⟨0, false, 0⟩
  infoB := fun _ => none
  status := fun _ => 0
  avail := fun _ => 0
  availIdx := 0
  used := fun _ => 0
  usedIdx := 0
  driverIdx := 0
  lock := none
  disk := fun _ => false
  owner := fun _ => none
  pc := fun _ => .idle
  seen := 0
  busy := []
  next := 0
  calls := 0
  served := []

end Xv6.Virtio
