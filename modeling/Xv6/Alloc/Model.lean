import Xv6.Kalloc
import Xv6.Lib.Run

/-!
# The page allocator on several CPUs

`kalloc`, `kfree`, `kaddref` and `freemem_pages` of `kernel/kalloc.c` as they interleave.  A step
of a thread is one critical section of `kmem.lock`, or one of the two `memset`s that the functions
make outside of it: `kfree` drops the reference in one section, fills the page, and links it in a
second section; `kalloc` takes the page in a section and fills it afterwards.

`held` is how many references to each page there are with callers that are outside of the
functions: those that `kalloc` has returned and `kaddref` has added, less those handed to `kfree`.
A count is a `Nat` here: every reference is kept in a word of memory, so there are fewer than
`2 ^ 31` of them.
-/

namespace Xv6.Alloc

open Xv6.Lib

/-- Where a thread stands. -/
inductive Pc
  /-- Outside of the allocator. -/
  | idle
  | kfree (pa : Nat)
  /-- `kfree` has dropped the last reference; the page is not filled yet. -/
  | fill (pa : Nat)
  /-- `kfree`, before its second section. -/
  | link (pa : Nat)
  | kaddref (pa : Nat)
  | kalloc
  /-- `kalloc` has taken the page; it is not filled yet. -/
  | junk (pa : Nat)
  | freemem
  deriving DecidableEq

inductive Op
  | kfree (pa : Nat)
  | kaddref (pa : Nat)
  | kalloc
  | freememPages

structure Sys (T : Type) where
  kmem : Kmem
  pc : T → Pc
  /-- What the last `kalloc` or `freemem_pages` of the thread returned. -/
  ret : T → Nat
  held : Nat → Nat

inductive Act (T : Type)
  | call (t : T) (op : Op)
  | go (t : T)
  /-- A caller writes to a page that is in use. -/
  | store (pa : Nat) (g : Page)

/-- Why a step cannot be taken. -/
inductive Stop
  | idle
  | panic (e : MemPanic)
  deriving DecidableEq

/-- The number of entries of `refcnt`. -/
abbrev NPHYPAGES : Nat := (PHYSTOP - KERNBASE) / PGSIZE

/-- The loop of `freemem_pages`, over at most `fuel` pages. -/
def countFrom (mem : Nat → Page) : Nat → Nat → Nat
  | 0, _ => 0
  | fuel + 1, r => if r = 0 then 0 else countFrom mem fuel (mem r 0) + 1

/-- `freemem_pages`. -/
def freememPages (m : Kmem) : Nat := countFrom m.mem NPHYPAGES m.freelist

variable {T : Type} [DecidableEq T]

namespace Sys

def goTo (s : Sys T) (t : T) (c : Pc) : Sys T := { s with pc := upd s.pc t c }

def setPage (s : Sys T) (pa : Nat) (g : Page) : Sys T := { s with kmem := s.kmem.setPage pa g }

def setRef (s : Sys T) (pa n : Nat) : Sys T :=
  { s with kmem := { s.kmem with refcnt := upd s.kmem.refcnt (refindex pa) n } }

def setHeld (s : Sys T) (pa n : Nat) : Sys T := { s with held := upd s.held pa n }

/-- The count of a page. -/
def ref (s : Sys T) (pa : Nat) : Nat := s.kmem.refcnt (refindex pa)

/-- `r->next = kmem.freelist; kmem.freelist = r`. -/
def push (s : Sys T) (pa : Nat) : Sys T :=
  { s with kmem :=
    { s.kmem with mem := upd s.kmem.mem pa (upd (s.kmem.mem pa) 0 s.kmem.freelist), freelist := pa } }

/-- The section of `kalloc` when the list is not empty. -/
def pop (s : Sys T) : Sys T :=
  { s with kmem :=
    { s.kmem with
      refcnt := upd s.kmem.refcnt (refindex s.kmem.freelist) 1
      freelist := s.kmem.mem s.kmem.freelist 0 } }

/-- The thread returns `x`. -/
def give (s : Sys T) (t : T) (x : Nat) : Sys T := { s.goTo t .idle with ret := upd s.ret t x }

end Sys

section

variable [Image]

/-- The next step of the thread `t`. -/
def run (s : Sys T) (t : T) : Pc → Except Stop (Sys T)
  | .idle => .error .idle
  | .kfree pa =>
    if s.ref pa < 1 then .error (.panic .kfreeRef)
    else if 0 < s.ref pa - 1 then .ok ((s.setRef pa (s.ref pa - 1)).goTo t .idle)
    else .ok ((s.setRef pa (s.ref pa - 1)).goTo t (.fill pa))
  | .fill pa => .ok ((s.setPage pa (fillPage 1)).goTo t (.link pa))
  | .link pa => .ok ((s.push pa).goTo t .idle)
  | .kaddref pa =>
    if s.ref pa < 1 then .error (.panic .kaddrefRef)
    else .ok (((s.setRef pa (s.ref pa + 1)).setHeld pa (s.held pa + 2)).goTo t .idle)
  | .kalloc =>
    if s.kmem.freelist = 0 then .ok (s.give t 0)
    else .ok (s.pop.goTo t (.junk s.kmem.freelist))
  | .junk pa => .ok (((s.setPage pa (fillPage 5)).setHeld pa (s.held pa + 1)).give t pa)
  | .freemem => .ok (s.give t (freememPages s.kmem))

/-- A call up to its first section: the reference it is made with is no longer with the caller. -/
def enter (s : Sys T) (t : T) : Op → Except Stop (Sys T)
  | .kfree pa =>
    if badPage pa then .error (.panic .kfree)
    else .ok ((s.setHeld pa (s.held pa - 1)).goTo t (.kfree pa))
  | .kaddref pa =>
    if badPage pa then .error (.panic .kaddref)
    else .ok ((s.setHeld pa (s.held pa - 1)).goTo t (.kaddref pa))
  | .kalloc => .ok (s.goTo t .kalloc)
  | .freememPages => .ok (s.goTo t .freemem)

def step (s : Sys T) : Act T → Except Stop (Sys T)
  | .call t op => if s.pc t = .idle then enter s t op else .error .idle
  | .go t => run s t (s.pc t)
  | .store pa g =>
    if badPage pa = false ∧ 0 < s.held pa then .ok (s.setPage pa g) else .error .idle

end

/-- The allocator when the CPUs start to use it. -/
def start (m : Kmem) : Sys T := ⟨m, fun _ => .idle, fun _ => 0, fun _ => 0⟩

/-- `kfree` and `kaddref` are called on pages with a count of at least one. -/
def Act.Counted (s : Sys T) : Act T → Prop
  | .call _ (.kfree pa) => 1 ≤ s.ref pa
  | .call _ (.kaddref pa) => 1 ≤ s.ref pa
  | _ => True

/-- `kfree` and `kaddref` are called with a reference that a caller has. -/
def Act.Held (s : Sys T) : Act T → Prop
  | .call _ (.kfree pa) => 1 ≤ s.held pa
  | .call _ (.kaddref pa) => 1 ≤ s.held pa
  | _ => True

instance decidableCounted (s : Sys T) : (a : Act T) → Decidable (a.Counted s)
  | .call _ (.kfree pa) => inferInstanceAs (Decidable (1 ≤ s.ref pa))
  | .call _ (.kaddref pa) => inferInstanceAs (Decidable (1 ≤ s.ref pa))
  | .call _ .kalloc => .isTrue trivial
  | .call _ .freememPages => .isTrue trivial
  | .go _ => .isTrue trivial
  | .store _ _ => .isTrue trivial

instance decidableHeld (s : Sys T) : (a : Act T) → Decidable (a.Held s)
  | .call _ (.kfree pa) => inferInstanceAs (Decidable (1 ≤ s.held pa))
  | .call _ (.kaddref pa) => inferInstanceAs (Decidable (1 ≤ s.held pa))
  | .call _ .kalloc => .isTrue trivial
  | .call _ .freememPages => .isTrue trivial
  | .go _ => .isTrue trivial
  | .store _ _ => .isTrue trivial

end Xv6.Alloc
