import Xv6.Lib.Ends
import Xv6.Log.Model
import Mathlib.Data.Fintype.Card
import Mathlib.Data.List.Perm.Basic

/-!
# The supply of buffers

`Xv6/Log/Model.lean` takes a buffer in one step.  Here `bget` and `brelse` of `kernel/bio.c` are
taken apart where another thread can come between: `bget` counts the reference, leaves
`bcache.lock` and waits in `acquiresleep`; `brelse` gives up the sleep lock first and the
reference later.  A thread that waits for the disk in `bread` or `bwrite` has the lock of its
buffer all the time.  `commit` is one of the threads: it reads, writes and releases the buffers of
the log and of the blocks like any other, and unpins the blocks that it has installed.

The threads do this in any order.  Whatever they do, the reference counts count the threads that
hold a buffer, that wait for it and that are about to let go of it, and the log.  Therefore `bget`
stops with "no buffers" exactly when these use all the `NBUF` buffers and none of them is the one
that it looks for: `buffer_supply`.  Nothing in the kernel prevents that: `readers_exhaust_buffers`
is a run of 31 readers of 31 blocks.
-/

namespace Xv6.Bio

open Xv6.Lib
open Xv6.Log (Buf NBUF LOGBLOCKS ROOTDEV Stop)

/-! ### The cache and its users -/

/-- Where a thread stands with a buffer. -/
inductive Phase
  /-- In the `acquiresleep` of `bget`. -/
  | waiting
  | held
  /-- In `brelse`, after `releasesleep`. -/
  | leaving
  deriving DecidableEq

/-- A thread has a pointer to a buffer. -/
structure Use where
  thread : Fin NPROC
  buf : Fin NBUF
  phase : Phase
  deriving DecidableEq

structure Sys where
  /-- The list that begins at `bcache.head.next`; the most recently used buffers come first. -/
  lru : List (Fin NBUF)
  buf : Fin NBUF → Buf
  uses : List Use
  /-- The buffers that the log has pinned.  A pinned buffer keeps its block, so these are the
  blocks of `log.lh` that are not installed yet. -/
  pinned : List (Fin NBUF)

/-- `binit`. -/
def binit : Sys :=
  { lru := (List.finRange NBUF).reverse, buf := fun _ => {}, uses := [], pinned := [] }

namespace Sys

/-- The thread is in the middle of `bget` or `brelse`. -/
def inside (s : Sys) (t : Fin NPROC) : Bool :=
  s.uses.any fun u => decide (u.thread = t ∧ u.phase ≠ .held)

/-- The thread has a new reference, and goes to wait for the lock. -/
def take (s : Sys) (t : Fin NPROC) (i : Fin NBUF) (x : Buf) : Sys :=
  { s with buf := upd s.buf i x, uses := ⟨t, i, .waiting⟩ :: s.uses }

/-- The thread goes on from one phase to the next; `l` has the sleep lock then. -/
def move (s : Sys) (t : Fin NPROC) (i : Fin NBUF) (p q : Phase) (l : Option Nat) : Sys :=
  { s with buf := upd s.buf i { s.buf i with lock := l }
           uses := ⟨t, i, q⟩ :: s.uses.erase ⟨t, i, p⟩ }

end Sys

/-- `bget` up to `acquiresleep`. -/
def bget (s : Sys) (t : Fin NPROC) (b : Nat) : Except Stop Sys :=
  match s.lru.find? fun i => (s.buf i).caches b with
  | some i => .ok (s.take t i { s.buf i with refcnt := (s.buf i).refcnt + 1 })
  | none =>
    -- from the least recently used one on
    match s.lru.reverse.find? fun i => (s.buf i).refcnt = 0 with
    | some i => .ok (s.take t i
        { s.buf i with dev := ROOTDEV, blockno := b, valid := false, refcnt := 1 })
    | none => .error .noBuffers

/-- The rest of `brelse`, after `releasesleep`. -/
def unref (s : Sys) (t : Fin NPROC) (i : Fin NBUF) : Sys :=
  let n := (s.buf i).refcnt - 1
  { s with
    lru := if n = 0 then i :: s.lru.erase i else s.lru
    buf := upd s.buf i { s.buf i with refcnt := n }
    uses := s.uses.erase ⟨t, i, .leaving⟩ }

/-- `log_write` on a buffer that the thread has locked. -/
def logWrite (s : Sys) (i : Fin NBUF) : Except Stop Sys :=
  if LOGBLOCKS ≤ s.pinned.length then .error .tooBig
  else if i ∈ s.pinned then .ok s
  else .ok { s with
    buf := upd s.buf i { s.buf i with refcnt := (s.buf i).refcnt + 1 }
    pinned := i :: s.pinned }

/-- `bunpin`, in `install_trans`. -/
def bunpin (s : Sys) (i : Fin NBUF) : Sys :=
  { s with
    buf := upd s.buf i { s.buf i with refcnt := (s.buf i).refcnt - 1 }
    pinned := s.pinned.erase i }

inductive Act
  | bget (t : Fin NPROC) (b : Nat)
  | acquiresleep (t : Fin NPROC) (i : Fin NBUF)
  | releasesleep (t : Fin NPROC) (i : Fin NBUF)
  | unref (t : Fin NPROC) (i : Fin NBUF)
  | logWrite (t : Fin NPROC) (i : Fin NBUF)
  | bunpin (t : Fin NPROC) (i : Fin NBUF)
  deriving DecidableEq

def step (s : Sys) : Act → Except Stop Sys
  | .bget t b => if s.inside t then .error .blocked else bget s t b
  | .acquiresleep t i =>
    if ⟨t, i, .waiting⟩ ∈ s.uses ∧ (s.buf i).lock = none then
      .ok (s.move t i .waiting .held (some t))
    else .error .blocked
  | .releasesleep t i =>
    if s.inside t ∨ ⟨t, i, .held⟩ ∉ s.uses then .error .blocked
    else if (s.buf i).lock = some t.val then .ok (s.move t i .held .leaving none)
    else .error .brelse
  | .unref t i =>
    if ⟨t, i, .leaving⟩ ∈ s.uses then .ok (unref s t i) else .error .blocked
  | .logWrite t i =>
    if s.inside t ∨ ⟨t, i, .held⟩ ∉ s.uses then .error .blocked else logWrite s i
  | .bunpin t i =>
    if s.inside t ∨ ⟨t, i, .held⟩ ∉ s.uses ∨ i ∉ s.pinned then .error .blocked
    else .ok (bunpin s i)

/-! ### What the counts count -/

/-- Who uses a buffer: the threads, whatever they do with it, and the log. -/
def Sys.users (s : Sys) : List (Fin NBUF) := s.uses.map Use.buf ++ s.pinned

/-- The buffers that are held, waited for, being released or pinned. -/
def Sys.inUse (s : Sys) : Finset (Fin NBUF) := s.users.toFinset

structure Inv (s : Sys) : Prop where
  lru : ∀ i, i ∈ s.lru
  uniq : ∀ i j b, (s.buf i).caches b = true → (s.buf j).caches b = true → i = j
  refcnt : ∀ i, (s.buf i).refcnt = s.users.count i

variable {s s' : Sys} {t : Fin NPROC} {i : Fin NBUF} {b : Nat} {x : Buf}

theorem inv_binit : Inv binit where
  lru i := List.mem_reverse.2 (List.mem_finRange i)
  uniq i j b hi := by cases hi
  refcnt _ := rfl

/-- One buffer changes, and the counts of the others are as before. -/
theorem Inv.change (h : Inv s) (hbuf : s'.buf = upd s.buf i x) (hlru : ∀ j, j ∈ s'.lru)
    (hcaches : ∀ j b, x.caches b = true → (s.buf j).caches b = true → j = i)
    (href : x.refcnt = s'.users.count i)
    (hrest : ∀ j, j ≠ i → s'.users.count j = s.users.count j) : Inv s' := by
  refine ⟨hlru, ?_, ?_⟩
  · intro j k b hj hk
    rw [hbuf] at hj hk
    by_cases hji : j = i
    · subst hji
      by_cases hki : k = j
      · exact hki.symm
      · rw [upd_same] at hj
        rw [upd_other _ _ hki] at hk
        exact (hcaches k b hj hk).symm
    · rw [upd_other _ _ hji] at hj
      by_cases hki : k = i
      · subst hki
        rw [upd_same] at hk
        exact hcaches j b hk hj
      · rw [upd_other _ _ hki] at hk
        exact h.uniq j k b hj hk
  · intro j
    rw [hbuf]
    by_cases hji : j = i
    · rw [hji, upd_same, href]
    · rw [upd_other _ _ hji, h.refcnt j, hrest j hji]

/-- The buffer keeps its block. -/
theorem Inv.same (h : Inv s) (hx : ∀ b, x.caches b = (s.buf i).caches b) :
    ∀ j b, x.caches b = true → (s.buf j).caches b = true → j = i :=
  fun j b hb hj => h.uniq j i b hj (hx b ▸ hb)

theorem count_take (j : Fin NBUF) :
    (s.take t i x).users.count j = s.users.count j + if i = j then 1 else 0 := by
  show (i :: s.users).count j = _
  rw [List.count_cons]
  simp only [beq_iff_eq]

/-- A use that ends is one user less. -/
theorem count_erase {u : Use} (hu : u ∈ s.uses) (j : Fin NBUF) :
    ((s.uses.erase u).map Use.buf).count j + (if u.buf = j then 1 else 0) =
      (s.uses.map Use.buf).count j := by
  rw [((List.perm_cons_erase hu).map Use.buf).count_eq j, List.map_cons, List.count_cons]
  simp only [beq_iff_eq]

theorem count_move {p q : Phase} {l : Option Nat} (hu : ⟨t, i, p⟩ ∈ s.uses) (j : Fin NBUF) :
    (s.move t i p q l).users.count j = s.users.count j := by
  have h := count_erase hu j
  show (i :: ((s.uses.erase ⟨t, i, p⟩).map Use.buf ++ s.pinned)).count j = _
  rw [Sys.users, List.count_cons, List.count_append, List.count_append, ← h]
  simp only [beq_iff_eq]
  omega

/-- The buffer has one user more. -/
theorem Inv.more (h : Inv s) (hbuf : s'.buf = upd s.buf i x) (hlru : s'.lru = s.lru)
    (hcaches : ∀ j b, x.caches b = true → (s.buf j).caches b = true → j = i)
    (href : x.refcnt = (s.buf i).refcnt + 1)
    (hcount : ∀ j, s'.users.count j = s.users.count j + if i = j then 1 else 0) : Inv s' := by
  refine h.change hbuf (hlru ▸ h.lru) hcaches ?_ fun j hj => ?_
  · rw [href, h.refcnt i, hcount, if_pos rfl]
  · rw [hcount, if_neg (Ne.symm hj), Nat.add_zero]

/-- The buffer has one user less. -/
theorem Inv.less (h : Inv s) (hbuf : s'.buf = upd s.buf i { s.buf i with refcnt := (s.buf i).refcnt - 1 })
    (hlru : ∀ j, j ∈ s'.lru)
    (hcount : ∀ j, s'.users.count j + (if i = j then 1 else 0) = s.users.count j) : Inv s' := by
  refine h.change hbuf hlru (h.same fun _ => rfl) ?_ fun j hj => ?_
  · have := hcount i
    rw [if_pos rfl, ← h.refcnt i] at this
    show (s.buf i).refcnt - 1 = _
    omega
  · have := hcount j
    rwa [if_neg (Ne.symm hj)] at this

theorem inv_bget (h : Inv s) : Ends (bget s t b) Inv fun _ => True := by
  unfold bget
  split
  · -- the block is in the cache
    exact h.more rfl rfl (h.same fun _ => rfl) rfl count_take
  · rename_i hnone
    split
    · -- a buffer that nobody uses is recycled
      rename_i i hi
      have h0 := List.find?_some hi
      refine h.more rfl rfl (fun j b' hb hj => ?_) (by rw [of_decide_eq_true h0]) count_take
      rw [Buf.caches, Bool.and_eq_true, beq_iff_eq, beq_iff_eq] at hb
      obtain rfl : b = b' := hb.2
      exact absurd hj (List.find?_eq_none.1 hnone j (h.lru j))
    · trivial

theorem inv_move (h : Inv s) {p q : Phase} {l : Option Nat} (hu : ⟨t, i, p⟩ ∈ s.uses) :
    Inv (s.move t i p q l) :=
  h.change rfl h.lru (h.same fun _ => rfl) ((h.refcnt i).trans (count_move hu i).symm)
    fun j _ => count_move hu j

theorem inv_unref (h : Inv s) (hu : ⟨t, i, .leaving⟩ ∈ s.uses) : Inv (unref s t i) := by
  have hcount : ∀ j, (unref s t i).users.count j + (if i = j then 1 else 0) =
      s.users.count j := by
    intro j
    have : _ + (if i = j then 1 else 0) = _ := count_erase hu j
    show ((s.uses.erase ⟨t, i, .leaving⟩).map Use.buf ++ s.pinned).count j + _ = _
    rw [Sys.users, List.count_append, List.count_append]
    omega
  refine h.less rfl (fun j => ?_) hcount
  show j ∈ if _ then _ else _
  split
  · by_cases hj : j = i
    · rw [hj]
      exact List.mem_cons_self
    · exact List.mem_cons_of_mem _ ((List.mem_erase_of_ne hj).2 (h.lru j))
  · exact h.lru j

theorem inv_logWrite (h : Inv s) : Ends (logWrite s i) Inv fun _ => True := by
  refine .ite (fun _ => trivial) fun _ => .ite (fun _ => h) fun _ => ?_
  refine h.more rfl rfl (h.same fun _ => rfl) rfl fun j => ?_
  show (s.uses.map Use.buf ++ i :: s.pinned).count j = _
  rw [Sys.users, List.count_append, List.count_append, List.count_cons, Nat.add_assoc]
  simp only [beq_iff_eq]

theorem inv_bunpin (h : Inv s) (hi : i ∈ s.pinned) : Inv (bunpin s i) := by
  refine h.less rfl h.lru fun j => ?_
  have hp := (List.perm_cons_erase hi).count_eq j
  rw [List.count_cons] at hp
  simp only [beq_iff_eq] at hp
  show (s.uses.map Use.buf ++ s.pinned.erase i).count j + _ = _
  rw [Sys.users, List.count_append, List.count_append]
  omega

/-- **Every step keeps the counts.** -/
theorem inv_step (h : Inv s) (a : Act) : Ends (step s a) Inv fun _ => True := by
  cases a with
  | bget t b => exact .ite (fun _ => trivial) fun _ => inv_bget h
  | acquiresleep t i => exact .ite (fun hu => inv_move h hu.1) fun _ => trivial
  | releasesleep t i =>
    refine .ite (fun _ => trivial) fun hu => .ite (fun _ => ?_) fun _ => trivial
    rw [not_or, not_not] at hu
    exact inv_move h hu.2
  | unref t i => exact .ite (fun hu => inv_unref h hu) fun _ => trivial
  | logWrite t i => exact .ite (fun _ => trivial) fun _ => inv_logWrite h
  | bunpin t i =>
    refine .ite (fun _ => trivial) fun hu => ?_
    rw [not_or, not_or, not_not, not_not] at hu
    exact inv_bunpin h hu.2.2

/-! ### Steps that nobody comes between

They are the steps that `Xv6/Log/Model.lean` takes. -/

/-- If the sleep lock is free, `bget` and `acquiresleep` are `Log.bget` with the buffer of the
list. -/
theorem bget_acquiresleep (h : Inv s) (hs : bget s t b = .ok s') :
    ∃ i, s'.uses = ⟨t, i, .waiting⟩ :: s.uses ∧ ∀ fs : Log.Fs, fs.buf = s.buf →
      (s'.buf i).lock = none → Log.bget t i b fs =
        .ok (i, { fs with buf := (s'.move t i .waiting .held (some t)).buf }) := by
  unfold bget at hs
  split at hs
  · rename_i i hi
    cases hs
    refine ⟨i, rfl, fun fs hfs hl => ?_⟩
    have hci := List.find?_some hi
    have hfind : (List.finRange NBUF).find? (fun j => (s.buf j).caches b) = some i := by
      cases hf : (List.finRange NBUF).find? (fun j => (s.buf j).caches b) with
      | none => exact absurd hci (List.find?_eq_none.1 hf i (List.mem_finRange i))
      | some j =>
        have hcj := List.find?_some hf
        rw [h.uniq i j b hci hcj]
    have hl' : (s.buf i).lock = none := by
      rw [← hl]
      simp only [Sys.take, upd_same]
    simp only [Log.bget, bind, StateT.bind, get, getThe, MonadStateOf.get, StateT.get, pure,
      Except.pure, Except.bind, hfs, hfind, if_pos hl', Log.Fs.setBuf, Sys.move, Sys.take, upd_same,
      upd_upd]
    rfl
  · rename_i hnone
    split at hs
    · rename_i i hi
      cases hs
      refine ⟨i, rfl, fun fs hfs _ => ?_⟩
      have hfind : (List.finRange NBUF).find? (fun j => (s.buf j).caches b) = none :=
        List.find?_eq_none.2 fun j _ => List.find?_eq_none.1 hnone j (h.lru j)
      have h0 := List.find?_some hi
      have hv : Log.victim fs i = some i := by
        rw [Log.victim, hfs, if_pos (of_decide_eq_true h0)]
      simp only [Log.bget, bind, StateT.bind, get, getThe, MonadStateOf.get, StateT.get, pure,
        Except.pure, Except.bind, hfs, hfind, hv, Log.Fs.setBuf, Sys.move, Sys.take, upd_same,
        upd_upd]
      rfl
    · cases hs

/-- Both parts of `brelse` are `Log.brelse`. -/
theorem releasesleep_unref {fs : Log.Fs} (hfs : fs.buf = s.buf)
    (hl : (s.buf i).lock = some t.val) :
    Log.brelse t i fs =
      .ok ((), { fs with buf := (unref (s.move t i .held .leaving none) t i).buf }) := by
  simp only [Log.brelse, bind, StateT.bind, get, getThe, MonadStateOf.get, StateT.get, pure,
    Except.pure, Except.bind, hfs, if_pos hl, Log.Fs.setBuf, unref, Sys.move, upd_same,
    upd_upd]
  rfl

/-! ### When there is no buffer -/

theorem Inv.all_in_use (h : Inv s) :
    (∀ i, (s.buf i).refcnt ≠ 0) ↔ s.inUse.card = NBUF := by
  have huniv : s.inUse.card = NBUF ↔ s.inUse = Finset.univ := by
    rw [← Finset.card_eq_iff_eq_univ, Fintype.card_fin]
  rw [huniv, Finset.eq_univ_iff_forall]
  refine forall_congr' fun i => ?_
  rw [h.refcnt i, Sys.inUse, List.mem_toFinset, Ne, List.count_eq_zero, not_not]

/-- `bget` finds the block, or a buffer that nobody uses. -/
theorem Inv.bget_error (h : Inv s) {e : Stop} :
    bget s t b = .error e ↔
      e = .noBuffers ∧ (∀ i, (s.buf i).caches b = false) ∧ s.inUse.card = NBUF := by
  have hcached : (s.lru.find? fun i => (s.buf i).caches b) = none ↔
      ∀ i, (s.buf i).caches b = false := by
    rw [List.find?_eq_none]
    exact ⟨fun hn i => Bool.eq_false_iff.2 (hn i (h.lru i)), fun hn i _ => by simp [hn i]⟩
  have hused : (s.lru.reverse.find? fun i => (s.buf i).refcnt = 0) = none ↔
      s.inUse.card = NBUF := by
    rw [← h.all_in_use, List.find?_eq_none]
    refine ⟨fun hn i => ?_, fun hn i _ => ?_⟩
    · simpa using hn i (List.mem_reverse.2 (h.lru i))
    · simpa using hn i
  rw [← hcached, ← hused]
  unfold bget
  constructor
  · intro he
    split at he
    · cases he
    · rename_i hn
      split at he
      · cases he
      · cases he
        exact ⟨rfl, hn, ‹_›⟩
  · rintro ⟨rfl, hn, hu⟩
    rw [hn, hu]

/-- **When `bget` panics.**  In every run, a `bget` stops with "no buffers" exactly if its block
is in no buffer and the buffers that are held, waited for, being released or pinned are all
`NBUF` of them. -/
theorem buffer_supply {as : List Act} (h : Run step (fun _ _ => True) binit as s) (a : Act) :
    step s a = .error .noBuffers ↔ ∃ t b, a = .bget t b ∧ s.inside t = false ∧
      (∀ i, (s.buf i).caches b = false) ∧ s.inUse.card = NBUF := by
  have hinv : Inv s := h.invariant inv_binit fun _ a _ hs _ hstep => (inv_step hs a).of_ok hstep
  cases a with
  | bget t b =>
    have hiff : step s (.bget t b) = .error .noBuffers ↔ s.inside t = false ∧
        (∀ i, (s.buf i).caches b = false) ∧ s.inUse.card = NBUF := by
      rw [step]
      cases s.inside t with
      | true => exact ⟨fun he => (by cases he), fun he => (by cases he.1)⟩
      | false => exact hinv.bget_error.trans ⟨fun he => ⟨rfl, he.2⟩, fun he => ⟨rfl, he.2⟩⟩
    rw [hiff]
    constructor
    · intro he
      exact ⟨t, b, rfl, he⟩
    · rintro ⟨t', b', hab, he⟩
      cases hab
      exact he
  | _ =>
    constructor
    · intro he
      simp only [step, logWrite] at he
      repeat' split at he
      all_goals cases he
    · rintro ⟨t, b, hab, -⟩
      cases hab

/-- A thread writes the block 40 and leaves it to the log, two others want it and one of them
waits; a `commit` has the block of the log. -/
def crowd : List Act :=
  [.bget 0 40, .acquiresleep 0 0, .logWrite 0 0, .bget 1 40, .releasesleep 0 0, .bget 2 40,
    .unref 0 0, .acquiresleep 1 0, .bget 0 3, .acquiresleep 0 1]

/-- The next `bget` takes a third buffer. -/
theorem buffer_supply_crowd : ∃ s, Run step (fun _ _ => True) binit crowd s ∧
    (s.buf 0).refcnt = 3 ∧ s.inUse.card = 2 ∧ step s (.bget 3 50) ≠ .error .noBuffers := by
  obtain ⟨s, hrun, hs⟩ := exists_run step (fun _ _ => true)
    (fun s => decide ((s.buf 0).refcnt = 3 ∧ s.inUse.card = 2)) binit crowd (by decide +kernel)
  have hrun' : Run step (fun _ _ => True) binit crowd s := hrun.mono fun _ _ _ => trivial
  obtain ⟨href, huse⟩ := of_decide_eq_true hs
  refine ⟨s, hrun', href, huse, fun he => ?_⟩
  obtain ⟨t, b, -, -, -, hall⟩ := (buffer_supply hrun' _).1 he
  rw [huse] at hall
  cases hall

/-- The first `n` threads read a block each, and wait for the disk. -/
def readers (n : Nat) : List Act :=
  (List.range n).flatMap fun k =>
    [.bget (Fin.ofNat NPROC k) (60 + k), .acquiresleep (Fin.ofNat NPROC k) (Fin.ofNat NBUF k)]

/-- Thirty threads wait for the disk with a buffer each, and there is none left for the next. -/
theorem readers_exhaust_buffers : ∃ s, Run step (fun _ _ => True) binit (readers 30) s ∧
    step s (.bget 30 90) = .error .noBuffers := by
  obtain ⟨s, hrun, -, hs⟩ := exists_run_error step (fun _ _ => true) (fun _ => true) binit
    (readers 30) (.bget 30 90) .noBuffers (by decide +kernel)
  exact ⟨s, hrun.mono fun _ _ _ => trivial, hs⟩

end Xv6.Bio
