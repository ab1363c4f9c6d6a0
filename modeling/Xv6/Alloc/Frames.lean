import Xv6.Alloc.Model
import Xv6.Lib.Count
import Xv6.Lib.Ends
import Xv6.Machine
import Xv6.Mem.Alloc

/-!
# The three states of a page frame

A frame that the allocator manages is on the free list, on its way there inside of one `kfree`,
or in use.  The invariant counts: a frame is once on the list, once in transit, or its count is
positive; and its count is the number of references that callers have and that threads have which
are inside of `kfree`, of `kaddref`, or of `kalloc` before its `memset`.
-/

namespace Xv6.Alloc

open Xv6.Lib

/-- The page that the thread brings to the free list. -/
def Pc.transit : Pc → Option Nat
  | .fill a => some a
  | .link a => some a
  | _ => none

/-- The page that the thread has a reference to. -/
def Pc.user : Pc → Option Nat
  | .kfree a => some a
  | .kaddref a => some a
  | .junk a => some a
  | _ => none

/-- One if the frame is in use. -/
def inUse (n : Nat) : Nat := if n = 0 then 0 else 1

variable {T : Type} [DecidableEq T] [Image]

/-- **The invariant.**  `L` is the free list; the threads outside of `S` are idle. -/
structure Inv (S : Finset T) (s : Sys T) (L : List Nat) : Prop where
  chain : FreeList s.kmem.mem s.kmem.freelist L
  listed : ∀ a ∈ L, badPage a = false
  idle : ∀ t, t ∉ S → s.pc t = .idle
  managed : ∀ t a, (s.pc t).transit = some a ∨ (s.pc t).user = some a → badPage a = false
  place : ∀ a, badPage a = false →
    L.count a + count S (fun t => (s.pc t).transit) a + inUse (s.ref a) = 1
  refs : ∀ a, badPage a = false → s.ref a = s.held a + count S (fun t => (s.pc t).user) a
  fresh : ∀ t a, s.pc t = .junk a → s.ref a = 1

omit [DecidableEq T] in
theorem setRef_ref (s : Sys T) (n : Nat) {a b : Nat} (ha : badPage a = false)
    (hb : badPage b = false) : (s.setRef a n).ref b = if b = a then n else s.ref b := by
  show upd s.kmem.refcnt (refindex a) n (refindex b) = _
  rw [upd_refindex _ _ ha hb]
  rfl

namespace Inv

variable {S : Finset T} {s : Sys T} {t : T} {L : List Nat}

theorem grow (h : Inv S s L) (t : T) : Inv (insert t S) s L := by
  by_cases ht : t ∈ S
  · rw [Finset.insert_eq_of_mem ht]
    exact h
  have hi := h.idle t ht
  have hcount : ∀ (f : Pc → Option Nat) a, f .idle = none →
      count (insert t S) (fun u => f (s.pc u)) a = count S (fun u => f (s.pc u)) a := by
    intro f a hf
    unfold count
    rw [Finset.sum_insert ht]
    simp only [hi, hf, holds_none, Nat.zero_add]
  refine { h with idle := fun u hu => ?_, place := fun a ha => ?_, refs := fun a ha => ?_ }
  · exact h.idle u fun hmem => hu (Finset.mem_insert_of_mem hmem)
  · rw [hcount Pc.transit a rfl]
    exact h.place a ha
  · rw [hcount Pc.user a rfl]
    exact h.refs a ha

/-- **One thread goes on.**  What is left to show is about single pages: that each is still in
one place, and that its references are still counted. -/
theorem move (h : Inv S s L) (ht : t ∈ S) {s' : Sys T} {c : Pc} {L' : List Nat}
    (hpc : s'.pc = upd s.pc t c) (hchain : FreeList s'.kmem.mem s'.kmem.freelist L')
    (hlisted : ∀ a ∈ L', badPage a = false)
    (hman : ∀ a, c.transit = some a ∨ c.user = some a → badPage a = false)
    (hplace : ∀ a, badPage a = false →
      L'.count a + holds c.transit a + inUse (s'.ref a) =
        L.count a + holds (s.pc t).transit a + inUse (s.ref a))
    (hrefs : ∀ a, badPage a = false →
      s'.ref a + s.held a + holds (s.pc t).user a = s.ref a + s'.held a + holds c.user a)
    (hfresh : ∀ a, c = .junk a → s'.ref a = 1)
    (hkeep : ∀ a u, u ≠ t → s.pc u = .junk a → s'.ref a = 1) : Inv S s' L' := by
  refine ⟨hchain, hlisted, fun u hu => ?_, fun u a hu => ?_, fun a ha => ?_, fun a ha => ?_,
    fun u a hu => ?_⟩
  · rw [hpc, upd_other _ _ (by rintro rfl; exact hu ht)]
    exact h.idle u hu
  · rw [hpc, upd_apply] at hu
    split at hu
    · exact hman a hu
    · exact h.managed u a hu
  · have hold := h.place a ha
    have hnew := hplace a ha
    have hcount := count_upd (f := fun u => (s.pc u).transit) ht c.transit a
    rw [hpc, comp_upd]
    omega
  · have hold := h.refs a ha
    have hnew := hrefs a ha
    have hcount := count_upd (f := fun u => (s.pc u).user) ht c.user a
    rw [hpc, comp_upd]
    omega
  · rw [hpc, upd_apply] at hu
    split at hu
    · exact hfresh a hu
    · exact hkeep a u ‹_› hu

variable {a : Nat}

omit [DecidableEq T] in
theorem notMem (h : Inv S s L) (hb : badPage a = false) (hp : 0 < s.ref a) : a ∉ L := by
  intro hmem
  have hplace := h.place a hb
  have hlisted := List.count_pos_iff.2 hmem
  unfold inUse at hplace
  rw [if_neg (by omega)] at hplace
  omega

omit [DecidableEq T] in
theorem ref_pos (h : Inv S s L) (ht : t ∈ S) (hu : (s.pc t).user = some a) : 0 < s.ref a := by
  have hrefs := h.refs a (h.managed t a (.inr hu))
  have hcount := (count_pos (S := S) (f := fun u => (s.pc u).user) (a := a)).2 ⟨t, ht, hu⟩
  omega

theorem alone (h : Inv S s L) {u : T} (ht : t ∈ S) (hu : (s.pc t).user = some a)
    (hj : s.pc u = .junk a) : u = t := by
  have huser : (s.pc u).user = some a := by rw [hj]; rfl
  have hrefs := h.refs a (h.managed t a (.inr hu))
  have hone := h.fresh u a hj
  have huS : u ∈ S := by
    by_contra hn
    rw [h.idle u hn] at hj
    cases hj
  exact eq_of_count_le_one (S := S) (f := fun v => (s.pc v).user) (a := a) (by omega) huS ht huser hu

omit [DecidableEq T] in
theorem transit (h : Inv S s L) (ht : t ∈ S) (hu : (s.pc t).transit = some a) :
    badPage a = false ∧ a ∉ L ∧ s.ref a = 0 := by
  have hb := h.managed t a (.inl hu)
  have hplace := h.place a hb
  have hcount := (count_pos (S := S) (f := fun u => (s.pc u).transit) (a := a)).2 ⟨t, ht, hu⟩
  refine ⟨hb, fun hmem => ?_, ?_⟩
  · have hlisted := List.count_pos_iff.2 hmem
    omega
  · by_contra hne
    unfold inUse at hplace
    rw [if_neg hne] at hplace
    omega

omit [DecidableEq T] in
theorem setPage_chain (h : Inv S s L) (ha : a ∉ L) (g : Page) :
    FreeList (upd s.kmem.mem a g) s.kmem.freelist L := by
  refine h.chain.congr fun b hb => upd_other _ _ ?_
  rintro rfl
  exact ha hb

omit [DecidableEq T] in
theorem head (h : Inv S s L) (hf : s.kmem.freelist ≠ 0) :
    ∃ L', L = s.kmem.freelist :: L' ∧ FreeList s.kmem.mem (s.kmem.mem s.kmem.freelist 0) L' := by
  have hchain := h.chain
  cases L with
  | nil => exact absurd hchain hf
  | cons a L' =>
    obtain ⟨rfl, -, htail⟩ := hchain
    exact ⟨L', rfl, htail⟩

/-- Changing the count of a page of one thread leaves the fresh pages of the others alone. -/
theorem fresh_setRef (h : Inv S s L) {u : T} (ht : t ∈ S) {a b : Nat} (hu : (s.pc t).user = some a)
    (hne : u ≠ t) (hj : s.pc u = .junk b) (n : Nat) : (s.setRef a n).ref b = 1 := by
  have hb := h.managed u b (.inr (by rw [hj]; rfl))
  rw [setRef_ref s n (h.managed t a (.inr hu)) hb]
  by_cases hab : b = a
  · subst hab
    exact absurd (h.alone ht hu hj) hne
  · rw [if_neg hab]
    exact h.fresh u b hj

/-! ### The steps -/

theorem enter (h : Inv S s L) (ht : t ∈ S) (hi : s.pc t = .idle) {c : Pc} (hb : badPage a = false)
    (hh : 0 < s.held a) (htr : c.transit = none) (hus : c.user = some a) (hj : ∀ b, c ≠ .junk b) :
    Inv S ((s.setHeld a (s.held a - 1)).goTo t c) L := by
  refine h.move ht rfl h.chain h.listed (fun b hc => ?_) (fun b _ => ?_) (fun b _ => ?_)
    (fun b hc => ?_) fun b u _ hj => h.fresh u b hj
  · rcases hc with hc | hc
    · rw [htr] at hc
      cases hc
    · rw [hus] at hc
      cases hc
      exact hb
  · rw [hi, htr]
    rfl
  · show s.ref b + s.held b + holds (s.pc t).user b =
      s.ref b + upd s.held a (s.held a - 1) b + holds c.user b
    rw [hi, hus, holds_some, upd_apply]
    by_cases hab : b = a
    · subst hab
      rw [if_pos rfl, if_pos rfl]
      show s.ref b + s.held b + 0 = _
      omega
    · rw [if_neg hab, if_neg (Ne.symm hab)]
      rfl
  · exact absurd hc (hj b)

theorem pass (h : Inv S s L) (ht : t ∈ S) {s' : Sys T} {c : Pc} (hkmem : s'.kmem = s.kmem)
    (hheld : s'.held = s.held) (hpc : s'.pc = upd s.pc t c) (htr : (s.pc t).transit = c.transit)
    (hus : (s.pc t).user = c.user) (hj : ∀ a, c ≠ .junk a) : Inv S s' L := by
  have href : s'.ref = s.ref := by
    funext a
    unfold Sys.ref
    rw [hkmem]
  refine h.move ht hpc ?_ h.listed (fun a hc => ?_) (fun a _ => ?_) (fun a _ => ?_)
    (fun a hc => absurd hc (hj a)) fun a u _ hu => ?_
  · rw [hkmem]
    exact h.chain
  · rw [← htr, ← hus] at hc
    exact h.managed t a hc
  · rw [htr, href]
  · rw [hus, href, hheld]
  · rw [href]
    exact h.fresh u a hu

theorem kfree (h : Inv S s L) (ht : t ∈ S) (hpc : s.pc t = .kfree a) {c : Pc}
    (hus : c.user = none) (htr : c.transit = if s.ref a = 1 then some a else none) :
    Inv S ((s.setRef a (s.ref a - 1)).goTo t c) L := by
  have hu : (s.pc t).user = some a := by rw [hpc]; rfl
  have hb := h.managed t a (.inr hu)
  have hpos := h.ref_pos ht hu
  refine h.move ht rfl h.chain h.listed (fun b hc => ?_) (fun b hbb => ?_) (fun b hbb => ?_)
    (fun b hc => ?_) fun b u hne hj => ?_
  · rw [htr, hus] at hc
    split at hc
    · rcases hc with hc | hc
      · cases hc
        exact hb
      · cases hc
    · simp at hc
  · show L.count b + holds c.transit b + inUse ((s.setRef a (s.ref a - 1)).ref b) = _
    rw [setRef_ref s _ hb hbb, htr, hpc]
    show _ = L.count b + 0 + inUse (s.ref b)
    by_cases hab : b = a
    · subst hab
      rw [if_pos rfl]
      unfold inUse
      by_cases h1 : s.ref b = 1
      · simp [h1]
      · rw [if_neg h1, if_neg (by omega), if_neg (by omega)]
        rfl
    · rw [if_neg hab]
      split
      · rw [holds_some, if_neg (Ne.symm hab)]
      · rfl
  · show (s.setRef a (s.ref a - 1)).ref b + s.held b + holds (s.pc t).user b =
      s.ref b + s.held b + holds c.user b
    rw [setRef_ref s _ hb hbb, hus, hu, holds_some, holds_none]
    by_cases hab : b = a
    · subst hab
      rw [if_pos rfl, if_pos rfl]
      omega
    · rw [if_neg hab, if_neg (Ne.symm hab)]
  · rw [hc] at hus
    cases hus
  · exact h.fresh_setRef ht hu hne hj _

theorem kaddref (h : Inv S s L) (ht : t ∈ S) (hpc : s.pc t = .kaddref a) :
    Inv S (((s.setRef a (s.ref a + 1)).setHeld a (s.held a + 2)).goTo t .idle) L := by
  have hu : (s.pc t).user = some a := by rw [hpc]; rfl
  have hb := h.managed t a (.inr hu)
  have hpos := h.ref_pos ht hu
  refine h.move ht rfl h.chain h.listed (fun b hc => ?_) (fun b hbb => ?_) (fun b hbb => ?_)
    (fun b hc => ?_) fun b u hne hj => ?_
  · rcases hc with hc | hc <;> cases hc
  · show L.count b + 0 + inUse ((s.setRef a (s.ref a + 1)).ref b) = _
    rw [setRef_ref s _ hb hbb, hpc]
    show _ = L.count b + 0 + inUse (s.ref b)
    by_cases hab : b = a
    · subst hab
      unfold inUse
      rw [if_pos rfl, if_neg (by omega), if_neg (by omega)]
    · rw [if_neg hab]
  · show (s.setRef a (s.ref a + 1)).ref b + s.held b + holds (s.pc t).user b =
      s.ref b + upd s.held a (s.held a + 2) b + 0
    rw [setRef_ref s _ hb hbb, hu, holds_some, upd_apply]
    by_cases hab : b = a
    · subst hab
      rw [if_pos rfl, if_pos rfl, if_pos rfl]
      omega
    · rw [if_neg hab, if_neg (Ne.symm hab), if_neg hab]
  · cases hc
  · exact h.fresh_setRef ht hu hne hj _

theorem fill (h : Inv S s L) (ht : t ∈ S) (hpc : s.pc t = .fill a) :
    Inv S ((s.setPage a (fillPage 1)).goTo t (.link a)) L := by
  have hu : (s.pc t).transit = some a := by rw [hpc]; rfl
  obtain ⟨hb, hn, -⟩ := h.transit ht hu
  refine h.move ht rfl (h.setPage_chain hn _) h.listed (fun b hc => ?_) (fun b _ => ?_)
    (fun b _ => ?_) (fun b hc => by cases hc) fun b u _ hj => h.fresh u b hj
  · rcases hc with hc | hc
    · cases hc
      exact hb
    · cases hc
  · rw [hpc]
    rfl
  · rw [hpc]
    rfl

theorem link (h : Inv S s L) (ht : t ∈ S) (hpc : s.pc t = .link a) :
    Inv S ((s.push a).goTo t .idle) (a :: L) := by
  have hu : (s.pc t).transit = some a := by rw [hpc]; rfl
  obtain ⟨hb, hn, h0⟩ := h.transit ht hu
  refine h.move ht rfl ⟨rfl, ne_zero_of_managed hb, ?_⟩ ?_ (fun b hc => ?_) (fun b _ => ?_)
    (fun b _ => ?_) (fun b hc => by cases hc) fun b u _ hj => h.fresh u b hj
  · show FreeList (upd s.kmem.mem a (upd (s.kmem.mem a) 0 s.kmem.freelist))
      (upd s.kmem.mem a (upd (s.kmem.mem a) 0 s.kmem.freelist) a 0) L
    rw [upd_same, upd_same]
    exact h.setPage_chain hn _
  · intro b hmem
    rcases List.mem_cons.1 hmem with rfl | hmem
    · exact hb
    · exact h.listed b hmem
  · rcases hc with hc | hc <;> cases hc
  · show (a :: L).count b + 0 + inUse (s.ref b) = _
    rw [hu, holds_some, List.count_cons]
    by_cases hab : a = b
    · simp [hab]
    · simp [hab]
  · rw [hpc]
    rfl

theorem kalloc (h : Inv S s L) (ht : t ∈ S) (hpc : s.pc t = .kalloc) {L' : List Nat}
    (hL : L = s.kmem.freelist :: L')
    (htail : FreeList s.kmem.mem (s.kmem.mem s.kmem.freelist 0) L') :
    Inv S (s.pop.goTo t (.junk s.kmem.freelist)) L' := by
  generalize ha : s.kmem.freelist = a at hL htail ⊢
  have hpop : ∀ b, badPage a = false → badPage b = false →
      s.pop.ref b = if b = a then 1 else s.ref b := by
    intro b hb hbb
    have := setRef_ref s 1 hb hbb
    unfold Sys.pop
    rw [ha]
    exact this
  have hmem : a ∈ L := by rw [hL]; exact List.mem_cons_self
  have hb := h.listed a hmem
  have h0 : s.ref a = 0 := by
    by_contra hne
    exact h.notMem hb (Nat.pos_of_ne_zero hne) hmem
  refine h.move ht rfl ?_ (fun b hbL => ?_) (fun b hc => ?_) (fun b hbb => ?_) (fun b hbb => ?_)
    (fun b hc => ?_) fun b u _ hj => ?_
  · show FreeList s.kmem.mem (s.kmem.mem s.kmem.freelist 0) L'
    rw [ha]
    exact htail
  · exact h.listed b (by rw [hL]; exact List.mem_cons_of_mem a hbL)
  · rcases hc with hc | hc
    · cases hc
    · cases hc
      exact hb
  · show L'.count b + 0 + inUse (s.pop.ref b) = _
    rw [hpop b hb hbb, hL, hpc, List.count_cons]
    show _ = L'.count b + _ + 0 + inUse (s.ref b)
    by_cases hab : b = a
    · subst hab
      simp [inUse, h0]
    · simp [hab, Ne.symm hab]
  · show s.pop.ref b + s.held b + holds (s.pc t).user b = s.ref b + s.held b + holds (some a) b
    rw [hpop b hb hbb, hpc, holds_some]
    show _ + 0 = _
    by_cases hab : b = a
    · subst hab
      rw [if_pos rfl, if_pos rfl, h0]
      omega
    · rw [if_neg hab, if_neg (Ne.symm hab)]
  · cases hc
    exact (hpop a hb hb).trans (if_pos rfl)
  · have hone := h.fresh u b hj
    refine (hpop b hb (h.managed u b (.inr (by rw [hj]; rfl)))).trans ?_
    rw [if_neg (by rintro rfl; omega)]
    exact hone

theorem junk (h : Inv S s L) (ht : t ∈ S) (hpc : s.pc t = .junk a) :
    Inv S (((s.setPage a (fillPage 5)).setHeld a (s.held a + 1)).give t a) L := by
  have hu : (s.pc t).user = some a := by rw [hpc]; rfl
  have hb := h.managed t a (.inr hu)
  have hn := h.notMem hb (h.ref_pos ht hu)
  refine h.move ht rfl (h.setPage_chain hn _) h.listed (fun b hc => ?_) (fun b _ => ?_)
    (fun b _ => ?_) (fun b hc => by cases hc) fun b u _ hj => h.fresh u b hj
  · rcases hc with hc | hc <;> cases hc
  · rw [hpc]
    rfl
  · show s.ref b + s.held b + holds (s.pc t).user b = s.ref b + upd s.held a (s.held a + 1) b + 0
    rw [hu, holds_some, upd_apply]
    by_cases hab : b = a
    · subst hab
      rw [if_pos rfl, if_pos rfl]
      omega
    · rw [if_neg hab, if_neg (Ne.symm hab)]

omit [DecidableEq T] in
theorem store (h : Inv S s L) (hb : badPage a = false) (hh : 0 < s.held a) (g : Page) :
    Inv S (s.setPage a g) L := by
  have hpos : 0 < s.ref a := by
    have hrefs := h.refs a hb
    omega
  exact { h with chain := h.setPage_chain (h.notMem hb hpos) g }

end Inv

/-! ### Every step -/

section

variable {S : Finset T} {s : Sys T} {t : T} {L : List Nat}

/-- **A thread in the allocator keeps the invariant**, whatever it does next, and does not panic. -/
theorem inv_run (h : Inv S s L) (ht : t ∈ S) : Ends (run s t (s.pc t)) (fun s' => ∃ L', Inv S s' L') (· = .idle) := by
  have hpos : ∀ {a}, (s.pc t).user = some a → ¬ s.ref a < 1 := by
    intro a hu
    have := h.ref_pos ht hu
    omega
  cases hpc : s.pc t with
  | idle => exact rfl
  | kfree a =>
    have href := hpos (a := a) (by rw [hpc]; rfl)
    refine .ite (fun hlt => absurd hlt href) fun _ => .ite (fun _ => ?_) fun _ => ?_
    · exact ⟨L, h.kfree ht hpc rfl (if_neg (by omega)).symm⟩
    · exact ⟨L, h.kfree ht hpc rfl (if_pos (by omega)).symm⟩
  | fill a => exact ⟨L, h.fill ht hpc⟩
  | link a => exact ⟨a :: L, h.link ht hpc⟩
  | kaddref a =>
    exact .ite (fun hlt => absurd hlt (hpos (by rw [hpc]; rfl))) fun _ => ⟨L, h.kaddref ht hpc⟩
  | kalloc =>
    refine .ite (fun _ => ⟨L, ?_⟩) fun hf => ?_
    · exact h.pass ht rfl rfl rfl (by rw [hpc]; rfl) (by rw [hpc]; rfl) nofun
    · obtain ⟨L', hL, htail⟩ := h.head hf
      exact ⟨L', h.kalloc ht hpc hL htail⟩
  | junk a => exact ⟨L, h.junk ht hpc⟩
  | freemem => exact ⟨L, h.pass ht rfl rfl rfl (by rw [hpc]; rfl) (by rw [hpc]; rfl) nofun⟩

theorem inv_enter (h : Inv S s L) (ht : t ∈ S) (hi : s.pc t = .idle) {op : Op}
    (hok : (Act.call t op).Held s) : Ends (enter s t op) (Inv S · L) fun _ => True := by
  cases op with
  | kfree a | kaddref a =>
    refine .ite (fun _ => trivial) fun hb => ?_
    exact h.enter ht hi (Bool.eq_false_of_not_eq_true hb) hok rfl rfl nofun
  | kalloc | freememPages => exact h.pass ht rfl rfl rfl (by rw [hi]; rfl) (by rw [hi]; rfl) nofun

theorem inv_step (h : Inv S s L) {a : Act T} (hok : a.Held s) :
    Ends (step s a) (fun s' => ∃ S' L', Inv S' s' L') fun _ => True := by
  cases a with
  | call t op =>
    refine .ite (fun hi => ?_) fun _ => trivial
    exact (inv_enter (h.grow t) (Finset.mem_insert_self t S) hi hok).conseq fun _ h' => ⟨insert t S, L, h'⟩
  | go t =>
    exact (inv_run (h.grow t) (Finset.mem_insert_self t S)).mono (fun _ h' => ⟨insert t S, h'⟩) fun _ _ => trivial
  | store a g => exact .ite (fun hc => ⟨S, L, h.store hc.1 hc.2 g⟩) fun _ => trivial

end

end Xv6.Alloc
