import Xv6.Alloc.Frames

/-!
# The allocator over whole runs

`kinit` leaves every frame on the free list.  From there on every frame is in one of its three
states, as long as `kfree` and `kaddref` are called with a reference that the caller has.  That the
count is positive is not enough: `kalloc` fills the page after it has let the lock go, and a `kfree`
of that page in between puts it back on the list with the link in its first word, which the
`memset` of `kalloc` then overwrites.
-/

namespace Xv6.Alloc

open Xv6.Lib

/-! ### After `kinit` -/

section

variable [Image]

/-- The frames below `p` are on the free list, and no others. -/
def Filled (p : Nat) (m : Kmem) : Prop :=
  ∃ L, FreeList m.mem m.freelist L ∧ L.Nodup ∧ (∀ a, a ∈ L ↔ badPage a = false ∧ a < p) ∧
    ∀ a ∈ L, m.refcnt (refindex a) = 0

theorem badPage_eq_false {a : Nat} :
    badPage a = false ↔ a % PGSIZE = 0 ∧ Image.kend ≤ a ∧ a < PHYSTOP := by
  unfold badPage
  simp [and_assoc]

theorem wp_freerange_page {m : Kmem} {p : Nat} (h : Filled p m) (hp : badPage p = false)
    {E : MemPanic → Prop} :
    wp (kfree p) { m with refcnt := upd m.refcnt (refindex p) 1 } (fun _ => Filled (p + PGSIZE)) E := by
  obtain ⟨L, hchain, hnodup, hmem, hzero⟩ := h
  have hpL : p ∉ L := fun hm => Nat.lt_irrefl p ((hmem p).1 hm).2
  rw [kfree, hp]
  simp only [Bool.false_eq_true, if_false]
  rw [wp_bind, wp_get]
  simp only [upd_same, Nat.lt_irrefl, if_false, Nat.sub_self]
  rw [wp_set]
  refine ⟨p :: L, ⟨rfl, ne_zero_of_managed hp, ?_⟩, List.nodup_cons.2 ⟨hpL, hnodup⟩, fun a => ?_,
    fun a ha => ?_⟩
  · show FreeList _ (upd m.mem p (upd (fillPage 1) 0 m.freelist) p 0) L
    rw [upd_same, upd_same]
    exact hchain.congr fun b hb => upd_other _ _ (by rintro rfl; exact hpL hb)
  · -- a frame below the next page is below this one, or this one
    rw [List.mem_cons, hmem a]
    have hp' := (badPage_eq_false.1 hp).1
    constructor
    · rintro (rfl | ⟨hb, hlt⟩)
      · exact ⟨hp, Nat.lt_add_of_pos_right (by decide)⟩
      · exact ⟨hb, Nat.lt_of_lt_of_le hlt (Nat.le_add_right _ _)⟩
    · rintro ⟨hb, hlt⟩
      have hb' := (badPage_eq_false.1 hb).1
      by_cases hap : a = p
      · exact .inl hap
      · refine .inr ⟨hb, ?_⟩
        have hlt' : a < p + 4096 := hlt
        have h1 : a % 4096 = 0 := hb'
        have h2 : p % 4096 = 0 := hp'
        omega
  · show upd (upd m.refcnt (refindex p) 1) (refindex p) 0 (refindex a) = 0
    rw [upd_upd, upd_apply]
    split
    · rfl
    · rcases List.mem_cons.1 ha with rfl | ha
      · exact absurd rfl ‹_›
      · exact hzero a ha

theorem wp_freerange {E : MemPanic → Prop} (n p : Nat) {m : Kmem} (h : Filled p m)
    (hp : p % PGSIZE = 0) (hlow : Image.kend ≤ p) (hhigh : p + n * PGSIZE ≤ PHYSTOP) :
    wp (freerange n p) m (fun _ => Filled (p + n * PGSIZE)) E := by
  induction n generalizing p m with
  | zero =>
    rw [freerange, wp_pure, Nat.zero_mul, Nat.add_zero]
    exact h
  | succ n ih =>
    have hmul : p + (n + 1) * PGSIZE = p + PGSIZE + n * PGSIZE := by ring
    rw [hmul] at hhigh ⊢
    have hpos : 0 < PGSIZE := by decide
    have hpage : badPage p = false := badPage_eq_false.2 ⟨hp, hlow, by omega⟩
    rw [freerange, wp_bind, wp_modify, wp_bind]
    refine wp_conseq (wp_freerange_page h hpage) fun _ m' h' => ?_
    exact ih (p + PGSIZE) h' (by rw [Nat.add_mod_right]; exact hp) (by omega) hhigh

/-- **`kinit`** succeeds, and every frame is on the free list. -/
theorem wp_kinit {m : Kmem} (h : m.freelist = 0) {E : MemPanic → Prop} :
    wp kinit m (fun _ => Filled PHYSTOP) E := by
  have hle := Image.kend_le
  have hbase := Image.base_le_kend
  have hround : pgroundup Image.kend % PGSIZE = 0 ∧ Image.kend ≤ pgroundup Image.kend ∧
      pgroundup Image.kend < Image.kend + PGSIZE ∧ pgroundup Image.kend ≤ PHYSTOP := by
    simp only [pgroundup, PGSIZE, PHYSTOP, KERNBASE] at hle ⊢
    have hlt : Image.kend + 4096 - 1 < 2 ^ 64 := by omega
    rw [Nat.mod_eq_of_lt hlt]
    omega
  obtain ⟨halign, hlow, hclose, htop⟩ := hround
  generalize hq : pgroundup Image.kend = q at halign hlow hclose htop
  have hstart : Filled q m := by
    refine ⟨[], h, List.nodup_nil, fun a => ?_, by simp⟩
    refine iff_of_false (by simp) ?_
    rintro ⟨hb, hlt⟩
    obtain ⟨h1, h2, -⟩ := badPage_eq_false.1 hb
    have h1' : a % 4096 = 0 := h1
    have h3' : q % 4096 = 0 := halign
    have h4' : q < Image.kend + 4096 := hclose
    omega
  have hend : q + (PHYSTOP - q) / PGSIZE * PGSIZE = PHYSTOP := by
    have h1' : q % 4096 = 0 := halign
    have h2' : q ≤ 2281701376 := htop
    show q + (2281701376 - q) / 4096 * 4096 = 2281701376
    omega
  rw [kinit, hq]
  have := wp_freerange (E := E) ((PHYSTOP - q) / PGSIZE) q hstart halign hlow (Nat.le_of_eq hend)
  rw [hend] at this
  exact this

end

/-! ### The number of free pages -/

theorem countFrom_eq {mem : Nat → Page} {r : Nat} {L : List Nat} (h : FreeList mem r L) {n : Nat}
    (hn : L.length ≤ n) : countFrom mem n r = L.length := by
  induction L generalizing r n with
  | nil =>
    have h0 : r = 0 := h
    cases n with
    | zero => rfl
    | succ n => rw [countFrom, if_pos h0, List.length_nil]
  | cons a L ih =>
    obtain ⟨rfl, hne, htail⟩ := h
    cases n with
    | zero => simp at hn
    | succ n =>
      rw [List.length_cons] at hn
      rw [countFrom, if_neg hne, ih htail (by omega), List.length_cons]

section

variable {T : Type} [DecidableEq T] [Image] {S : Finset T} {s : Sys T} {L : List Nat}

omit [DecidableEq T] in
/-- A list without repetitions is not longer than the table of counts. -/
theorem Inv.length_le (h : Inv S s L) : L.length ≤ NPHYPAGES := by
  have hnodup : L.Nodup := by
    refine List.nodup_iff_count_le_one.2 fun a => ?_
    by_cases ha : a ∈ L
    · have := h.place a (h.listed a ha)
      omega
    · rw [List.count_eq_zero_of_not_mem ha]
      omega
  have hsub : L.toFinset.image refindex ⊆ Finset.range NPHYPAGES := by
    intro i hi
    obtain ⟨a, ha, rfl⟩ := Finset.mem_image.1 hi
    exact Finset.mem_range.2 (refindex_managed (h.listed a (List.mem_toFinset.1 ha))).1
  have hcard : (L.toFinset.image refindex).card = L.length := by
    rw [Finset.card_image_of_injOn, List.toFinset_card_of_nodup hnodup]
    intro a ha b hb hab
    exact refindex_inj (h.listed a (List.mem_toFinset.1 ha)) (h.listed b (List.mem_toFinset.1 hb)) hab
  rw [← hcard, ← Finset.card_range NPHYPAGES]
  exact Finset.card_le_card hsub

omit [DecidableEq T] in
theorem Inv.freememPages (h : Inv S s L) : freememPages s.kmem = L.length :=
  countFrom_eq h.chain h.length_le

/-! ### Every run -/

/-- The three states, for a frame `a` when `L` is the free list. -/
def OneState (s : Sys T) (L : List Nat) (a : Nat) : Prop :=
  (L.count a = 1 ∧ s.ref a = 0 ∧ ∀ t, (s.pc t).transit ≠ some a) ∨
  (a ∉ L ∧ s.ref a = 0 ∧ ∃! t, (s.pc t).transit = some a) ∨
  (a ∉ L ∧ 1 ≤ s.ref a ∧ ∀ t, (s.pc t).transit ≠ some a)

theorem Inv.mem_of_transit (h : Inv S s L) {t : T} {a : Nat} (ht : (s.pc t).transit = some a) :
    t ∈ S := by
  by_contra hn
  rw [h.idle t hn] at ht
  cases ht

theorem Inv.oneState (h : Inv S s L) {a : Nat} (hb : badPage a = false) : OneState s L a := by
  have hplace := h.place a hb
  have hnone : count S (fun t => (s.pc t).transit) a = 0 → ∀ t, (s.pc t).transit ≠ some a :=
    fun h0 t ht => count_eq_zero.1 h0 t (h.mem_of_transit ht) ht
  unfold inUse at hplace
  by_cases h0 : s.ref a = 0
  · rw [if_pos h0] at hplace
    by_cases hL : a ∈ L
    · have hpos := List.count_pos_iff.2 hL
      exact .inl ⟨by omega, h0, hnone (by omega)⟩
    · rw [List.count_eq_zero_of_not_mem hL] at hplace
      obtain ⟨t, ht, hf⟩ := (count_pos (S := S) (f := fun t => (s.pc t).transit) (a := a)).1 (by omega)
      refine .inr (.inl ⟨hL, h0, t, hf, fun u hu => ?_⟩)
      exact eq_of_count_le_one (S := S) (f := fun t => (s.pc t).transit) (a := a) (by omega)
        (h.mem_of_transit hu) ht hu hf
  · rw [if_neg h0] at hplace
    have hL : a ∉ L := h.notMem hb (Nat.pos_of_ne_zero h0)
    exact .inr (.inr ⟨hL, Nat.pos_of_ne_zero h0, hnone (by omega)⟩)

omit [DecidableEq T] in
theorem inv_start {m : Kmem} (h : Filled PHYSTOP m) : ∃ L, Inv (∅ : Finset T) (start m) L := by
  obtain ⟨L, hchain, hnodup, hmem, hzero⟩ := h
  refine ⟨L, hchain, fun a ha => ((hmem a).1 ha).1, fun _ _ => rfl, fun t a ht => ?_,
    fun a hb => ?_, fun a hb => ?_, fun t a ht => by cases ht⟩
  · rcases ht with ht | ht <;> cases ht
  · have ha : a ∈ L := (hmem a).2 ⟨hb, (badPage_eq_false.1 hb).2.2⟩
    show L.count a + 0 + inUse (m.refcnt (refindex a)) = 1
    rw [hzero a ha, List.count_eq_one_of_mem hnodup ha]
    rfl
  · exact hzero a ((hmem a).2 ⟨hb, (badPage_eq_false.1 hb).2.2⟩)

theorem Inv.no_panic (h : Inv S s L) (t : T) (e : MemPanic) : step s (.go t) ≠ .error (.panic e) := by
  intro hstep
  have hend := inv_run (h.grow t) (Finset.mem_insert_self t S)
  rw [show run s t (s.pc t) = _ from hstep] at hend
  cases hend

/-- **The allocator on several CPUs.**  In every state of every run in which `kfree` and `kaddref`
are called with references of their callers: every frame is on the free list, in transit inside of
one `kfree`, or in use; `kalloc` takes a frame of the list, which is still its own when it returns
it; `freemem_pages` is the length of the list; and nothing panics. -/
theorem frames_of_allocator {m₀ m : Kmem} (hbss : m₀.freelist = 0) (hinit : kinit m₀ = .ok ((), m))
    {as : List (Act T)} {s : Sys T} (hrun : Run step (fun s a => a.Held s) (start m) as s) :
    ∃ L, FreeList s.kmem.mem s.kmem.freelist L ∧ (∀ a ∈ L, badPage a = false) ∧
      (∀ a, badPage a = false → OneState s L a) ∧
      (∀ t, s.pc t = .kalloc → ∃ s', step s (.go t) = .ok s' ∧
        ((L = [] ∧ s'.pc t = .idle ∧ s'.ret t = 0) ∨ ∃ a ∈ L, s'.pc t = .junk a ∧ s'.ref a = 1)) ∧
      (∀ t a, s.pc t = .junk a → s.ref a = 1 ∧ s.held a = 0 ∧
        ∃ s', step s (.go t) = .ok s' ∧ s'.pc t = .idle ∧ s'.ret t = a) ∧
      freememPages s.kmem = L.length ∧ ∀ t e, step s (.go t) ≠ .error (.panic e) := by
  have hwp : wp kinit m₀ (fun _ => Filled PHYSTOP) fun _ => True := wp_kinit hbss
  have hfilled := wp_ok hwp hinit
  obtain ⟨L₀, h₀⟩ := inv_start (T := T) hfilled
  obtain ⟨S, L, h⟩ := hrun.invariant (I := fun s => ∃ S L, Inv S s L) ⟨∅, L₀, h₀⟩
    fun s a s' ⟨S, L, h⟩ hok hstep => (inv_step h hok).of_ok hstep
  refine ⟨L, h.chain, h.listed, fun a hb => h.oneState hb, fun t hpc => ?_, fun t a hpc => ?_,
    h.freememPages, h.no_panic⟩
  · by_cases hf : s.kmem.freelist = 0
    · refine ⟨s.give t 0, by simp only [step, hpc, run, if_pos hf], .inl ⟨?_, ?_, ?_⟩⟩
      · have hchain := h.chain
        cases L with
        | nil => rfl
        | cons a L' => exact absurd (hchain.1.symm.trans hf) hchain.2.1
      · exact upd_same _ _ _
      · exact upd_same _ _ _
    · obtain ⟨L', hL, htail⟩ := h.head hf
      have h' := (h.grow t).kalloc (Finset.mem_insert_self t S) hpc hL htail
      refine ⟨s.pop.goTo t (.junk s.kmem.freelist), by simp only [step, hpc, run, if_neg hf],
        .inr ⟨s.kmem.freelist, by rw [hL]; exact List.mem_cons_self, upd_same _ _ _, ?_⟩⟩
      exact h'.fresh t _ (upd_same _ _ _)
  · have hone := h.fresh t a hpc
    have huser : (s.pc t).user = some a := by rw [hpc]; rfl
    have hg := h.grow t
    have hrefs := hg.refs a (h.managed t a (.inr huser))
    have hpos := (count_pos (S := insert t S) (f := fun u => (s.pc u).user) (a := a)).2
      ⟨t, Finset.mem_insert_self t S, huser⟩
    refine ⟨hone, by omega, _, by simp only [step, hpc, run]; rfl, ?_, ?_⟩
    · exact upd_same _ _ _
    · exact upd_same _ _ _

end

/-! ### A small machine -/

/-- The allocator of the small machine after `kinit`. -/
def smallKmem : Kmem :=
  match @kinit smallImage ⟨fun _ _ => 0, fun _ => 0, 0⟩ with
  | .ok (_, m) => m
  | .error _ => ⟨fun _ _ => 0, fun _ => 0, 0⟩

theorem kinit_small :
    @kinit smallImage ⟨fun _ _ => 0, fun _ => 0, 0⟩ = .ok ((), smallKmem) := by
  have h : (@kinit smallImage ⟨fun _ _ => 0, fun _ => 0, 0⟩).isOk = true := by decide +kernel
  unfold smallKmem
  cases hb : @kinit smallImage ⟨fun _ _ => 0, fun _ => 0, 0⟩ with
  | ok r => rfl
  | error e => rw [hb] at h; cases h

/-- Two CPUs allocate a page each, and one frees its page while the other one asks for the number
of free pages. -/
theorem frames_of_allocator_two : ∃ (s : Sys Bool) (L : List Nat),
    FreeList s.kmem.mem s.kmem.freelist L ∧
      (s.pc true).transit = some (PHYSTOP - PGSIZE) ∧ freememPages s.kmem = L.length := by
  let _ := smallImage
  obtain ⟨s, hr, hp⟩ := exists_run (step (T := Bool))
    (fun s a => decide (a.Held s))
    (fun s => decide ((s.pc true).transit = some (PHYSTOP - PGSIZE))) (start smallKmem)
    [.call true .kalloc, .call false .kalloc, .go true, .go false, .go false, .go true,
      .call true (.kfree (PHYSTOP - PGSIZE)), .call false .freememPages, .go true, .go false]
    (by decide +kernel)
  have hr' : Run step (fun s a => a.Held s) (start smallKmem) _ s :=
    hr.mono fun _ _ h => of_decide_eq_true h
  obtain ⟨L, hL, -, -, -, -, hfree, -⟩ := frames_of_allocator rfl kinit_small hr'
  exact ⟨s, L, hL, of_decide_eq_true hp, hfree⟩

/-- **A positive count is not enough.**  The page that `kalloc` has taken and not yet filled is
freed by another CPU, with a count of one; the `memset` of `kalloc` then overwrites the link of the
free list, and a frame is on no list, in no `kfree` and not in use. -/
theorem frame_lost : ∃ (m : Kmem) (as : List (Act Bool)) (s : Sys Bool) (a : Nat),
    @kinit smallImage ⟨fun _ _ => 0, fun _ => 0, 0⟩ = .ok ((), m) ∧
      Run (@step Bool _ smallImage) (fun s a => a.Counted s) (start m) as s ∧
      @badPage smallImage a = false ∧ s.ref a = 0 ∧ (∀ t, (s.pc t).transit ≠ some a) ∧
      ∀ L, FreeList s.kmem.mem s.kmem.freelist L → a ∉ L := by
  obtain ⟨s, hr, hp⟩ := exists_run (@step Bool _ smallImage)
    (fun s a => decide (a.Counted s))
    (fun s => decide (s.kmem.freelist = PHYSTOP - PGSIZE ∧
      s.kmem.mem (PHYSTOP - PGSIZE) 0 = fillPage 5 0 ∧ s.kmem.mem (fillPage 5 0) 0 = 0 ∧
      s.ref (PHYSTOP - 2 * PGSIZE) = 0 ∧ s.pc true = .idle ∧ s.pc false = .idle)) (start smallKmem)
    [.call true .kalloc, .go true, .call false (.kfree (PHYSTOP - PGSIZE)), .go false, .go false,
      .go false, .go true]
    (by decide +kernel)
  obtain ⟨hhead, hlink, hnext, href, htrue, hfalse⟩ := of_decide_eq_true hp
  refine ⟨smallKmem, _, s, PHYSTOP - 2 * PGSIZE, kinit_small, hr.mono fun _ _ h => of_decide_eq_true h,
    by decide +kernel, href, fun t => ?_, fun L hL => ?_⟩
  · cases t
    · simp [hfalse, Pc.transit]
    · simp [htrue, Pc.transit]
  · rw [hhead] at hL
    cases L with
    | nil => exact List.not_mem_nil
    | cons b L =>
      obtain ⟨rfl, -, hL⟩ := hL
      rw [hlink] at hL
      cases L with
      | nil => decide +kernel
      | cons c L =>
        obtain ⟨rfl, -, hL⟩ := hL
        rw [hnext] at hL
        cases L with
        | nil => decide +kernel
        | cons d L =>
          obtain ⟨rfl, h0, -⟩ := hL
          exact absurd rfl h0

end Xv6.Alloc
