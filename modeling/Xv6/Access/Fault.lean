import Xv6.Mem.Tables
import Xv6.Mmap

/-!
# What a page fault does

`vmfault` looks at the area table and at `sz` before it looks at memory: which page it would load, and
with which permissions, is `Vm.faultPage`, a function of the tables alone.  What it leaves in memory is
one of two things:

* `Kept`: no page is mapped and the contents of the mapped pages are as before (table pages may have
  been added on the way);
* `Loaded`: one entry is new, and its frame holds the page that `faultPage` says.

There is no way to a panic, because an area ends below the trapframe.
-/

namespace Xv6

open Xv6.Lib

/-- `*pte & PTE_R`. -/
def pteR (pte : Nat) : Bool := pte.testBit 1

theorem pteR_mkPte (pa perm : Nat) : pteR (mkPte pa perm) = perm.testBit 1 := by
  unfold pteR
  rw [mkPte_testBit_low pa perm (by decide)]
  simp

theorem pgrounddown_mod (va : Nat) : pgrounddown va % PGSIZE = 0 := by
  show va / 4096 * 4096 % 4096 = 0
  omega

theorem pgrounddown_le (va : Nat) : pgrounddown va ≤ va := Nat.div_mul_le_self va PGSIZE

theorem pageOf_pgrounddown (va : Nat) : pageOf (pgrounddown va) = pageOf va := by
  show va / 4096 * 4096 / 4096 = va / 4096
  omega

theorem pgrounddown_of_mod {va : Nat} (h : va % PGSIZE = 0) : pgrounddown va = va := by
  have h' : va % 4096 = 0 := h
  show va / 4096 * 4096 = va
  omega

/-! ### Memory inside the machine -/

def Vm.setKmem (v : Vm) (m : Kmem) : Vm := { v with kmem := m }

section

variable (v : Vm) (m m' : Kmem)

@[simp] theorem Vm.setKmem_kmem : (v.setKmem m).kmem = m := rfl
@[simp] theorem Vm.setKmem_area : (v.setKmem m).area = v.area := rfl
@[simp] theorem Vm.setKmem_file : (v.setKmem m).file = v.file := rfl
@[simp] theorem Vm.setKmem_inode : (v.setKmem m).inode = v.inode := rfl
@[simp] theorem Vm.setKmem_setKmem : (v.setKmem m).setKmem m' = v.setKmem m' := rfl
@[simp] theorem Vm.setKmem_self : v.setKmem v.kmem = v := rfl

end

theorem wp_onKmem {α : Type} {x : KmemM α} {v : Vm} {Q : α → Vm → Prop} {E : Panic → Prop} :
    wp (onKmem x) v Q E ↔ wp x v.kmem (fun a m => Q a (v.setKmem m)) fun e => E (.mem e) := wp_zoom

/-! ### What the tables say -/

/-- The area that `mmap_lookup` finds. -/
def Vm.areaAt (v : Vm) (p : Fin NPROC) (va : Nat) : Option MmapArea :=
  (v.findArea fun a => a.p == some p && a.covers va).map v.area

/-- What `mmap_map_page` puts into the page at `va`, `none` when it cannot. -/
def Vm.fillOf (v : Vm) (a : MmapArea) (va : Nat) : Option Page :=
  if mapAnonymous a.flags then some (fillPage 0)
  else
    match a.f with
    | none => none
    | some f =>
      if (v.file f).type ≠ .inode then none
      else
        let off := u32 (a.offset + (va - a.addr : Nat))
        let ip := v.inode (v.file f).ip
        some (blit (fillPage 0) 0 (readiCount ip off PGSIZE) fun b => ip.data (off + b))

/-- The page that a fault at the page address `va` loads, and the permissions of its entry. -/
def Vm.faultPage (v : Vm) (p : Fin NPROC) (sz va : Nat) (read : Bool) : Option (Page × Nat) :=
  match v.areaAt p va with
  | some a =>
    if !read && !hasBit a.prot 1 then none else (v.fillOf a va).map fun g => (g, mmapPtePerm a.prot)
  | none =>
    if MMAPBASE ≤ va ∨ sz ≤ va then none else some (fillPage 0, PTE_W ||| PTE_U ||| PTE_R)

@[simp] theorem Vm.areaAt_setKmem (v : Vm) (m : Kmem) (p : Fin NPROC) (va : Nat) :
    (v.setKmem m).areaAt p va = v.areaAt p va := rfl

@[simp] theorem Vm.fillOf_setKmem (v : Vm) (m : Kmem) (a : MmapArea) (va : Nat) :
    (v.setKmem m).fillOf a va = v.fillOf a va := rfl

/-- The areas of a process lie in `[MMAPBASE, TRAPFRAME)`. -/
def Vm.AreasIn (v : Vm) (p : Fin NPROC) : Prop :=
  ∀ i, (v.area i).p = some p → MMAPBASE ≤ (v.area i).addr ∧
    (v.area i).addr + u64 (v.area i).length ≤ TRAPFRAME

theorem Vm.areaAt_some {v : Vm} {p : Fin NPROC} {va : Nat} {a : MmapArea} (h : v.areaAt p va = some a) :
    ∃ i, v.area i = a ∧ a.p = some p ∧ a.covers va = true := by
  unfold Vm.areaAt at h
  obtain ⟨i, hi, rfl⟩ := Option.map_eq_some_iff.1 h
  have hq := List.find?_some hi
  rw [Bool.and_eq_true, beq_iff_eq] at hq
  exact ⟨i, rfl, hq.1, hq.2⟩

theorem Vm.AreasIn.lt {v : Vm} {p : Fin NPROC} (h : v.AreasIn p) {va : Nat} {a : MmapArea}
    (ha : v.areaAt p va = some a) : MMAPBASE ≤ va ∧ va < TRAPFRAME := by
  obtain ⟨i, rfl, hp, hc⟩ := Vm.areaAt_some ha
  obtain ⟨hlow, hhigh⟩ := h i hp
  unfold MmapArea.covers MmapArea.stop at hc
  rw [Bool.and_eq_true, decide_eq_true_iff, decide_eq_true_iff] at hc
  have hmod : ((v.area i).addr + u64 (v.area i).length) % 2 ^ 64 =
      (v.area i).addr + u64 (v.area i).length :=
    Nat.mod_eq_of_lt (Nat.lt_of_le_of_lt hhigh (by decide))
  rw [hmod] at hc
  omega

theorem Vm.AreasIn.fault_lt {v : Vm} {p : Fin NPROC} (h : v.AreasIn p) {sz va : Nat} {read : Bool}
    {x : Page × Nat} (hx : v.faultPage p sz va read = some x) : va < TRAPFRAME := by
  unfold Vm.faultPage at hx
  cases ha : v.areaAt p va with
  | some a => exact (h.lt ha).2
  | none =>
    rw [ha] at hx
    dsimp only at hx
    split at hx
    · cases hx
    · have hlt : ¬ MMAPBASE ≤ va := fun hle => by simp_all
      exact Nat.lt_trans (Nat.lt_of_not_le hlt) (by decide)

theorem mmapPtePerm_lt (prot : Int) : mmapPtePerm prot < 1024 := by
  unfold mmapPtePerm
  split <;> decide

theorem Vm.faultPage_perm {v : Vm} {p : Fin NPROC} {sz va : Nat} {read : Bool} {g : Page} {perm : Nat}
    (h : v.faultPage p sz va read = some (g, perm)) :
    perm < 1024 ∧ perm.testBit 4 = true ∧ perm.testBit 1 = true ∧ (read = false → perm.testBit 2 = true) := by
  unfold Vm.faultPage at h
  split at h
  · rename_i a _
    split at h
    · cases h
    · rename_i hw
      obtain ⟨g', -, hg⟩ := Option.map_eq_some_iff.1 h
      cases hg
      refine ⟨mmapPtePerm_lt _, ?_, ?_, fun hread => ?_⟩
      · unfold mmapPtePerm
        split <;> decide
      · unfold mmapPtePerm
        split <;> decide
      · subst hread
        have hbit : hasBit a.prot 1 = true := by
          cases hb : hasBit a.prot 1 with
          | true => rfl
          | false => simp [hb] at hw
        unfold mmapPtePerm
        rw [if_pos hbit]
        decide
  · split at h
    · cases h
    · obtain ⟨-, rfl⟩ := Prod.mk.inj (Option.some.inj h)
      exact ⟨by decide, by decide, by decide, fun _ => by decide⟩

/-! ### Steps -/

section

variable {m m' : Kmem} {r va : Nat} {E : MemPanic → Prop}

theorem wp_ismapped {Q : Bool → Kmem → Prop} (hva : va < MAXVA)
    (hQ : Q (m.pte r (pageOf va)).isSome m) : wp (ismapped r va) m Q E := by
  unfold ismapped
  rw [wp_bind]
  refine wp_walk hva ?_
  unfold Kmem.pte at hQ
  cases ht : m.node r 2 (pageOf va / 512) with
  | none =>
    rw [ht] at hQ
    exact wp_pure.2 hQ
  | some t =>
    rw [ht] at hQ
    simp only [Option.map_some]
    rw [wp_bind, wp_loadWord, wp_pure]
    simp only [Option.bind_some] at hQ
    cases hv : pteV (m.mem t (pageOf va % 512)) with
    | true | false =>
      rw [hv] at hQ
      exact hQ

/-- The frame of a user page, `0` if there is none. -/
def Kmem.userFrame (m : Kmem) (r n : Nat) : Nat :=
  match m.pte r n with
  | some w => if pteU w then pte2pa w else 0
  | none => 0

theorem Kmem.userFrame_user {n w : Nat} (hw : m.pte r n = some w) (hu : pteU w = true) :
    m.userFrame r n = pte2pa w := by
  unfold Kmem.userFrame
  rw [hw]
  exact if_pos hu

theorem Kmem.userFrame_kernel {n w : Nat} (hw : m.pte r n = some w) (hu : pteU w = false) :
    m.userFrame r n = 0 := by
  unfold Kmem.userFrame
  rw [hw]
  exact if_neg (by rw [hu]; exact Bool.false_ne_true)

theorem Kmem.userFrame_none {n : Nat} (hw : m.pte r n = none) : m.userFrame r n = 0 := by
  unfold Kmem.userFrame
  rw [hw]

theorem wp_walkaddr {Q : Nat → Kmem → Prop}
    (hQ : Q (if va < MAXVA then m.userFrame r (pageOf va) else 0) m) : wp (walkaddr r va) m Q E := by
  unfold walkaddr
  by_cases hva : va < MAXVA
  · rw [if_neg (by omega), wp_bind]
    rw [if_pos hva] at hQ
    refine wp_walk hva ?_
    unfold Kmem.userFrame Kmem.pte at hQ
    cases ht : m.node r 2 (pageOf va / 512) with
    | none =>
      rw [ht] at hQ
      exact wp_pure.2 hQ
    | some t =>
      rw [ht] at hQ
      simp only [Option.map_some]
      rw [wp_bind, wp_loadWord]
      simp only [Option.bind_some] at hQ
      cases hv : pteV (m.mem t (pageOf va % 512)) with
      | false =>
        rw [hv] at hQ
        exact wp_pure.2 hQ
      | true =>
        rw [hv] at hQ
        rw [if_pos rfl] at hQ
        dsimp only at hQ
        rw [if_neg (by simp)]
        cases hu : pteU (m.mem t (pageOf va % 512)) with
        | false | true =>
          rw [hu] at hQ
          exact wp_pure.2 hQ
  · rw [if_pos (by omega), wp_pure]
    rw [if_neg hva] at hQ
    exact hQ

theorem wp_mmapFillPage {v : Vm} {a : MmapArea} {mem : Nat} {Q : Bool → Vm → Prop} {E : Panic → Prop}
    (hok : ∀ g, v.fillOf a va = some g → Q true (v.setKmem (v.kmem.setPage mem g)))
    (hfail : v.fillOf a va = none → Q false (v.setKmem (v.kmem.setPage mem (fillPage 0)))) :
    wp (mmapFillPage a mem va) v Q E := by
  unfold mmapFillPage
  rw [wp_bind, wp_onKmem, wp_memsetPage]
  unfold Vm.fillOf at hok hfail
  split
  · rename_i han
    rw [if_pos han] at hok
    exact wp_pure.2 (hok _ rfl)
  · rename_i han
    rw [if_neg han] at hok hfail
    rw [wp_bind, wp_get]
    cases hf : a.f with
    | none =>
      rw [hf] at hfail
      exact wp_pure.2 (hfail rfl)
    | some f =>
      rw [hf] at hok hfail
      dsimp only at hok hfail ⊢
      split
      · rename_i hty
        have hty' : (v.file f).type ≠ .inode := hty
        rw [if_pos hty'] at hfail
        exact wp_pure.2 (hfail rfl)
      · rename_i hty
        have hty' : ¬ (v.file f).type ≠ .inode := hty
        rw [if_neg hty'] at hok
        rw [wp_bind, readi, wp_bind, wp_get, wp_bind, wp_onKmem, wp_modify, wp_pure, wp_pure]
        have h := hok _ rfl
        simp only [Vm.setKmem_kmem, Vm.setKmem_inode, Vm.setKmem_file, Vm.setKmem_setKmem, Kmem.setPage,
          upd_same, upd_upd] at h ⊢
        exact h

end

/-! ### Memory across a fault -/

section

variable [Image] {P : Policy} {m m₁ m' m'' : Kmem} {K T : Nat → Nat} {R : Finset Nat}
  {r va a : Nat} {E : Panic → Prop} {F : MemPanic → Prop}

/-- The leaves are as they were. -/
structure Same (P : Policy) (K T : Nat → Nat) (R : Finset Nat) (m m' : Kmem) : Prop where
  inv : MemInv P m' K T R
  pte : ∀ r ∈ R, ∀ n, m'.pte r n = m.pte r n

/-- The entry `w` for page `n` of the page table `r` is new, and the other leaves are as they were. -/
structure Added (P : Policy) (K T : Nat → Nat) (R : Finset Nat) (m m' : Kmem) (r n w : Nat) : Prop where
  inv : MemInv P m' K T R
  pte : ∀ r' ∈ R, ∀ n', m'.pte r' n' = if (r', n') = (r, n) then some w else m.pte r' n'

/-- The frame `a` was taken from the free list. -/
structure Took (P : Policy) (K T : Nat → Nat) (R : Finset Nat) (m m' : Kmem) (a : Nat) : Prop where
  inv : MemInv P m' (K + one a) T R
  pte : ∀ r ∈ R, ∀ n, m'.pte r n = m.pte r n
  managed : badPage a = false

theorem Same.refl (h : MemInv P m K T R) : Same P K T R m m := ⟨h, fun _ _ _ => rfl⟩

omit [Image] in
theorem one_add_pos (K : Nat → Nat) (a : Nat) : 0 < (K + one a) a := by
  show 0 < K a + one a a
  rw [one_self]
  omega

theorem wp_kalloc_took (h : MemInv P m K T R) {Q : Option Nat → Kmem → Prop}
    (hnone : m.nfree = 0 → Q none m)
    (hsome : ∀ a m', Took P K T R m m' a → SameTables R m m' → m'.nfree + 1 = m.nfree →
      Q (some a) m') : wp kalloc m Q F := by
  refine wp_conseq (wp_kalloc h) fun o m' ho => ?_
  cases o with
  | none =>
    rw [ho.1]
    exact hnone ho.2
  | some a =>
    obtain ⟨hinv, -, -, hb, -, htab, hnf⟩ := ho
    exact hsome a m' ⟨hinv, fun r hr n => Kmem.pte_congr htab hr n, hb⟩ (.of_mem htab) hnf

theorem Took.setPage_mem (h : Took P K T R m m₁ a) (g : Page) {b : Nat} (hb : m₁.IsTable R b) :
    (m₁.setPage a g).mem b = m₁.mem b := by
  refine upd_other _ _ ?_
  rintro rfl
  exact Kmem.not_isTable (h.inv.kern_refs (one_add_pos K b)).2.2.2 hb

theorem Took.setPage (h : Took P K T R m m₁ a) (g : Page) : Took P K T R m (m₁.setPage a g) a := by
  refine ⟨h.inv.setKernPage (one_add_pos K a) g, fun r hr n => ?_, h.managed⟩
  rw [← h.pte r hr n]
  exact Kmem.pte_congr (fun b hb => h.setPage_mem g hb) hr n

theorem Took.setPage_tables (h : Took P K T R m m₁ a) (htab : SameTables R m m₁) (g : Page) :
    SameTables R m (m₁.setPage a g) := htab.trans (.of_mem fun _ hb => h.setPage_mem g hb)

theorem Took.kfree (h : Took P K T R m m₁ a) :
    wp (kfree a) m₁ (fun _ m' => Same P K T R m m' ∧ SameTables R m₁ m') F := by
  refine wp_conseq (wp_kfree_kern h.inv) fun _ m' hm => ⟨⟨hm.1, fun r hr n => ?_⟩, .of_mem hm.2.2⟩
  rw [Kmem.pte_congr hm.2.2 hr, h.pte r hr]

/-- **The new frame is mapped**, or given back when memory runs out. -/
theorem Took.mappages {v : Vm} (h : Took P K T R v.kmem m₁ a) (htab : SameTables R v.kmem m₁)
    (hnf : m₁.nfree + 1 = v.kmem.nfree) (hr : r ∈ R) (hva : va % PGSIZE = 0)
    (hlt : va < TRAPFRAME) (hnone : v.kmem.pte r (pageOf va) = none) {perm : Nat} (hperm : perm < 1024)
    (hok : P.ok r (pageOf va) (mkPte a perm) (m₁.mem a)) {Q : Bool → Vm → Prop}
    (htrue : ∀ m', Added P K T R v.kmem m' r (pageOf va) (mkPte a perm) →
      Branched R r (· = pageOf va) v.kmem m' → v.kmem.nfree ≤ m'.nfree + 3 → Q true (v.setKmem m'))
    (hfalse : ∀ m', Same P K T R v.kmem m' → Branched R r (· = pageOf va) v.kmem m' →
      v.kmem.nfree < 3 → Q false (v.setKmem m')) :
    wp (do
      if ← onKmem (Xv6.mappages r va PGSIZE a perm) then pure true
      else do
        onKmem (Xv6.kfree a)
        pure false : VmM Bool) (v.setKmem m₁) Q E := by
  have hmax : ¬ MAXVA ≤ va := Nat.not_le_of_lt (Nat.lt_trans hlt (by decide))
  have htf : pageOf va ≠ tfPage := by
    intro he
    have hmul := mul_pageOf hva
    rw [he] at hmul
    have : tfPage * PGSIZE = TRAPFRAME := by decide
    omega
  have hnone₁ : m₁.pte r (pageOf va) = none := by rw [h.pte r hr, hnone]
  rw [wp_bind, wp_onKmem]
  refine wp_conseq (wp_mappage h.inv hr hva (fun hle => absurd hle hmax) (fun hne => absurd hnone₁ hne)
    fun m₂ t n i hg ht hi hni hn => (?_ : MemInv P (m₂.setEntry t i (mkPte a perm)) K T R))
    fun b m₂ hm => ?_
  · rw [← hni] at htf hok hn
    refine hg.inv.mapFresh hr ht hi htf hn (pteV_mkPte a perm)
      (pte2pa_mkPte (aligned_of_managed h.managed) hperm) ?_
    rw [hg.kern a (one_add_pos K a)]
    exact hok
  · cases b with
    | false =>
      obtain ⟨hg, hbranch, hlow⟩ := hm
      have hlow' : m₁.nfree < 2 := hlow
      have htook : Took P K T R v.kmem m₂ a :=
        ⟨hg.inv, fun r' hr' n => (hg.pte r' hr' n).trans (h.pte r' hr' n), h.managed⟩
      rw [if_neg Bool.false_ne_true, wp_bind, wp_onKmem]
      refine wp_conseq htook.kfree fun _ m' hm' => wp_pure.2 (hfalse m' hm'.1 ?_ (by omega))
      exact ((htab.branched r _).trans hbranch).trans (hm'.2.branched r _)
    | true =>
      obtain ⟨hinv, -, hle, hpte, hbranch⟩ := hm
      have hle' : m₁.nfree ≤ m₂.nfree + 2 := hle
      rw [if_pos rfl]
      refine wp_pure.2 (htrue m₂ ⟨hinv, fun r' hr' n => ?_⟩ ((htab.branched r _).trans hbranch)
        (by omega))
      rw [hpte r' hr' n, Vm.setKmem_kmem, h.pte r' hr' n]

/-- **A fault and the free pages**: it takes three of them at most, and it does not fail for lack of
memory if there are three. -/
def Spent (v : Vm) (r n : Nat) (x : Option (Page × Nat)) : Bool → Vm → Prop
  | true, v' => v.kmem.nfree ≤ v'.kmem.nfree + 3
  | false, _ => x = none ∨ v.kmem.pte r n ≠ none ∨ v.kmem.nfree < 3

/-- What a fault leaves, for any policy that the new leaf meets. -/
def FaultPost (P : Policy) (K T : Nat → Nat) (R : Finset Nat) (v : Vm) (r n : Nat)
    (x : Option (Page × Nat)) (b : Bool) (v' : Vm) : Prop :=
  ∃ m', v' = v.setKmem m' ∧ Branched R r (· = n) v.kmem m' ∧
    (b = false → Same P K T R v.kmem m') ∧
    (b = true → ∃ a g perm, badPage a = false ∧ x = some (g, perm) ∧ v.kmem.pte r n = none ∧
      Added P K T R v.kmem m' r n (mkPte a perm)) ∧ Spent v r n x b v'

theorem FaultPost.refuse {v : Vm} (h : MemInv P v.kmem K T R) {r n : Nat} {x : Option (Page × Nat)}
    (hwhy : x = none ∨ v.kmem.pte r n ≠ none ∨ v.kmem.nfree < 3) :
    FaultPost P K T R v r n x false v :=
  ⟨v.kmem, rfl, Branched.refl _ _ _ _, fun _ => .refl h, fun hb => (by cases hb), hwhy⟩

/-- The end of a fault: the new page is filled, and mapped if memory lasts. -/
theorem Took.finish {v : Vm} (h : Took P K T R v.kmem m₁ a) (htab : SameTables R v.kmem m₁)
    (hnf : m₁.nfree + 1 = v.kmem.nfree) (hr : r ∈ R) (hva : va % PGSIZE = 0)
    (hlt : va < TRAPFRAME) (hnone : v.kmem.pte r (pageOf va) = none) {g : Page} {perm : Nat}
    (hg : m₁.mem a = g) {x : Option (Page × Nat)} (hx : x = some (g, perm)) (hperm : perm < 1024)
    (hok : P.ok r (pageOf va) (mkPte a perm) g) :
    wp (do
      if ← onKmem (Xv6.mappages r va PGSIZE a perm) then pure true
      else do
        onKmem (Xv6.kfree a)
        pure false : VmM Bool) (v.setKmem m₁) (FaultPost P K T R v r (pageOf va) x) E := by
  subst hg
  refine h.mappages htab hnf hr hva hlt hnone hperm hok (fun m' hm hbr hle => ?_)
    fun m' hm hbr hlow => ?_
  · exact ⟨m', rfl, hbr, fun hb => (by cases hb), fun _ => ⟨a, _, perm, h.managed, hx, hnone, hm⟩, hle⟩
  · exact ⟨m', rfl, hbr, fun _ => hm, fun hb => (by cases hb), .inr (.inr hlow)⟩

/-- **`mmap_map_page`** at a page of the area that is not mapped. -/
theorem wp_mmapMapPage {v : Vm} {b : MmapArea} (h : MemInv P v.kmem K T R) (hr : r ∈ R)
    (hva : va % PGSIZE = 0) (hc : b.covers va = true) (hlt : va < TRAPFRAME)
    (hnone : v.kmem.pte r (pageOf va) = none)
    (hok : ∀ a g, badPage a = false → v.fillOf b va = some g →
      P.ok r (pageOf va) (mkPte a (mmapPtePerm b.prot)) g) :
    wp (mmapMapPage b r va) v (FaultPost P K T R v r (pageOf va)
      ((v.fillOf b va).map fun g => (g, mmapPtePerm b.prot))) E := by
  have hmax : va < MAXVA := Nat.lt_trans hlt (by decide)
  unfold mmapMapPage
  simp only [pgrounddown_of_mod hva, hc, Bool.not_true, Bool.false_eq_true, if_false]
  rw [wp_bind, wp_onKmem]
  refine wp_ismapped hmax ?_
  rw [hnone, Option.isSome_none, if_neg Bool.false_ne_true, wp_bind, wp_onKmem]
  refine wp_kalloc_took h (fun h0 => wp_pure.2 (.refuse h (.inr (.inr (by omega)))))
    fun a m₁ ht htab hnf => ?_
  dsimp only
  rw [wp_bind]
  refine wp_mmapFillPage (fun g hg => ?_) fun hg => ?_
  · rw [if_pos rfl]
    have hfill : v.fillOf b va = some g := hg
    refine (ht.setPage g).finish (ht.setPage_tables htab g) hnf hr hva hlt hnone (upd_same _ _ _) ?_
      (mmapPtePerm_lt _) (hok a g ht.managed hfill)
    rw [hfill]
    rfl
  · rw [if_neg Bool.false_ne_true, wp_bind, wp_onKmem]
    refine wp_conseq (ht.setPage (fillPage 0)).kfree fun _ m' hm => wp_pure.2 ?_
    have hsame := (ht.setPage_tables htab (fillPage 0)).trans hm.2
    refine ⟨m', rfl, hsame.branched r _, fun _ => hm.1, fun hb => (by cases hb), .inl ?_⟩
    have hfill : v.fillOf b va = none := hg
    rw [hfill]
    rfl

/-- **`vmfault`**, for any policy that the new leaf meets. -/
theorem wp_vmfault_policy {v : Vm} {p : Fin NPROC} {sz : Nat} {read : Bool} (h : MemInv P v.kmem K T R)
    (hr : r ∈ R) (hin : v.AreasIn p)
    (hok : ∀ a g perm, badPage a = false → v.kmem.pte r (pageOf va) = none →
      v.faultPage p sz (pgrounddown va) read = some (g, perm) → P.ok r (pageOf va) (mkPte a perm) g) :
    wp (vmfault p sz r va read) v
      (FaultPost P K T R v r (pageOf va) (v.faultPage p sz (pgrounddown va) read)) E := by
  have hmod := pgrounddown_mod va
  have hpage := pageOf_pgrounddown va
  have hlt : ∀ x, v.faultPage p sz (pgrounddown va) read = some x → pgrounddown va < TRAPFRAME :=
    fun x hx => hin.fault_lt hx
  unfold vmfault
  dsimp only
  generalize pgrounddown va = va' at *
  rw [← hpage] at hok ⊢
  rw [wp_bind, mmapLookup, wp_bind, wp_get, wp_pure]
  have hfind : (v.findArea fun a => a.p == some p && a.covers va').map v.area = v.areaAt p va' := rfl
  rw [hfind]
  unfold Vm.faultPage at hok hlt ⊢
  cases harea : v.areaAt p va' with
  | some b =>
    rw [harea] at hok
    dsimp only at hok ⊢
    obtain ⟨-, -, -, hc⟩ := Vm.areaAt_some harea
    have hltb := (hin.lt harea).2
    split
    · exact wp_pure.2 (.refuse h (.inl rfl))
    · rename_i hw
      rw [wp_bind, wp_onKmem]
      refine wp_ismapped (Nat.lt_trans hltb (by decide)) ?_
      cases hnone : v.kmem.pte r (pageOf va') with
      | some w =>
        rw [Option.isSome_some, if_pos rfl]
        exact wp_pure.2 (.refuse h (.inr (.inl (by rw [hnone]; exact Option.some_ne_none w))))
      | none =>
        rw [Option.isSome_none, if_neg Bool.false_ne_true]
        refine wp_mmapMapPage h hr hmod hc hltb hnone fun a g hb hg => hok a g _ hb hnone ?_
        have hfill : v.fillOf b va' = some g := hg
        rw [if_neg hw, hfill]
        rfl
  | none =>
    rw [harea] at hok hlt
    dsimp only at hok hlt ⊢
    by_cases hbase : MMAPBASE ≤ va'
    · rw [if_pos hbase]
      exact wp_pure.2 (.refuse h (.inl (if_pos (.inl hbase))))
    by_cases hsz : sz ≤ va'
    · rw [if_neg hbase, if_pos hsz]
      exact wp_pure.2 (.refuse h (.inl (if_pos (.inr hsz))))
    have hcond : ¬ (MMAPBASE ≤ va' ∨ sz ≤ va') := fun hor => hor.elim hbase hsz
    rw [if_neg hcond] at hok hlt ⊢
    have hltb := hlt _ rfl
    rw [if_neg hbase, if_neg hsz, wp_bind, wp_onKmem]
    refine wp_ismapped (Nat.lt_trans hltb (by decide)) ?_
    cases hnone : v.kmem.pte r (pageOf va') with
    | some w =>
      rw [Option.isSome_some, if_pos rfl]
      exact wp_pure.2 (.refuse h (.inr (.inl (by rw [hnone]; exact Option.some_ne_none w))))
    | none =>
      rw [Option.isSome_none, if_neg Bool.false_ne_true, wp_bind, wp_onKmem]
      refine wp_kalloc_took h (fun h0 => wp_pure.2 (.refuse h (.inr (.inr (by omega)))))
        fun a m₁ ht htab hnf => ?_
      dsimp only
      rw [wp_bind, wp_onKmem, wp_memsetPage]
      exact (ht.setPage (fillPage 0)).finish (ht.setPage_tables htab _) hnf hr hmod hltb hnone
        (upd_same _ _ _) rfl (by decide) (hok a _ _ ht.managed hnone rfl)

end

end Xv6
