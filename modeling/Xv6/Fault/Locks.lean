import Xv6.Fault.Model

/-!
# The locks under which a page fault locks an inode

A copy to or from a buffer goes through its bytes in order and stops at the first page that
cannot be used.  Until then it fills the pages that are not resident, and it locks an inode
exactly at the pages of a mapped file that are not resident.  So what a call locks, and under
which locks, is read off the memory before the call.
-/

namespace Xv6.Fault

open Xv6.Lib Eff

namespace Space

/-- The page of `va` is filled from the inode `ip` when it is touched. -/
def Lazy (m : Space) (write : Bool) (va ip : Nat) : Prop :=
  va / PGSIZE * PGSIZE < MAXVA ∧ m.page (va / PGSIZE) = .unmapped ∧
    m.frame (va / PGSIZE) = true ∧
    ∃ a, m.mmapLookup (va / PGSIZE * PGSIZE) = some a ∧ a.backing = .inode ip ∧
      (write = true → a.write = true)

/-- The page of `va` may be written in the area that covers it, or in the heap. -/
def grant (m : Space) (pg : Nat) : Bool :=
  match m.mmapLookup (pg * PGSIZE) with
  | some a => a.write
  | none => true

/-- A page that is not resident can be made so. -/
def Fillable (m : Space) (pg : Nat) : Prop :=
  m.frame pg = true ∧ m.tables pg = true ∧
    match m.mmapLookup (pg * PGSIZE) with
    | some a => a.backing ≠ .missing
    | none => pg * PGSIZE < MMAPBASE ∧ pg * PGSIZE < m.sz

/-- A copy gets past the page of `va`. -/
def Usable (m : Space) (write : Bool) (va : Nat) : Prop :=
  va / PGSIZE * PGSIZE < MAXVA ∧
    match m.page (va / PGSIZE) with
    | .user w => write = true → w = true
    | .kernel => False
    | .unmapped =>
      m.Fillable (va / PGSIZE) ∧ (write = true → m.grant (va / PGSIZE) = true)

/-- The memory once the first `i` bytes from `addr` have been touched. -/
def fill (m : Space) (addr i : Nat) : Space :=
  { m with page := fun pg =>
      if addr / PGSIZE ≤ pg ∧ pg * PGSIZE < addr + i ∧ i ≠ 0 ∧ m.page pg = .unmapped then
        .user (m.grant pg)
      else m.page pg }

variable {m : Space} {write : Bool} {addr i va ip pg : Nat}

@[simp] theorem fill_zero : m.fill addr 0 = m := by simp [fill]

@[simp] theorem grant_fill : (m.fill addr i).grant pg = m.grant pg := rfl

/-! ## One round -/

theorem vmfault_eq (write : Bool) (hpg : pg * PGSIZE < MAXVA) (hp : m.page pg = .unmapped) :
    m.vmfault pg (!write) =
      match m.mmapLookup (pg * PGSIZE) with
      | some a =>
        if write && !a.write || !m.frame pg then ⟨none, .fail, m⟩
        else
          match a.backing with
          | .anonymous => m.mappages pg a.write none
          | .inode ip => m.mappages pg a.write (some ip)
          | .missing => ⟨none, .fail, m⟩
      | none =>
        if MMAPBASE ≤ pg * PGSIZE ∨ m.sz ≤ pg * PGSIZE ∨ m.frame pg = false then ⟨none, .fail, m⟩
        else m.mappages pg true none := by
  have hlt : ¬ MAXVA ≤ pg * PGSIZE := Nat.not_le.2 hpg
  rw [vmfault]
  cases ha : m.mmapLookup (pg * PGSIZE) with
  | some a =>
    have hc : a.Covers (pg * PGSIZE) := by
      have := List.find?_some ha
      exact of_decide_eq_true this
    cases write <;> cases hw : a.write <;> cases hf : m.frame pg <;> cases hb : a.backing <;>
      simp [mmapMapPage, hlt, hp, hc, hw, hf, hb]
  | none =>
    by_cases h₁ : MMAPBASE ≤ pg * PGSIZE
    · simp [h₁]
    · by_cases h₂ : m.sz ≤ pg * PGSIZE
      · simp [h₁, h₂]
      · cases m.frame pg <;> simp [h₁, h₂, hp]

theorem touch_resident {w : Bool} (hpg : pg * PGSIZE < MAXVA) (hp : m.page pg = .user w) :
    m.touch write pg = if write && !w then ⟨none, .fail, m⟩ else ⟨none, .ok, m⟩ := by
  have hlt : ¬ MAXVA ≤ pg * PGSIZE := Nat.not_le.2 hpg
  cases write <;> cases w <;> simp [touch, walkaddr, found, hlt, hp]

theorem touch_fault (hpg : pg * PGSIZE < MAXVA) (hw : m.walkaddr pg = none) :
    m.touch write pg =
      match (m.vmfault pg (!write)).result, (m.vmfault pg (!write)).space.walkaddr pg with
      | .ok, some w => found (m.vmfault pg (!write)) write w
      | .ok, none => { m.vmfault pg (!write) with result := .fail }
      | _, _ => m.vmfault pg (!write) := by
  have hlt : ¬ MAXVA ≤ pg * PGSIZE := Nat.not_le.2 hpg
  rw [touch, hw]
  exact if_neg (by simp [hlt])

theorem touch_kernel (hpg : pg * PGSIZE < MAXVA) (hp : m.page pg = .kernel) :
    (m.touch write pg).ilock = none ∧ (m.touch write pg).result ≠ .ok := by
  have hlt : ¬ MAXVA ≤ pg * PGSIZE := Nat.not_le.2 hpg
  have hf : m.vmfault pg (!write) = ⟨none, .fail, m⟩ := by
    rw [vmfault]
    cases m.mmapLookup (pg * PGSIZE) with
    | some a => cases write <;> cases hw : a.write <;> simp [hlt, hp, hw]
    | none => simp [hp]
  rw [touch_fault hpg (by simp [walkaddr, hlt, hp]), hf]
  simp

theorem touch_beyond (hpg : MAXVA ≤ pg * PGSIZE) :
    (m.touch write pg).ilock = none ∧ (m.touch write pg).result ≠ .ok := by
  have hbase : MMAPBASE ≤ pg * PGSIZE := Nat.le_trans (by decide) hpg
  cases write with
  | true => simp [touch, hpg]
  | false =>
    have hw : m.walkaddr pg = none := by simp [walkaddr, hpg]
    rw [touch, hw, vmfault]
    cases m.mmapLookup (pg * PGSIZE) <;> simp [hpg, hbase]

variable {o : Option Nat}

theorem touch_mappages {w : Bool} (hpg : pg * PGSIZE < MAXVA) (hp : m.page pg = .unmapped)
    (hf : m.vmfault pg (!write) = m.mappages pg w o) (hw : write = true → w = true) :
    m.touch write pg =
      if m.tables pg then ⟨o, .ok, { m with page := upd m.page pg (.user w) }⟩
      else ⟨o, .fail, m⟩ := by
  have hlt : ¬ MAXVA ≤ pg * PGSIZE := Nat.not_le.2 hpg
  rw [touch_fault hpg (by simp [walkaddr, hp]), hf]
  cases ht : m.tables pg with
  | false => simp [mappages, ht]
  | true =>
    have : (write && !w) = false := by cases write <;> simp_all
    simp [mappages, ht, walkaddr, hlt, found, this]

theorem touch_unmapped (hpg : pg * PGSIZE < MAXVA) (hp : m.page pg = .unmapped) :
    (∀ ip, (m.touch write pg).ilock = some ip ↔ m.frame pg = true ∧
      ∃ a, m.mmapLookup (pg * PGSIZE) = some a ∧ a.backing = .inode ip ∧
        (write = true → a.write = true)) ∧
    ((m.touch write pg).result = .ok ↔
      m.Fillable pg ∧ (write = true → m.grant pg = true)) ∧
    ((m.touch write pg).result = .ok →
      (m.touch write pg).space = { m with page := upd m.page pg (.user (m.grant pg)) }) := by
  have hwalk : m.walkaddr pg = none := by simp [walkaddr, hp]
  have hv := vmfault_eq write hpg hp
  cases ha : m.mmapLookup (pg * PGSIZE) with
  | none =>
    have hg : m.grant pg = true := by simp [grant, ha]
    simp only [ha] at hv
    split at hv
    case isTrue h =>
      have : m.touch write pg = ⟨none, .fail, m⟩ := by rw [touch_fault hpg hwalk, hv]
      rw [this]
      refine ⟨fun ip => by simp, ?_, by simp⟩
      simp only [Fillable, ha, reduceCtorEq, false_iff, not_and]
      rintro ⟨hf, -, h₁, h₂⟩
      obtain h | h | h := h
      · omega
      · omega
      · simp [hf] at h
    case isFalse h =>
      rw [touch_mappages hpg hp hv (fun _ => rfl)]
      simp only [not_or, Nat.not_le, Bool.not_eq_false] at h
      cases ht : m.tables pg <;> simp [Fillable, ha, h, ht, hg]
  | some a =>
    have hg : m.grant pg = a.write := by simp [grant, ha]
    simp only [ha] at hv
    split at hv
    case isTrue h =>
      have : m.touch write pg = ⟨none, .fail, m⟩ := by rw [touch_fault hpg hwalk, hv]
      rw [this]
      cases write <;> cases hw : a.write <;> cases hf : m.frame pg <;>
        simp_all [Fillable]
    case isFalse h =>
      have hw : write = true → a.write = true := by
        cases write <;> cases hw : a.write <;> simp_all
      have hf : m.frame pg = true := by cases hf : m.frame pg <;> simp_all
      cases hb : a.backing with
      | missing =>
        have : m.touch write pg = ⟨none, .fail, m⟩ := by rw [touch_fault hpg hwalk, hv, hb]
        rw [this]
        simp [Fillable, ha, hb]
      | anonymous =>
        rw [hb] at hv
        rw [touch_mappages hpg hp hv hw]
        cases ht : m.tables pg
        · simp [Fillable, ha, hb, ht]
        · simpa [Fillable, ha, hb, ht, hf, hg] using hw
      | inode ip =>
        rw [hb] at hv
        rw [touch_mappages hpg hp hv hw]
        cases ht : m.tables pg <;> simp [Fillable, ha, hb, ht, hf, hg] <;> exact hw

/-! ## What was touched -/

theorem touch_ilock : (m.touch write (va / PGSIZE)).ilock = some ip ↔ m.Lazy write va ip := by
  rcases Nat.lt_or_ge (va / PGSIZE * PGSIZE) MAXVA with hpg | hpg
  · cases hp : m.page (va / PGSIZE) with
    | user w =>
      rw [touch_resident hpg hp]
      simp only [Lazy, hp, reduceCtorEq, false_and, and_false, iff_false]
      split <;> simp
    | kernel => simp [(touch_kernel hpg hp).1, Lazy, hp]
    | unmapped => simp [(touch_unmapped hpg hp).1, Lazy, hp, hpg]
  · simp [(touch_beyond hpg).1, Lazy, Nat.not_lt.2 hpg]

theorem touch_ok : (m.touch write (va / PGSIZE)).result = .ok ↔ m.Usable write va := by
  rcases Nat.lt_or_ge (va / PGSIZE * PGSIZE) MAXVA with hpg | hpg
  · cases hp : m.page (va / PGSIZE) with
    | user w =>
      rw [touch_resident hpg hp]
      cases write <;> cases w <;> simp [Usable, hp, hpg]
    | kernel => simp [(touch_kernel hpg hp).2, Usable, hp]
    | unmapped => simp [(touch_unmapped hpg hp).2.1, Usable, hp, hpg]
  · simp [(touch_beyond hpg).2, Usable, Nat.not_lt.2 hpg]

theorem page_fill : (m.fill addr i).page pg =
    if addr / PGSIZE ≤ pg ∧ pg * PGSIZE < addr + i ∧ i ≠ 0 ∧ m.page pg = .unmapped then
      .user (m.grant pg)
    else m.page pg := rfl

theorem fill_ext {n : Space} (ha : n.area = m.area) (hs : n.sz = m.sz) (hf : n.frame = m.frame)
    (ht : n.tables = m.tables) (hp : ∀ pg, n.page pg = (m.fill addr i).page pg) :
    n = m.fill addr i := by
  cases n
  cases m
  simp only at ha hs hf ht
  subst ha hs hf ht
  simp only [fill, mk.injEq, true_and, and_true]
  exact funext hp

theorem touch_space (h : m.Usable write va) :
    (m.touch write (va / PGSIZE)).space = m.fill va 1 := by
  have hpg := h.1
  have hone : ∀ pg, va / PGSIZE ≤ pg → pg * PGSIZE < va + 1 → pg = va / PGSIZE := by
    simp only [PGSIZE]
    omega
  cases hp : m.page (va / PGSIZE) with
  | user w =>
    have hs : (m.touch write (va / PGSIZE)).space = m := by
      rw [touch_resident hpg hp]
      split <;> rfl
    rw [hs]
    refine fill_ext rfl rfl rfl rfl fun pg => ?_
    rw [page_fill, if_neg]
    rintro ⟨h₁, h₂, -, h₃⟩
    rw [hone pg h₁ h₂, hp] at h₃
    exact Page.noConfusion h₃
  | kernel => simp [Usable, hp] at h
  | unmapped =>
    rw [(touch_unmapped hpg hp).2.2 (touch_ok.2 h)]
    refine fill_ext rfl rfl rfl rfl fun pg => ?_
    by_cases he : pg = va / PGSIZE
    · subst he
      rw [page_fill, if_pos ⟨Nat.le_refl _, by simp only [PGSIZE]; omega, by decide, hp⟩]
      exact upd_same _ _ _
    · rw [page_fill, if_neg fun h => he (hone pg h.1 h.2.1)]
      exact upd_other _ _ he

theorem fill_fill {n : Nat} (hn : n ≠ 0) (hpage : (addr + i) / PGSIZE = (addr + i + n - 1) / PGSIZE) :
    (m.fill addr i).fill (addr + i) 1 = m.fill addr (i + n) := by
  refine fill_ext rfl rfl rfl rfl fun pg => ?_
  simp only [page_fill, grant_fill, PGSIZE] at hpage ⊢
  have key : ((addr + i) / 4096 ≤ pg ∧ pg * 4096 < addr + i + 1) ∨
      (addr / 4096 ≤ pg ∧ pg * 4096 < addr + i ∧ i ≠ 0) ↔
      addr / 4096 ≤ pg ∧ pg * 4096 < addr + (i + n) ∧ i + n ≠ 0 := by
    constructor <;> intro h <;> omega
  by_cases hu : m.page pg = .unmapped
  · simp only [hu, and_true] at key ⊢
    by_cases h₁ : addr / 4096 ≤ pg ∧ pg * 4096 < addr + i ∧ i ≠ 0
    · rw [if_pos h₁, if_pos (key.1 (Or.inr h₁))]
      simp
    · simp only [← key, h₁, or_false, ne_eq, one_ne_zero, not_false_eq_true, if_false, and_true]
  · simp [hu]

/-- A copy from `addr` gets to byte `i`. -/
def Reaches (m : Space) (write : Bool) (addr i : Nat) : Prop :=
  ∀ j < i, m.Usable write (addr + j)

theorem reaches_zero : m.Reaches write addr 0 := fun _ h => absurd h (Nat.not_lt_zero _)

theorem Reaches.mono {j : Nat} (h : m.Reaches write addr i) (hj : j ≤ i) :
    m.Reaches write addr j := fun k hk => h k (Nat.lt_of_lt_of_le hk hj)

theorem Usable.page {va' : Nat} (h : m.Usable write va) (hp : va' / PGSIZE = va / PGSIZE) :
    m.Usable write va' := by
  rw [Usable, hp]
  exact h

theorem Lazy.page {va' : Nat} (h : m.Lazy write va ip) (hp : va' / PGSIZE = va / PGSIZE) :
    m.Lazy write va' ip := by
  rw [Lazy, hp]
  exact h

/-- The page of byte `i` was touched before that byte. -/
def Seen (addr i : Nat) : Prop := i ≠ 0 ∧ (addr + i) / PGSIZE * PGSIZE < addr + i

theorem Seen.page (h : Seen addr i) : (addr + (i - 1)) / PGSIZE = (addr + i) / PGSIZE := by
  simp only [Seen, PGSIZE] at h ⊢
  omega

theorem page_fill_of_seen (h : Seen addr i) (hu : m.page ((addr + i) / PGSIZE) = .unmapped) :
    (m.fill addr i).page ((addr + i) / PGSIZE) = .user (m.grant ((addr + i) / PGSIZE)) := by
  rw [page_fill, if_pos ⟨Nat.div_le_div_right (Nat.le_add_right _ _), h.2, h.1, hu⟩]

theorem page_fill_of_not (h : ¬ (Seen addr i ∧ m.page ((addr + i) / PGSIZE) = .unmapped)) :
    (m.fill addr i).page ((addr + i) / PGSIZE) = m.page ((addr + i) / PGSIZE) := by
  rw [page_fill, if_neg]
  rintro ⟨-, h₁, h₂, h₃⟩
  exact h ⟨⟨h₂, h₁⟩, h₃⟩

theorem usable_fill (h : m.Reaches write addr i) :
    (m.fill addr i).Usable write (addr + i) ↔ m.Usable write (addr + i) := by
  by_cases hs : Seen addr i ∧ m.page ((addr + i) / PGSIZE) = .unmapped
  · have hu : m.Usable write (addr + i) :=
      (h (i - 1) (by have := hs.1.1; omega)).page hs.1.page.symm
    refine ⟨fun _ => hu, fun _ => ⟨hu.1, ?_⟩⟩
    rw [page_fill_of_seen hs.1 hs.2]
    have := hu.2
    rw [hs.2] at this
    exact this.2
  · rw [Usable, page_fill_of_not hs]
    exact Iff.rfl

theorem lazy_fill : (m.fill addr i).Lazy write (addr + i) ip ↔
    m.Lazy write (addr + i) ip ∧ ¬ Seen addr i := by
  by_cases hu : m.page ((addr + i) / PGSIZE) = .unmapped
  · by_cases hs : Seen addr i
    · simp [Lazy, page_fill_of_seen hs hu, hs]
    · have := page_fill_of_not (m := m) fun h => hs h.1
      simp only [Lazy, this, hs, not_false_eq_true, and_true]
      exact Iff.rfl
  · have : (m.fill addr i).page ((addr + i) / PGSIZE) = m.page ((addr + i) / PGSIZE) :=
      page_fill_of_not fun h => hu h.2
    simp [Lazy, this, hu]

/-! ## Whole copies -/

theorem copy_zero {fuel : Nat} : Space.copy write fuel m va 0 = ⟨[], .ok, m⟩ := by
  cases fuel <;> simp [Space.copy]

/-- What a copy of `len` bytes does once the `i` bytes before it have been copied. -/
structure Copies (m : Space) (write : Bool) (addr i len : Nat) (c : Copy) : Prop where
  /-- It locks the inode of a lazy page that it gets to. -/
  locks : ∀ ip ∈ c.ilocks,
    ∃ j, i ≤ j ∧ j < i + len ∧ m.Reaches write addr j ∧ m.Lazy write (addr + j) ip
  /-- It does so for each of them, but for one that an earlier byte has filled. -/
  lazy : ∀ j ip, i ≤ j → j < i + len → m.Reaches write addr j → m.Lazy write (addr + j) ip →
    ip ∈ c.ilocks ∨ ∃ k < i, m.Lazy write (addr + k) ip
  result : c.result = .ok ↔ m.Reaches write addr (i + len)
  space : c.result = .ok → c.space = m.fill addr (i + len)

theorem copies_nil (h : m.Reaches write addr i) :
    Copies m write addr i 0 ⟨[], .ok, m.fill addr i⟩ where
  locks := by simp
  lazy := fun j _ h₁ h₂ => absurd h₂ (Nat.not_lt.2 h₁)
  result := by simpa using h
  space := fun _ => rfl

theorem copies_stop {len : Nat} {r : Result} {n : Space} (hlen : len ≠ 0)
    (h : m.Reaches write addr i)
    (hlock : ∀ ip, o = some ip ↔ m.Lazy write (addr + i) ip ∧ ¬ Seen addr i)
    (hu : ¬ m.Usable write (addr + i)) (hr : r ≠ .ok) :
    Copies m write addr i len ⟨o.toList, r, n⟩ where
  locks := by
    intro ip hip
    have := (hlock ip).1 (Option.mem_toList.1 hip)
    exact ⟨i, Nat.le_refl _, by omega, h, this.1⟩
  lazy := by
    intro j ip h₁ h₂ hj hl
    obtain rfl : j = i := by
      by_contra hne
      exact hu (hj i (by omega))
    by_cases hs : Seen addr j
    · exact Or.inr ⟨j - 1, by have := hs.1; omega, hl.page hs.page⟩
    · exact Or.inl (Option.mem_toList.2 ((hlock ip).2 ⟨hl, hs⟩))
  result := ⟨fun h => absurd h hr, fun h => absurd (h i (by omega)) hu⟩
  space := fun h => absurd h hr

theorem copies_next {len n : Nat} {c : Copy} (hn : n ≠ 0) (hle : n ≤ len)
    (hsame : ∀ j, i ≤ j → j < i + n → (addr + j) / PGSIZE = (addr + i) / PGSIZE)
    (hlock : ∀ ip, o = some ip ↔ m.Lazy write (addr + i) ip ∧ ¬ Seen addr i)
    (h : m.Reaches write addr (i + n)) (hc : Copies m write addr (i + n) (len - n) c) :
    Copies m write addr i len { c with ilocks := o.toList ++ c.ilocks } := by
  have hlen : i + n + (len - n) = i + len := by omega
  -- a lazy page among the first bytes is the one of byte `i`
  have hfirst : ∀ j ip, i ≤ j → j < i + n → m.Lazy write (addr + j) ip →
      ip ∈ o.toList ∨ ∃ k < i, m.Lazy write (addr + k) ip := by
    intro j ip h₁ h₂ hl
    have hl := hl.page (hsame j h₁ h₂).symm
    by_cases hs : Seen addr i
    · exact Or.inr ⟨i - 1, by have := hs.1; omega, hl.page hs.page⟩
    · exact Or.inl (Option.mem_toList.2 ((hlock ip).2 ⟨hl, hs⟩))
  refine ⟨?_, ?_, ?_, ?_⟩
  · intro ip hip
    obtain hip | hip := List.mem_append.1 hip
    · have := (hlock ip).1 (Option.mem_toList.1 hip)
      exact ⟨i, Nat.le_refl _, by omega, h.mono (by omega), this.1⟩
    · obtain ⟨j, h₁, h₂, h₃⟩ := hc.locks ip hip
      exact ⟨j, by omega, by omega, h₃⟩
  · intro j ip h₁ h₂ hj hl
    rcases Nat.lt_or_ge j (i + n) with hjn | hjn
    · exact (hfirst j ip h₁ hjn hl).imp_left fun h => List.mem_append.2 (Or.inl h)
    · obtain hip | ⟨k, hk, hkl⟩ := hc.lazy j ip hjn (by omega) hj hl
      · exact Or.inl (List.mem_append.2 (Or.inr hip))
      · rcases Nat.lt_or_ge k i with hki | hki
        · exact Or.inr ⟨k, hki, hkl⟩
        · exact (hfirst k ip hki hk hkl).imp_left fun h => List.mem_append.2 (Or.inl h)
  · rw [← hlen]
    exact hc.result
  · rw [← hlen]
    exact hc.space

theorem copy_spec {fuel len : Nat} (hfuel : len ≤ fuel) (h : m.Reaches write addr i) :
    Copies m write addr i len (Space.copy write fuel (m.fill addr i) (addr + i) len) := by
  induction fuel generalizing i len with
  | zero =>
    obtain rfl : len = 0 := Nat.le_zero.1 hfuel
    exact copies_nil h
  | succ fuel ih =>
    by_cases hlen : len = 0
    · subst hlen
      rw [copy_zero]
      exact copies_nil h
    obtain ⟨n, hn⟩ : ∃ n, n = min (PGSIZE - (addr + i) % PGSIZE) len := ⟨_, rfl⟩
    have hpos : n ≠ 0 := by simp only [hn, PGSIZE]; omega
    have hle : n ≤ len := by rw [hn]; exact Nat.min_le_right _ _
    have hsame : ∀ j, i ≤ j → j < i + n → (addr + j) / PGSIZE = (addr + i) / PGSIZE := by
      simp only [hn, PGSIZE]
      omega
    have hlock : ∀ ip, ((m.fill addr i).touch write ((addr + i) / PGSIZE)).ilock = some ip ↔
        m.Lazy write (addr + i) ip ∧ ¬ Seen addr i := fun ip => touch_ilock.trans lazy_fill
    rw [Space.copy, if_neg hlen]
    by_cases hu : m.Usable write (addr + i)
    · have hok := touch_ok.2 ((usable_fill h).2 hu)
      have hspace := touch_space ((usable_fill h).2 hu)
      rw [fill_fill hpos (by rw [← hsame (i + n - 1) (by omega) (by omega)]; congr 1; omega)]
        at hspace
      have hreach : m.Reaches write addr (i + n) := by
        intro j hj
        rcases Nat.lt_or_ge j i with hji | hji
        · exact h j hji
        · exact hu.page (hsame j hji hj)
      have hnext : Space.copy write fuel (m.fill addr (i + n))
          (((addr + i) / PGSIZE + 1) * PGSIZE) (len - n) =
          Space.copy write fuel (m.fill addr (i + n)) (addr + (i + n)) (len - n) := by
        by_cases hend : len - n = 0
        · rw [hend, copy_zero, copy_zero]
        · congr 1
          simp only [PGSIZE] at hn ⊢
          omega
      have hc := copies_next hpos hle hsame hlock hreach (ih (by omega) hreach)
      simp only [hok, hspace, ← hn, hnext]
      exact hc
    · have hno : ((m.fill addr i).touch write ((addr + i) / PGSIZE)).result ≠ .ok :=
        fun hr => hu ((usable_fill h).1 (touch_ok.1 hr))
      dsimp only
      split
      case h_1 hr => exact absurd hr hno
      case h_2 => exact copies_stop hlen h hlock hu hno

end Space

/-! ## Copies under locks -/

section

variable {m : Space} {L : Locks} {write : Bool} {addr : Nat}

/-- Each inode that the bytes from `lo` to `hi` of a copy from `addr` lock, as far as it
gets, may be locked under `L`. -/
def Fine (m : Space) (L : Locks) (write : Bool) (addr lo hi : Nat) : Prop :=
  ∀ j, lo ≤ j → j < hi → m.Reaches write addr j → ∀ ip, m.Lazy write (addr + j) ip → L.Allows ip

theorem fine_append {lo hi : Nat} (mid : Nat) (h₁ : lo ≤ mid) (h₂ : mid ≤ hi) :
    Fine m L write addr lo hi ↔ Fine m L write addr lo mid ∧ Fine m L write addr mid hi := by
  constructor
  · intro h
    exact ⟨fun j hl hj => h j hl (by omega), fun j hl hj => h j (by omega) hj⟩
  · rintro ⟨ha, hb⟩ j hl hj
    rcases Nat.lt_or_ge j mid with hm | hm
    · exact ha j hl hm
    · exact hb j hm hj

theorem fine_refl {lo : Nat} : Fine m L write addr lo lo :=
  fun _ h₁ h₂ => absurd h₂ (Nat.not_lt.2 h₁)

theorem fine_of_not_reaches {lo hi : Nat} (h : ¬ m.Reaches write addr lo) :
    Fine m L write addr lo hi :=
  fun _ h₁ _ hr => absurd (hr.mono h₁) h

variable {K : Bool → Locks × Space → Prop} {E : Empty → Prop} {i len : Nat}

/-- **The rule for a copy** of `len` bytes after the `i` bytes before, if nothing matters
after a copy that fails. -/
theorem uses_copy (h : m.Reaches write addr i) (hfine : Fine m L write addr 0 i)
    (hK : ∀ n, K false (L, n)) :
    (request (.copy write (addr + i) len)).Uses locking (L, m.fill addr i) K E ↔
      Fine m L write addr i (i + len) ∧
        (m.Reaches write addr (i + len) → K true (L, m.fill addr (i + len))) := by
  have hc := Space.copy_spec (Nat.le_refl len) h
  have hlocks : (∀ ip ∈ (Space.copy write len (m.fill addr i) (addr + i) len).ilocks,
      L.Allows ip) ↔ Fine m L write addr i (i + len) := by
    constructor
    · intro ha j h₁ h₂ hj ip hl
      obtain hip | ⟨k, hk, hkl⟩ := hc.lazy j ip h₁ h₂ hj hl
      · exact ha ip hip
      · exact hfine k (Nat.zero_le _) hk (h.mono (Nat.le_of_lt hk)) ip hkl
    · intro hf ip hip
      obtain ⟨j, h₁, h₂, hj, hl⟩ := hc.locks ip hip
      exact hf j h₁ h₂ hj ip hl
  refine uses_perform.trans (and_congr hlocks ?_)
  constructor
  · intro ha hr
    have hok := hc.result.2 hr
    have := ha true _ ⟨rfl, by simpa using hok⟩
    rwa [hc.space hok] at this
  · rintro ha a t ⟨rfl, hr⟩
    cases a with
    | false => exact hK _
    | true =>
      have hok : (Space.copy write len (m.fill addr i) (addr + i) len).result = .ok := by
        simpa using hr
      show K true (L, (Space.copy write len (m.fill addr i) (addr + i) len).space)
      rw [hc.space hok]
      exact ha (hc.result.1 hok)

theorem uses_copy_next {hi : Nat} (h : m.Reaches write addr i)
    (hfine : Fine m L write addr 0 i) (hhi : i + len ≤ hi) (hK : ∀ n, K false (L, n))
    (hnext : m.Reaches write addr (i + len) → Fine m L write addr 0 (i + len) →
      (K true (L, m.fill addr (i + len)) ↔ Fine m L write addr (i + len) hi)) :
    (request (.copy write (addr + i) len)).Uses locking (L, m.fill addr i) K E ↔
      Fine m L write addr i hi := by
  have hi' : i ≤ i + len := Nat.le_add_right i len
  rw [uses_copy h hfine hK, fine_append _ hi' hhi]
  refine and_congr_right fun hone => ?_
  by_cases hr : m.Reaches write addr (i + len)
  · simp only [hr, true_imp_iff]
    exact hnext hr ((fine_append _ (Nat.zero_le _) hi').2 ⟨hfine, hone⟩)
  · simp only [hr, false_imp_iff, true_iff]
    exact fine_of_not_reaches hr

theorem uses_given {q : Req} {s t : Locks × Space} {K : q.Ans → Locks × Space → Prop}
    (hok : locking.ok s q) (h : ∀ a x, locking.gives s q a x ↔ x = t) :
    (request q).Uses locking s K E ↔ ∀ a, K a t := by
  refine uses_perform.trans ?_
  simp only [hok, h, true_and, forall_eq]

@[simp] theorem uses_acquire {l : Spin} {K : Unit → Locks × Space → Prop} :
    (acquire l).Uses locking (L, m) K E ↔ K () (⟨l :: L.spin, L.inode⟩, m) :=
  (uses_given (q := .acquire l) (s := (L, m)) trivial fun _ _ => Iff.rfl).trans ⟨fun h => h (), fun h _ => h⟩

@[simp] theorem uses_release {l : Spin} {K : Unit → Locks × Space → Prop} :
    (release l).Uses locking (L, m) K E ↔ K () (⟨L.spin.erase l, L.inode⟩, m) :=
  (uses_given (q := .release l) (s := (L, m)) trivial fun _ _ => Iff.rfl).trans ⟨fun h => h (), fun h _ => h⟩

@[simp] theorem uses_ilock {ip : Nat} {K : Unit → Locks × Space → Prop} :
    (ilock ip).Uses locking (L, m) K E ↔ K () (⟨L.spin, ip :: L.inode⟩, m) :=
  (uses_given (q := .ilock ip) (s := (L, m)) trivial fun _ _ => Iff.rfl).trans ⟨fun h => h (), fun h _ => h⟩

@[simp] theorem uses_iunlock {ip : Nat} {K : Unit → Locks × Space → Prop} :
    (iunlock ip).Uses locking (L, m) K E ↔ K () (⟨L.spin, L.inode.erase ip⟩, m) :=
  (uses_given (q := .iunlock ip) (s := (L, m)) trivial fun _ _ => Iff.rfl).trans ⟨fun h => h (), fun h _ => h⟩

theorem uses_sleeps {l : Spin} {n : Nat} {K : Unit → Locks × Space → Prop} :
    (sleeps l n).Uses locking (⟨[l], []⟩, m) K E ↔ K () (⟨[l], []⟩, m) := by
  induction n with
  | zero => exact Iff.rfl
  | succ n ih => simp [sleeps, sleep, uses_bind, ih]

/-! ## The system calls -/

/-- The bytes `pipewrite` finds room for while it is not told to stop. -/
def rooms : List Round → Nat
  | [] => 0
  | .gone :: _ => 0
  | .full :: rs => rooms rs
  | .room :: rs => rooms rs + 1

theorem uses_pipewriteLoop {pi n : Nat} {rs : List Round}
    (h : m.Reaches false addr i) (hf : Fine m ⟨[.pipe pi], []⟩ false addr 0 i) :
    (pipewriteLoop pi addr n rs i).Uses locking (⟨[.pipe pi], []⟩, m.fill addr i)
      (fun _ _ => True) E ↔
    Fine m ⟨[.pipe pi], []⟩ false addr i (i + min (n - i) (rooms rs)) := by
  induction rs generalizing i with
  | nil => simpa [pipewriteLoop, rooms, uses_pure] using fine_refl
  | cons r rs ih =>
    rw [pipewriteLoop.eq_def]
    dsimp only
    by_cases hi : i < n
    · rw [if_pos hi]
      cases r with
      | gone => simpa [rooms, uses_bind, uses_pure] using fine_refl
      | full => simpa [rooms, sleep, uses_bind] using ih h hf
      | room =>
        have hlen : i + min (n - i) (rooms (.room :: rs)) =
            i + 1 + min (n - (i + 1)) (rooms rs) := by
          rw [rooms]
          omega
        rw [hlen]
        refine uses_bind.trans (uses_copy_next h hf (Nat.le_add_right _ _) (fun _ => ?_) ih)
        simp [uses_bind, uses_pure]
    · rw [if_neg hi]
      have : n - i = 0 := by omega
      simpa [this, uses_bind, uses_pure] using fine_refl

theorem uses_pipereadLoop {k : Nat} {K : Int → Locks × Space → Prop} (hK : ∀ r t, K r t)
    (h : m.Reaches true addr i) (hf : Fine m L true addr 0 i) :
    (pipereadLoop addr k i).Uses locking (L, m.fill addr i) K E ↔
      Fine m L true addr i (i + k) := by
  induction k generalizing i with
  | zero => simpa [pipereadLoop, uses_pure, hK] using fine_refl
  | succ k ih =>
    have hlen : i + (k + 1) = i + 1 + k := by omega
    rw [hlen, pipereadLoop]
    refine uses_bind.trans (uses_copy_next h hf (Nat.le_add_right _ _) (fun _ => ?_) ih)
    by_cases hi : i = 0 <;> simp [hi, uses_pure, hK]

/-- The bytes `consoleread` takes from the keys up to the end of a line. -/
def typed : List Key → Nat
  | [] => 0
  | .wait :: keys => typed keys
  | .killed :: _ => 0
  | .char c :: keys => if c = EOF then 0 else if c = NEWLINE then 1 else typed keys + 1

theorem uses_consolereadLoop {n : Nat} {keys : List Key}
    (h : m.Reaches true addr i) (hf : Fine m ⟨[.cons], []⟩ true addr 0 i) :
    (consolereadLoop addr n keys i).Uses locking (⟨[.cons], []⟩, m.fill addr i)
      (fun _ _ => True) E ↔
    Fine m ⟨[.cons], []⟩ true addr i (i + min (n - i) (typed keys)) := by
  induction keys generalizing i with
  | nil => simpa [consolereadLoop, typed, uses_pure] using fine_refl
  | cons key keys ih =>
    rw [consolereadLoop.eq_def]
    dsimp only
    by_cases hi : i < n
    · rw [if_pos hi]
      cases key with
      | wait => simpa [typed, sleep, uses_bind] using ih h hf
      | killed => simpa [typed, uses_bind, uses_pure] using fine_refl
      | char c =>
        dsimp only
        by_cases hc : c = EOF
        · simpa [typed, hc, uses_bind, uses_pure] using fine_refl
        rw [if_neg hc]
        by_cases hl : c = NEWLINE
        · have hlen : i + min (n - i) (typed (.char c :: keys)) = i + 1 := by
            have : typed (.char c :: keys) = 1 := by simp [typed, hl]
            omega
          rw [hlen]
          refine uses_bind.trans (uses_copy_next h hf (Nat.le_refl _) (fun _ => ?_) ?_)
          · simp [uses_bind, uses_pure]
          · intro _ _
            simpa [hl, uses_bind, uses_pure] using fine_refl
        · have hlen : i + min (n - i) (typed (.char c :: keys)) =
              i + 1 + min (n - (i + 1)) (typed keys) := by
            simp only [typed, hc, hl, if_false]
            omega
          rw [hlen]
          refine uses_bind.trans (uses_copy_next h hf (Nat.le_add_right _ _) (fun _ => ?_) ?_)
          · simp [uses_bind, uses_pure]
          · simp only [hl, if_false]
            exact ih
    · rw [if_neg hi]
      have : n - i = 0 := by omega
      simpa [this, uses_bind, uses_pure] using fine_refl

/-- How far the loop of `readi` or `writei` gets if every copy succeeds. -/
def blocksEnd (hole : Nat → Bool) (off n : Nat) : Nat → Nat → Nat
  | 0, tot => tot
  | fuel + 1, tot =>
    if tot < n then
      if hole ((off + tot) / BSIZE) then tot
      else blocksEnd hole off n fuel (tot + min (n - tot) (BSIZE - (off + tot) % BSIZE))
    else tot

theorem le_blocksEnd (hole : Nat → Bool) (off n fuel tot : Nat) :
    tot ≤ blocksEnd hole off n fuel tot := by
  induction fuel generalizing tot with
  | zero => exact Nat.le_refl _
  | succ fuel ih =>
    rw [blocksEnd]
    split
    · split
      · exact Nat.le_refl _
      · exact Nat.le_trans (Nat.le_add_right _ _) (ih _)
    · exact Nat.le_refl _

variable {hole : Nat → Bool}

theorem uses_blocks {off n fuel : Nat} (base tot : Nat) {K : Bool × Nat → Locks × Space → Prop}
    (hK : ∀ t u, t < n → K (false, t) (L, u)) (h : m.Reaches write addr (base + tot))
    (hf : Fine m L write addr 0 (base + tot)) :
    (blocks write hole (addr + base) off n fuel tot).Uses locking
      (L, m.fill addr (base + tot)) K E ↔
    Fine m L write addr (base + tot) (base + blocksEnd hole off n fuel tot) ∧
      (m.Reaches write addr (base + blocksEnd hole off n fuel tot) →
        K (true, blocksEnd hole off n fuel tot)
          (L, m.fill addr (base + blocksEnd hole off n fuel tot))) := by
  have hstop : K (true, tot) (L, m.fill addr (base + tot)) ↔
      Fine m L write addr (base + tot) (base + tot) ∧
        (m.Reaches write addr (base + tot) → K (true, tot) (L, m.fill addr (base + tot))) := by
    simp [h, fine_refl]
  induction fuel generalizing tot with
  | zero => exact hstop
  | succ fuel ih =>
    rw [blocks, blocksEnd]
    by_cases ht : tot < n
    · rw [if_pos ht, if_pos ht]
      by_cases hh : hole ((off + tot) / BSIZE) = true
      · rw [if_pos hh, if_pos hh]
        exact hstop
      · rw [if_neg hh, if_neg hh]
        have hle := le_blocksEnd hole off n fuel
          (tot + min (n - tot) (BSIZE - (off + tot) % BSIZE))
        generalize hk : min (n - tot) (BSIZE - (off + tot) % BSIZE) = k at hle ⊢
        rw [fine_append (base + tot + k) (Nat.le_add_right _ _) (by omega), and_assoc,
          Nat.add_assoc addr base tot]
        refine uses_bind.trans ((uses_copy h hf fun u => hK tot u ht).trans
          (and_congr_right fun hone => ?_))
        by_cases hr : m.Reaches write addr (base + tot + k)
        · simp only [hr, true_imp_iff]
          rw [Nat.add_assoc] at hr hone ⊢
          exact ih _ hr ((fine_append _ (Nat.zero_le _) (by omega)).2 ⟨hf, hone⟩)
            (by simp [hr, fine_refl])
        · have hr' : ¬ m.Reaches write addr
              (base + blocksEnd hole off n fuel (tot + k)) := fun h => hr (h.mono (by omega))
          simp only [hr, hr', false_imp_iff, and_true, true_iff]
          exact fine_of_not_reaches hr
    · rw [if_neg ht, if_neg ht]
      exact hstop

/-- `writei` starts to copy `n` bytes at `off` of a file of `size` bytes. -/
def Admits (size off n : Nat) : Prop :=
  ¬ (size < off ∨ (off + n) % 2 ^ 32 < off) ∧ ¬ MAXBYTES < (off + n) % 2 ^ 32

instance (size off n : Nat) : Decidable (Admits size off n) := inferInstanceAs (Decidable (_ ∧ _))

/-- How far `filewrite` gets if every copy succeeds. -/
def filewriteEnd (hole : Nat → Bool) (off n : Nat) : Nat → Nat → Nat → Nat
  | 0, _, i => i
  | fuel + 1, size, i =>
    if i < n then
      if Admits size (off + i) (min CHUNK (n - i)) then
        let tot := blocksEnd hole (off + i) (min CHUNK (n - i)) (min CHUNK (n - i)) 0
        if tot = min CHUNK (n - i) then
          filewriteEnd hole off n fuel (max size (off + i + min CHUNK (n - i)))
            (i + min CHUNK (n - i))
        else i + tot
      else i
    else i

theorem le_filewriteEnd {off n fuel size i : Nat} : i ≤ filewriteEnd hole off n fuel size i := by
  induction fuel generalizing size i with
  | zero => exact Nat.le_refl _
  | succ fuel ih =>
    rw [filewriteEnd]
    split
    · split
      · dsimp only
        split
        · exact Nat.le_trans (Nat.le_add_right _ _) ih
        · exact Nat.le_add_right _ _
      · exact Nat.le_refl _
    · exact Nat.le_refl _

theorem uses_filewriteLoop {ip off n fuel size : Nat} (h : m.Reaches false addr i)
    (hf : Fine m ⟨[], [ip]⟩ false addr 0 i) :
    (filewriteLoop ip hole addr off n fuel size i).Uses locking (⟨[], []⟩, m.fill addr i)
      (fun _ _ => True) E ↔
    Fine m ⟨[], [ip]⟩ false addr i (filewriteEnd hole off n fuel size i) := by
  induction fuel generalizing size i with
  | zero => simpa [filewriteLoop, filewriteEnd, uses_pure] using fine_refl
  | succ fuel ih =>
    rw [filewriteLoop, filewriteEnd]
    by_cases hi : i < n
    · rw [if_pos hi, if_pos hi]
      generalize hk : min CHUNK (n - i) = k
      simp only [uses_bind, uses_ilock]
      by_cases ha : Admits size (off + i) k
      · rw [if_pos ha, writei, if_neg ha.1, if_neg ha.2, uses_bind]
        generalize hend : blocksEnd hole (off + i) k k 0 = e
        dsimp only
        have hle : i ≤ i + e := Nat.le_add_right _ _
        refine (uses_blocks i 0 ?_ h hf).trans ?_
        · intro t u ht
          have : ¬ (t : Int) = (k : Int) := by omega
          simp [uses_pure, this]
        · rw [hend]
          by_cases he : e = k
          · subst he
            rw [if_pos rfl, fine_append _ hle (le_filewriteEnd)]
            refine and_congr_right fun hone => ?_
            by_cases hr : m.Reaches false addr (i + e)
            · simp only [hr, true_imp_iff, uses_pure, if_true, uses_iunlock, List.erase_cons_head]
              exact ih hr ((fine_append _ (Nat.zero_le _) hle).2 ⟨hf, hone⟩)
            · simp only [hr, false_imp_iff, true_iff]
              exact fine_of_not_reaches hr
          · have : ¬ (e : Int) = (k : Int) := by omega
            simp [uses_pure, this, he]
      · rw [if_neg ha]
        have hw : writei hole size (addr + i) (off + i) k = pure (-1) := by
          rw [Admits, not_and_or, not_not, not_not] at ha
          rw [writei]
          by_cases h₁ : size < off + i ∨ (off + i + k) % 2 ^ 32 < off + i
          · rw [if_pos h₁]
          · rw [if_neg h₁, if_pos (ha.resolve_left h₁)]
        have : ¬ (-1 : Int) = (k : Int) := by omega
        simpa [hw, uses_pure, this] using fine_refl
    · rw [if_neg hi, if_neg hi]
      simpa [uses_pure] using fine_refl

/-! ## Calls that copy without a lock -/

theorem uses_copy_free {va : Nat} (hK : ∀ b n, K b (⟨[], []⟩, n)) :
    (request (.copy write va len)).Uses locking (⟨[], []⟩, m) K E := by
  refine uses_perform.2 ⟨fun ip _ => ⟨rfl, List.not_mem_nil⟩, ?_⟩
  rintro a t ⟨rfl, -⟩
  exact hK a _

theorem uses_consolewriteLoop {n fuel : Nat} :
    (consolewriteLoop addr n fuel i).Uses locking (⟨[], []⟩, m) (fun _ _ => True) E := by
  induction fuel generalizing m i with
  | zero => exact trivial
  | succ fuel ih =>
    rw [consolewriteLoop]
    split
    · refine uses_bind.2 (uses_copy_free fun b n => ?_)
      cases b with
      | true => exact ih
      | false => exact trivial
    · exact trivial

theorem uses_fetchArgs {args : List (Nat × Nat)} (hK : ∀ b n, K b (⟨[], []⟩, n)) :
    (fetchArgs addr args i).Uses locking (⟨[], []⟩, m) K E := by
  induction args generalizing m i with
  | nil => exact uses_copy_free hK
  | cons arg args ih =>
    refine uses_bind.2 (uses_copy_free fun b n => ?_)
    cases b with
    | false => exact hK false n
    | true =>
      refine uses_bind.2 (uses_copy_free fun b n => ?_)
      cases b with
      | false => exact hK false n
      | true => exact ih

theorem uses_pushArgs {stack : List (Nat × Nat)} (hK : ∀ b n, K b (⟨[], []⟩, n)) :
    (pushArgs stack).Uses locking (⟨[], []⟩, m) K E := by
  induction stack generalizing m with
  | nil => exact hK true m
  | cons arg stack ih =>
    refine uses_bind.2 (uses_copy_free fun b n => ?_)
    cases b with
    | false => exact hK false n
    | true => exact ih

theorem uses_scan {others : List Nat} {K : Unit → Locks × Space → Prop} :
    (scan others).Uses locking (L, m) K E ↔ K () (L, m) := by
  induction others with
  | nil => exact Iff.rfl
  | cons j others ih => simp [scan, uses_bind, ih]

end

/-! ## The condition -/

/-- No byte that a copy of `n` bytes from `addr` gets to is in a page of a mapped file that is
not resident. -/
def NoFile (m : Space) (write : Bool) (addr n : Nat) : Prop :=
  ∀ j < n, m.Reaches write addr j → ∀ ip, ¬ m.Lazy write (addr + j) ip

/-- The same, for the mappings of one file. -/
def NotOf (ip : Nat) (m : Space) (write : Bool) (addr n : Nat) : Prop :=
  ∀ j < n, m.Reaches write addr j → ¬ m.Lazy write (addr + j) ip

theorem fine_spin {m : Space} {L : Locks} {write : Bool} {addr n : Nat} (hL : L.spin ≠ []) :
    Fine m L write addr 0 n ↔ NoFile m write addr n := by
  simp [Fine, NoFile, Locks.Allows, hL]

theorem fine_inode {m : Space} {write : Bool} {addr n ip : Nat} :
    Fine m ⟨[], [ip]⟩ write addr 0 n ↔ NotOf ip m write addr n := by
  constructor
  · intro h j hj hr hl
    exact (h j (Nat.zero_le _) hj hr ip hl).2 (List.mem_singleton.2 rfl)
  · intro h j _ hj hr ip' hl
    refine ⟨rfl, fun hm => ?_⟩
    rw [List.mem_singleton.1 hm] at hl
    exact h j hj hr hl

/-- The buffer keeps clear of the mapped files that are not resident where the call copies
under a lock. -/
def Call.Clear (m : Space) : Call → Prop
  | pipewrite _ addr n rs => NoFile m false addr (min n.toNat (rooms rs))
  | piperead _ addr n _ killed avail => killed = false → NoFile m true addr (min n.toNat avail)
  | consoleread dst n keys => NoFile m true dst (min n.toNat (typed keys))
  | fileread ip hole size addr off n =>
    NotOf ip m true addr
      (blocksEnd hole off (readiLen size off n) (readiLen size off n) 0)
  | filewrite ip hole size addr off n =>
    NotOf ip m false addr (filewriteEnd hole off n.toNat n.toNat size 0)
  | wait addr _ _ zombie => zombie ≠ none → addr ≠ 0 → NoFile m true addr 4
  | consolewrite _ _ | filestat _ _ | pipe _ | path _ _ | exec _ _ _ _ _ _ _ => True

section

variable {m : Space}

variable {n : Int}

theorem lockSafe_pipewrite {pi addr : Nat} {rs : List Round} :
    LockSafe (.pipewrite pi addr n rs) m ↔ NoFile m false addr (min n.toNat (rooms rs)) := by
  refine uses_bind.trans (uses_acquire.trans ?_)
  have h : (pipewriteLoop pi addr n.toNat rs 0).Uses locking (⟨[.pipe pi], []⟩, m.fill addr 0)
      (fun _ _ => True) (fun _ => True) ↔ _ := uses_pipewriteLoop Space.reaches_zero fine_refl
  rw [Space.fill_zero, fine_spin (List.cons_ne_nil _ _), Nat.zero_add] at h
  exact h

theorem lockSafe_piperead {pi addr waits avail : Nat} {killed : Bool} :
    LockSafe (.piperead pi addr n waits killed avail) m ↔
      (killed = false → NoFile m true addr (min n.toNat avail)) := by
  refine uses_bind.trans (uses_acquire.trans (uses_bind.trans (uses_sleeps.trans ?_)))
  cases killed with
  | true => simp [uses_bind, uses_pure]
  | false =>
    have hend : ∀ (r : Int) (t : Locks × Space), (do release (.pipe pi); pure r : Code Int).Uses
        locking t (fun _ _ => True) fun _ => True := by
      rintro r ⟨L, u⟩
      simp [uses_bind, uses_pure]
    have h : (pipereadLoop addr (min n.toNat avail) 0).Uses locking
        (⟨[.pipe pi], []⟩, m.fill addr 0) _ (fun _ => True) ↔ _ :=
      uses_pipereadLoop hend Space.reaches_zero fine_refl
    rw [Space.fill_zero, fine_spin (List.cons_ne_nil _ _), Nat.zero_add] at h
    simpa using uses_bind.trans h

theorem lockSafe_consoleread {dst : Nat} {keys : List Key} :
    LockSafe (.consoleread dst n keys) m ↔ NoFile m true dst (min n.toNat (typed keys)) := by
  refine uses_bind.trans (uses_acquire.trans ?_)
  have h : (consolereadLoop dst n.toNat keys 0).Uses locking (⟨[.cons], []⟩, m.fill dst 0)
      (fun _ _ => True) (fun _ => True) ↔ _ := uses_consolereadLoop Space.reaches_zero fine_refl
  rw [Space.fill_zero, fine_spin (List.cons_ne_nil _ _), Nat.zero_add] at h
  exact h

theorem lockSafe_fileread {ip size addr off n : Nat} {hole : Nat → Bool} :
    LockSafe (.fileread ip hole size addr off n) m ↔
      NotOf ip m true addr
        (blocksEnd hole off (readiLen size off n) (readiLen size off n) 0) := by
  refine uses_bind.trans (uses_ilock.trans (uses_bind.trans (uses_bind.trans ?_)))
  have h : ∀ K : Bool × Nat → Locks × Space → Prop, (∀ r u, K r (⟨[], [ip]⟩, u)) →
      ((blocks true hole addr off (readiLen size off n) (readiLen size off n) 0).Uses locking
        (⟨[], [ip]⟩, m) K (fun _ => True) ↔ NotOf ip m true addr
        (blocksEnd hole off (readiLen size off n) (readiLen size off n) 0)) := by
    intro K hK
    have h : (blocks true hole (addr + 0) off (readiLen size off n) (readiLen size off n) 0).Uses
        locking (⟨[], [ip]⟩, m.fill addr (0 + 0)) K (fun _ => True) ↔ _ :=
      uses_blocks 0 0 (fun t u _ => hK (false, t) u) Space.reaches_zero fine_refl
    rw [Space.fill_zero, Nat.zero_add, fine_inode] at h
    simpa [hK] using h
  refine h _ fun r u => ?_
  simp [uses_bind, uses_pure]

theorem lockSafe_filewrite {ip size addr off : Nat} {hole : Nat → Bool} :
    LockSafe (.filewrite ip hole size addr off n) m ↔
      NotOf ip m false addr (filewriteEnd hole off n.toNat n.toNat size 0) := by
  have h : (filewriteLoop ip hole addr off n.toNat n.toNat size 0).Uses locking
      (⟨[], []⟩, m.fill addr 0) (fun _ _ => True) (fun _ => True) ↔ _ :=
    uses_filewriteLoop Space.reaches_zero fine_refl
  rw [Space.fill_zero, fine_inode] at h
  exact h

theorem lockSafe_wait {addr waits : Nat} {others : List Nat} {zombie : Option Nat} :
    LockSafe (.wait addr waits others zombie) m ↔
      (zombie ≠ none → addr ≠ 0 → NoFile m true addr 4) := by
  refine uses_bind.trans (uses_acquire.trans (uses_bind.trans (uses_sleeps.trans
    (uses_bind.trans (uses_scan.trans ?_)))))
  cases zombie with
  | none => simp [uses_bind, uses_pure]
  | some i =>
    refine uses_bind.trans (uses_acquire.trans (uses_bind.trans ?_))
    by_cases ha : addr = 0
    · simp [copyStatus, ha, uses_bind, uses_pure]
    · have h : ∀ K : Bool → Locks × Space → Prop,
          (∀ b u, K b (⟨[.proc i, .waitLock], []⟩, u)) →
          ((copyout addr 4).Uses locking (⟨[.proc i, .waitLock], []⟩, m) K (fun _ => True) ↔
            NoFile m true addr 4) := by
        intro K hK
        have h : (copyout (addr + 0) 4).Uses locking
            (⟨[.proc i, .waitLock], []⟩, m.fill addr 0) K (fun _ => True) ↔ _ :=
          uses_copy Space.reaches_zero fine_refl (hK false)
        rw [Space.fill_zero, Nat.zero_add, fine_spin (List.cons_ne_nil _ _)] at h
        simpa [hK] using h
      rw [copyStatus, if_neg ha]
      simp only [ne_eq, reduceCtorEq, not_false_eq_true, ha, true_imp_iff]
      refine h _ fun b u => ?_
      simp [uses_bind, uses_pure]

theorem lockSafe_free : ∀ c : Call, (match c with
    | .consolewrite _ _ | .filestat _ _ | .pipe _ | .path _ _ | .exec _ _ _ _ _ _ _ => True
    | _ => False) → LockSafe c m := by
  intro c hc
  cases c with
  | consolewrite src n => exact uses_consolewriteLoop
  | filestat ip addr =>
    refine uses_bind.2 (uses_ilock.2 (uses_bind.2 (uses_iunlock.2 (uses_bind.2 ?_))))
    simp only [List.erase_cons_head]
    exact uses_copy_free fun _ _ => trivial
  | pipe fdarray =>
    refine uses_bind.2 (uses_copy_free fun b n => ?_)
    cases b with
    | false => exact trivial
    | true => exact uses_bind.2 (uses_copy_free fun _ _ => trivial)
  | path addr len => exact uses_bind.2 (uses_copy_free fun _ _ => trivial)
  | exec name len uargv args ip n stack =>
    refine uses_bind.2 (uses_copy_free fun b u => ?_)
    cases b with
    | false => exact trivial
    | true =>
      refine uses_bind.2 (uses_fetchArgs fun b u => ?_)
      cases b with
      | false => exact trivial
      | true =>
        refine uses_bind.2 (uses_ilock.2 (uses_bind.2 (uses_iunlock.2 (uses_bind.2 ?_))))
        simp only [List.erase_cons_head]
        refine uses_perform.2 ⟨trivial, ?_⟩
        rintro a t rfl
        exact uses_bind.2 (uses_pushArgs fun _ _ => trivial)
  | _ => exact hc.elim

/-- **Locks during page faults in the kernel.**  Every inode that a page fault locks during
a call is locked without spinlocks and is not held already, exactly if the buffer keeps clear
of the mapped files. -/
theorem lockSafe_iff_clear (c : Call) (m : Space) : LockSafe c m ↔ c.Clear m := by
  cases c with
  | pipewrite pi addr n rs => exact lockSafe_pipewrite
  | piperead pi addr n waits killed avail => exact lockSafe_piperead
  | consoleread dst n keys => exact lockSafe_consoleread
  | fileread ip hole size addr off n => exact lockSafe_fileread
  | filewrite ip hole size addr off n => exact lockSafe_filewrite
  | wait addr waits others zombie => exact lockSafe_wait
  | _ => exact iff_of_true (lockSafe_free _ trivial) trivial

end

/-- One page of the file with inode 7, mapped for reading and writing and not resident. -/
def mapped : Space where
  area := [⟨MMAPBASE, PGSIZE, true, .inode 7⟩]
  sz := PGSIZE
  page := fun _ => .unmapped
  frame := fun _ => true
  tables := fun _ => true

theorem lazy_mapped : mapped.Lazy true (MMAPBASE + 0) 7 :=
  ⟨by decide, rfl, rfl, _, rfl, rfl, fun _ => rfl⟩

/-- A byte read from a pipe into the mapping is copied under `pi->lock`, and `read` of the
file into the mapping of the file itself waits for the lock it holds. -/
theorem read_into_mapping_locks :
    ¬ LockSafe (.piperead 0 MMAPBASE 1 0 false 1) mapped ∧
      ¬ LockSafe (.fileread 7 (fun _ => false) 10 MMAPBASE 0 1) mapped := by
  constructor
  · intro h
    exact lockSafe_piperead.1 h rfl 0 (by decide) Space.reaches_zero 7 lazy_mapped
  · intro h
    exact lockSafe_fileread.1 h 0 (by decide) Space.reaches_zero lazy_mapped

end Xv6.Fault
