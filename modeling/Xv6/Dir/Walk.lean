import Xv6.Dir.Tree

/-!
# References and path lookup

`Inv q o s T B` is what holds in the middle of a system call: the inodes form a tree, up to
one link that `o` has been given and that is not made yet, and the references are those of
`T` and `B`.  The inodes of `B` are known to be allocated; those of `T` are only named so far,
by an entry that may be stale unless `q`.

A lookup takes and drops references.  On the way it may free inodes that have no links, and
that is all it changes, so that it finds what `resolve` finds in the inodes before it.
-/

namespace Xv6.Dir

open Xv6.Lib

/-- The inodes without the link that is not made yet. -/
def settle (o : Option Nat) (f : Nat → Inode) : Nat → Inode :=
  match o with
  | none => f
  | some x => upd f x { f x with nlink := (f x).nlink - 1 }

structure Inv (q : Prop) (o : Option Nat) (s : Fs) (T B : List Nat) : Prop where
  tree : Tree q s.ninodes (settle o s.inode)
  small : s.ninodes ≤ 2 ^ 16
  refs : s.refs.Perm (T ++ B)
  alloc : ∀ i ∈ B, (s.inode i).type ≠ .free
  valid : ∀ i ∈ s.refs, s.valid i = true → (s.inode i).type ≠ .free
  sound : q → ∀ i ∈ T, (s.inode i).type ≠ .free
  pend : ∀ x, o = some x → x ∈ B ∧ (s.inode x).type ≠ .dir ∧ 1 ≤ (s.inode x).nlink ∧
    (s.inode x).nlink ≤ MAXLINK

/-- The panics that remain. -/
def Allowed (q : Prop) (e : Stop) : Prop := e = .noInodes ∨ (¬ q ∧ e = .noType)

/-- Only inodes without links were freed. -/
structure Same (s t : Fs) : Prop where
  ninodes : t.ninodes = s.ninodes
  inode : ∀ i, (t.inode i).type ≠ .free → t.inode i = s.inode i

variable {q : Prop} {o : Option Nat} {s t u : Fs} {T B : List Nat} {i dp : Nat} {name : Name}

theorem Same.refl (s : Fs) : Same s s := ⟨rfl, fun _ _ => rfl⟩

theorem Same.trans (h : Same s t) (h' : Same t u) : Same s u := by
  refine ⟨h'.ninodes.trans h.ninodes, fun i hi => ?_⟩
  have he := h'.inode i hi
  rw [he] at hi ⊢
  exact h.inode i hi

theorem Same.of_eq (hn : t.ninodes = s.ninodes) (hi : t.inode = s.inode) : Same s t :=
  ⟨hn, fun i _ => by rw [hi]⟩

@[simp] theorem settle_none (f : Nat → Inode) : settle none f = f := rfl

variable {f : Nat → Inode} {fuel ip : Nat} {parent : Bool} {path : List Char}

theorem settle_other (h : o ≠ some i) : settle o f i = f i := by
  cases o with
  | none => rfl
  | some x => exact upd_other _ _ fun he => h (congrArg some he.symm)

theorem settle_type : (settle o f i).type = (f i).type := by
  cases o with
  | none => rfl
  | some x =>
    by_cases h : i = x
    · subst h
      simp only [settle, upd_same]
    · exact congrArg Inode.type (upd_other _ _ h)

theorem settle_entries : (settle o f i).entries = (f i).entries := by
  cases o with
  | none => rfl
  | some x =>
    by_cases h : i = x
    · subst h
      simp only [settle, upd_same]
    · exact congrArg Inode.entries (upd_other _ _ h)

/-! ## Entries that name allocated inodes -/

theorem Tree.sound {n d : Nat} (h : Tree q n f) (hq : q) (hd : (f d).type = .dir) {e : Dirent}
    (he : e ∈ (f d).entries) (h0 : e.inum ≠ 0) : (f e.inum).type ≠ .free := by
  rw [h.dots d hd, List.mem_cons, List.mem_cons] at he
  obtain rfl | rfl | he := he
  · show (f d).type ≠ .free
    rw [hd]
    exact FileType.noConfusion
  · by_cases hl : (f d).nlink = 0
    · exact (h.pinned hq d hd hl).type
    · exact (h.parent_live ⟨hd, hl⟩).type
  · by_cases hl : (f d).nlink = 0
    · exact absurd (h.dead d hd hl e he) h0
    · exact h.target d ⟨hd, hl⟩ e he h0

theorem Inv.entry (h : Inv q o s T B) (hq : q) (hd : (s.inode dp).type = .dir) {k : Nat}
    (hl : lookup (s.inode dp).entries name = some (k, i)) : (s.inode i).type ≠ .free := by
  obtain ⟨hk, h0⟩ := lookup_spec hl
  have := h.tree.sound hq (d := dp) (e := ⟨i, name⟩) (by rw [settle_type]; exact hd)
    (by rw [settle_entries]; exact List.mem_of_getElem? hk) h0
  rwa [settle_type] at this

/-! ## References -/

theorem Inv.write {o' : Option Nat} {g : Nat → Inode} (h : Inv q o s T B)
    (hg : ∀ j, (g j).type = (s.inode j).type) (ht : Tree q s.ninodes (settle o' g))
    (hp : ∀ x, o' = some x → x ∈ B ∧ (s.inode x).type ≠ .dir ∧ 1 ≤ (g x).nlink ∧
      (g x).nlink ≤ MAXLINK) :
    Inv q o' { s with inode := g } T B where
  tree := ht
  small := h.small
  refs := h.refs
  alloc := fun j hj => by rw [hg]; exact h.alloc j hj
  valid := fun j hj hv => by rw [hg]; exact h.valid j hj hv
  sound := fun hq j hj => by rw [hg]; exact h.sound hq j hj
  pend := fun x hx => by
    rw [hg]
    exact hp x hx

theorem type_upd {a : Inode} (h : a.type = (f i).type) (j : Nat) :
    (upd f i a j).type = (f j).type := by
  by_cases hj : j = i
  · rw [hj, upd_same, h]
  · rw [upd_other _ _ hj]

theorem wp_iget (h : Inv q o s T B) (hi : q → (s.inode i).type ≠ .free) :
    wp (iget i) s (fun _ t => Inv q o t (i :: T) B ∧ t.inode = s.inode ∧ t.ninodes = s.ninodes)
      (Allowed q) := by
  have hsound : q → ∀ j ∈ i :: T, (s.inode j).type ≠ .free := by
    intro hq j hj
    obtain rfl | hj := List.mem_cons.1 hj
    · exact hi hq
    · exact h.sound hq j hj
  rw [iget, wp_bind, wp_get]
  split
  case isTrue hm =>
    refine wp_set.2 ⟨⟨h.tree, h.small, h.refs.cons i, h.alloc, ?_, hsound, h.pend⟩, rfl, rfl⟩
    intro j hj
    obtain rfl | hj := List.mem_cons.1 hj
    · exact h.valid j hm
    · exact h.valid j hj
  case isFalse hm =>
    split
    case isTrue => exact wp_throw.2 (Or.inl rfl)
    case isFalse =>
      refine wp_set.2 ⟨⟨h.tree, h.small, h.refs.cons i, h.alloc, ?_, hsound, h.pend⟩, rfl, rfl⟩
      intro j hj (hv : upd s.valid i false j = true)
      by_cases hji : j = i
      · subst hji
        rw [upd_same] at hv
        exact absurd hv (by decide)
      · rw [upd_other _ _ hji] at hv
        obtain rfl | hj := List.mem_cons.1 hj
        · exact absurd rfl hji
        · exact h.valid j hj hv

theorem wp_ilock_held (h : Inv q o s T B) (hi : i ∈ B) :
    wp (ilock i) s (fun _ t => Inv q o t T B ∧ t.inode = s.inode ∧ t.ninodes = s.ninodes)
      (Allowed q) := by
  rw [ilock, wp_bind, wp_get]
  split
  case isTrue => exact wp_pure.2 ⟨h, rfl, rfl⟩
  case isFalse =>
    rw [if_neg (h.alloc i hi)]
    refine wp_set.2 ⟨⟨h.tree, h.small, h.refs, h.alloc, ?_, h.sound, h.pend⟩, rfl, rfl⟩
    intro j hj (hv : upd s.valid i true j = true)
    by_cases hji : j = i
    · subst hji
      exact h.alloc j hi
    · rw [upd_other _ _ hji] at hv
      exact h.valid j hj hv

/-- **An inode that was only named is found to be allocated when it is locked.** -/
theorem wp_ilock (h : Inv q o s (i :: T) B) :
    wp (ilock i) s (fun _ t => Inv q o t T (i :: B) ∧ t.inode = s.inode ∧ t.ninodes = s.ninodes)
      (Allowed q) := by
  have hmove : (s.inode i).type ≠ .free → Inv q o s T (i :: B) := by
    intro ht
    refine ⟨h.tree, h.small, h.refs.trans List.perm_middle.symm, ?_, h.valid,
      fun hq j hj => h.sound hq j (List.mem_cons_of_mem _ hj),
      fun x hx => ⟨List.mem_cons_of_mem _ (h.pend x hx).1, (h.pend x hx).2⟩⟩
    intro j hj
    obtain rfl | hj := List.mem_cons.1 hj
    · exact ht
    · exact h.alloc j hj
  have hmem : i ∈ s.refs := h.refs.mem_iff.2 List.mem_cons_self
  by_cases ht : (s.inode i).type = .free
  · rw [ilock, wp_bind, wp_get]
    have hv : ¬ s.valid i = true := fun hv => h.valid i hmem hv ht
    rw [if_neg hv, if_pos ht]
    exact wp_throw.2 (Or.inr ⟨fun hq => h.sound hq i List.mem_cons_self ht, rfl⟩)
  · exact wp_ilock_held (hmove ht) List.mem_cons_self

/-- A reference is dropped; the last one to an inode without links frees it. -/
theorem wp_iput_of {T' B' : List Nat} (h : Inv q o s T' B')
    (hp : (T' ++ B').Perm (i :: (T ++ B))) (hT : ∀ j ∈ T, j ∈ T') (hB : ∀ j ∈ B, j ∈ B')
    (ho : ∀ x, o = some x → x ∈ B) :
    wp (iput i) s (fun _ t => Inv q o t T B ∧ Same s t) (Allowed q) := by
  have hrefs : s.refs.Perm (i :: (T ++ B)) := h.refs.trans hp
  have herase : (s.refs.erase i).Perm (T ++ B) := by
    have := hrefs.erase i
    rwa [List.erase_cons_head] at this
  refine wp_modify.2 ?_
  split
  case isTrue hc =>
    obtain ⟨hcount, hv, hn⟩ := hc
    have hnot : i ∉ T ++ B := by
      have : s.refs.count i = (i :: (T ++ B)).count i := hrefs.count_eq i
      rw [hcount, List.count_cons_self] at this
      exact List.count_eq_zero.1 (by omega)
    have hoi : o ≠ some i := fun he => hnot (List.mem_append_right _ (ho i he))
    have hother : ∀ j, j ≠ i → settle o (upd s.inode i (s.inode i).freed) j = settle o s.inode j := by
      intro j hj
      cases o with
      | none => exact upd_other _ _ hj
      | some x =>
        have hxi : x ≠ i := fun he => hoi (congrArg some he)
        by_cases hjx : j = x
        · subst hjx
          simp only [settle, upd_same, upd_other _ _ hj]
        · simp only [settle, upd_other _ _ hjx, upd_other _ _ hj]
    refine ⟨⟨?_, h.small, herase, ?_, ?_, ?_, ?_⟩, rfl, ?_⟩
    · refine h.tree.free (i := i) (Or.inr ?_) ?_ hother
      · rw [settle_other hoi]
        exact hn
      · rw [settle_other hoi]
        exact congrArg Inode.type (upd_same _ _ _)
    · intro j hj
      have hji : j ≠ i := by
        rintro rfl
        exact hnot (List.mem_append_right _ hj)
      show (upd s.inode i (s.inode i).freed j).type ≠ .free
      rw [upd_other _ _ hji]
      exact h.alloc j (hB j hj)
    · intro j hj (hvj : upd s.valid i false j = true)
      have hji : j ≠ i := by
        rintro rfl
        exact hnot (herase.mem_iff.1 hj)
      show (upd s.inode i (s.inode i).freed j).type ≠ .free
      rw [upd_other _ _ hji] at hvj ⊢
      exact h.valid j (List.mem_of_mem_erase hj) hvj
    · intro hq j hj
      have hji : j ≠ i := by
        rintro rfl
        exact hnot (List.mem_append_left _ hj)
      show (upd s.inode i (s.inode i).freed j).type ≠ .free
      rw [upd_other _ _ hji]
      exact h.sound hq j (hT j hj)
    · intro x hx
      have hxi : x ≠ i := fun he => hoi (hx.trans (congrArg some he))
      show x ∈ B ∧ (upd s.inode i (s.inode i).freed x).type ≠ .dir ∧
        1 ≤ (upd s.inode i (s.inode i).freed x).nlink ∧
        (upd s.inode i (s.inode i).freed x).nlink ≤ MAXLINK
      rw [upd_other _ _ hxi]
      exact ⟨ho x hx, (h.pend x hx).2⟩
    · intro j hj
      have hji : j ≠ i := by
        rintro rfl
        exact hj (congrArg Inode.type (upd_same _ _ _))
      exact upd_other _ _ hji
  case isFalse =>
    exact ⟨⟨h.tree, h.small, herase, fun j hj => h.alloc j (hB j hj),
      fun j hj => h.valid j (List.mem_of_mem_erase hj), fun hq j hj => h.sound hq j (hT j hj),
      fun x hx => ⟨ho x hx, (h.pend x hx).2⟩⟩, Same.of_eq rfl rfl⟩

theorem wp_iput (h : Inv q o s T (i :: B)) (ho : ∀ x, o = some x → x ∈ B) :
    wp (iput i) s (fun _ t => Inv q o t T B ∧ Same s t) (Allowed q) :=
  wp_iput_of h List.perm_middle (fun _ => id) (fun _ => List.mem_cons_of_mem _) ho

theorem wp_iput_done (h : Inv q none s T (i :: B)) :
    wp (iput i) s (fun _ t => Inv q none t T B ∧ Same s t) (Allowed q) :=
  wp_iput h nofun

theorem wp_iput_second {j : Nat} (h : Inv q o s T (j :: i :: B))
    (ho : ∀ x, o = some x → x ∈ j :: B) :
    wp (iput i) s (fun _ t => Inv q o t T (j :: B) ∧ Same s t) (Allowed q) := by
  refine wp_iput_of h ?_ (fun _ => id) ?_ ho
  · exact ((List.Perm.swap i j B).append_left T).trans List.perm_middle
  · intro k hk
    obtain rfl | hk := List.mem_cons.1 hk
    · exact List.mem_cons_self
    · exact List.mem_cons_of_mem _ (List.mem_cons_of_mem _ hk)

theorem Inv.drop {j : Nat} (h : Inv q none s T (j :: i :: B)) :
    Inv q none { s with refs := s.refs.erase i } T (j :: B) where
  tree := h.tree
  small := h.small
  refs := by
    have hp := h.refs.trans (((List.Perm.swap i j B).append_left T).trans List.perm_middle)
    have := hp.erase i
    rwa [List.erase_cons_head] at this
  alloc := fun k hk => h.alloc k (by
    obtain rfl | hk := List.mem_cons.1 hk
    · exact List.mem_cons_self
    · exact List.mem_cons_of_mem _ (List.mem_cons_of_mem _ hk))
  valid := fun k hk => h.valid k (List.mem_of_mem_erase hk)
  sound := h.sound
  pend := nofun

theorem wp_iput_named (h : Inv q o s (i :: T) B) :
    wp (iput i) s (fun _ t => Inv q o t T B ∧ Same s t) (Allowed q) :=
  wp_iput_of h (List.Perm.refl _) (fun _ => List.mem_cons_of_mem _) (fun _ => id)
    fun x hx => (h.pend x hx).1

theorem Inv.idup (h : Inv q o s T B) (hi : i ∈ B) :
    Inv q o { s with refs := i :: s.refs } (i :: T) B := by
  refine ⟨h.tree, h.small, h.refs.cons i, h.alloc, ?_, ?_, h.pend⟩
  · intro j hj
    obtain rfl | hj := List.mem_cons.1 hj
    · exact h.valid j (h.refs.mem_iff.2 (List.mem_append_right _ hi))
    · exact h.valid j hj
  · intro hq j hj
    obtain rfl | hj := List.mem_cons.1 hj
    · exact h.alloc j hi
    · exact h.sound hq j hj

/-! ## Lookup -/

theorem wp_dirlookup (h : Inv q o s T B) (hd : (s.inode dp).type = .dir) :
    wp (dirlookup dp name) s (fun r t => t.inode = s.inode ∧ t.ninodes = s.ninodes ∧
      r = lookup (s.inode dp).entries name ∧
      match r with
      | none => Inv q o t T B
      | some (_, i) => Inv q o t (i :: T) B) (Allowed q) := by
  rw [dirlookup, wp_bind, wp_get, if_neg (not_not.2 hd)]
  cases hl : lookup (s.inode dp).entries name with
  | none => exact wp_pure.2 ⟨rfl, rfl, rfl, h⟩
  | some r =>
    obtain ⟨k, i⟩ := r
    refine wp_seq (wp_iget h fun hq => h.entry hq hd hl) ?_
    rintro - t ⟨ht, hti, htn⟩
    exact wp_pure.2 ⟨hti, htn, rfl, ht⟩

/-- The loop of `namex` on the inodes alone. -/
def resolveLoop (f : Nat → Inode) (parent : Bool) : Nat → Nat → List Char → Option (Nat × Name)
  | 0, _, _ => none
  | fuel + 1, ip, path =>
    match skipelem path with
    | none => if parent then none else some (ip, [])
    | some (name, rest) =>
      if (f ip).type ≠ .dir then none
      else if parent && rest == [] then some (ip, name)
      else
        match lookup (f ip).entries name with
        | none => none
        | some (_, next) => resolveLoop f parent fuel next rest

/-- The inode that a path names for a process in the directory `cwd`, or its parent and its
last element. -/
def resolve (f : Nat → Inode) (parent : Bool) (cwd : Nat) (path : List Char) :
    Option (Nat × Name) :=
  resolveLoop f parent (path.length + 1) (if path.head? = some '/' then ROOTINO else cwd) path

theorem resolveLoop_congr {f g : Nat → Inode} (hs : ∀ i, (g i).type = .dir → g i = f i)
    {r : Nat × Name} (h : resolveLoop g parent fuel ip path = some r) :
    resolveLoop f parent fuel ip path = some r := by
  induction fuel generalizing ip path with
  | zero => exact absurd h (by simp [resolveLoop])
  | succ fuel ih =>
    rw [resolveLoop] at h ⊢
    cases hsk : skipelem path with
    | none => rwa [hsk] at h
    | some nr =>
      obtain ⟨name, rest⟩ := nr
      simp only [hsk] at h ⊢
      by_cases hd : (g ip).type = .dir
      · rw [← hs ip hd]
        rw [if_neg (not_not.2 hd)] at h ⊢
        split at h
        case isTrue hp =>
          rw [if_pos hp]
          exact h
        case isFalse hp =>
          rw [if_neg hp]
          cases hl : lookup (g ip).entries name with
          | none => rw [hl] at h; exact absurd h (by simp)
          | some kn =>
            rw [hl] at h
            exact ih h
      · rw [if_pos hd] at h
        exact absurd h (by simp)

theorem resolveLoop_dir {r : Nat × Name} (h : resolveLoop f true fuel ip path = some r) :
    (f r.1).type = .dir := by
  induction fuel generalizing ip path with
  | zero => exact absurd h (by simp [resolveLoop])
  | succ fuel ih =>
    rw [resolveLoop] at h
    cases hsk : skipelem path with
    | none => simp [hsk] at h
    | some nr =>
      simp only [hsk, Bool.true_and] at h
      by_cases hd : (f ip).type = .dir
      · rw [if_neg (not_not.2 hd)] at h
        split at h
        · rw [← Option.some.inj h]
          exact hd
        · cases hl : lookup (f ip).entries nr.1 with
          | none => rw [hl] at h; exact absurd h (by simp)
          | some kn =>
            rw [hl] at h
            exact ih h
      · rw [if_pos hd] at h
        exact absurd h (by simp)

theorem Same.dir (h : Same s t) : ∀ i, (t.inode i).type = .dir → t.inode i = s.inode i :=
  fun i hi => h.inode i (by rw [hi]; exact FileType.noConfusion)

theorem length_dropWhile_le (p : Char → Bool) (l : List Char) : (l.dropWhile p).length ≤ l.length :=
  (List.dropWhile_suffix p).length_le

theorem skipelem_length {path rest : List Char} (h : skipelem path = some (name, rest)) :
    rest.length < path.length := by
  rw [skipelem] at h
  split at h
  case h_1 => exact absurd h (by simp)
  case h_2 l hne =>
    have h1 := length_dropWhile_le (· == '/') path
    cases hs : path.dropWhile (· == '/') with
    | nil => exact absurd hs hne
    | cons c cs =>
      have hc : (c == '/') = false := by
        have := List.head?_dropWhile_not (· == '/') path
        rw [hs] at this
        simpa using this
      rw [hs] at h h1
      have hdrop : (c :: cs).dropWhile (· != '/') = cs.dropWhile (· != '/') := by
        rw [List.dropWhile_cons_of_pos]
        simp [bne, hc]
      rw [hdrop] at h
      have h2 := length_dropWhile_le (· != '/') cs
      have h3 := length_dropWhile_le (· == '/') (cs.dropWhile (· != '/'))
      rw [Option.some.injEq, Prod.mk.injEq] at h
      rw [← h.2]
      rw [List.length_cons] at h1
      omega

/-- **`namex` finds what `resolve` finds**, and holds a reference to it. -/
theorem wp_namexLoop (hf : path.length < fuel) (h : Inv q o s (ip :: T) B) :
    wp (namexLoop parent fuel ip path) s (fun r t => Same s t ∧
      match r with
      | none => Inv q o t T B
      | some (i, name) => resolveLoop s.inode parent fuel ip path = some (i, name) ∧
        if parent then Inv q o t T (i :: B) ∧ (t.inode i).type = .dir else Inv q o t (i :: T) B)
      (Allowed q) := by
  induction fuel generalizing s ip path with
  | zero => exact absurd hf (Nat.not_lt_zero _)
  | succ fuel ih =>
    rw [namexLoop, resolveLoop]
    cases hsk : skipelem path with
    | none =>
      cases parent with
      | true =>
        simp only [if_true]
        refine wp_seq (wp_iput_named h) ?_
        rintro - t ⟨ht, hs⟩
        exact wp_pure.2 ⟨hs, ht⟩
      | false => exact wp_pure.2 ⟨Same.refl s, rfl, h⟩
    | some nr =>
      obtain ⟨name, rest⟩ := nr
      simp only
      refine wp_seq (wp_ilock h) ?_
      rintro - t ⟨ht, hti, htn⟩
      have hst : Same s t := Same.of_eq htn hti
      rw [wp_bind, wp_get, ← hti]
      by_cases hd : (t.inode ip).type = .dir
      · rw [if_neg (not_not.2 hd), if_neg (not_not.2 hd)]
        by_cases hp : (parent && rest == []) = true
        · rw [if_pos hp, if_pos hp]
          have hpt : parent = true := (Bool.and_eq_true_iff.1 hp).1
          refine wp_pure.2 ⟨hst, rfl, ?_⟩
          rw [hpt]
          exact ⟨ht, hd⟩
        · rw [if_neg hp, if_neg hp, wp_bind]
          refine wp_conseq (wp_dirlookup ht hd) ?_
          rintro r u ⟨hui, hun, hr, hu⟩
          have htu : Same t u := Same.of_eq hun hui
          rw [← hr]
          cases r with
          | none =>
            refine wp_seq (wp_iput hu fun x hx => (h.pend x hx).1) ?_
            rintro - v ⟨hv, huv⟩
            exact wp_pure.2 ⟨hst.trans (htu.trans huv), hv⟩
          | some kn =>
            obtain ⟨k, next⟩ := kn
            simp only at hu ⊢
            refine wp_seq (wp_iput hu fun x hx => (h.pend x hx).1) ?_
            rintro - v ⟨hv, huv⟩
            have hsv := hst.trans (htu.trans huv)
            have htv := htu.trans huv
            have hlen := skipelem_length hsk
            refine wp_conseq (ih (by omega) hv) ?_
            rintro r w ⟨hvw, hw⟩
            refine ⟨hsv.trans hvw, ?_⟩
            cases r with
            | none => exact hw
            | some r => exact ⟨resolveLoop_congr htv.dir hw.1, hw.2⟩
      · rw [if_pos hd, wp_bind]
        refine wp_conseq (wp_iput ht fun x hx => (h.pend x hx).1) ?_
        rintro - u ⟨hu, htu⟩
        exact wp_pure.2 ⟨hst.trans htu, hu⟩

theorem wp_namex {cwd : Nat} (h : Inv q o s T B) (hc : cwd ∈ B) :
    wp (namex parent cwd path) s (fun r t => Same s t ∧
      match r with
      | none => Inv q o t T B
      | some (i, name) => resolve s.inode parent cwd path = some (i, name) ∧
        if parent then Inv q o t T (i :: B) ∧ (t.inode i).type = .dir else Inv q o t (i :: T) B)
      (Allowed q) := by
  have hroot : (s.inode ROOTINO).type ≠ .free := by
    have := h.tree.root.1.type
    rwa [settle_type] at this
  rw [namex, resolve]
  split
  case isTrue =>
    refine wp_seq (wp_iget h fun _ => hroot) ?_
    rintro - t ⟨ht, hti, htn⟩
    refine wp_conseq (wp_namexLoop (Nat.lt_succ_self _) ht) ?_
    rintro r u ⟨htu, hu⟩
    rw [hti] at hu
    exact ⟨(Same.of_eq htn hti).trans htu, hu⟩
  case isFalse =>
    rw [wp_bind]
    refine wp_modify.2 ?_
    refine wp_conseq (wp_namexLoop (Nat.lt_succ_self _) (h.idup hc)) ?_
    rintro r u ⟨htu, hu⟩
    exact ⟨⟨htu.ninodes, htu.inode⟩, hu⟩

theorem wp_namei {cwd : Nat} (h : Inv q o s T B) (hc : cwd ∈ B) :
    wp (namei cwd path) s (fun r t => Same s t ∧
      match r with
      | none => Inv q o t T B
      | some i => (resolve s.inode false cwd path).map Prod.fst = some i ∧ Inv q o t (i :: T) B)
      (Allowed q) := by
  rw [namei, wp_bind]
  refine wp_conseq (wp_namex h hc) ?_
  rintro r t ⟨hst, ht⟩
  refine wp_pure.2 ⟨hst, ?_⟩
  cases r with
  | none => exact ht
  | some r =>
    refine ⟨?_, ht.2⟩
    rw [ht.1]
    rfl

end Xv6.Dir
