import Xv6.Dir.Model
import Xv6.Lib.Count

/-!
# The tree of the linked directories

A directory is *live* if its link count is not zero.  Its entries are `.`, `..` and its
*kids*.  `names f i` counts the kids of live directories that name `i`, and `subs f i` the live
directories whose `..` is `i`.

`Tree q n f` says that the inodes `f` form a file system: the link count of each allocated
inode is the sum of the two, every live directory but the root is named exactly once, by the
directory that its `..` names, and a directory that is not live is empty.  With `q` the `..` of
a directory that is not live is live too.  The lemmas below say what frees an inode, adds an
entry and removes one keep it.
-/

namespace Xv6.Dir

open Xv6.Lib Finset

namespace Inode

/-- A directory that is linked. -/
def Live (a : Inode) : Prop := a.type = .dir ∧ a.nlink ≠ 0

instance (a : Inode) : Decidable a.Live := inferInstanceAs (Decidable (_ ∧ _))

/-- The entries after `.` and `..`. -/
def kids (a : Inode) : List Dirent := a.entries.drop 2

/-- The inode that `..` names. -/
def parent (a : Inode) : Nat := (a.entries[1]?.map Dirent.inum).getD 0

end Inode

/-- The entries that name `i`. -/
def naming (es : List Dirent) (i : Nat) : Nat := es.countP fun e => e.inum = i

variable {es : List Dirent} {a : Inode} {e : Dirent} {ks : List Dirent}

theorem naming_pos {i : Nat} : 0 < naming es i ↔ ∃ e ∈ es, e.inum = i := by
  simp [naming, List.countP_pos_iff]

def namesIn (a : Inode) (i : Nat) : Nat := if a.Live then naming a.kids i else 0

def subIn (a : Inode) (i : Nat) : Nat := if a.Live ∧ a.parent = i then 1 else 0

/-- The kids of live directories that name `i`. -/
def names (n : Nat) (f : Nat → Inode) (i : Nat) : Nat := ∑ d ∈ range n, namesIn (f d) i

/-- The live directories whose `..` is `i`. -/
def subs (n : Nat) (f : Nat → Inode) (i : Nat) : Nat := ∑ d ∈ range n, subIn (f d) i

/-- The largest link count, `SHRT_MAX`. -/
abbrev MAXLINK : Int := 2 ^ 15 - 1

structure Tree (q : Prop) (n : Nat) (f : Nat → Inode) : Prop where
  bound : ∀ i, (f i).type ≠ .free → 1 ≤ i ∧ i < n
  dots : ∀ d, (f d).type = .dir →
    (f d).entries = ⟨d, dot⟩ :: ⟨(f d).parent, dotdot⟩ :: (f d).kids
  up_pos : ∀ d, (f d).type = .dir → (f d).parent ≠ 0
  kid : ∀ d, (f d).type = .dir → ∀ e ∈ (f d).kids, e.inum ≠ 0 → e.name ≠ dot ∧ e.name ≠ dotdot
  count : ∀ i, (f i).type ≠ .free → (f i).nlink = (names n f i + subs n f i : Nat)
  dead : ∀ d, (f d).type = .dir → (f d).nlink = 0 → ∀ e ∈ (f d).kids, e.inum = 0
  root : (f ROOTINO).Live ∧ (f ROOTINO).parent = ROOTINO ∧ names n f ROOTINO = 0
  once : ∀ d, (f d).Live → d ≠ ROOTINO → names n f d = 1
  up : ∀ d, (f d).Live → ∀ e ∈ (f d).kids, (f e.inum).type = .dir → (f e.inum).parent = d
  target : ∀ d, (f d).Live → ∀ e ∈ (f d).kids, e.inum ≠ 0 → (f e.inum).type ≠ .free
  pinned : q → ∀ d, (f d).type = .dir → (f d).nlink = 0 → (f (f d).parent).Live
  short : ∀ i, (f i).type ≠ .free → (f i).nlink ≤ MAXLINK

variable {q : Prop} {n : Nat} {f g : Nat → Inode} {d i x dp : Nat}

theorem Inode.Live.type (h : a.Live) : a.type ≠ .free := by
  rw [h.1]
  exact FileType.noConfusion

/-! ## Entries -/

theorem lookup_spec {name : Name} {k : Nat} (h : lookup es name = some (k, i)) :
    es[k]? = some ⟨i, name⟩ ∧ i ≠ 0 := by
  rw [lookup] at h
  split at h
  case h_1 => exact absurd h (by simp)
  case h_2 k' hk =>
    obtain ⟨hlt, hp, -⟩ := List.findIdx?_eq_some_iff_getElem.1 hk
    rw [List.getElem?_eq_getElem hlt, Option.map_some, Option.some.injEq, Prod.mk.injEq] at h
    obtain ⟨rfl, hi⟩ := h
    simp only [ne_eq, decide_not, Bool.and_eq_true, Bool.not_eq_eq_eq_not, Bool.not_true,
      decide_eq_false_iff_not, beq_iff_eq] at hp
    rw [List.getElem?_eq_getElem hlt, ← hi, ← hp.2]
    exact ⟨rfl, hp.1⟩

theorem lookup_none {name : Name} (h : lookup es name = none) (he : e ∈ es) (h0 : e.inum ≠ 0) :
    e.name ≠ name := by
  rw [lookup] at h
  split at h
  case h_1 hk =>
    have := List.findIdx?_eq_none_iff.1 hk e he
    simpa [h0] using this
  case h_2 k' hk =>
    obtain ⟨hlt, -, -⟩ := List.findIdx?_eq_some_iff_getElem.1 hk
    rw [List.getElem?_eq_getElem hlt] at h
    exact absurd h (by simp)

theorem place_spec {a b e : Dirent} {ks es : List Dirent} {room : Bool} (ha : a.inum ≠ 0)
    (hb : b.inum ≠ 0) (h : place (a :: b :: ks) e room = some es) :
    ∃ ks', es = a :: b :: ks' ∧ (∀ e' ∈ ks', e' = e ∨ e' ∈ ks) ∧
      ∀ i, i ≠ 0 → naming ks' i = naming ks i + if e.inum = i then 1 else 0 := by
  rw [place] at h
  simp only [List.findIdx?_cons, ha, hb, decide_false, Bool.false_eq_true, if_false,
    Option.map_map] at h
  cases hk : ks.findIdx? fun e => e.inum = 0 with
  | some k =>
    obtain ⟨hlt, hp, -⟩ := List.findIdx?_eq_some_iff_getElem.1 hk
    rw [hk, Option.map_some] at h
    obtain rfl := Option.some.inj h
    refine ⟨ks.set k e, rfl, fun e' he' => (List.mem_or_eq_of_mem_set he').symm, fun i hi => ?_⟩
    have h0 : ks[k].inum = 0 := of_decide_eq_true hp
    rw [naming, List.countP_set hlt, h0]
    simp [naming, Ne.symm hi]
  | none =>
    rw [hk, Option.map_none] at h
    simp only at h
    split at h
    case isTrue => exact absurd h (by simp)
    split at h
    case isTrue => exact absurd h (by simp)
    obtain rfl := Option.some.inj h
    refine ⟨ks ++ [e], rfl, fun e' he' => ?_, fun i hi => ?_⟩
    · rw [List.mem_append, List.mem_singleton] at he'
      exact he'.symm
    · rw [naming, List.countP_append]
      simp [naming, List.countP_cons]

theorem naming_set {k : Nat} (h : ks[k]? = some e) (hi : i ≠ 0) :
    naming (ks.set k ⟨0, []⟩) i + (if e.inum = i then 1 else 0) = naming ks i := by
  obtain ⟨hlt, rfl⟩ := List.getElem?_eq_some_iff.1 h
  have hpos : ks[k].inum = i → 0 < naming ks i := fun he =>
    naming_pos.2 ⟨ks[k], List.getElem_mem hlt, he⟩
  rw [naming, List.countP_set hlt]
  simp only [Ne.symm hi, decide_false, Bool.false_eq_true, if_false, Nat.add_zero]
  rw [naming] at hpos
  split
  · rename_i he
    rw [if_pos (of_decide_eq_true he)]
    have := hpos (of_decide_eq_true he)
    rw [naming]
    omega
  · rename_i he
    rw [if_neg fun h => he (decide_eq_true h)]
    rfl

theorem mem_set_zero {k : Nat} (he : e ∈ ks.set k ⟨0, []⟩) (h0 : e.inum ≠ 0) : e ∈ ks := by
  obtain he | rfl := List.mem_or_eq_of_mem_set he
  · exact he
  · exact absurd rfl h0

/-! ## Counting -/

theorem names_pos (hb : ∀ d, (f d).Live → d < n) :
    0 < names n f i ↔ ∃ d, (f d).Live ∧ ∃ e ∈ (f d).kids, e.inum = i := by
  rw [names, sum_pos_iff]
  constructor
  · rintro ⟨d, -, hd⟩
    rw [namesIn] at hd
    split at hd
    case isTrue hl => exact ⟨d, hl, naming_pos.1 hd⟩
    case isFalse => exact absurd hd (Nat.lt_irrefl _)
  · rintro ⟨d, hl, he⟩
    refine ⟨d, mem_range.2 (hb d hl), ?_⟩
    rw [namesIn, if_pos hl]
    exact naming_pos.2 he

theorem subs_pos (hb : ∀ d, (f d).Live → d < n) :
    0 < subs n f i ↔ ∃ d, (f d).Live ∧ (f d).parent = i := by
  rw [subs, sum_pos_iff]
  constructor
  · rintro ⟨d, -, hd⟩
    rw [subIn] at hd
    split at hd
    case isTrue hl => exact ⟨d, hl⟩
    case isFalse => exact absurd hd (Nat.lt_irrefl _)
  · rintro ⟨d, hl⟩
    refine ⟨d, mem_range.2 (hb d hl.1), ?_⟩
    rw [subIn, if_pos hl]
    exact Nat.one_pos

theorem names_congr (h : ∀ d, namesIn (g d) i = namesIn (f d) i) : names n g i = names n f i :=
  sum_congr rfl fun d _ => h d

theorem subs_congr (h : ∀ d, subIn (g d) i = subIn (f d) i) : subs n g i = subs n f i :=
  sum_congr rfl fun d _ => h d

theorem names_change (hd : dp < n) (h : ∀ d, d ≠ dp → namesIn (g d) i = namesIn (f d) i) :
    names n g i + namesIn (f dp) i = names n f i + namesIn (g dp) i :=
  sum_change (mem_range.2 hd) fun d _ => h d

theorem subs_change (hd : dp < n) (h : ∀ d, d ≠ dp → subIn (g d) i = subIn (f d) i) :
    subs n g i + subIn (f dp) i = subs n f i + subIn (g dp) i :=
  sum_change (mem_range.2 hd) fun d _ => h d

theorem namesIn_of_not (h : ¬ a.Live) : namesIn a i = 0 := if_neg h

theorem namesIn_live (h : a.Live) : namesIn a i = naming a.kids i := if_pos h

theorem subIn_of_not (h : ¬ a.Live) : subIn a i = 0 := if_neg fun h' => h h'.1

theorem subIn_live (h : a.Live) : subIn a i = if a.parent = i then 1 else 0 := by
  simp [subIn, h]

/-! ## What a tree gives -/

namespace Tree

theorem lt (h : Tree q n f) : ∀ d, (f d).Live → d < n := fun d hd => (h.bound d hd.type).2

theorem ne_zero (h : Tree q n f) (hi : (f i).type ≠ .free) : i ≠ 0 := by
  have := (h.bound i hi).1
  omega

theorem nlink_nonneg (h : Tree q n f) (hi : (f i).type ≠ .free) : 0 ≤ (f i).nlink := by
  rw [h.count i hi]
  omega

theorem named (h : Tree q n f) (hd : (f d).Live) (he : e ∈ (f d).kids) (h0 : e.inum ≠ 0) :
    (f e.inum).type ≠ .free ∧ 1 ≤ (f e.inum).nlink := by
  have ht := h.target d hd e he h0
  have := (names_pos h.lt).2 ⟨d, hd, e, he, rfl⟩
  refine ⟨ht, ?_⟩
  rw [h.count _ ht]
  omega

theorem parent_live (h : Tree q n f) (hd : (f d).Live) : (f (f d).parent).Live := by
  by_cases hr : d = ROOTINO
  · rw [hr, h.root.2.1]
    exact h.root.1
  · obtain ⟨p, hp, e, he, rfl⟩ := (names_pos h.lt).1 (Nat.lt_of_lt_of_eq Nat.one_pos (h.once d hd hr).symm)
    rw [h.up p hp e he hd.1]
    exact hp

theorem unnamed (h : Tree q n f) (hi : (f i).type = .free) (h0 : i ≠ 0) :
    names n f i = 0 ∧ subs n f i = 0 := by
  constructor
  · refine Nat.eq_zero_of_not_pos fun hp => ?_
    obtain ⟨d, hd, e, he, rfl⟩ := (names_pos h.lt).1 hp
    exact h.target d hd e he h0 hi
  · refine Nat.eq_zero_of_not_pos fun hp => ?_
    obtain ⟨d, hd, rfl⟩ := (subs_pos h.lt).1 hp
    exact (h.parent_live hd).type hi

theorem nlink_empty (h : Tree q n f) (hd : (f d).Live) (hr : d ≠ ROOTINO)
    (he : ∀ e ∈ (f d).kids, e.inum = 0) : (f d).nlink = 1 := by
  have hs : subs n f d = 0 := by
    refine Nat.eq_zero_of_not_pos fun hp => ?_
    obtain ⟨c, hc, hcd⟩ := (subs_pos h.lt).1 hp
    have hcr : c ≠ ROOTINO := by
      rintro rfl
      exact hr (hcd.symm.trans h.root.2.1)
    have hone := h.once c hc hcr
    obtain ⟨p, hp, e, hep, hec⟩ := (names_pos h.lt).1 (Nat.lt_of_lt_of_eq Nat.one_pos hone.symm)
    have hpd : p = d := by
      rw [← hcd, ← hec]
      exact (h.up p hp e hep (by rw [hec]; exact hc.1)).symm
    subst hpd
    exact h.ne_zero hc.type (hec ▸ he e hep)
  rw [h.count d hd.type, hs, h.once d hd hr]
  rfl

theorem two_le_nlink (h : Tree q n f) (hd : (f d).Live) (hx : (f x).Live) (hxd : (f x).parent = d)
    (hr : x ≠ ROOTINO) : 2 ≤ (f d).nlink := by
  have hs : 1 ≤ subs n f d := (subs_pos h.lt).2 ⟨x, hx, hxd⟩
  rw [h.count d hd.type]
  by_cases hdr : d = ROOTINO
  · -- its own `..` counts as well
    have hroot := h.root
    have hne : x ≠ d := fun he => hr (he.trans hdr)
    have h2 : subIn (f d) d + subIn (f x) d ≤ subs n f d := by
      rw [subs, ← sum_pair (f := fun c => subIn (f c) d) hne.symm]
      refine sum_le_sum_of_subset fun c hc => ?_
      rw [mem_insert, mem_singleton] at hc
      obtain rfl | rfl := hc
      · exact mem_range.2 (h.lt c hd)
      · exact mem_range.2 (h.lt c hx)
    rw [subIn_live hd, subIn_live hx, if_pos hxd, if_pos (by rw [hdr]; exact hroot.2.1)] at h2
    omega
  · have := h.once d hd hdr
    omega

/-! ## What keeps a tree -/

/-- **An inode without links is freed**, or one that is free already is written. -/
theorem free (h : Tree q n f) (hi : (f i).type = .free ∨ (f i).nlink = 0)
    (hgi : (g i).type = .free) (ho : ∀ j, j ≠ i → g j = f j) : Tree q n g := by
  have hni : ¬ (f i).Live := fun hl => hi.elim hl.type hl.2
  have hnf : ¬ (g i).Live := fun hl => hl.type hgi
  have hne : ∀ {d}, (f d).Live → d ≠ i := by
    rintro d hd rfl
    exact hni hd
  have hof : ∀ {d}, (g d).type ≠ .free → d ≠ i := by
    rintro d hd rfl
    exact hd hgi
  have hlive : ∀ {d}, (g d).Live → (f d).Live := by
    intro d hd
    rwa [ho _ (hof hd.type)] at hd
  have hnames : ∀ j, names n g j = names n f j := by
    intro j
    refine names_congr fun d => ?_
    by_cases hd : d = i
    · rw [hd, namesIn_of_not hni, namesIn_of_not hnf]
    · rw [ho _ hd]
  have hsubs : ∀ j, subs n g j = subs n f j := by
    intro j
    refine subs_congr fun d => ?_
    by_cases hd : d = i
    · rw [hd, subIn_of_not hni, subIn_of_not hnf]
    · rw [ho _ hd]
  have hdir : ∀ {d}, (g d).type = .dir → g d = f d := fun hd =>
    ho _ (hof (by rw [hd]; exact FileType.noConfusion))
  refine ⟨?_, ?_, ?_, ?_, ?_, ?_, ?_, ?_, ?_, ?_, ?_, ?_⟩
  · intro j hj
    rw [ho _ (hof hj)] at hj
    exact h.bound j hj
  · intro d hd
    have he := hdir hd
    rw [he] at hd ⊢
    exact h.dots d hd
  · intro d hd
    have he := hdir hd
    rw [he] at hd ⊢
    exact h.up_pos d hd
  · intro d hd
    have he := hdir hd
    rw [he] at hd ⊢
    exact h.kid d hd
  · intro j hj
    rw [hnames, hsubs]
    have he := ho _ (hof hj)
    rw [he] at hj ⊢
    exact h.count j hj
  · intro d hd
    have he := hdir hd
    rw [he] at hd ⊢
    exact h.dead d hd
  · rw [hnames, ho _ (hne h.root.1)]
    exact h.root
  · intro d hd hr
    rw [hnames]
    exact h.once d (hlive hd) hr
  · intro d hd e he ht
    have hd' := hlive hd
    rw [ho _ (hne hd')] at he
    have hte := hdir ht
    rw [hte] at ht ⊢
    exact h.up d hd' e he ht
  · intro d hd e he h0
    have hd' := hlive hd
    rw [ho _ (hne hd')] at he
    have hnamed := h.named hd' he h0
    have hei : e.inum ≠ i := by
      rintro rfl
      obtain hi | hi := hi
      · exact hnamed.1 hi
      · rw [hi] at hnamed
        exact absurd hnamed.2 (by decide)
    rw [ho _ hei]
    exact hnamed.1
  · intro hq d hd h0
    have he := hdir hd
    rw [he] at hd h0 ⊢
    have hp := h.pinned hq d hd h0
    rw [ho _ (hne hp)]
    exact hp
  · intro j hj
    have he := ho _ (hof hj)
    rw [he] at hj ⊢
    exact h.short j hj

/-- **A live directory `dp` and another inode `x` change.**  Of the entries of `dp` only those change that
name `x`, and if `x` is a directory, before or after, it is an empty one below `dp`. -/
theorem edit (h : Tree q n f) (ks : List Dirent) (l : Int) (hdp : (f dp).Live) (hne : x ≠ dp)
    (hxr : x ≠ ROOTINO) (hb : 1 ≤ x ∧ x < n) (ho : ∀ j, j ≠ x → j ≠ dp → g j = f j)
    (hgd : g dp = { f dp with
      nlink := l
      entries := ⟨dp, dot⟩ :: ⟨(f dp).parent, dotdot⟩ :: ks })
    (hl : l ≠ 0 ∧ l ≤ MAXLINK)
    (hks : ∀ e ∈ ks, e.inum ≠ 0 →
      e ∈ (f dp).kids ∨ (e.inum = x ∧ e.name ≠ dot ∧ e.name ≠ dotdot))
    (hcnt : ∀ i, i ≠ 0 → i ≠ x → naming ks i = naming (f dp).kids i)
    (hfx : (f x).type = .dir → (f x).parent = dp ∧ ∀ e ∈ (f x).kids, e.inum = 0)
    (hgx : (g x).type = .dir → ((f x).type = .dir ∨ (f x).type = .free) ∧
      (g x).entries = ⟨x, dot⟩ :: ⟨dp, dotdot⟩ :: (g x).kids ∧ ∀ e ∈ (g x).kids, e.inum = 0)
    (hgf : (g x).type ≠ .free)
    (hn : (g x).nlink + naming (f dp).kids x = (names n f x + subs n f x + naming ks x : Nat))
    (hs : (g x).nlink ≤ MAXLINK)
    (hld : l + (if (f x).Live then 1 else 0) = (f dp).nlink + if (g x).Live then 1 else 0)
    (hone : (g x).Live → names n f x + naming ks x = naming (f dp).kids x + 1)
    (hpin : q → ∀ d, (f d).type = .dir → (f d).nlink = 0 → (f d).parent ≠ x) : Tree q n g := by
  have hkids : (g dp).kids = ks := by rw [hgd]; rfl
  have hpar : (g dp).parent = (f dp).parent := by rw [hgd]; rfl
  have hgl : (g dp).Live := by
    rw [hgd]
    exact ⟨hdp.1, hl.1⟩
  have hxpar : (g x).type = .dir → (g x).parent = dp := by
    intro hd
    rw [Inode.parent, (hgx hd).2.1]
    rfl
  have hlive : ∀ j, j ≠ x → ((g j).Live ↔ (f j).Live) := by
    intro j hj
    by_cases hjd : j = dp
    · rw [hjd]
      exact iff_of_true hgl hdp
    · rw [ho j hj hjd]
  have hparent : ∀ j, j ≠ x → (g j).parent = (f j).parent := by
    intro j hj
    by_cases hjd : j = dp
    · rw [hjd, hpar]
    · rw [ho j hj hjd]
  have htype : ∀ j, j ≠ x → (g j).type = (f j).type := by
    intro j hj
    by_cases hjd : j = dp
    · rw [hjd, hgd]
    · rw [ho j hj hjd]
  have hnone : ∀ {a : Inode} {i}, i ≠ 0 → (a.type = .dir → ∀ e ∈ a.kids, e.inum = 0) → namesIn a i = 0 := by
    intro a i h0 ha
    by_cases hal : a.Live
    · rw [namesIn_live hal]
      refine Nat.eq_zero_of_not_pos fun hp => ?_
      obtain ⟨e, he, rfl⟩ := naming_pos.1 hp
      exact h0 (ha hal.1 e he)
    · exact namesIn_of_not hal
  have hnames : ∀ i, i ≠ 0 → names n g i + naming (f dp).kids i = names n f i + naming ks i := by
    intro i h0
    have := names_change (f := f) (g := g) (i := i) (h.lt dp hdp) fun d hd => by
      by_cases hdx : d = x
      · rw [hdx, hnone h0 fun hd => (hgx hd).2.2, hnone h0 fun hd => (hfx hd).2]
      · rw [ho d hdx hd]
    rwa [namesIn_live hdp, namesIn_live hgl, hkids] at this
  have hsame : ∀ i, i ≠ 0 → i ≠ x → names n g i = names n f i := by
    intro i h0 hi
    have h1 := hnames i h0
    have h2 := hcnt i h0 hi
    omega
  have hsub : ∀ {a : Inode} (i), (a.type = .dir → a.parent = dp) →
      subIn a i = if dp = i then (if a.Live then 1 else 0) else 0 := by
    intro a i ha
    by_cases hal : a.Live
    · rw [subIn_live hal, ha hal.1, if_pos hal]
    · rw [subIn_of_not hal, if_neg hal, ite_self]
  have hsubs : ∀ i, subs n g i + (if dp = i then (if (f x).Live then 1 else 0) else 0) =
      subs n f i + if dp = i then (if (g x).Live then 1 else 0) else 0 := by
    intro i
    have := subs_change (f := f) (g := g) (i := i) hb.2 fun d hd => by
      simp only [subIn, hlive d hd, hparent d hd]
    rwa [hsub i fun hd => (hfx hd).1, hsub i hxpar] at this
  have hg0 : (g 0).type = .free := by
    rw [htype 0 (by omega)]
    by_contra h0
    exact absurd (h.bound 0 h0).1 (by decide)
  -- a kid of a live directory is an old one, or it names `x` now
  have hkid : ∀ d, (g d).Live → ∀ e ∈ (g d).kids, e.inum ≠ 0 →
      (f d).Live ∧ (e ∈ (f d).kids ∨ (d = dp ∧ e.inum = x)) := by
    intro d hd e he h0
    have hdx : d ≠ x := by
      rintro rfl
      exact h0 ((hgx hd.1).2.2 e he)
    refine ⟨(hlive d hdx).1 hd, ?_⟩
    by_cases hdd : d = dp
    · rw [hdd, hkids] at he
      rw [hdd]
      exact (hks e he h0).imp_right fun h' => ⟨rfl, h'.1⟩
    · rw [ho d hdx hdd] at he
      exact .inl he
  refine ⟨?_, ?_, ?_, ?_, ?_, ?_, ?_, ?_, ?_, ?_, ?_, ?_⟩
  · intro j hj
    by_cases hjx : j = x
    · rw [hjx]
      exact hb
    · rw [htype j hjx] at hj
      exact h.bound j hj
  · intro d hd
    by_cases hdx : d = x
    · subst hdx
      rw [hxpar hd]
      exact (hgx hd).2.1
    · by_cases hdd : d = dp
      · subst hdd
        rw [hkids, hpar, hgd]
      · rw [ho d hdx hdd] at hd ⊢
        exact h.dots d hd
  · intro d hd
    by_cases hdx : d = x
    · subst hdx
      rw [hxpar hd]
      exact h.ne_zero hdp.type
    · rw [hparent d hdx]
      rw [htype d hdx] at hd
      exact h.up_pos d hd
  · intro d hd e he h0
    by_cases hdx : d = x
    · subst hdx
      exact absurd ((hgx hd).2.2 e he) h0
    · by_cases hdd : d = dp
      · subst hdd
        rw [hkids] at he
        obtain he | he := hks e he h0
        · exact h.kid d hdp.1 e he h0
        · exact he.2
      · rw [ho d hdx hdd] at hd he
        exact h.kid d hd e he h0
  · intro i hi
    have hsi := hsubs i
    by_cases hix : i = x
    · subst hix
      rw [if_neg hne.symm, if_neg hne.symm] at hsi
      have hni := hnames i (by omega)
      push_cast at hn ⊢
      omega
    · rw [htype i hix] at hi
      have hc := h.count i hi
      rw [hsame i (h.ne_zero hi) hix]
      by_cases hid : i = dp
      · subst hid
        rw [if_pos rfl, if_pos rfl] at hsi
        have hgi : (g i).nlink = l := by rw [hgd]
        rw [hgi]
        split_ifs at hld hsi <;> push_cast at hc ⊢ <;> omega
      · rw [if_neg (Ne.symm hid), if_neg (Ne.symm hid)] at hsi
        rw [ho i hix hid]
        push_cast at hc ⊢
        omega
  · intro d hd h0
    by_cases hdx : d = x
    · subst hdx
      exact (hgx hd).2.2
    · have hdd : d ≠ dp := by
        rintro rfl
        exact hgl.2 h0
      rw [ho d hdx hdd] at hd h0 ⊢
      exact h.dead d hd h0
  · rw [hlive _ hxr.symm, hparent _ hxr.symm, hsame _ (by decide) hxr.symm]
    exact h.root
  · intro d hd hr
    by_cases hdx : d = x
    · subst hdx
      have h1 := hnames d (by omega)
      have h2 := hone hd
      omega
    · have hd' := (hlive d hdx).1 hd
      rw [hsame d (h.ne_zero hd'.type) hdx]
      exact h.once d hd' hr
  · intro d hd e he ht
    have h0 : e.inum ≠ 0 := by
      intro h0
      rw [h0, hg0] at ht
      exact FileType.noConfusion ht
    obtain ⟨hdl, he⟩ := hkid d hd e he h0
    by_cases hex : e.inum = x
    · rw [hex] at ht ⊢
      rw [hxpar ht]
      obtain he | he := he
      · -- an old kid: `x` was a directory below `dp`
        obtain hxd | hxd := (hgx ht).1
        · rw [← (hfx hxd).1, ← hex]
          rw [← hex] at hxd
          exact h.up d hdl e he hxd
        · rw [← hex] at hxd
          exact absurd hxd (h.target d hdl e he h0)
      · exact he.1.symm
    · rw [hparent _ hex]
      rw [htype _ hex] at ht
      obtain he | he := he
      · exact h.up d hdl e he ht
      · exact absurd he.2 hex
  · intro d hd e he h0
    obtain ⟨hdl, he⟩ := hkid d hd e he h0
    by_cases hex : e.inum = x
    · rw [hex]
      exact hgf
    · rw [htype _ hex]
      obtain he | he := he
      · exact h.target d hdl e he h0
      · exact absurd he.2 hex
  · intro hq d hd h0
    by_cases hdx : d = x
    · subst hdx
      rw [hxpar hd]
      exact hgl
    · have hdd : d ≠ dp := by
        rintro rfl
        exact hgl.2 h0
      rw [ho d hdx hdd] at hd h0 ⊢
      exact (hlive _ (hpin hq d hd h0)).2 (h.pinned hq d hd h0)
  · intro i hi
    by_cases hix : i = x
    · rw [hix]
      exact hs
    · by_cases hid : i = dp
      · rw [hid, hgd]
        exact hl.2
      · rw [ho i hix hid] at hi ⊢
        exact h.short i hi

/-- **The entries of a live directory that name a file change**, and with them its link
count. -/
theorem relink (h : Tree q n f) (ks : List Dirent) (hdp : (f dp).Live) (hne : x ≠ dp)
    (ho : ∀ j, j ≠ x → j ≠ dp → g j = f j)
    (hgd : g dp = { f dp with entries := ⟨dp, dot⟩ :: ⟨(f dp).parent, dotdot⟩ :: ks })
    (hks : ∀ e ∈ ks, e.inum ≠ 0 →
      e ∈ (f dp).kids ∨ (e.inum = x ∧ e.name ≠ dot ∧ e.name ≠ dotdot))
    (hcnt : ∀ i, i ≠ 0 → i ≠ x → naming ks i = naming (f dp).kids i)
    (hx : (f x).type ≠ .dir) (hgx : (g x).type ≠ .dir ∧ (g x).type ≠ .free) (hb : 1 ≤ x ∧ x < n)
    (hn : (g x).nlink + naming (f dp).kids x =
      (names n f x + subs n f x + naming ks x : Nat))
    (hs : (g x).nlink ≤ MAXLINK) : Tree q n g := by
  have hnlx : ¬ (f x).Live := fun hl => hx hl.1
  have hngx : ¬ (g x).Live := fun hl => hgx.1 hl.1
  have hxr : x ≠ ROOTINO := by
    rintro rfl
    exact hnlx h.root.1
  refine h.edit ks (f dp).nlink hdp hne hxr hb ho hgd ⟨hdp.2, h.short dp hdp.type⟩ hks hcnt (fun hd => absurd hd hx)
    (fun hd => absurd hd hgx.1) hgx.2 hn hs ?_ (fun hl => absurd hl hngx) fun hq d hd h0 hp => ?_
  · rw [if_neg hnlx, if_neg hngx]
  · have hlive := h.pinned hq d hd h0
    rw [hp] at hlive
    exact hnlx hlive

/-- **A new directory** is named in a live one. -/
theorem mkdir (h : Tree q n f) (hdp : (f dp).Live) (hfree : (f x).type = .free)
    (hb : 1 ≤ x ∧ x < n) {name : Name}
    (ho : ∀ j, j ≠ x → j ≠ dp → g j = f j)
    (hgx : (g x).type = .dir ∧ (g x).nlink = 1 ∧ (g x).entries = [⟨x, dot⟩, ⟨dp, dotdot⟩])
    (hgd : g dp = { f dp with
      nlink := (f dp).nlink + 1
      entries := ⟨dp, dot⟩ :: ⟨(f dp).parent, dotdot⟩ :: ks })
    (hmax : (f dp).nlink < MAXLINK)
    (hks : ∀ e ∈ ks, (e = ⟨x, name⟩ ∧ name ≠ dot ∧ name ≠ dotdot) ∨ e ∈ (f dp).kids)
    (hcnt : ∀ i, i ≠ 0 → naming ks i = naming (f dp).kids i + if x = i then 1 else 0) :
    Tree q n g := by
  have hne : x ≠ dp := by
    rintro rfl
    exact hdp.type hfree
  have hnlx : ¬ (f x).Live := fun hl => hl.type hfree
  have hgxl : (g x).Live := ⟨hgx.1, by rw [hgx.2.1]; decide⟩
  have hxkids : (g x).kids = [] := by rw [Inode.kids, hgx.2.2]; rfl
  have hxr : x ≠ ROOTINO := by
    rintro rfl
    exact hnlx h.root.1
  have hun := h.unnamed hfree (by omega)
  have hcx := hcnt x (by omega)
  rw [if_pos rfl] at hcx
  have hpos := h.nlink_nonneg hdp.type
  refine h.edit ks ((f dp).nlink + 1) hdp hne hxr hb ho hgd ⟨by omega, by omega⟩
    (fun e he _ => ?_) (fun i h0 hi => ?_) (fun hd => ?_) (fun _ => ⟨.inr hfree, ?_, fun e he => ?_⟩)
    hgxl.type ?_ ?_ ?_ (fun _ => ?_) fun hq d hd h0 hp => ?_
  · obtain ⟨rfl, hname⟩ | he := hks e he
    · exact .inr ⟨rfl, hname⟩
    · exact .inl he
  · rw [hcnt i h0, if_neg (Ne.symm hi), Nat.add_zero]
  · rw [hfree] at hd
    cases hd
  · rw [hxkids]
    exact hgx.2.2
  · rw [hxkids] at he
    cases he
  · rw [hgx.2.1, hun.1, hun.2, hcx]
    push_cast
    omega
  · rw [hgx.2.1]
    decide
  · rw [if_neg hnlx, if_pos hgxl, Int.add_zero]
  · rw [hun.1, hcx, Nat.zero_add]
  · have hlive := h.pinned hq d hd h0
    rw [hp] at hlive
    exact hnlx hlive

/-- **An empty directory is unlinked** from the one that names it. -/
theorem rmdir (h : Tree q n f) (hdp : (f dp).Live) (hx : (f x).type = .dir)
    {k : Dirent} (hk : k ∈ (f dp).kids) (hkx : k.inum = x)
    (hempty : ∀ e ∈ (f x).kids, e.inum = 0)
    (ho : ∀ j, j ≠ x → j ≠ dp → g j = f j)
    (hgx : g x = { f x with nlink := 0 })
    (hgd : g dp = { f dp with
      nlink := (f dp).nlink - 1
      entries := ⟨dp, dot⟩ :: ⟨(f dp).parent, dotdot⟩ :: ks })
    (hks : ∀ e ∈ ks, e.inum ≠ 0 → e ∈ (f dp).kids)
    (hcnt : ∀ i, i ≠ 0 → naming ks i + (if x = i then 1 else 0) = naming (f dp).kids i)
    (hpin : q → ∀ d, (f d).type = .dir → (f d).nlink = 0 → (f d).parent ≠ x) :
    Tree q n g := by
  have hxf : (f x).type ≠ .free := by
    rw [hx]
    exact FileType.noConfusion
  have hx0 : x ≠ 0 := h.ne_zero hxf
  have hxl : (f x).Live := by
    have := (h.named hdp hk (by rw [hkx]; exact hx0)).2
    rw [hkx] at this
    exact ⟨hx, by omega⟩
  have hxr : x ≠ ROOTINO := by
    rintro rfl
    have := (names_pos h.lt).2 ⟨dp, hdp, k, hk, hkx⟩
    rw [h.root.2.2] at this
    exact Nat.lt_irrefl _ this
  have hxdp : (f x).parent = dp := by
    have := h.up dp hdp k hk (by rw [hkx]; exact hx)
    rwa [hkx] at this
  have hne : x ≠ dp := by
    rintro rfl
    exact hx0 (hkx.symm.trans (hempty k hk))
  have hngx : ¬ (g x).Live := by
    rw [hgx]
    exact fun hl => hl.2 rfl
  have hone := h.nlink_empty hxl hxr hempty
  have htwo := h.two_le_nlink hdp hxl hxdp hxr
  have hshort := h.short dp hdp.type
  have hcx := hcnt x hx0
  rw [if_pos rfl] at hcx
  have hxk : (g x).kids = (f x).kids := by rw [hgx]; rfl
  refine h.edit ks ((f dp).nlink - 1) hdp hne hxr (h.bound x hxf) ho hgd ⟨by omega, by omega⟩
    (fun e he h0 => .inl (hks e he h0)) (fun i h0 hi => ?_) (fun _ => ⟨hxdp, hempty⟩)
    (fun _ => ⟨.inl hx, ?_, ?_⟩) ?_ ?_ ?_ ?_ (fun hl => absurd hl hngx) hpin
  · rw [← hcnt i h0, if_neg (Ne.symm hi), Nat.add_zero]
  · rw [hxk, hgx, ← hxdp]
    exact h.dots x hx
  · rw [hxk]
    exact hempty
  · rw [hgx]
    exact hxf
  · have hc := h.count x hxf
    rw [hgx]
    show 0 + (naming (f dp).kids x : Int) = _
    push_cast at hc ⊢
    omega
  · rw [hgx]
    show (0 : Int) ≤ MAXLINK
    decide
  · rw [if_pos hxl, if_neg hngx]
    omega

end Tree

end Xv6.Dir
