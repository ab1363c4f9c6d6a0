import Xv6.Dir.Walk

/-!
# What the system calls do to the tree

Each system call takes a file system with `Inv` and a reference for each of its users to one,
under a condition on the inodes before it: an entry is made only in a directory that is linked,
and no link count is at its largest value when it is to grow.
-/

namespace Xv6.Dir

open Xv6.Lib

variable {q : Prop} {s t u : Fs} {B : List Nat} {i ip dp cwd : Nat} {name : Name}
  {path : List Char} {room : Nat → Bool} {E : Stop → Prop}

theorem short_eq {n : Int} (h₁ : -2 ^ 15 ≤ n) (h₂ : n ≤ MAXLINK) : short n = n := by
  unfold short
  unfold MAXLINK at h₂
  omega

/-- The path leads to a directory that is linked, and that can be linked once more if a
directory is to be made. -/
def Room (f : Nat → Inode) (cwd : Nat) (path : List Char) (type : FileType) : Prop :=
  ∀ dp name, resolve f true cwd path = some (dp, name) →
    (f dp).nlink ≠ 0 ∧ (type = .dir → (f dp).nlink < MAXLINK)

variable {type : FileType} {k : Nat} {a : Inode} {major minor : Int} {f : Nat → Inode}

theorem Room.congr {f g : Nat → Inode} (h : Room f cwd path type)
    (hs : ∀ i, (g i).type = .dir → g i = f i) : Room g cwd path type := by
  intro dp name hres
  rw [hs dp (resolveLoop_dir hres)]
  exact h dp name (resolveLoop_congr hs hres)

/-! ## New entries -/

theorem freeInode_spec (h : s.freeInode = some i) :
    (s.inode i).type = .free ∧ 1 ≤ i ∧ i < s.ninodes := by
  have hm := List.mem_of_find?_eq_some h
  have hp := List.find?_some h
  rw [List.mem_range'_1] at hm
  exact ⟨of_decide_eq_true hp, hm.1, by omega⟩

theorem wp_dirlink_absent {Q : Bool → Fs → Prop} (hd : (s.inode dp).type = .dir)
    (hl : lookup (s.inode dp).entries name = none)
    (hnone : place (s.inode dp).entries ⟨k % 2 ^ 16, name⟩ (room dp) = none → Q false s)
    (hsome : ∀ es, place (s.inode dp).entries ⟨k % 2 ^ 16, name⟩ (room dp) = some es →
      Q true { s with inode := upd s.inode dp { s.inode dp with entries := es } }) :
    wp (dirlink dp name k room) s Q E := by
  rw [dirlink, wp_bind, dirlookup, wp_bind, wp_get, if_neg (not_not.2 hd), hl]
  refine wp_pure.2 ?_
  rw [wp_bind, wp_get]
  cases hp : place (s.inode dp).entries ⟨k % 2 ^ 16, name⟩ (room dp) with
  | none => exact wp_pure.2 (hnone hp)
  | some es =>
    rw [wp_bind]
    exact wp_modify.2 (wp_pure.2 (hsome es hp))

/-- The file system with a new inode, which only `create` refers to. -/
structure Made (s t : Fs) (ip : Nat) (a : Inode) : Prop where
  ninodes : t.ninodes = s.ninodes
  inode : t.inode = upd s.inode ip a
  refs : t.refs = ip :: s.refs
  valid : t.valid ip = true
  other : ∀ j, j ≠ ip → t.valid j = s.valid j

theorem Made.update (h : Made s t ip a) (f : Inode → Inode) :
    Made s { t with inode := upd t.inode ip (f (t.inode ip)) } ip (f a) where
  ninodes := h.ninodes
  inode := by
    show upd t.inode ip (f (t.inode ip)) = _
    rw [h.inode, upd_same, upd_upd]
  refs := h.refs
  valid := h.valid
  other := h.other

theorem wp_dirlink_made (h : Made s t ip a) (ha : a.type = .dir)
    (hl : lookup a.entries name = none) :
    wp (dirlink ip name k room) t (fun ok u =>
      match place a.entries ⟨k % 2 ^ 16, name⟩ (room ip) with
      | none => ok = false ∧ Made s u ip a
      | some es => ok = true ∧ Made s u ip { a with entries := es }) E := by
  have hti : t.inode ip = a := by rw [h.inode, upd_same]
  refine wp_dirlink_absent (by rw [hti]; exact ha) (by rw [hti]; exact hl) ?_ ?_
  · intro hp
    rw [hti] at hp
    rw [hp]
    exact ⟨rfl, h⟩
  · intro es hp
    rw [hti] at hp
    rw [hp, hti]
    refine ⟨rfl, ?_⟩
    have := h.update fun a => { a with entries := es }
    rwa [hti] at this

theorem wp_makeDots (hip : ip < 2 ^ 16) (hdp : dp < 2 ^ 16) (hp : ip ≠ 0)
    (h : Made s t ip ⟨type, major, minor, 1, []⟩) :
    wp (makeDots type ip dp room) t (fun ok u => ∃ es,
      Made s u ip ⟨type, major, minor, 1, es⟩ ∧
      (ok = true → es = if type = .dir then [⟨ip, dot⟩, ⟨dp, dotdot⟩] else [])) E := by
  by_cases ht : type = .dir
  · rw [makeDots, if_pos ht, if_pos ht, wp_bind]
    refine wp_conseq (wp_dirlink_made h ht rfl) ?_
    intro ok u hu
    cases hpl : place ([] : List Dirent) ⟨ip % 2 ^ 16, dot⟩ (room ip) with
    | none =>
      rw [hpl] at hu
      obtain ⟨rfl, hu⟩ := hu
      exact wp_pure.2 ⟨[], hu, fun h => absurd h (by decide)⟩
    | some es =>
      rw [hpl] at hu
      obtain ⟨rfl, hu⟩ := hu
      have hes : es = [⟨ip, dot⟩] := by
        rw [place] at hpl
        simp only [List.findIdx?_nil, Nat.mod_eq_of_lt hip] at hpl
        split at hpl
        case isTrue hm => exact absurd hm (by decide)
        split at hpl
        case isTrue => exact absurd hpl (by simp)
        exact (Option.some.inj hpl).symm
      subst hes
      have hpl2 : place [⟨ip, dot⟩] ⟨dp % 2 ^ 16, dotdot⟩ (room ip) =
          some [⟨ip, dot⟩, ⟨dp, dotdot⟩] := by
        simp [place, hp]
        exact ⟨by decide, fun h => absurd h (by decide), hdp⟩
      have hlk : lookup [⟨ip, dot⟩] dotdot = none := by
        simp [lookup, dot, dotdot]
      rw [if_pos rfl]
      refine wp_conseq (wp_dirlink_made hu ht hlk) ?_
      intro ok v hv
      rw [hpl2] at hv
      exact ⟨_, hv.2, fun _ => rfl⟩
  · rw [makeDots, if_neg ht, if_neg ht]
    exact wp_pure.2 ⟨[], h, fun _ => rfl⟩

theorem wp_createFail (h : Inv q none s [] (dp :: B)) (hfree : (s.inode ip).type = .free)
    (hm : Made s t ip a) :
    wp (createFail ip dp) t (fun r u => r = none ∧ Inv q none u [] B) (Allowed q) := by
  have hnot : ip ∉ s.refs := by
    intro hi
    exact h.alloc ip (h.refs.mem_iff.1 hi) hfree
  have hm0 := hm.update fun a => { a with nlink := 0 }
  rw [createFail, wp_bind]
  refine wp_modify.2 ?_
  rw [wp_bind]
  refine wp_modify.2 ?_
  have hcond : List.count ip (t.refs) = 1 ∧ t.valid ip = true ∧
      (upd t.inode ip { t.inode ip with nlink := 0 } ip).nlink = 0 := by
    refine ⟨?_, hm.valid, by rw [upd_same]⟩
    rw [hm.refs, List.count_cons_self, List.count_eq_zero.2 hnot]
  rw [if_pos hcond, wp_bind]
  refine wp_conseq (wp_iput_done (B := B) (i := dp) (q := q) (T := []) ?_) ?_
  · refine ⟨?_, ?_, ?_, ?_, ?_, fun _ _ hj => absurd hj List.not_mem_nil,
      nofun⟩
    · show Tree q t.ninodes _
      rw [hm.ninodes]
      refine h.tree.free (i := ip) (Or.inl hfree) ?_ ?_
      · exact congrArg Inode.type (upd_same _ _ _)
      · intro j hj
        show upd (upd t.inode ip _) ip _ j = s.inode j
        rw [upd_other _ _ hj, upd_other _ _ hj, hm.inode, upd_other _ _ hj]
    · show t.ninodes ≤ _
      rw [hm.ninodes]
      exact h.small
    · show (t.refs.erase ip).Perm _
      rw [hm.refs, List.erase_cons_head]
      exact h.refs
    · intro j hj
      have hji : j ≠ ip := by
        rintro rfl
        exact h.alloc j hj hfree
      show (upd (upd t.inode ip _) ip _ j).type ≠ .free
      rw [upd_other _ _ hji, upd_other _ _ hji, hm.inode, upd_other _ _ hji]
      exact h.alloc j hj
    · intro j hj (hv : upd t.valid ip false j = true)
      have hj' : j ∈ s.refs := by
        have : j ∈ t.refs.erase ip := hj
        rwa [hm.refs, List.erase_cons_head] at this
      have hji : j ≠ ip := by
        rintro rfl
        exact hnot hj'
      rw [upd_other _ _ hji, hm.other j hji] at hv
      show (upd (upd t.inode ip _) ip _ j).type ≠ .free
      rw [upd_other _ _ hji, upd_other _ _ hji, hm.inode, upd_other _ _ hji]
      exact h.valid j hj' hv
  · rintro - v ⟨hv, -⟩
    exact wp_pure.2 ⟨rfl, hv⟩

theorem Inv.made {g : Nat → Inode} (h : Inv q none s [] (dp :: B)) (hm : Made s u ip a)
    (ha : a.type ≠ .free) (hg : ∀ j, (g j).type = (u.inode j).type) (ht : Tree q s.ninodes g) :
    Inv q none { u with inode := g } [] (ip :: dp :: B) := by
  have htype : ∀ j, (s.inode j).type ≠ .free → (g j).type ≠ .free := by
    intro j hj
    rw [hg, hm.inode]
    by_cases hji : j = ip
    · rw [hji, upd_same]
      exact ha
    · rw [upd_other _ _ hji]
      exact hj
  have hip : (g ip).type ≠ .free := by
    rw [hg, hm.inode, upd_same]
    exact ha
  refine ⟨?_, ?_, ?_, ?_, ?_, fun _ _ hj => absurd hj List.not_mem_nil,
    nofun⟩
  · show Tree q u.ninodes g
    rw [hm.ninodes]
    exact ht
  · show u.ninodes ≤ _
    rw [hm.ninodes]
    exact h.small
  · show u.refs.Perm _
    rw [hm.refs]
    exact h.refs.cons ip
  · intro j hj
    obtain rfl | hj := List.mem_cons.1 hj
    · exact hip
    · exact htype j (h.alloc j hj)
  · intro j hj hv
    by_cases hji : j = ip
    · rw [hji]
      exact hip
    · have hj' : j ∈ u.refs := hj
      rw [hm.refs] at hj'
      obtain rfl | hj' := List.mem_cons.1 hj'
      · exact absurd rfl hji
      · rw [hm.other j hji] at hv
        exact htype j (h.valid j hj' hv)

/-- A name that is not found is neither `.` nor `..`, and its entry is a new kid. -/
theorem Tree.placed {n : Nat} {es : List Dirent} {k : Bool} (h : Tree q n f) (hn : n ≤ 2 ^ 16)
    (hdp : (f dp).Live) (hb : 1 ≤ ip ∧ ip < n) (hl : lookup (f dp).entries name = none)
    (hpl : place (f dp).entries ⟨ip % 2 ^ 16, name⟩ k = some es) :
    ∃ ks, es = ⟨dp, dot⟩ :: ⟨(f dp).parent, dotdot⟩ :: ks ∧
      (∀ e ∈ ks, (e = ⟨ip, name⟩ ∧ name ≠ dot ∧ name ≠ dotdot) ∨ e ∈ (f dp).kids) ∧
      ∀ i, i ≠ 0 → naming ks i = naming (f dp).kids i + if ip = i then 1 else 0 := by
  have hdots := h.dots dp hdp.1
  have hup := h.up_pos dp hdp.1
  have hdp0 := h.ne_zero hdp.type
  have hname : name ≠ dot ∧ name ≠ dotdot := by
    rw [hdots] at hl
    constructor
    · rintro rfl
      exact lookup_none hl List.mem_cons_self hdp0 rfl
    · rintro rfl
      exact lookup_none hl (List.mem_cons_of_mem _ List.mem_cons_self) hup rfl
  have hmod : ip % 2 ^ 16 = ip := Nat.mod_eq_of_lt (Nat.lt_of_lt_of_le hb.2 hn)
  rw [hdots, hmod] at hpl
  obtain ⟨ks, rfl, hks, hcnt⟩ := place_spec (a := ⟨dp, dot⟩) hdp0 hup hpl
  exact ⟨ks, rfl, fun e he => (hks e he).imp_left fun h => ⟨h, hname⟩, hcnt⟩

theorem Tree.created {n : Nat} {es : List Dirent} {k : Bool} (major minor : Int) (h : Tree q n f)
    (hn : n ≤ 2 ^ 16) (hdp : (f dp).Live) (hl : lookup (f dp).entries name = none)
    (hfree : (f ip).type = .free) (hb : 1 ≤ ip ∧ ip < n) (htype : type ≠ .free)
    (hmax : type = .dir → (f dp).nlink < MAXLINK)
    (hpl : place (f dp).entries ⟨ip % 2 ^ 16, name⟩ k = some es) :
    Tree q n (upd (upd f ip ⟨type, major, minor, 1,
        if type = .dir then [⟨ip, dot⟩, ⟨dp, dotdot⟩] else []⟩) dp
      { f dp with
        nlink := if type = .dir then (f dp).nlink + 1 else (f dp).nlink
        entries := es }) := by
  have hne : ip ≠ dp := by
    rintro rfl
    exact hdp.type hfree
  obtain ⟨ks, rfl, hks, hcnt⟩ := h.placed hn hdp hb hl hpl
  have ho : ∀ (a b : Inode) j, j ≠ ip → j ≠ dp → upd (upd f ip a) dp b j = f j := by
    intro a b j hj hj'
    rw [upd_other _ _ hj', upd_other _ _ hj]
  have hx : ∀ a b : Inode, upd (upd f ip a) dp b ip = a := by
    intro a b
    rw [upd_other _ _ hne, upd_same]
  by_cases ht : type = .dir
  · subst ht
    simp only [if_true]
    refine h.mkdir hdp hfree hb (ho _ _) ?_ (upd_same _ _ _) (hmax rfl) hks hcnt
    rw [hx]
    exact ⟨rfl, rfl, rfl⟩
  · simp only [ht, if_false]
    obtain ⟨hn0, hs0⟩ := h.unnamed hfree (by omega)
    refine h.relink ks hdp hne (ho _ _) (upd_same _ _ _) ?_ ?_ ?_ ?_ hb ?_ ?_
    · intro e he h0
      obtain ⟨rfl, hname⟩ | he := hks e he
      · exact Or.inr ⟨rfl, hname⟩
      · exact Or.inl he
    · intro i h0 hi
      rw [hcnt i h0, if_neg (Ne.symm hi), Nat.add_zero]
    · rw [hfree]
      exact FileType.noConfusion
    · rw [hx]
      exact ⟨ht, htype⟩
    · rw [hx, hn0, hs0, hcnt ip (by omega), if_pos rfl]
      push_cast
      omega
    · rw [hx]
      show (1 : Int) ≤ MAXLINK
      decide

theorem wp_createNew (h : Inv q none s [] (dp :: B)) (hdp : (s.inode dp).Live)
    (hmax : type = .dir → (s.inode dp).nlink < MAXLINK)
    (hl : lookup (s.inode dp).entries name = none) (hfree : (s.inode ip).type = .free)
    (hb : 1 ≤ ip ∧ ip < s.ninodes) (htype : type ≠ .free) :
    wp (createNew type major minor dp name ip room)
      { s with
        inode := upd s.inode ip ⟨type, 0, 0, 0, []⟩
        refs := ip :: s.refs
        valid := upd s.valid ip false }
      (fun r u =>
        match r with
        | none => Inv q none u [] B
        | some i => Inv q none u [] (i :: B)) (Allowed q) := by
  have hne : dp ≠ ip := by
    rintro rfl
    exact hdp.type hfree
  have hdp16 : dp < 2 ^ 16 := Nat.lt_of_lt_of_le (h.tree.lt dp hdp) h.small
  have hip16 : ip < 2 ^ 16 := Nat.lt_of_lt_of_le hb.2 h.small
  have hv : ¬ upd s.valid ip false ip = true := by
    rw [upd_same]
    decide
  have ht : ¬ (upd s.inode ip (⟨type, 0, 0, 0, []⟩ : Inode) ip).type = .free := by
    rw [upd_same]
    exact htype
  rw [createNew, wp_bind, ilock, wp_bind, wp_get, if_neg hv, if_neg ht]
  have hm : Made s { s with
      inode := upd s.inode ip ⟨type, 0, 0, 0, []⟩
      refs := ip :: s.refs
      valid := upd (upd s.valid ip false) ip true } ip ⟨type, 0, 0, 0, []⟩ := by
    refine ⟨rfl, rfl, rfl, upd_same _ _ _, fun j hj => ?_⟩
    show upd (upd s.valid ip false) ip true j = s.valid j
    rw [upd_other _ _ hj, upd_other _ _ hj]
  refine wp_set.2 ?_
  rw [wp_bind]
  refine wp_modify.2 ?_
  have hm1 := hm.update fun a => { a with major := major, minor := minor, nlink := 1 }
  refine wp_seq (wp_makeDots hip16 hdp16 (by omega) hm1) ?_
  rintro ok u ⟨es, hu, hes⟩
  have hfail : wp (createFail ip dp) u (fun r v =>
      match r with
      | none => Inv q none v [] B
      | some i => Inv q none v [] (i :: B)) (Allowed q) := by
    refine wp_conseq (wp_createFail h hfree hu) ?_
    rintro r v ⟨rfl, hv⟩
    exact hv
  cases ok with
  | false => exact hfail
  | true =>
    have hud : u.inode dp = s.inode dp := by rw [hu.inode, upd_other _ _ hne]
    rw [if_pos rfl, wp_bind]
    refine wp_dirlink_absent (by rw [hud]; exact hdp.1) (by rw [hud]; exact hl) (fun _ => hfail) ?_
    intro es' hpl
    rw [hud] at hpl ⊢
    obtain rfl := hes rfl
    have hold : Tree q s.ninodes s.inode := h.tree
    have htree := hold.created major minor h.small hdp hl hfree hb htype hmax hpl
    rw [← hu.inode] at htree
    have hinv := h.made hu (show type ≠ .free from htype) (fun j => by
      by_cases hj : j = dp
      · rw [hj, upd_same, hud]
      · rw [upd_other _ _ hj]) htree
    have hpos := hold.nlink_nonneg hdp.type
    have hput := wp_iput_second hinv (fun _ hi => absurd hi (Option.some_ne_none _).symm)
    rw [if_pos rfl, wp_bind, wp_when]
    constructor
    · intro hd
      refine wp_modify.2 ?_
      rw [wp_bind]
      have hs : short ((s.inode dp).nlink + 1) = (s.inode dp).nlink + 1 := by
        have := hmax hd
        exact short_eq (by omega) (by omega)
      simp only [upd_same, upd_upd, hs]
      simp only [hd, if_true] at hput
      refine wp_conseq hput ?_
      rintro - v ⟨hv, -⟩
      exact wp_pure.2 hv
    · intro hd
      rw [wp_bind]
      simp only [hd, if_false] at hput
      refine wp_conseq hput ?_
      rintro - v ⟨hv, -⟩
      exact wp_pure.2 hv

theorem wp_create (h : Inv q none s [] B) (hc : cwd ∈ B) (htype : type ≠ .free)
    (hroom : Room s.inode cwd path type) :
    wp (create cwd path type major minor room) s (fun r t =>
      match r with
      | none => Inv q none t [] B
      | some i => Inv q none t [] (i :: B)) (Allowed q) := by
  rw [create, wp_bind]
  refine wp_conseq (wp_namex h hc) ?_
  rintro r t ⟨hst, ht⟩
  cases r with
  | none => exact wp_pure.2 ht
  | some r =>
    obtain ⟨dp, name⟩ := r
    obtain ⟨hres, ht, hd⟩ := ht
    have htd := hst.dir dp hd
    obtain ⟨hn0, hmax⟩ := hroom dp name hres
    simp only
    refine wp_seq (wp_ilock_held ht List.mem_cons_self) ?_
    rintro - u ⟨hu, hui, -⟩
    have hud : u.inode dp = s.inode dp := by rw [hui, htd]
    have hlive : (u.inode dp).Live := by
      rw [hud]
      exact ⟨by rw [← htd]; exact hd, hn0⟩
    refine wp_seq (wp_dirlookup hu hlive.1) ?_
    rintro r v ⟨hvi, hvn, hr, hv⟩
    cases r with
    | some r =>
      obtain ⟨k, ip⟩ := r
      simp only
      refine wp_seq (wp_iput_done hv) ?_
      rintro - w ⟨hw, -⟩
      refine wp_seq (wp_ilock hw) ?_
      rintro - x ⟨hx, -, -⟩
      rw [wp_bind, wp_get]
      split
      · exact wp_pure.2 hx
      · refine wp_seq (wp_iput_done hx) ?_
        rintro - y ⟨hy, -⟩
        exact wp_pure.2 hy
    | none =>
      simp only at hv ⊢
      rw [wp_bind, ialloc, wp_bind, wp_get]
      cases hf : v.freeInode with
      | none =>
        refine wp_pure.2 ?_
        refine wp_seq (wp_iput_done hv) ?_
        rintro - w ⟨hw, -⟩
        exact wp_pure.2 hw
      | some ip =>
        obtain ⟨hfree, hb⟩ := freeInode_spec hf
        have hnot : ip ∉ v.refs := fun hi => hv.alloc ip (hv.refs.mem_iff.1 hi) hfree
        rw [wp_bind]
        refine wp_modify.2 ?_
        rw [wp_bind, iget, wp_bind, wp_get, if_neg hnot]
        split
        · exact wp_throw.2 (Or.inl rfl)
        · refine wp_set.2 (wp_pure.2 ?_)
          refine wp_createNew hv ?_ ?_ ?_ hfree hb htype
          · rw [hvi]
            exact hlive
          · rw [hvi, hud]
            exact hmax
          · rw [hvi]
            exact hr.symm

/-! ## The system calls -/

theorem wp_openInode {slot : Bool} (h : Inv q none s [] (ip :: B)) :
    wp (openInode ip slot) s (fun r t => Inv q none t [] (r.toList ++ B)) (Allowed q) := by
  have hput : wp (do iput ip; pure none) s (fun r t => Inv q none t [] (r.toList ++ B))
      (Allowed q) := by
    refine wp_seq (wp_iput_done h) ?_
    rintro - t ⟨ht, -⟩
    exact wp_pure.2 ht
  rw [openInode, wp_bind, wp_get]
  split
  · exact hput
  · split
    · exact wp_pure.2 h
    · exact hput

theorem wp_sysOpen {ocreate rdonly slot : Bool} (h : Inv q none s [] B) (hc : cwd ∈ B)
    (hroom : ocreate = true → Room s.inode cwd path .file) :
    wp (sysOpen cwd path ocreate rdonly slot room) s
      (fun r t => Inv q none t [] (r.toList ++ B)) (Allowed q) := by
  rw [sysOpen]
  split
  case isTrue ho =>
    refine wp_seq (wp_create h hc FileType.noConfusion (hroom ho)) ?_
    intro r t ht
    cases r with
    | none => exact wp_pure.2 ht
    | some ip => exact wp_openInode ht
  case isFalse =>
    refine wp_seq (wp_namei h hc) ?_
    rintro r t ⟨-, ht⟩
    cases r with
    | none => exact wp_pure.2 ht
    | some ip =>
      simp only
      refine wp_seq (wp_ilock ht.2) ?_
      rintro - u ⟨hu, -, -⟩
      rw [wp_bind, wp_get]
      split
      · refine wp_seq (wp_iput_done hu) ?_
        rintro - v ⟨hv, -⟩
        exact wp_pure.2 hv
      · exact wp_openInode hu

theorem wp_sysMake (h : Inv q none s [] B) (hc : cwd ∈ B) (htype : type ≠ .free)
    (hroom : Room s.inode cwd path type) :
    wp (sysMake cwd path type major minor room) s (fun _ t => Inv q none t [] B) (Allowed q) := by
  rw [sysMake, wp_bind]
  refine wp_conseq (wp_create h hc htype hroom) ?_
  intro r t ht
  cases r with
  | none => exact wp_pure.2 ht
  | some ip =>
    refine wp_conseq (wp_iput_done ht) ?_
    rintro - u ⟨hu, -⟩
    exact hu

theorem wp_exec (h : Inv q none s [] B) (hc : cwd ∈ B) :
    wp (exec cwd path) s (fun _ t => Inv q none t [] B) (Allowed q) := by
  rw [exec, wp_bind]
  refine wp_conseq (wp_namei h hc) ?_
  rintro r t ⟨-, ht⟩
  cases r with
  | none => exact wp_pure.2 ht
  | some ip =>
    simp only
    refine wp_seq (wp_ilock ht.2) ?_
    rintro - u ⟨hu, -, -⟩
    refine wp_conseq (wp_iput_done hu) ?_
    rintro - v ⟨hv, -⟩
    exact hv

theorem wp_sysChdir (h : Inv q none s [] (cwd :: B)) :
    wp (sysChdir cwd path) s (fun r t => Inv q none t [] (r.getD cwd :: B)) (Allowed q) := by
  rw [sysChdir, wp_bind]
  refine wp_conseq (wp_namei h List.mem_cons_self) ?_
  rintro r t ⟨-, ht⟩
  cases r with
  | none => exact wp_pure.2 ht
  | some ip =>
    simp only
    refine wp_seq (wp_ilock ht.2) ?_
    rintro - u ⟨hu, -, -⟩
    rw [wp_bind, wp_get]
    split
    · refine wp_seq (wp_iput_done hu) ?_
      rintro - v ⟨hv, -⟩
      exact wp_pure.2 hv
    · refine wp_seq (wp_iput_second hu (fun _ hi => absurd hi (Option.some_ne_none _).symm)) ?_
      rintro - v ⟨hv, -⟩
      exact wp_pure.2 hv

theorem wp_linkFail (h : Inv q (some ip) s [] (ip :: B)) :
    wp (linkFail ip) s (fun _ t => Inv q none t [] B) (Allowed q) := by
  rw [linkFail, wp_bind]
  refine wp_conseq (wp_ilock_held h List.mem_cons_self) ?_
  rintro - t ⟨ht, -, -⟩
  have hpend := (ht.pend ip rfl).2
  have hs : short ((t.inode ip).nlink - 1) = (t.inode ip).nlink - 1 := by
    exact short_eq (by omega) (by omega)
  rw [wp_bind]
  refine wp_modify.2 ?_
  simp only [hs]
  have hinv : Inv q none
      { t with inode := upd t.inode ip { t.inode ip with nlink := (t.inode ip).nlink - 1 } } []
      (ip :: B) := ht.write (type_upd rfl) ht.tree (fun _ hi => absurd hi (Option.some_ne_none _).symm)
  exact wp_conseq (wp_iput_done hinv) fun _ _ hu => hu.1

theorem wp_dirlink_link (h : Inv q (some ip) s [] (dp :: ip :: B)) (hdp : (s.inode dp).Live) :
    wp (dirlink dp name ip room) s (fun ok t =>
      (ok = true → Inv q none t [] (dp :: ip :: B)) ∧
      (ok = false → Inv q (some ip) t [] (dp :: ip :: B))) (Allowed q) := by
  obtain ⟨-, hndir, hpos, hmax⟩ := h.pend ip rfl
  have hne : ip ≠ dp := by
    rintro rfl
    exact hndir hdp.1
  cases hl : lookup (s.inode dp).entries name with
  | some r =>
    obtain ⟨k, x⟩ := r
    rw [dirlink, wp_bind]
    refine wp_conseq (wp_dirlookup h hdp.1) ?_
    rintro r t ⟨-, -, hr, ht⟩
    rw [hl] at hr
    subst hr
    simp only at ht ⊢
    refine wp_seq (wp_iput_named ht) ?_
    rintro - u ⟨hu, -⟩
    exact wp_pure.2 ⟨nofun, fun _ => hu⟩
  | none =>
    refine wp_dirlink_absent hdp.1 hl (fun _ => ⟨nofun, fun _ => h⟩) ?_
    intro es hpl
    refine ⟨fun _ => ?_, nofun⟩
    have hip := h.alloc ip (List.mem_cons_of_mem _ List.mem_cons_self)
    have htree := h.tree
    have hsd : settle (some ip) s.inode dp = s.inode dp :=
      settle_other fun he => hne (Option.some.inj he)
    have hdp' : (settle (some ip) s.inode dp).Live := by rw [hsd]; exact hdp
    have hset : (settle (some ip) s.inode ip).nlink = (s.inode ip).nlink - 1 := by
      simp only [settle, upd_same]
    have hb := htree.bound ip (by rw [settle_type]; exact hip)
    have hc := htree.count ip (by rw [settle_type]; exact hip)
    obtain ⟨ks, rfl, hks, hcnt⟩ := htree.placed h.small hdp' hb (by rw [hsd]; exact hl)
      (by rw [hsd]; exact hpl)
    have hx : ∀ b : Inode, upd s.inode dp b ip = s.inode ip := fun b => upd_other _ _ hne
    refine h.write (type_upd rfl) ?_ (fun _ hi => absurd hi (Option.some_ne_none _).symm)
    refine htree.relink ks hdp' hne ?_ ?_ ?_ ?_ ?_ ?_ hb ?_ ?_
    · intro j hj hjd
      show upd s.inode dp _ j = _
      rw [upd_other _ _ hjd, settle_other fun he => hj (Option.some.inj he).symm]
    · show upd s.inode dp _ dp = _
      rw [upd_same, hsd]
    · intro e he h0
      obtain ⟨rfl, hn⟩ | he := hks e he
      · exact Or.inr ⟨rfl, hn⟩
      · exact Or.inl he
    · intro i h0 hi
      rw [hcnt i h0, if_neg (Ne.symm hi), Nat.add_zero]
    · rw [settle_type]
      exact hndir
    · rw [settle_none, hx]
      exact ⟨hndir, hip⟩
    · rw [settle_none, hx, hcnt ip (by omega), if_pos rfl]
      rw [hset] at hc
      push_cast at hc ⊢
      omega
    · rw [settle_none, hx]
      exact hmax

theorem wp_linkEntry {new : List Char} (h : Inv q (some ip) s [] (ip :: B)) (hc : cwd ∈ B)
    (hroom : Room s.inode cwd new .file) :
    wp (linkEntry cwd ip new room) s (fun _ t => Inv q none t [] B) (Allowed q) := by
  rw [linkEntry, wp_bind]
  refine wp_conseq (wp_namex h (List.mem_cons_of_mem _ hc)) ?_
  rintro r t ⟨hst, ht⟩
  cases r with
  | none => exact wp_linkFail ht
  | some r =>
    obtain ⟨dp, name⟩ := r
    obtain ⟨hres, ht, hd⟩ := ht
    simp only
    refine wp_seq (wp_ilock_held ht List.mem_cons_self) ?_
    rintro - u ⟨hu, hui, -⟩
    have hlive : (u.inode dp).Live := by
      rw [hui]
      refine ⟨hd, ?_⟩
      rw [hst.dir dp hd]
      exact (hroom dp name hres).1
    refine wp_seq (wp_dirlink_link hu hlive) ?_
    rintro ok v ⟨htrue, hfalse⟩
    rw [wp_bind]
    cases ok with
    | true =>
      refine wp_conseq (wp_iput_done (htrue rfl)) ?_
      rintro - w ⟨hw, -⟩
      exact wp_conseq (wp_iput_done hw) fun _ _ hx => hx.1
    | false =>
      refine wp_conseq (wp_iput (hfalse rfl) ?_) ?_
      · intro j hj
        obtain rfl := Option.some.inj hj
        exact List.mem_cons_self
      · rintro - w ⟨hw, -⟩
        exact wp_linkFail hw

/-- `sys_link` gives the inode its link before there is an entry for it. -/
theorem wp_sysLink {old new : List Char} (h : Inv q none s [] B) (hc : cwd ∈ B)
    (hmax : ∀ i, (resolve s.inode false cwd old).map Prod.fst = some i → (s.inode i).nlink < MAXLINK)
    (hroom : Room s.inode cwd new .file) :
    wp (sysLink cwd old new room) s (fun _ t => Inv q none t [] B) (Allowed q) := by
  rw [sysLink, wp_bind]
  refine wp_conseq (wp_namei h hc) ?_
  rintro r t ⟨hst, ht⟩
  cases r with
  | none => exact wp_pure.2 ht
  | some ip =>
    obtain ⟨hres, ht⟩ := ht
    simp only
    refine wp_seq (wp_ilock ht) ?_
    rintro - u ⟨hu, hui, hun⟩
    have hsu := hst.trans (Same.of_eq hun hui)
    rw [wp_bind, wp_get]
    split
    case isTrue => exact wp_conseq (wp_iput_done hu) fun _ _ hv => hv.1
    case isFalse hndir =>
      have halloc := hu.alloc ip List.mem_cons_self
      have hpos : 0 ≤ (u.inode ip).nlink := Tree.nlink_nonneg hu.tree halloc
      have hlt : (u.inode ip).nlink < MAXLINK := by
        rw [hsu.inode ip halloc]
        exact hmax ip hres
      have hs : short ((u.inode ip).nlink + 1) = (u.inode ip).nlink + 1 :=
        short_eq (by omega) (by omega)
      rw [wp_bind]
      refine wp_modify.2 ?_
      simp only [hs]
      have hnew : ∀ a : Inode, upd u.inode ip a ip = a := fun a => upd_same _ _ _
      refine wp_linkEntry ?_ hc ?_
      · refine hu.write (type_upd rfl) ?_ ?_
        · have : settle (some ip) (upd u.inode ip { u.inode ip with nlink := (u.inode ip).nlink + 1 })
              = u.inode := by
            funext j
            by_cases hj : j = ip
            · subst hj
              simp [settle]
            · simp [settle, hj]
          rw [this]
          exact hu.tree
        · intro x hx
          obtain rfl := Option.some.inj hx
          rw [hnew]
          refine ⟨List.mem_cons_self, hndir, ?_⟩
          show 1 ≤ (u.inode ip).nlink + 1 ∧ (u.inode ip).nlink + 1 ≤ MAXLINK
          omega
      · refine hroom.congr fun j hj => ?_
        have hji : j ≠ ip := by
          rintro rfl
          have : (upd u.inode j _ j).type = .dir := hj
          rw [hnew] at this
          exact hndir this
        show upd u.inode ip _ j = s.inode j
        have hj' : (upd u.inode ip _ j).type = .dir := hj
        rw [upd_other _ _ hji] at hj' ⊢
        exact hsu.dir j hj'

/-- No directory that is not linked any more has this one as its `..`. -/
def Unpinned (f : Nat → Inode) (i : Nat) : Prop :=
  ∀ d, (f d).type = .dir → (f d).nlink = 0 → (f d).parent ≠ i

theorem wp_iput_linked {Q : Unit → Fs → Prop} (h : (s.inode i).nlink ≠ 0)
    (hQ : Q () { s with refs := s.refs.erase i }) : wp (iput i) s Q E := by
  refine wp_modify.2 ?_
  rw [if_neg fun hc => h hc.2.2]
  exact hQ

/-- An entry that is found under a name other than `.` and `..` is a kid of a live directory. -/
theorem Tree.found {n k : Nat} (h : Tree q n f) (hd : (f dp).type = .dir)
    (hl : lookup (f dp).entries name = some (k, ip)) (hname : name ≠ dot ∧ name ≠ dotdot) :
    (f dp).Live ∧ ip ≠ 0 ∧ ∃ j, k = j + 2 ∧ (f dp).kids[j]? = some ⟨ip, name⟩ := by
  obtain ⟨hk, h0⟩ := lookup_spec hl
  obtain ⟨j, rfl, hj⟩ : ∃ j, k = j + 2 ∧ (f dp).kids[j]? = some ⟨ip, name⟩ := by
    rw [h.dots dp hd] at hk
    match k, hk with
    | 0, hk => exact absurd (congrArg Dirent.name (Option.some.inj hk)).symm hname.1
    | 1, hk => exact absurd (congrArg Dirent.name (Option.some.inj hk)).symm hname.2
    | j + 2, hk => exact ⟨j, rfl, hk⟩
  exact ⟨⟨hd, fun hn => h0 (h.dead dp hd hn _ (List.mem_of_getElem? hj))⟩, h0, j, rfl, hj⟩

theorem Inv.linked {T : List Nat} (h : Inv q none s T B) (hd : (s.inode dp).type = .dir)
    (hl : lookup (s.inode dp).entries name = some (k, ip)) (hname : name ≠ dot ∧ name ≠ dotdot) :
    1 ≤ (s.inode ip).nlink := by
  have htree : Tree q s.ninodes s.inode := h.tree
  obtain ⟨hdp, h0, j, -, hj⟩ := htree.found hd hl hname
  exact (htree.named hdp (List.mem_of_getElem? hj) h0).2

theorem wp_unlinkEntry (h : Inv q none s [] (ip :: dp :: B)) (hd : (s.inode dp).type = .dir)
    (hl : lookup (s.inode dp).entries name = some (k, ip)) (hname : name ≠ dot ∧ name ≠ dotdot)
    (hempty : (s.inode ip).type = .dir → isdirempty (s.inode ip).entries = true)
    (hpin : q → (s.inode ip).type = .dir → Unpinned s.inode ip) :
    wp (unlinkEntry dp ip k) s (fun _ t => Inv q none t [] B) (Allowed q) := by
  have htree : Tree q s.ninodes s.inode := h.tree
  obtain ⟨hdp, h0, j, rfl, hj⟩ := htree.found hd hl hname
  have hmem : ⟨ip, name⟩ ∈ (s.inode dp).kids := List.mem_of_getElem? hj
  obtain ⟨halloc, hpos⟩ := htree.named hdp hmem h0
  simp only at halloc hpos
  have hkids : (s.inode ip).type = .dir → ∀ e ∈ (s.inode ip).kids, e.inum = 0 := by
    intro ht e he
    exact of_decide_eq_true (List.all_eq_true.1 (hempty ht) e he)
  have hne : ip ≠ dp := by
    rintro rfl
    exact h0 (hkids hd _ hmem)
  have hset : (s.inode dp).entries.set (j + 2) ⟨0, []⟩ =
      ⟨dp, dot⟩ :: ⟨(s.inode dp).parent, dotdot⟩ :: (s.inode dp).kids.set j ⟨0, []⟩ := by
    conv_lhs => rw [htree.dots dp hd]
    rfl
  have hcnt : ∀ i, i ≠ 0 → naming ((s.inode dp).kids.set j ⟨0, []⟩) i +
      (if ip = i then 1 else 0) = naming (s.inode dp).kids i := fun i hi => naming_set hj hi
  have hks : ∀ e ∈ (s.inode dp).kids.set j ⟨0, []⟩, e.inum ≠ 0 → e ∈ (s.inode dp).kids :=
    fun e he h0 => mem_set_zero he h0
  have hsip : short ((s.inode ip).nlink - 1) = (s.inode ip).nlink - 1 := by
    have := htree.short ip halloc
    exact short_eq (by omega) (by omega)
  have hdrop := h.drop
  rw [unlinkEntry, wp_bind]
  refine wp_modify.2 ?_
  rw [wp_bind, wp_get, wp_bind, wp_when]
  simp only [hset, upd_other _ _ hne]
  constructor
  · intro ht
    have hxl : (s.inode ip).Live := ⟨ht, by omega⟩
    have hxr : ip ≠ ROOTINO := by
      rintro rfl
      have := (names_pos htree.lt).2 ⟨dp, hdp, _, hmem, rfl⟩
      rw [htree.root.2.2] at this
      exact Nat.lt_irrefl _ this
    have hone := htree.nlink_empty hxl hxr (hkids ht)
    have htwo := htree.two_le_nlink hdp hxl (htree.up dp hdp _ hmem ht) hxr
    have hsdp : short ((s.inode dp).nlink - 1) = (s.inode dp).nlink - 1 := by
      have := htree.short dp hdp.type
      exact short_eq (by omega) (by omega)
    refine wp_modify.2 ?_
    simp only [upd_same, upd_upd, hsdp]
    rw [wp_bind]
    refine wp_iput_linked ?_ ?_
    · show (upd s.inode dp _ dp).nlink ≠ 0
      rw [upd_same]
      show (s.inode dp).nlink - 1 ≠ 0
      omega
    rw [wp_bind]
    refine wp_modify.2 ?_
    simp only [upd_other _ _ hne, hone]
    refine wp_conseq (wp_iput_done (T := []) (B := B) ?_) fun _ _ hu => hu.1
    refine hdrop.write ?_ ?_ (fun _ hi => absurd hi (Option.some_ne_none _).symm)
    · intro i
      refine (type_upd ?_ i).trans (type_upd ?_ i)
      · rw [upd_other _ _ hne]
      · rfl
    · refine htree.rmdir hdp ht hmem rfl (hkids ht) ?_ ?_ ?_ hks hcnt fun hq => hpin hq ht
      · intro i hi hid
        rw [settle_none, upd_other _ _ hi, upd_other _ _ hid]
      · rw [settle_none, upd_same]
        rfl
      · rw [settle_none, upd_other _ _ hne.symm, upd_same]
  · intro ht
    rw [wp_bind]
    refine wp_iput_linked ?_ ?_
    · show (upd s.inode dp _ dp).nlink ≠ 0
      rw [upd_same]
      exact hdp.2
    rw [wp_bind]
    refine wp_modify.2 ?_
    simp only [upd_other _ _ hne, hsip]
    refine wp_conseq (wp_iput_done (T := []) (B := B) ?_) fun _ _ hu => hu.1
    refine hdrop.write ?_ ?_ (fun _ hi => absurd hi (Option.some_ne_none _).symm)
    · intro i
      refine (type_upd ?_ i).trans (type_upd ?_ i)
      · rw [upd_other _ _ hne]
      · rfl
    · have hc := htree.count ip halloc
      have hn := hcnt ip h0
      rw [if_pos rfl] at hn
      refine htree.relink _ hdp hne ?_ ?_ (fun e he h0 => Or.inl (hks e he h0)) ?_ ht ?_
        (htree.bound ip halloc) ?_ ?_
      · intro i hi hid
        rw [settle_none, upd_other _ _ hi, upd_other _ _ hid]
      · rw [settle_none, upd_other _ _ hne.symm, upd_same]
      · intro i hi hix
        have := hcnt i hi
        rwa [if_neg (Ne.symm hix)] at this
      · rw [settle_none, upd_same]
        exact ⟨ht, halloc⟩
      · rw [settle_none, upd_same]
        show (s.inode ip).nlink - 1 + _ = _
        push_cast at hc ⊢
        omega
      · rw [settle_none, upd_same]
        have := htree.short ip halloc
        show (s.inode ip).nlink - 1 ≤ MAXLINK
        omega

/-- The directory that the path names is not the `..` of one that is not linked any more. -/
def Movable (f : Nat → Inode) (cwd : Nat) (path : List Char) : Prop :=
  ∀ dp name k ip, resolve f true cwd path = some (dp, name) →
    lookup (f dp).entries name = some (k, ip) → (f ip).type = .dir → Unpinned f ip

theorem wp_sysUnlink (h : Inv q none s [] B) (hc : cwd ∈ B)
    (hpin : q → Movable s.inode cwd path) :
    wp (sysUnlink cwd path) s (fun _ t => Inv q none t [] B) (Allowed q) := by
  rw [sysUnlink, wp_bind]
  refine wp_conseq (wp_namex h hc) ?_
  rintro r t ⟨hst, ht⟩
  cases r with
  | none => exact wp_pure.2 ht
  | some r =>
    obtain ⟨dp, name⟩ := r
    obtain ⟨hres, ht, hd⟩ := ht
    simp only
    refine wp_seq (wp_ilock_held ht List.mem_cons_self) ?_
    rintro - u ⟨hu, hui, hun⟩
    have hsu := hst.trans (Same.of_eq hun hui)
    have hdu : (u.inode dp).type = .dir := by rw [hui]; exact hd
    split
    case isTrue => exact wp_conseq (wp_iput_done hu) fun _ _ hv => hv.1
    case isFalse hname =>
      rw [not_or] at hname
      refine wp_seq (wp_dirlookup hu hdu) ?_
      rintro r v ⟨hvi, hvn, hr, hv⟩
      cases r with
      | none => exact wp_conseq (wp_iput_done hv) fun _ _ hw => hw.1
      | some r =>
        obtain ⟨k, ip⟩ := r
        simp only at hv ⊢
        refine wp_seq (wp_ilock hv) ?_
        rintro - w ⟨hw, hwi, hwn⟩
        have hsw := hsu.trans ((Same.of_eq hvn hvi).trans (Same.of_eq hwn hwi))
        have hdw : (w.inode dp).type = .dir := by rw [hwi, hvi]; exact hdu
        have hl : lookup (w.inode dp).entries name = some (k, ip) := by
          rw [hwi, hvi]
          exact hr.symm
        rw [wp_bind, wp_get, if_neg (Int.not_lt.2 (hw.linked hdw hl hname))]
        split
        case isTrue =>
          refine wp_seq (wp_iput_done hw) ?_
          rintro - x ⟨hx, -⟩
          exact wp_conseq (wp_iput_done hx) fun _ _ hy => hy.1
        case isFalse hcond =>
          refine wp_unlinkEntry hw hdw hl hname ?_ ?_
          · intro hdir
            by_contra he
            exact hcond ⟨hdir, Bool.eq_false_iff.2 he⟩
          · intro hq hdir d hdd h0 hp
            have hi := hsw.dir ip hdir
            have hdp := hsw.dir dp hdw
            have hdd' := hsw.dir d hdd
            rw [hdd'] at hdd h0 hp
            rw [hi] at hdir
            rw [hdp] at hl
            exact hpin hq dp name k ip hres hl hdir d hdd h0 hp

end Xv6.Dir
