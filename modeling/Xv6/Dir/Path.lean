import Xv6.Dir.Demand

/-!
# Path resolution

`components path` are the elements of a path: what stands between its slashes, cut to `DIRSIZ`
characters.  `target` follows them from the root or the current directory, and `targetParent`
follows all but the last.  `namei` and `nameiparent` find just these, in every tree that can be
walked, and hold one more reference to what they return: `path_resolution`.

A walk has one inode and asks for the next one, so that two entries of the table must be free.
When the table is full, `iget` stops the kernel: `full_table_stops`.
-/

namespace Xv6.Dir

open Xv6.Lib

def components (path : List Char) : List Name :=
  ((path.splitOnP (· == '/')).filter (· != [])).map (·.take DIRSIZ)

/-- One `dirlookup` on the inodes alone. -/
def follow (f : Nat → Inode) (i : Nat) (name : Name) : Option Nat :=
  if (f i).type = .dir then (lookup (f i).entries name).map Prod.snd else none

/-- Where a walk starts. -/
def origin (cwd : Nat) (path : List Char) : Nat := if path.head? = some '/' then ROOTINO else cwd

def target (f : Nat → Inode) (cwd : Nat) (path : List Char) : Option Nat :=
  (components path).foldlM (follow f) (origin cwd path)

/-- The directory that the elements before the last one lead to from `ip`, and the last one. -/
def lastOf (f : Nat → Inode) (ip : Nat) (names : List Name) : Option (Nat × Name) :=
  names.getLast?.bind fun name => (names.dropLast.foldlM (follow f) ip).bind fun dp =>
    if (f dp).type = .dir then some (dp, name) else none

def targetParent (f : Nat → Inode) (cwd : Nat) (path : List Char) : Option (Nat × Name) :=
  lastOf f (origin cwd path) (components path)

/-! ## The elements of a path -/

variable {f : Nat → Inode} {s t : Fs} {T B : List Nat} {i ip cwd : Nat} {name : Name}
  {path rest : List Char}

theorem components_slash (l : List Char) : components ('/' :: l) = components l := by
  simp [components, List.splitOnP_cons_eq_if_modifyHead]

theorem components_dropWhile (l : List Char) :
    components (l.dropWhile (· == '/')) = components l := by
  induction l with
  | nil => rfl
  | cons a l ih =>
    by_cases ha : a = '/'
    · rw [ha, components_slash, ← ih]
      rfl
    · rw [List.dropWhile_cons_of_neg (by simpa using ha)]

theorem components_word {w l : List Char} (hw : w ≠ []) (hs : ∀ a ∈ w, (a == '/') = false)
    (hl : l = [] ∨ l.head? = some '/') : components (w ++ l) = w.take DIRSIZ :: components l := by
  have hne : (w != []) = true := by simpa using hw
  cases l with
  | nil =>
    rw [List.append_nil, components, List.splitOnP_eq_singleton hs]
    simp [components, hne, List.splitOnP_nil]
  | cons a l =>
    have ha : a = '/' := by simpa using hl
    rw [ha, components_slash, components, List.splitOnP_append_cons_of_forall_mem hs '/' rfl]
    simp [components, hne]

theorem head_dropWhile (p : Char → Bool) (l : List Char) :
    l.dropWhile p = [] ∨ ∃ a, (l.dropWhile p).head? = some a ∧ p a = false := by
  cases h : l.dropWhile p with
  | nil => exact Or.inl rfl
  | cons a m =>
    have := List.head?_dropWhile_not p l
    rw [h] at this
    exact Or.inr ⟨a, rfl, this⟩

theorem components_of_none (h : skipelem path = none) : components path = [] := by
  rw [skipelem] at h
  split at h
  case h_1 he => rw [← components_dropWhile, he]; rfl
  case h_2 => exact absurd h (by simp)

/-- **`skipelem` takes the first element**, and leaves nothing just when it was the last. -/
theorem components_of_some (h : skipelem path = some (name, rest)) :
    components path = name :: components rest ∧ (rest = [] ↔ components rest = []) := by
  rw [skipelem] at h
  split at h
  case h_1 => exact absurd h (by simp)
  case h_2 l hne =>
    rw [Option.some.injEq, Prod.mk.injEq] at h
    obtain ⟨rfl, rfl⟩ := h
    set l := path.dropWhile (· == '/') with hl
    have split : ∀ m : List Char, m ≠ [] → (∀ a, m.head? = some a → (a == '/') = false) →
        components m = (m.takeWhile (· != '/')).take DIRSIZ :: components (m.dropWhile (· != '/')) := by
      intro m hm hhead
      have hw : m.takeWhile (· != '/') ≠ [] := by
        cases m with
        | nil => exact absurd rfl hm
        | cons a m => simp [bne, hhead a rfl]
      have htail : m.dropWhile (· != '/') = [] ∨ (m.dropWhile (· != '/')).head? = some '/' := by
        refine (head_dropWhile (· != '/') m).imp_right ?_
        rintro ⟨a, ha, hp⟩
        rw [ha, show a = '/' by simpa using hp]
      have := components_word hw (fun a ha => by simpa using List.all_eq_true.1 List.all_takeWhile a ha) htail
      rwa [List.takeWhile_append_dropWhile] at this
    have hhead : ∀ m : List Char, ∀ a, (m.dropWhile (· == '/')).head? = some a →
        (a == '/') = false := by
      intro m a ha
      obtain he | ⟨b, hb, hp⟩ := head_dropWhile (· == '/') m
      · rw [he] at ha
        exact absurd ha (by simp)
      · rw [hb, Option.some.injEq] at ha
        rwa [← ha]
    rw [components_dropWhile, ← components_dropWhile path]
    refine ⟨split l hne (hhead path), ?_⟩
    set m := l.dropWhile (· != '/')
    by_cases hm : m.dropWhile (· == '/') = []
    · rw [← components_dropWhile, hm]
      exact iff_of_true rfl rfl
    · rw [← components_dropWhile, split _ hm (hhead m)]
      exact iff_of_false hm (List.cons_ne_nil _ _)

/-! ## The walk on the inodes -/

theorem lastOf_cons {n : Name} {ns : List Name} (h : ns ≠ []) :
    lastOf f ip (n :: ns) = (follow f ip n).bind fun next => lastOf f next ns := by
  obtain ⟨m, ms, rfl⟩ := List.exists_cons_of_ne_nil h
  rw [lastOf, List.getLast?_cons_cons, List.dropLast_cons_cons, List.foldlM_cons]
  cases hl : (m :: ms).getLast? with
  | none => exact absurd hl (by simp)
  | some name =>
    cases hf : follow f ip n with
    | none => rfl
    | some next =>
      simp only [Option.bind_some, lastOf, hl]
      rfl

theorem resolveLoop_namei {fuel : Nat} (hf : path.length < fuel) :
    resolveLoop f false fuel ip path =
      ((components path).foldlM (follow f) ip).map fun i => (i, []) := by
  induction fuel generalizing ip path with
  | zero => exact absurd hf (Nat.not_lt_zero _)
  | succ fuel ih =>
    rw [resolveLoop]
    cases hsk : skipelem path with
    | none => rw [components_of_none hsk]; rfl
    | some r =>
      have hlen := skipelem_length hsk
      rw [(components_of_some hsk).1, List.foldlM_cons, follow]
      by_cases hd : (f ip).type = .dir
      · cases hl : lookup (f ip).entries r.1 with
        | none => simp [hd, hl]
        | some kn => simp [hd, hl, @ih kn.2 r.2 (by omega)]
      · simp [hd]

theorem resolveLoop_nameiparent {fuel : Nat} (hf : path.length < fuel) :
    resolveLoop f true fuel ip path = lastOf f ip (components path) := by
  induction fuel generalizing ip path with
  | zero => exact absurd hf (Nat.not_lt_zero _)
  | succ fuel ih =>
    rw [resolveLoop]
    cases hsk : skipelem path with
    | none => rw [components_of_none hsk]; rfl
    | some r =>
      obtain ⟨hc, hlast⟩ := components_of_some hsk
      have hlen := skipelem_length hsk
      rw [hc]
      by_cases hr : r.2 = []
      · rw [hlast.1 hr]
        by_cases hd : (f ip).type = .dir
        · simp [hd, hr, lastOf]
        · simp [hd, lastOf]
      · rw [lastOf_cons fun he => hr (hlast.2 he), follow]
        by_cases hd : (f ip).type = .dir
        · cases hl : lookup (f ip).entries r.1 with
          | none => simp [hd, hr, hl]
          | some kn => simp [hd, hr, hl, @ih kn.2 r.2 (by omega)]
        · simp [hd]

/-- **The last step**: what a path names is what its parent has under its last element. -/
theorem target_eq_of_parent (h : components path ≠ []) :
    target f cwd path = (targetParent f cwd path).bind fun r =>
      (lookup (f r.1).entries r.2).map Prod.snd := by
  rw [target, targetParent, lastOf, List.getLast?_eq_some_getLast h, Option.bind_some]
  conv_lhs => rw [← List.dropLast_append_getLast h]
  rw [List.foldlM_append]
  cases (components path).dropLast.foldlM (follow f) (origin cwd path) with
  | none => rfl
  | some dp =>
    by_cases hd : (f dp).type = .dir
    · simp [follow, hd]
    · simp [follow, hd]

/-! ## The walk of the kernel -/

/-- An inode that stays allocated when a walk lets go of it. -/
def Kept (f : Nat → Inode) (B : List Nat) (i : Nat) : Prop :=
  (f i).type ≠ .free ∧ ((f i).nlink ≠ 0 ∨ i ∈ B)

instance : Decidable (Kept f B i) := inferInstanceAs (Decidable (_ ∧ _))

/-- The root is there, and the entries of a directory name inodes that are. -/
structure Walkable (f : Nat → Inode) (B : List Nat) : Prop where
  root : Kept f B ROOTINO
  entry : ∀ d, (f d).type = .dir → Kept f B d → ∀ e ∈ (f d).entries, e.inum ≠ 0 → Kept f B e.inum

/-- The trees that the system calls keep can be walked. -/
theorem Tree.walkable {n : Nat} (h : Tree True n f) (B : List Nat) : Walkable f B := by
  refine ⟨⟨h.root.1.type, Or.inl h.root.1.2⟩, ?_⟩
  intro d hd hk e he h0
  rw [h.dots d hd, List.mem_cons, List.mem_cons] at he
  by_cases hl : (f d).nlink = 0
  · obtain rfl | rfl | he := he
    · exact hk
    · exact ⟨(h.pinned trivial d hd hl).type, Or.inl (h.pinned trivial d hd hl).2⟩
    · exact absurd (h.dead d hd hl e he) h0
  · obtain rfl | rfl | he := he
    · exact hk
    · exact ⟨(h.parent_live ⟨hd, hl⟩).type, Or.inl (h.parent_live ⟨hd, hl⟩).2⟩
    · obtain ⟨ht, hn⟩ := h.named ⟨hd, hl⟩ he h0
      exact ⟨ht, Or.inl (by omega)⟩

theorem wp_iget_room (h : s.refs.Perm (T ++ B)) (hr : T.length + B.dedup.length < NINODE) :
    wp (iget i) s (fun _ t => t.inode = s.inode ∧ t.refs.Perm (i :: T ++ B)) fun _ => False := by
  rw [iget, wp_bind, wp_get]
  split
  · exact wp_set.2 ⟨rfl, h.cons i⟩
  · rw [if_neg (by have := dedup_length_le h; omega)]
    exact wp_set.2 ⟨rfl, h.cons i⟩

theorem wp_ilock_kept (h : (s.inode i).type ≠ .free) :
    wp (ilock i) s (fun _ t => t.inode = s.inode ∧ t.refs = s.refs) fun _ => False := by
  rw [ilock, wp_bind, wp_get, if_neg h]
  split
  · exact wp_pure.2 ⟨rfl, rfl⟩
  · exact wp_set.2 ⟨rfl, rfl⟩

theorem wp_iput_kept (h : s.refs.Perm (i :: T ++ B)) (hk : Kept s.inode B i) :
    wp (iput i) s (fun _ t => t.inode = s.inode ∧ t.refs.Perm (T ++ B)) fun _ => False := by
  have hnot : ¬ (s.refs.count i = 1 ∧ s.valid i = true ∧ (s.inode i).nlink = 0) := by
    rintro ⟨hcount, -, hn⟩
    have hB : 0 < B.count i := List.count_pos_iff.2 (hk.2.resolve_left (not_not.2 hn))
    rw [h.count_eq, List.cons_append, List.count_cons_self, List.count_append] at hcount
    omega
  refine wp_modify.2 ?_
  rw [if_neg hnot]
  have he := h.erase i
  rw [List.cons_append, List.erase_cons_head] at he
  exact ⟨rfl, he⟩

/-- **The loop finds what it finds on the inodes alone**, changes none of them and keeps one
reference, to what it returns. -/
theorem wp_namexLoop_kept (hw : Walkable f B) (hroom : B.dedup.length + 2 ≤ NINODE)
    {parent : Bool} {fuel : Nat} (hf : path.length < fuel) (hk : Kept f B ip) (hi : s.inode = f)
    (h : s.refs.Perm (ip :: B)) :
    wp (namexLoop parent fuel ip path) s (fun r t => r = resolveLoop f parent fuel ip path ∧
      t.inode = f ∧ t.refs.Perm ((r.map Prod.fst).toList ++ B)) fun _ => False := by
  induction fuel generalizing s ip path with
  | zero => exact absurd hf (Nat.not_lt_zero _)
  | succ fuel ih =>
    -- every way out but one gives `ip` back
    have out : ∀ {t : Fs}, t.inode = f → t.refs.Perm (ip :: B) →
        wp (iput ip >>= fun _ => pure (none : Option (Nat × Name))) t
          (fun r t => r = none ∧ t.inode = f ∧ t.refs.Perm ((r.map Prod.fst).toList ++ B))
          fun _ => False := by
      intro t hti ht
      refine wp_seq (wp_iput_kept (T := []) ht (by rwa [hti])) ?_
      rintro - u ⟨hui, hu⟩
      exact wp_pure.2 ⟨rfl, hui.trans hti, hu⟩
    rw [namexLoop, resolveLoop]
    cases hsk : skipelem path with
    | none =>
      cases parent with
      | true => exact out hi h
      | false => exact wp_pure.2 ⟨rfl, hi, h⟩
    | some r =>
      obtain ⟨name, rest⟩ := r
      simp only
      refine wp_seq (wp_ilock_kept (by rw [hi]; exact hk.1)) ?_
      rintro - t ⟨hti, htr⟩
      rw [hi] at hti
      rw [← htr] at h
      rw [wp_bind, wp_get, hti]
      by_cases hd : (f ip).type = .dir
      · rw [if_neg (not_not.2 hd), if_neg (not_not.2 hd)]
        by_cases hp : (parent && rest == []) = true
        · rw [if_pos hp, if_pos hp]
          exact wp_pure.2 ⟨rfl, hti, h⟩
        · rw [if_neg hp, if_neg hp, wp_bind, dirlookup, wp_bind, wp_get, hti, if_neg (not_not.2 hd)]
          cases hl : lookup (f ip).entries name with
          | none => exact wp_pure.2 (out hti h)
          | some kn =>
            obtain ⟨k, next⟩ := kn
            obtain ⟨hmem, h0⟩ := lookup_spec hl
            simp only
            refine wp_seq (wp_iget_room (T := [ip]) h (by rw [List.length_singleton]; omega)) ?_
            rintro - u ⟨hui, hu⟩
            rw [wp_pure, wp_bind]
            refine wp_conseq (wp_iput_kept (T := [next]) (hu.trans (List.Perm.swap _ _ _))
              (by rw [hui, hti]; exact hk)) ?_
            rintro - v ⟨hvi, hv⟩
            have hlen := skipelem_length hsk
            exact ih (by omega) (hw.entry ip hd hk _ (List.mem_of_getElem? hmem) h0)
              (hvi.trans (hui.trans hti)) hv
      · rw [if_pos hd, if_pos hd]
        exact out hti h

theorem wp_namex_kept (hw : Walkable s.inode s.refs) (hc : Kept s.inode s.refs cwd)
    (hroom : s.refs.dedup.length + 2 ≤ NINODE) (parent : Bool) (path : List Char) :
    wp (namex parent cwd path) s
      (fun r t => r = resolveLoop s.inode parent (path.length + 1) (origin cwd path) path ∧
        t.inode = s.inode ∧ t.refs.Perm ((r.map Prod.fst).toList ++ s.refs)) fun _ => False := by
  rw [namex, origin]
  split
  · refine wp_seq (wp_iget_room (T := []) (B := s.refs) (List.Perm.refl _) (by
      rw [List.length_nil]; omega)) ?_
    rintro - t ⟨hti, ht⟩
    exact wp_namexLoop_kept hw hroom (Nat.lt_succ_self _) hw.root hti ht
  · rw [wp_bind]
    exact wp_modify.2 (wp_namexLoop_kept hw hroom (Nat.lt_succ_self _) hc rfl (List.Perm.refl _))

theorem count_returned {o : Option Nat} {l : List Nat} (h : t.refs.Perm (o.toList ++ l)) (i : Nat) :
    t.refs.count i = l.count i + if o = some i then 1 else 0 := by
  rw [h.count_eq, List.count_append]
  cases o with
  | none => simp
  | some a => simp [List.count_singleton, Nat.add_comm]

/-- **`namei` and `nameiparent` find what the elements of the path lead to**, and add one
reference to what they return; and `namei` finds what the directory that `nameiparent` returns
has under the name that it returns. -/
theorem path_resolution (s : Fs) (cwd : Nat) (path : List Char) (hw : Walkable s.inode s.refs)
    (hc : Kept s.inode s.refs cwd) (hroom : s.refs.dedup.length + 2 ≤ NINODE) :
    (∃ t, namei cwd path s = .ok (target s.inode cwd path, t) ∧ t.inode = s.inode ∧
      ∀ i, t.refs.count i = s.refs.count i + if target s.inode cwd path = some i then 1 else 0) ∧
    (∃ t, nameiparent cwd path s = .ok (targetParent s.inode cwd path, t) ∧ t.inode = s.inode ∧
      ∀ i, t.refs.count i =
        s.refs.count i + if (targetParent s.inode cwd path).map Prod.fst = some i then 1 else 0) ∧
    (components path ≠ [] → target s.inode cwd path = (targetParent s.inode cwd path).bind fun r =>
      (lookup (s.inode r.1).entries r.2).map Prod.snd) := by
  refine ⟨?_, ?_, target_eq_of_parent⟩
  · have h : wp (namei cwd path) s (fun r t => r = target s.inode cwd path ∧ t.inode = s.inode ∧
        t.refs.Perm (r.toList ++ s.refs)) fun _ => False := by
      rw [namei, wp_bind]
      refine wp_conseq (wp_namex_kept hw hc hroom false path) ?_
      rintro r t ⟨hr, hti, ht⟩
      refine wp_pure.2 ⟨?_, hti, ht⟩
      rw [hr, resolveLoop_namei (Nat.lt_succ_self _), target, Option.map_map]
      exact congrFun Option.map_id _
    obtain ⟨r, t, hx, rfl, hti, ht⟩ := wp_total h
    exact ⟨t, hx, hti, count_returned ht⟩
  · obtain ⟨r, t, hx, hr, hti, ht⟩ := wp_total (wp_namex_kept hw hc hroom true path)
    rw [resolveLoop_nameiparent (Nat.lt_succ_self _)] at hr
    rw [hr] at hx ht
    exact ⟨t, hx, hti, count_returned ht⟩

/-- The root directory with a file for each number from 2 to `n - 1`. -/
def shelf (n i : Nat) : Inode :=
  if i = 0 ∨ n ≤ i then ⟨.free, 0, 0, 0, []⟩
  else if i = 1 then ⟨.dir, 0, 0, 1, [⟨1, dot⟩, ⟨1, dotdot⟩] ++
    (List.range' 2 (n - 2)).map fun k => ⟨k, ['f', Char.ofNat (96 + k)]⟩⟩
  else ⟨.file, 0, 0, 1, []⟩

theorem shelf_walkable {n : Nat} (hn : 2 ≤ n) (B : List Nat) : Walkable (shelf n) B := by
  have kept : ∀ i, 1 ≤ i → i < n → Kept (shelf n) B i := by
    intro i h1 h2
    rw [Kept, shelf, if_neg (by omega)]
    split
    · exact ⟨FileType.noConfusion, Or.inl (show (1 : Int) ≠ 0 by decide)⟩
    · exact ⟨FileType.noConfusion, Or.inl (by decide)⟩
  refine ⟨kept 1 (by omega) (by omega), fun d hd _ e he h0 => kept _ (by omega) ?_⟩
  rw [shelf] at he
  split at he
  · exact absurd he List.not_mem_nil
  split at he
  · simp only [List.cons_append, List.nil_append, List.mem_cons, List.mem_map,
      List.mem_range'_1] at he
    obtain rfl | rfl | ⟨k, hk, rfl⟩ := he <;> simp only <;> omega
  · exact absurd he List.not_mem_nil

theorem path_resolution_dotdot : ∃ t, namei 1 ['.', '.', '/', '/', 'f', 'd', '/']
    ⟨5, shelf 5, [1], fun _ => true⟩ = .ok (some 4, t) ∧ t.refs.count 4 = 1 := by
  obtain ⟨⟨t, ht, -, hc⟩, -, -⟩ := path_resolution ⟨5, shelf 5, [1], fun _ => true⟩ 1
    ['.', '.', '/', '/', 'f', 'd', '/'] (shelf_walkable (by decide) _) (by decide) (by decide)
  exact ⟨t, ht, hc 4⟩

/-- The root and 49 files have the whole table, and another file is looked up. -/
theorem full_table_stops :
    Walkable (shelf 52) (List.range' 1 50) ∧ Kept (shelf 52) (List.range' 1 50) 1 ∧
      target (shelf 52) 1 ['f', Char.ofNat 147] = some 51 ∧
      namei 1 ['f', Char.ofNat 147] ⟨52, shelf 52, List.range' 1 50, fun _ => true⟩ = .error .noInodes :=
  ⟨shelf_walkable (by decide) _, by decide, by decide +kernel, rfl⟩

end Xv6.Dir
