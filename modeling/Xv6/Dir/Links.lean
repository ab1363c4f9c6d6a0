import Xv6.Dir.Calls
import Xv6.Lib.Run

/-!
# Link counts and directory entries over whole runs

From a valid image, any processes make system calls in any order.

* `link_counts`: as long as no entry is made in a directory that has been removed, and no link
  count grows beyond a `short`, every link count is the number of entries it stands for.
* `no_dangling_entry`: if moreover no directory is removed that is the `..` of a removed one
  still in use, every entry of every allocated directory names an allocated inode.

A removed directory that is still some process's current directory breaks the first when a file
is created in it, and the second when its parent is removed as well.
-/

namespace Xv6.Dir

open Xv6.Lib Finset

/-- A file system as `mkfs` leaves it. -/
structure Image (n : Nat) (f : Nat → Inode) : Prop where
  small : n ≤ 2 ^ 16
  tree : Tree True n f

/-- The first process, in the root directory. -/
def boot (n : Nat) (f : Nat → Inode) : Sys :=
  ⟨⟨n, f, [ROOTINO], fun _ => false⟩, [ROOTINO], []⟩

/-- What holds between system calls. -/
def SysInv (q : Prop) (s : Sys) : Prop := Inv q none s.fs [] (s.cwd ++ s.files)

/-! ## The conditions -/

/-- An entry is made only in a directory that is linked, and no link count that grows is at its
largest value. -/
def Act.Clear (s : Sys) : Act → Prop
  | .open p path ocreate _ _ _ =>
    ocreate = true → ∀ d ∈ s.cwd[p]?, Room s.fs.inode d path .file
  | .mkdir p path _ => ∀ d ∈ s.cwd[p]?, Room s.fs.inode d path .dir
  | .mknod p path _ _ _ => ∀ d ∈ s.cwd[p]?, Room s.fs.inode d path .device
  | .link p old new _ => ∀ d ∈ s.cwd[p]?,
    (∀ i ∈ (resolve s.fs.inode false d old).map Prod.fst, (s.fs.inode i).nlink < MAXLINK) ∧
      Room s.fs.inode d new .file
  | _ => True

/-- No directory is removed that a removed directory still in use has as its `..`. -/
def Act.Keeps (s : Sys) : Act → Prop
  | .unlink p path => ∀ d ∈ s.cwd[p]?, Movable s.fs.inode d path
  | _ => True

/-! ## Steps -/

variable {q : Prop} {s t : Sys} {a : Act}

theorem Inv.perm {o : Option Nat} {s : Fs} {T B B' : List Nat} (h : Inv q o s T B)
    (hp : B.Perm B') : Inv q o s T B' where
  tree := h.tree
  small := h.small
  refs := h.refs.trans (hp.append_left T)
  alloc := fun i hi => h.alloc i (hp.mem_iff.2 hi)
  valid := h.valid
  sound := h.sound
  pend := fun x hx => ⟨hp.mem_iff.1 (h.pend x hx).1, (h.pend x hx).2⟩

/-- What a step comes to. -/
def Steps (q : Prop) : Except Halt Sys → Prop
  | .ok t => SysInv q t
  | .error h => ∀ e, h = .panic e → Allowed q e

theorem steps_call {α : Type} {x : FsM α} {f : α → Fs → Sys} {Q : α → Fs → Prop}
    (h : wp x s.fs Q (Allowed q)) (hf : ∀ a t, Q a t → SysInv q (f a t)) :
    Steps q (s.call x f) := by
  rw [Sys.call]
  split
  case h_1 a t hx => exact hf a t (wp_ok h hx)
  case h_2 e hx =>
    intro e' he
    obtain rfl := Halt.panic.inj he
    exact wp_error h hx

theorem steps_callBy {α : Type} {p : Nat} {x : Nat → FsM α} {f : α → Fs → Sys}
    (h : ∀ d, s.cwd[p]? = some d → Steps q (s.call (x d) f)) : Steps q (s.callBy p x f) := by
  rw [Sys.callBy]
  split
  case h_1 => exact fun e he => nomatch he
  case h_2 d hd => exact h d hd

theorem mem_users {p d : Nat} (h : s.cwd[p]? = some d) : d ∈ s.cwd ++ s.files :=
  List.mem_append_left _ (List.mem_of_getElem? h)

theorem users_perm {p d : Nat} (h : s.cwd[p]? = some d) :
    (s.cwd ++ s.files).Perm (d :: (s.cwd.eraseIdx p ++ s.files)) := by
  obtain ⟨hlt, rfl⟩ := List.getElem?_eq_some_iff.1 h
  exact (List.getElem_cons_eraseIdx_perm hlt).symm.append_right s.files

theorem users_perm_file {k i : Nat} (h : s.files[k]? = some i) :
    (s.cwd ++ s.files).Perm (i :: (s.cwd ++ s.files.eraseIdx k)) := by
  obtain ⟨hlt, rfl⟩ := List.getElem?_eq_some_iff.1 h
  exact ((List.getElem_cons_eraseIdx_perm hlt).symm.append_left s.cwd).trans List.perm_middle

/-- **One system call.** -/
theorem steps_step (h : SysInv q s) (hc : a.Clear s) (hk : q → a.Keeps s) : Steps q (step s a) := by
  cases a with
  | «open» p path ocreate rdonly slot room =>
    refine steps_callBy fun d hd => steps_call (wp_sysOpen h (mem_users hd) fun ho => hc ho d hd) ?_
    intro o t ht
    exact ht.perm (List.perm_append_comm_assoc _ _ _)
  | mkdir p path room | mknod p path major minor room =>
    refine steps_callBy fun d hd => steps_call
      (wp_sysMake h (mem_users hd) FileType.noConfusion (hc d hd)) fun _ t ht => ht
  | link p old new room =>
    refine steps_callBy fun d hd => steps_call
      (wp_sysLink h (mem_users hd) (hc d hd).1 (hc d hd).2) fun _ t ht => ht
  | unlink p path =>
    refine steps_callBy fun d hd => steps_call
      (wp_sysUnlink h (mem_users hd) fun hq => hk hq d hd) fun _ t ht => ht
  | chdir p path =>
    refine steps_callBy fun d hd => steps_call (wp_sysChdir (h.perm (users_perm hd))) ?_
    intro o t ht
    cases o with
    | none => exact ht.perm (users_perm hd).symm
    | some ip =>
      obtain ⟨hlt, -⟩ := List.getElem?_eq_some_iff.1 hd
      exact ht.perm ((List.set_perm_cons_eraseIdx hlt ip).symm.append_right s.files)
  | exec p path =>
    exact steps_callBy fun d hd => steps_call (wp_exec h (mem_users hd)) fun _ t ht => ht
  | close k =>
    rw [step]
    split
    case h_1 => exact fun e he => nomatch he
    case h_2 i hi =>
      refine steps_call (wp_iput_done (h.perm (users_perm_file hi))) ?_
      rintro - t ⟨ht, -⟩
      exact ht
  | fork p =>
    refine steps_callBy fun d hd => ?_
    have hx : wp (do idup d; pure d) s.fs
        (fun r t => r = d ∧ Inv q none t [] (d :: (s.cwd ++ s.files))) (Allowed q) := by
      rw [wp_bind]
      refine wp_modify.2 (wp_pure.2 ⟨rfl, ?_⟩)
      have hi := h.idup (mem_users hd)
      have hmem := mem_users hd
      refine ⟨hi.tree, hi.small, hi.refs, ?_, hi.valid, fun _ _ hj => absurd hj List.not_mem_nil, nofun⟩
      intro j hj
      obtain rfl | hj := List.mem_cons.1 hj
      · exact hi.alloc j hmem
      · exact hi.alloc j hj
    refine steps_call hx ?_
    rintro r t ⟨rfl, ht⟩
    refine ht.perm ?_
    show (r :: (s.cwd ++ s.files)).Perm ((s.cwd ++ [r]) ++ s.files)
    rw [List.append_assoc]
    exact List.perm_middle.symm
  | exit p =>
    refine steps_callBy fun d hd => steps_call (wp_iput_done (h.perm (users_perm hd))) ?_
    rintro - t ⟨ht, -⟩
    exact ht

theorem Tree.mono {n : Nat} {f : Nat → Inode} {p : Prop} (h : Tree p n f) (hp : q → p) :
    Tree q n f :=
  { h with pinned := fun hq => h.pinned (hp hq) }

theorem sysInv_boot {n : Nat} {f : Nat → Inode} (h : Image n f) : SysInv q (boot n f) where
  tree := h.tree.mono fun _ => trivial
  small := h.small
  refs := List.Perm.refl _
  alloc := fun i hi => by
    rw [List.mem_singleton.1 hi]
    exact h.tree.root.1.type
  valid := fun _ _ (hv : false = true) => nomatch hv
  sound := fun _ _ hi => absurd hi List.not_mem_nil
  pend := nofun

theorem sysInv_step (h : SysInv q s) (hc : a.Clear s ∧ (q → a.Keeps s)) (hs : step s a = .ok t) :
    SysInv q t := by
  have := steps_step h hc.1 hc.2
  rw [hs] at this
  exact this

/-! ## Link counts -/

/-- The entries that name the inode in directories that are linked, without those named `.`. -/
def links (s : Fs) (i : Nat) : Nat :=
  ∑ d ∈ range s.ninodes, if (s.inode d).Live then
    (s.inode d).entries.countP fun e => e.inum = i ∧ e.name ≠ dot else 0

theorem Tree.links {s : Fs} {i : Nat} (h : Tree q s.ninodes s.inode) (hi : i ≠ 0) :
    links s i = names s.ninodes s.inode i + subs s.ninodes s.inode i := by
  rw [Dir.links, names, subs, ← sum_add_distrib]
  refine sum_congr rfl fun d _ => ?_
  by_cases hl : (s.inode d).Live
  · rw [if_pos hl, namesIn_live hl, subIn_live hl, h.dots d hl.1]
    have hkids : (s.inode d).kids.countP (fun e => e.inum = i ∧ e.name ≠ dot) =
        naming (s.inode d).kids i := by
      refine List.countP_congr fun e he => ?_
      simp only [decide_eq_true_eq, and_iff_left_iff_imp]
      intro hei
      exact (h.kid d hl.1 e he (hei ▸ hi)).1
    have hdd : dotdot ≠ dot := by decide
    rw [List.countP_cons, List.countP_cons, hkids]
    simp [hdd]
  · rw [if_neg hl, namesIn_of_not hl, subIn_of_not hl]

structure LinksOk (s : Fs) : Prop where
  /-- Every link count is the number of entries it stands for. -/
  count : ∀ i, (s.inode i).type ≠ .free → (s.inode i).nlink = links s i
  /-- An inode with links has a name in a directory that is linked. -/
  named : ∀ i, (s.inode i).type ≠ .free → 0 < (s.inode i).nlink →
    ∃ d, (s.inode d).Live ∧ ∃ e ∈ (s.inode d).entries, e.inum = i ∧ e.name ≠ dot
  /-- No link count has wrapped. -/
  short : ∀ i, (s.inode i).type ≠ .free → 0 ≤ (s.inode i).nlink ∧ (s.inode i).nlink ≤ MAXLINK

theorem SysInv.linksOk (h : SysInv q s) : LinksOk s.fs := by
  have htree : Tree q s.fs.ninodes s.fs.inode := h.tree
  have hcount : ∀ i, (s.fs.inode i).type ≠ .free → (s.fs.inode i).nlink = links s.fs i := by
    intro i hi
    rw [htree.links (htree.ne_zero hi)]
    exact htree.count i hi
  refine ⟨hcount, ?_, fun i hi => ⟨htree.nlink_nonneg hi, htree.short i hi⟩⟩
  intro i hi hpos
  rw [hcount i hi, links] at hpos
  obtain ⟨d, -, hd⟩ := sum_pos_iff.1 (Int.natCast_pos.1 hpos)
  split at hd
  case isFalse => exact absurd hd (Nat.lt_irrefl _)
  case isTrue hl =>
    obtain ⟨e, he, hp⟩ := List.countP_pos_iff.1 hd
    exact ⟨d, hl, e, he, of_decide_eq_true hp⟩

/-- **Link counts** are right in every state of a run of calls that do not overlap, and `unlink` never
finds one below 1. -/
theorem link_counts {n : Nat} {f : Nat → Inode} {as : List Act} (hf : Image n f)
    (h : Run step (fun s a => a.Clear s) (boot n f) as s) :
    LinksOk s.fs ∧ ∀ a, a.Clear s → step s a ≠ .error (.panic .nlinkLow) := by
  have hinv : SysInv False s := h.invariant (sysInv_boot hf) fun s a t hs hc ht =>
    sysInv_step hs ⟨hc, False.elim⟩ ht
  refine ⟨hinv.linksOk, fun a hc hs => ?_⟩
  have := steps_step hinv hc False.elim
  rw [hs] at this
  obtain he | ⟨-, he⟩ := this .nlinkLow rfl
  · exact Stop.noConfusion he
  · exact Stop.noConfusion he

/-- An empty file system. -/
def root : Nat → Inode := fun i =>
  if i = ROOTINO then ⟨.dir, 0, 0, 1, [⟨ROOTINO, dot⟩, ⟨ROOTINO, dotdot⟩]⟩ else ⟨.free, 0, 0, 0, []⟩

theorem image_root : Image 10 root := by
  have hdir : ∀ d, (root d).type ≠ .free → d = ROOTINO := by
    intro d hd
    by_contra hne
    exact hd (by rw [root, if_neg hne])
  have hne : ∀ d, (root d).type = .dir → d = ROOTINO := fun d hd =>
    hdir d (by rw [hd]; exact FileType.noConfusion)
  have hkids : ∀ d, (root d).type = .dir → (root d).kids = [] := by
    intro d hd
    rw [hne d hd]
    rfl
  refine ⟨by decide, ?_⟩
  refine ⟨?_, ?_, ?_, ?_, ?_, ?_, ?_, ?_, ?_, ?_, ?_, ?_⟩
  · intro i hi
    rw [hdir i hi]
    decide
  · intro d hd
    rw [hne d hd]
    rfl
  · intro d hd
    rw [hne d hd]
    decide
  · intro d hd e he
    rw [hkids d hd] at he
    exact absurd he List.not_mem_nil
  · intro i hi
    rw [hdir i hi]
    decide +kernel
  · intro d hd _ e he
    rw [hkids d hd] at he
    exact absurd he List.not_mem_nil
  · decide +kernel
  · intro d hd hr
    exact absurd (hne d hd.1) hr
  · intro d hd e he
    rw [hkids d hd.1] at he
    exact absurd he List.not_mem_nil
  · intro d hd e he
    rw [hkids d hd.1] at he
    exact absurd he List.not_mem_nil
  · intro _ d hd h0
    rw [hne d hd] at h0
    exact absurd h0 (by decide)
  · intro i hi
    rw [hdir i hi]
    decide

/-- There is always room. -/
def ample : Nat → Bool := fun _ => true

instance (f : Nat → Inode) (cwd : Nat) (path : List Char) (type : FileType) :
    Decidable (Room f cwd path type) :=
  decidable_of_iff (∀ r ∈ resolve f true cwd path,
      (f r.1).nlink ≠ 0 ∧ (type = .dir → (f r.1).nlink < MAXLINK))
    ⟨fun h dp name hr => h (dp, name) hr, fun h r hr => h r.1 r.2 hr⟩

instance (s : Sys) (a : Act) : Decidable (a.Clear s) :=
  match a with
  | .open _ _ _ _ _ _ => inferInstanceAs (Decidable (_ → _))
  | .mkdir _ _ _ => inferInstanceAs (Decidable (∀ _ ∈ _, _))
  | .mknod _ _ _ _ _ => inferInstanceAs (Decidable (∀ _ ∈ _, _))
  | .link _ _ _ _ => inferInstanceAs (Decidable (∀ _ ∈ _, _))
  | .unlink _ _ => .isTrue trivial
  | .chdir _ _ => .isTrue trivial
  | .exec _ _ => .isTrue trivial
  | .close _ => .isTrue trivial
  | .fork _ => .isTrue trivial
  | .exit _ => .isTrue trivial

/-- A file is made in a directory, linked elsewhere and unlinked. -/
def useFile : List Act :=
  [.mkdir 0 ['d'] ample, .open 0 ['d', '/', 'f'] true false true ample,
    .link 0 ['d', '/', 'f'] ['g'] ample, .unlink 0 ['d', '/', 'f']]

theorem link_counts_useFile :
    ∃ s, Run step (fun s a => a.Clear s) (boot 10 root) useFile s ∧
      (s.fs.inode 3).nlink = 1 ∧ LinksOk s.fs := by
  obtain ⟨s, hr, hs⟩ := exists_run step (fun s a => decide (a.Clear s))
    (fun s => decide ((s.fs.inode 3).nlink = 1)) (boot 10 root) useFile (by decide +kernel)
  have hr' := hr.mono fun s a h => of_decide_eq_true h
  exact ⟨s, hr', of_decide_eq_true hs, (link_counts image_root hr').1⟩

/-- A directory is removed while it is the current one, and a file created in it. -/
def createInRemoved : List Act :=
  [.mkdir 0 ['d'] ample, .chdir 0 ['d'], .unlink 0 ['.', '.', '/', 'd'],
    .open 0 ['f'] true false true ample]

/-- The file has a link, but no directory that is linked names it. -/
theorem created_in_removed_miscounted :
    Image 10 root ∧ ∃ s, Run step (fun _ _ => True) (boot 10 root) createInRemoved s ∧
      (s.fs.inode 3).type = .file ∧ (s.fs.inode 3).nlink = 1 ∧ links s.fs 3 = 0 := by
  obtain ⟨s, hr, hs⟩ := exists_run step (fun _ _ => true)
    (fun s => decide ((s.fs.inode 3).type = .file ∧ (s.fs.inode 3).nlink = 1 ∧ links s.fs 3 = 0))
    (boot 10 root) createInRemoved (by decide +kernel)
  exact ⟨image_root, s, hr.mono fun _ _ _ => trivial, of_decide_eq_true hs⟩

/-! ## Dangling entries -/

/-- Every entry of every allocated directory names an allocated inode. -/
def Sound (s : Fs) : Prop :=
  ∀ d, (s.inode d).type = .dir → ∀ e ∈ (s.inode d).entries, e.inum ≠ 0 →
    (s.inode e.inum).type ≠ .free

/-- **No entry dangles** in any state of a run of calls that do not overlap, and no lookup locks an inode
that is free. -/
theorem no_dangling_entry {n : Nat} {f : Nat → Inode} {as : List Act} (hf : Image n f)
    (h : Run step (fun s a => a.Clear s ∧ a.Keeps s) (boot n f) as s) :
    Sound s.fs ∧ ∀ a, a.Clear s → a.Keeps s → step s a ≠ .error (.panic .noType) := by
  have hinv : SysInv True s := h.invariant (sysInv_boot hf) fun s a t hs hc ht =>
    sysInv_step hs ⟨hc.1, fun _ => hc.2⟩ ht
  have htree : Tree True s.fs.ninodes s.fs.inode := hinv.tree
  refine ⟨fun d hd e he h0 => htree.sound trivial hd he h0, fun a hc hk hs => ?_⟩
  have := steps_step hinv hc fun _ => hk
  rw [hs] at this
  obtain he | ⟨hq, -⟩ := this .noType rfl
  · exact Stop.noConfusion he
  · exact hq trivial

/-- An `unlink` that does not name a directory. -/
def Act.sparesDirs (s : Sys) : Act → Bool
  | .unlink p path => decide (∀ d ∈ s.cwd[p]?, ∀ r ∈ resolve s.fs.inode true d path,
      ∀ r' ∈ lookup (s.fs.inode r.1).entries r.2, (s.fs.inode r'.2).type ≠ .dir)
  | _ => true

theorem Act.keeps_of_sparesDirs (h : a.sparesDirs s = true) : a.Keeps s := by
  cases a with
  | unlink p path =>
    intro d hd dp name k ip hres hl ht
    exact absurd ht (of_decide_eq_true h d hd (dp, name) hres (k, ip) hl)
  | _ => exact trivial

theorem no_dangling_entry_useFile :
    ∃ s, Run step (fun s a => a.Clear s ∧ a.Keeps s) (boot 10 root) useFile s ∧ Sound s.fs := by
  obtain ⟨s, hr, -⟩ := exists_run step (fun s a => decide (a.Clear s) && a.sparesDirs s)
    (fun _ => true) (boot 10 root) useFile (by decide +kernel)
  have hr' : Run step (fun s a => a.Clear s ∧ a.Keeps s) (boot 10 root) useFile s :=
    hr.mono fun s a h => ⟨of_decide_eq_true (Bool.and_eq_true_iff.1 h).1,
      Act.keeps_of_sparesDirs (Bool.and_eq_true_iff.1 h).2⟩
  exact ⟨s, hr', (no_dangling_entry image_root hr').1⟩

/-- The current directory `a/b` is removed, and then `a`. -/
def removeParent : List Act :=
  [.mkdir 0 ['a'] ample, .mkdir 0 ['a', '/', 'b'] ample, .chdir 0 ['a', '/', 'b'],
    .unlink 0 ['/', 'a', '/', 'b'], .unlink 0 ['/', 'a']]

/-- Its `..` names a free inode, and a lookup of it panics. -/
theorem removed_parent_dangles :
    Image 10 root ∧ ∃ s, Run step (fun _ _ => True) (boot 10 root) removeParent s ∧
      (s.fs.inode 3).type = .dir ∧ (s.fs.inode 3).entries = [⟨3, dot⟩, ⟨2, dotdot⟩] ∧
      (s.fs.inode 2).type = .free ∧
      (match step s (.chdir 0 ['.', '.']) with
        | .error (.panic e) => e = .noType
        | _ => False) := by
  obtain ⟨s, hr, hs⟩ := exists_run step (fun _ _ => true)
    (fun s => decide ((s.fs.inode 3).type = .dir ∧
      (s.fs.inode 3).entries = [⟨3, dot⟩, ⟨2, dotdot⟩] ∧ (s.fs.inode 2).type = .free) &&
      match step s (.chdir 0 ['.', '.']) with
        | .error (.panic e) => decide (e = .noType)
        | _ => false)
    (boot 10 root) removeParent (by decide +kernel)
  rw [Bool.and_eq_true] at hs
  obtain ⟨h₁, h₂⟩ := hs
  obtain ⟨ha, hb, hc⟩ := of_decide_eq_true h₁
  refine ⟨image_root, s, hr.mono fun _ _ _ => trivial, ha, hb, hc, ?_⟩
  split at h₂
  · exact of_decide_eq_true h₂
  · exact absurd h₂ (by decide)

end Xv6.Dir
