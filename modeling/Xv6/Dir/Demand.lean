import Xv6.Dir.Links

/-!
# The demand for in-memory inodes

Between system calls there is a reference for each current directory and for each open file; a
file that is only mapped is open here.  `refs.Perm (T ++ B)` says that the references are those
of the users, `B`, and those of the call itself, `T`.  A call has two of its own when it asks
for another one, at most, and so `iget` finds an entry if the users leave three free:
`inode_supply`.

Nothing makes the users leave them free: there may be `NFILE` open files and `NPROC` current
directories, and `NINODE` entries are fewer.  `opens_exhaust_inodes` is a run of four processes
that open files until `iget` stops.
-/

namespace Xv6.Dir

open Xv6.Lib

variable {s t : Fs} {T B : List Nat} {i dp ip : Nat}

/-- The users leave room for a call. -/
def Leaves (B : List Nat) : Prop := B.dedup.length + 3 ≤ NINODE

instance (B : List Nat) : Decidable (Leaves B) := inferInstanceAs (Decidable (_ ≤ _))

/-- The one panic that is ruled out here. -/
def NotFull (e : Stop) : Prop := e ≠ .noInodes

theorem dedup_length_le (h : s.refs.Perm (T ++ B)) :
    s.refs.dedup.length ≤ T.length + B.dedup.length := by
  have hsub : s.refs.dedup ⊆ T ++ B.dedup := by
    intro i hi
    rw [List.mem_dedup, h.mem_iff, List.mem_append] at hi
    rw [List.mem_append, List.mem_dedup]
    exact hi
  have hlen := (List.Nodup.subperm s.refs.nodup_dedup hsub).length_le
  rwa [List.length_append] at hlen

theorem wp_iget_demand (h : s.refs.Perm (T ++ B)) (hB : Leaves B) (hT : T.length ≤ 2) :
    wp (iget i) s (fun _ t => t.refs.Perm (i :: T ++ B)) NotFull := by
  unfold iget
  rw [wp_bind, wp_get]
  split
  · exact wp_set.2 (h.cons i)
  · split
    · rename_i hfull
      have := dedup_length_le h
      have hroom : B.dedup.length + 3 ≤ NINODE := hB
      exact absurd hfull (by omega)
    · exact wp_set.2 (h.cons i)

theorem wp_idup_demand (h : s.refs.Perm (T ++ B)) :
    wp (idup i) s (fun _ t => t.refs.Perm (i :: T ++ B)) NotFull :=
  wp_modify.2 (h.cons i)

theorem wp_ilock_demand (h : s.refs.Perm (T ++ B)) :
    wp (ilock i) s (fun _ t => t.refs.Perm (T ++ B)) NotFull := by
  unfold ilock
  rw [wp_bind, wp_get]
  split
  · exact wp_pure.2 h
  · split
    · exact wp_throw.2 Stop.noConfusion
    · exact wp_set.2 h

theorem wp_iput_demand (h : s.refs.Perm (i :: T ++ B)) :
    wp (iput i) s (fun _ t => t.refs.Perm (T ++ B)) NotFull := by
  have hp : (s.refs.erase i).Perm (T ++ B) := by
    have he := h.erase i
    rwa [List.cons_append, List.erase_cons_head] at he
  refine wp_modify.2 ?_
  split
  · exact hp
  · exact hp

theorem wp_update_demand (h : s.refs.Perm (T ++ B)) (f : Inode → Inode) :
    wp (update i f) s (fun _ t => t.refs.Perm (T ++ B)) NotFull := wp_modify.2 h

theorem wp_ialloc_demand (h : s.refs.Perm (T ++ B)) (hB : Leaves B) (hT : T.length ≤ 2)
    (type : FileType) :
    wp (ialloc type) s (fun r t => t.refs.Perm (r.toList ++ T ++ B)) NotFull := by
  unfold ialloc
  rw [wp_bind, wp_get]
  cases s.freeInode with
  | none => exact wp_pure.2 h
  | some i =>
    dsimp only
    refine wp_seq (wp_update_demand h _) ?_
    intro _ t ht
    refine wp_seq (wp_iget_demand ht hB hT) ?_
    intro _ u hu
    exact wp_pure.2 hu

theorem wp_dirlookup_demand (h : s.refs.Perm (T ++ B)) (hB : Leaves B) (hT : T.length ≤ 2)
    (name : Name) :
    wp (dirlookup dp name) s (fun r t => t.refs.Perm ((r.map Prod.snd).toList ++ T ++ B))
      NotFull := by
  unfold dirlookup
  rw [wp_bind, wp_get]
  split
  · exact wp_throw.2 Stop.noConfusion
  · cases lookup (s.inode dp).entries name with
    | none => exact wp_pure.2 h
    | some r =>
      dsimp only
      refine wp_seq (wp_iget_demand h hB hT) ?_
      intro _ t ht
      exact wp_pure.2 ht

theorem wp_dirlink_demand (h : s.refs.Perm (T ++ B)) (hB : Leaves B) (hT : T.length ≤ 2)
    (name : Name) (i : Nat) (room : Nat → Bool) :
    wp (dirlink dp name i room) s (fun _ t => t.refs.Perm (T ++ B)) NotFull := by
  unfold dirlink
  refine wp_seq (wp_dirlookup_demand h hB hT name) ?_
  intro r t ht
  cases r with
  | some r =>
    dsimp only
    refine wp_seq (wp_iput_demand ht) ?_
    intro _ u hu
    exact wp_pure.2 hu
  | none =>
    dsimp only
    rw [wp_bind, wp_get]
    cases place (t.inode dp).entries ⟨i % 2 ^ 16, name⟩ (room dp) with
    | none => exact wp_pure.2 ht
    | some es =>
      dsimp only
      refine wp_seq (wp_update_demand ht _) ?_
      intro _ u hu
      exact wp_pure.2 hu

/-- **Path resolution** holds one inode and asks for the next, beside the one that the call may
hold already. -/
theorem wp_namexLoop_demand (hB : Leaves B) (hT : T.length ≤ 1) (parent : Bool) (fuel : Nat)
    (ip : Nat) (path : List Char) (h : s.refs.Perm (ip :: T ++ B)) (hf : path.length < fuel) :
    wp (namexLoop parent fuel ip path) s
      (fun r t => t.refs.Perm ((r.map Prod.fst).toList ++ T ++ B)) NotFull := by
  have hT2 : (ip :: T).length ≤ 2 := by
    rw [List.length_cons]
    omega
  induction fuel generalizing ip path s with
  | zero => omega
  | succ fuel ih =>
    rw [namexLoop]
    cases hsk : skipelem path with
    | none =>
      dsimp only
      split
      · refine wp_seq (wp_iput_demand h) ?_
        intro _ t ht
        exact wp_pure.2 ht
      · exact wp_pure.2 h
    | some p =>
      obtain ⟨name, rest⟩ := p
      dsimp only
      refine wp_seq (wp_ilock_demand h) ?_
      intro _ t ht
      rw [wp_bind, wp_get]
      split
      · refine wp_seq (wp_iput_demand ht) ?_
        intro _ u hu
        exact wp_pure.2 hu
      split
      · exact wp_pure.2 ht
      · refine wp_seq (wp_dirlookup_demand ht hB hT2 name) ?_
        intro r u hu
        cases r with
        | none =>
          dsimp only
          refine wp_seq (wp_iput_demand hu) ?_
          intro _ v hv
          exact wp_pure.2 hv
        | some r =>
          dsimp only
          rw [wp_bind]
          have hu' : u.refs.Perm (ip :: (r.2 :: T) ++ B) :=
            hu.trans ((List.Perm.swap ip r.2 T).append_right B)
          refine wp_conseq (wp_iput_demand hu') ?_
          intro _ v hv
          refine ih r.2 rest hv ?_ ?_
          · have := skipelem_length hsk
            omega
          · rw [List.length_cons]
            omega

theorem wp_namex_demand (h : s.refs.Perm (T ++ B)) (hB : Leaves B) (hT : T.length ≤ 1)
    (parent : Bool) (cwd : Nat) (path : List Char) :
    wp (namex parent cwd path) s (fun r t => t.refs.Perm ((r.map Prod.fst).toList ++ T ++ B))
      NotFull := by
  unfold namex
  split
  · refine wp_seq (wp_iget_demand h hB (by omega)) ?_
    intro _ t ht
    exact wp_namexLoop_demand hB hT parent _ _ path ht (Nat.lt_succ_self _)
  · refine wp_seq (wp_idup_demand h) ?_
    intro _ t ht
    exact wp_namexLoop_demand hB hT parent _ _ path ht (Nat.lt_succ_self _)

theorem wp_namei_demand (h : s.refs.Perm (T ++ B)) (hB : Leaves B) (hT : T.length ≤ 1)
    (cwd : Nat) (path : List Char) :
    wp (namei cwd path) s (fun r t => t.refs.Perm (r.toList ++ T ++ B)) NotFull := by
  unfold namei
  refine wp_seq (wp_namex_demand h hB hT false cwd path) ?_
  intro r t ht
  exact wp_pure.2 ht

/-! ### System calls -/

theorem wp_makeDots_demand (h : s.refs.Perm (T ++ B)) (hB : Leaves B) (hT : T.length ≤ 2)
    (type : FileType) (room : Nat → Bool) :
    wp (makeDots type ip dp room) s (fun _ t => t.refs.Perm (T ++ B)) NotFull := by
  unfold makeDots
  split
  · refine wp_seq (wp_dirlink_demand h hB hT _ _ room) ?_
    intro ok t ht
    split
    · exact wp_dirlink_demand ht hB hT _ _ room
    · exact wp_pure.2 ht
  · exact wp_pure.2 h

theorem wp_createFail_demand (h : s.refs.Perm (ip :: dp :: [] ++ B)) :
    wp (createFail ip dp) s (fun r t => t.refs.Perm (r.toList ++ B)) NotFull := by
  unfold createFail
  refine wp_seq (wp_update_demand h _) ?_
  intro _ t ht
  refine wp_seq (wp_iput_demand ht) ?_
  intro _ u hu
  refine wp_seq (wp_iput_demand hu) ?_
  intro _ v hv
  exact wp_pure.2 hv

theorem wp_createNew_demand (h : s.refs.Perm (ip :: dp :: [] ++ B)) (hB : Leaves B)
    (type : FileType) (major minor : Int) (name : Name) (room : Nat → Bool) :
    wp (createNew type major minor dp name ip room) s
      (fun r t => t.refs.Perm (r.toList ++ B)) NotFull := by
  unfold createNew
  refine wp_seq (wp_ilock_demand h) ?_
  intro _ t ht
  refine wp_seq (wp_update_demand ht _) ?_
  intro _ u hu
  refine wp_seq (wp_makeDots_demand hu hB le_rfl type room) ?_
  intro ok v hv
  split
  · refine wp_seq (wp_dirlink_demand hv hB le_rfl name ip room) ?_
    intro ok' x hx
    split
    · -- the new entry is kept, and the directory let go
      have hput : ∀ y : Fs, y.refs.Perm (ip :: dp :: [] ++ B) →
          wp (iput dp >>= fun _ => pure (some ip)) y
            (fun r t => t.refs.Perm (r.toList ++ B)) NotFull := by
        intro y hy
        have hy' : y.refs.Perm (dp :: [ip] ++ B) :=
          hy.trans ((List.Perm.swap dp ip []).append_right B)
        refine wp_seq (wp_iput_demand hy') ?_
        intro _ z hz
        exact wp_pure.2 hz
      rw [wp_bind, wp_when]
      refine ⟨?_, ?_⟩
      · intro _
        refine wp_conseq (wp_update_demand hx _) ?_
        intro _ y hy
        exact hput y hy
      · intro _
        exact hput x hx
    · exact wp_createFail_demand hx
  · exact wp_createFail_demand hv

theorem wp_create_demand (h : s.refs.Perm B) (hB : Leaves B) (cwd : Nat) (path : List Char)
    (type : FileType) (major minor : Int) (room : Nat → Bool) :
    wp (create cwd path type major minor room) s (fun r t => t.refs.Perm (r.toList ++ B))
      NotFull := by
  unfold create
  refine wp_seq (wp_namex_demand (T := []) h hB (Nat.zero_le _) true cwd path) ?_
  intro r t ht
  cases r with
  | none => exact wp_pure.2 ht
  | some r =>
    obtain ⟨dp, name⟩ := r
    dsimp only
    refine wp_seq (wp_ilock_demand ht) ?_
    intro _ u hu
    refine wp_seq (wp_dirlookup_demand (T := [dp]) hu hB (Nat.le_succ _) name) ?_
    intro r' v hv
    cases r' with
    | some r' =>
      obtain ⟨k, ip⟩ := r'
      dsimp only
      rw [wp_bind]
      have hv' : v.refs.Perm (dp :: [ip] ++ B) :=
        hv.trans ((List.Perm.swap dp ip []).append_right B)
      refine wp_conseq (wp_iput_demand hv') ?_
      intro _ x hx
      refine wp_seq (wp_ilock_demand hx) ?_
      intro _ y hy
      rw [wp_bind, wp_get]
      split
      · exact wp_pure.2 hy
      · refine wp_seq (wp_iput_demand (T := []) hy) ?_
        intro _ z hz
        exact wp_pure.2 hz
    | none =>
      dsimp only
      refine wp_seq (wp_ialloc_demand (T := [dp]) hv hB (Nat.le_succ _) type) ?_
      intro o x hx
      cases o with
      | none =>
        dsimp only
        refine wp_seq (wp_iput_demand (T := []) hx) ?_
        intro _ y hy
        exact wp_pure.2 hy
      | some ip => exact wp_createNew_demand hx hB type major minor name room

theorem wp_openInode_demand (h : s.refs.Perm (ip :: [] ++ B)) (slot : Bool) :
    wp (openInode ip slot) s (fun r t => t.refs.Perm (r.toList ++ B)) NotFull := by
  have hput : wp (iput ip >>= fun _ => pure none) s
      (fun (r : Option Nat) t => t.refs.Perm (r.toList ++ B)) NotFull := by
    refine wp_seq (wp_iput_demand h) ?_
    intro _ t ht
    exact wp_pure.2 ht
  unfold openInode
  rw [wp_bind, wp_get]
  split
  · exact hput
  split
  · exact wp_pure.2 h
  · exact hput

theorem wp_sysOpen_demand (h : s.refs.Perm B) (hB : Leaves B) (cwd : Nat) (path : List Char)
    (ocreate rdonly slot : Bool) (room : Nat → Bool) :
    wp (sysOpen cwd path ocreate rdonly slot room) s (fun r t => t.refs.Perm (r.toList ++ B))
      NotFull := by
  unfold sysOpen
  split
  · refine wp_seq (wp_create_demand h hB cwd path .file 0 0 room) ?_
    intro r t ht
    cases r with
    | none => exact wp_pure.2 ht
    | some ip => exact wp_openInode_demand ht slot
  · refine wp_seq (wp_namei_demand (T := []) h hB (Nat.zero_le _) cwd path) ?_
    intro r t ht
    cases r with
    | none => exact wp_pure.2 ht
    | some ip =>
      dsimp only
      refine wp_seq (wp_ilock_demand ht) ?_
      intro _ u hu
      rw [wp_bind, wp_get]
      split
      · refine wp_seq (wp_iput_demand (T := []) hu) ?_
        intro _ v hv
        exact wp_pure.2 hv
      · exact wp_openInode_demand hu slot

theorem wp_sysMake_demand (h : s.refs.Perm B) (hB : Leaves B) (cwd : Nat) (path : List Char)
    (type : FileType) (major minor : Int) (room : Nat → Bool) :
    wp (sysMake cwd path type major minor room) s (fun _ t => t.refs.Perm B) NotFull := by
  unfold sysMake
  refine wp_seq (wp_create_demand h hB cwd path type major minor room) ?_
  intro r t ht
  cases r with
  | none => exact wp_pure.2 ht
  | some ip => exact wp_iput_demand (T := []) ht

theorem wp_exec_demand (h : s.refs.Perm B) (hB : Leaves B) (cwd : Nat) (path : List Char) :
    wp (exec cwd path) s (fun _ t => t.refs.Perm B) NotFull := by
  unfold exec
  refine wp_seq (wp_namei_demand (T := []) h hB (Nat.zero_le _) cwd path) ?_
  intro r t ht
  cases r with
  | none => exact wp_pure.2 ht
  | some ip =>
    dsimp only
    refine wp_seq (wp_ilock_demand ht) ?_
    intro _ u hu
    exact wp_iput_demand (T := []) hu

theorem wp_sysChdir_demand {cwd : Nat} (h : s.refs.Perm (cwd :: B)) (hB : Leaves (cwd :: B))
    (path : List Char) :
    wp (sysChdir cwd path) s (fun r t => t.refs.Perm (r.getD cwd :: B)) NotFull := by
  unfold sysChdir
  refine wp_seq (wp_namei_demand (T := []) h hB (Nat.zero_le _) cwd path) ?_
  intro r t ht
  cases r with
  | none => exact wp_pure.2 ht
  | some ip =>
    dsimp only
    refine wp_seq (wp_ilock_demand ht) ?_
    intro _ u hu
    rw [wp_bind, wp_get]
    split
    · refine wp_seq (wp_iput_demand (T := []) hu) ?_
      intro _ v hv
      exact wp_pure.2 hv
    · rw [wp_bind]
      have hu' : u.refs.Perm (cwd :: [ip] ++ B) := hu.trans (List.Perm.swap cwd ip B)
      refine wp_conseq (wp_iput_demand hu') ?_
      intro _ v hv
      exact wp_pure.2 hv

theorem wp_linkFail_demand (h : s.refs.Perm (ip :: [] ++ B)) :
    wp (linkFail ip) s (fun _ t => t.refs.Perm B) NotFull := by
  unfold linkFail
  refine wp_seq (wp_ilock_demand h) ?_
  intro _ t ht
  refine wp_seq (wp_update_demand ht _) ?_
  intro _ u hu
  exact wp_iput_demand (T := []) hu

theorem wp_linkEntry_demand (h : s.refs.Perm (ip :: [] ++ B)) (hB : Leaves B) (cwd : Nat)
    (new : List Char) (room : Nat → Bool) :
    wp (linkEntry cwd ip new room) s (fun _ t => t.refs.Perm B) NotFull := by
  unfold linkEntry
  refine wp_seq (wp_namex_demand h hB le_rfl true cwd new) ?_
  intro r t ht
  cases r with
  | none => exact wp_linkFail_demand ht
  | some r =>
    obtain ⟨dp, name⟩ := r
    dsimp only
    refine wp_seq (wp_ilock_demand ht) ?_
    intro _ u hu
    refine wp_seq (wp_dirlink_demand hu hB le_rfl name ip room) ?_
    intro ok v hv
    refine wp_seq (wp_iput_demand hv) ?_
    intro _ x hx
    split
    · exact wp_iput_demand (T := []) hx
    · exact wp_linkFail_demand hx

theorem wp_sysLink_demand (h : s.refs.Perm B) (hB : Leaves B) (cwd : Nat) (old new : List Char)
    (room : Nat → Bool) :
    wp (sysLink cwd old new room) s (fun _ t => t.refs.Perm B) NotFull := by
  unfold sysLink
  refine wp_seq (wp_namei_demand (T := []) h hB (Nat.zero_le _) cwd old) ?_
  intro r t ht
  cases r with
  | none => exact wp_pure.2 ht
  | some ip =>
    dsimp only
    refine wp_seq (wp_ilock_demand ht) ?_
    intro _ u hu
    rw [wp_bind, wp_get]
    split
    · exact wp_iput_demand (T := []) hu
    · refine wp_seq (wp_update_demand hu _) ?_
      intro _ v hv
      exact wp_linkEntry_demand hv hB cwd new room

theorem wp_unlinkEntry_demand (h : s.refs.Perm (dp :: [ip] ++ B)) (k : Nat) :
    wp (unlinkEntry dp ip k) s (fun _ t => t.refs.Perm B) NotFull := by
  have hend : ∀ t : Fs, t.refs.Perm (dp :: [ip] ++ B) →
      wp (iput dp >>= fun _ => update ip (fun a => { a with nlink := short (a.nlink - 1) }) >>=
        fun _ => iput ip) t (fun _ u => u.refs.Perm B) NotFull := by
    intro t ht
    refine wp_seq (wp_iput_demand ht) ?_
    intro _ u hu
    refine wp_seq (wp_update_demand hu _) ?_
    intro _ v hv
    exact wp_iput_demand (T := []) hv
  unfold unlinkEntry
  refine wp_seq (wp_update_demand h _) ?_
  intro _ t ht
  rw [wp_bind, wp_get, wp_bind, wp_when]
  refine ⟨?_, ?_⟩
  · intro _
    refine wp_conseq (wp_update_demand ht _) ?_
    intro _ u hu
    exact hend u hu
  · intro _
    exact hend t ht

theorem wp_sysUnlink_demand (h : s.refs.Perm B) (hB : Leaves B) (cwd : Nat)
    (path : List Char) : wp (sysUnlink cwd path) s (fun _ t => t.refs.Perm B) NotFull := by
  unfold sysUnlink
  refine wp_seq (wp_namex_demand (T := []) h hB (Nat.zero_le _) true cwd path) ?_
  intro r t ht
  cases r with
  | none => exact wp_pure.2 ht
  | some r =>
    obtain ⟨dp, name⟩ := r
    dsimp only
    refine wp_seq (wp_ilock_demand ht) ?_
    intro _ u hu
    split
    · exact wp_iput_demand (T := []) hu
    · refine wp_seq (wp_dirlookup_demand (T := [dp]) hu hB (Nat.le_succ _) name) ?_
      intro r' v hv
      cases r' with
      | none => exact wp_iput_demand (T := []) hv
      | some r' =>
        obtain ⟨k, ip⟩ := r'
        dsimp only
        refine wp_seq (wp_ilock_demand hv) ?_
        intro _ x hx
        rw [wp_bind, wp_get]
        split
        · exact wp_throw.2 Stop.noConfusion
        split
        · refine wp_seq (wp_iput_demand hx) ?_
          intro _ y hy
          exact wp_iput_demand (T := []) hy
        · exact wp_unlinkEntry_demand (hx.trans ((List.Perm.swap dp ip []).append_right B)) k

/-! ### Runs -/

/-- There is a reference for each user. -/
def Referenced (s : Sys) : Prop := s.fs.refs.Perm (s.cwd ++ s.files)

/-- The users leave room for a call. -/
def Roomy (s : Sys) : Prop := Leaves (s.cwd ++ s.files)

instance (s : Sys) : Decidable (Roomy s) := inferInstanceAs (Decidable (Leaves _))

/-- What a step comes to. -/
def Served : Except Halt Sys → Prop
  | .ok t => Referenced t
  | .error h => h ≠ .panic .noInodes

theorem served_call {s : Sys} {α : Type} {x : FsM α} {f : α → Fs → Sys} {Q : α → Fs → Prop}
    (h : wp x s.fs Q NotFull) (hf : ∀ a t, Q a t → Referenced (f a t)) : Served (s.call x f) := by
  rw [Sys.call]
  split
  case h_1 a t hx => exact hf a t (wp_ok h hx)
  case h_2 e hx =>
    intro he
    exact wp_error h hx (Halt.panic.inj he)

theorem served_callBy {s : Sys} {α : Type} {p : Nat} {x : Nat → FsM α} {f : α → Fs → Sys}
    (h : ∀ d, s.cwd[p]? = some d → Served (s.call (x d) f)) : Served (s.callBy p x f) := by
  rw [Sys.callBy]
  split
  case h_1 => exact Halt.noConfusion
  case h_2 d hd => exact h d hd

theorem Leaves.perm {B' : List Nat} (h : Leaves B) (hp : B.Perm B') : Leaves B' := by
  rw [Leaves, ← (hp.dedup).length_eq]
  exact h

/-- **One system call**: if the users leave room, it does not run out of inodes. -/
theorem served_step {s : Sys} (h : Referenced s) (hr : Roomy s) (a : Act) :
    Served (step s a) := by
  cases a with
  | «open» p path ocreate rdonly slot room =>
    refine served_callBy fun d hd => served_call
      (wp_sysOpen_demand h hr d path ocreate rdonly slot room) ?_
    intro o t ht
    exact ht.trans (List.perm_append_comm_assoc _ _ _)
  | mkdir p path room =>
    exact served_callBy fun d hd => served_call
      (wp_sysMake_demand h hr d path .dir 0 0 room) fun _ t ht => ht
  | mknod p path major minor room =>
    exact served_callBy fun d hd => served_call
      (wp_sysMake_demand h hr d path .device major minor room) fun _ t ht => ht
  | link p old new room =>
    exact served_callBy fun d hd => served_call
      (wp_sysLink_demand h hr d old new room) fun _ t ht => ht
  | unlink p path =>
    exact served_callBy fun d hd => served_call (wp_sysUnlink_demand h hr d path) fun _ t ht => ht
  | chdir p path =>
    refine served_callBy fun d hd => served_call
      (wp_sysChdir_demand (h.trans (users_perm hd)) (hr.perm (users_perm hd)) path) ?_
    intro o t ht
    cases o with
    | none => exact ht.trans (users_perm hd).symm
    | some ip =>
      obtain ⟨hlt, -⟩ := List.getElem?_eq_some_iff.1 hd
      exact ht.trans ((List.set_perm_cons_eraseIdx hlt ip).symm.append_right s.files)
  | exec p path =>
    exact served_callBy fun d hd => served_call (wp_exec_demand h hr d path) fun _ t ht => ht
  | close k =>
    rw [step]
    split
    case h_1 => exact Halt.noConfusion
    case h_2 i hi =>
      exact served_call (wp_iput_demand (T := []) (h.trans (users_perm_file hi))) fun _ t ht => ht
  | fork p =>
    refine served_callBy fun d hd => ?_
    have hx : wp (idup d >>= fun _ => pure d) s.fs
        (fun r t => r = d ∧ t.refs.Perm (d :: [] ++ (s.cwd ++ s.files))) NotFull := by
      refine wp_seq (wp_idup_demand (T := []) h) ?_
      intro _ t ht
      exact wp_pure.2 ⟨rfl, ht⟩
    refine served_call hx ?_
    rintro r t ⟨rfl, ht⟩
    refine ht.trans ?_
    show (r :: (s.cwd ++ s.files)).Perm (s.cwd ++ [r] ++ s.files)
    rw [List.append_assoc]
    exact List.perm_middle.symm
  | exit p =>
    refine served_callBy fun d hd => served_call
      (wp_iput_demand (T := []) (h.trans (users_perm hd))) fun _ t ht => ht

/-- **In every run of calls that do not overlap, in which the users leave room for a call when one is
made, `iget` finds an entry.** -/
theorem inode_supply {n : Nat} {f : Nat → Inode} {as : List Act} {s : Sys}
    (h : Run step (fun s _ => Roomy s) (boot n f) as s) (hr : Roomy s) (a : Act) :
    step s a ≠ .error (.panic .noInodes) := by
  have hs : Referenced s := by
    refine h.invariant (I := Referenced) (List.Perm.refl _) ?_
    intro s a t hs hroom hstep
    have ht := served_step hs hroom a
    rw [hstep] at ht
    exact ht
  intro herr
  have he := served_step hs hr a
  rw [herr] at he
  exact he rfl

/-- Four processes create and keep open `n` files in the root directory, in turns. -/
def openFiles (n : Nat) : List Act :=
  [.fork 0, .fork 0, .fork 0] ++ (List.range n).map fun k =>
    .open (k % 4) ['/', Char.ofNat (97 + k)] true false true fun _ => true

theorem inode_supply_open : ∃ s, Run step (fun s _ => Roomy s) (boot 200 root)
    (openFiles 10) s ∧ Roomy s ∧
      step s (.open 0 ['/', 'x'] true false true fun _ => true) ≠ .error (.panic .noInodes) := by
  obtain ⟨s, hrun, hs⟩ := exists_run step (fun s _ => decide (Roomy s))
    (fun s => decide (Roomy s)) (boot 200 root) (openFiles 10) (by decide +kernel)
  have hrun' := hrun.mono fun _ _ h => of_decide_eq_true h
  have hroom := of_decide_eq_true hs
  exact ⟨s, hrun', hroom, inode_supply hrun' hroom _⟩

/-- With 49 open files, 13 in a process at most, and the root directory all entries are taken:
the next `open` stops the kernel. -/
theorem opens_exhaust_inodes : ∃ s, Run step (fun _ _ => True) (boot 200 root)
    (openFiles 49) s ∧
      step s (.open 1 ['/', Char.ofNat 146] true false true fun _ => true) =
        .error (.panic .noInodes) := by
  obtain ⟨s, hrun, -, hs⟩ := exists_run_error step (fun _ _ => true) (fun _ => true)
    (boot 200 root) (openFiles 49) (.open 1 ['/', Char.ofNat 146] true false true fun _ => true)
    (.panic .noInodes) (by decide +kernel)
  exact ⟨s, hrun.mono fun _ _ _ => trivial, hs⟩

end Xv6.Dir
