import Xv6.Access.View
import Xv6.Machine

/-!
# User accesses and the copies of the kernel

A load or a store of the user goes through the page table; when the entry does not permit it the
hardware traps, and `usertrap` calls `vmfault` and lets the instruction run again.  `copyin` and
`copyout` walk the page table in software and call `vmfault` themselves.  For one byte the two ways
come to the same result and leave the same state.
-/

namespace Xv6

open Xv6.Lib

/-! ### Accesses of the user -/

/-- The entry the hardware uses for an address: 39 bits of it, sign-extended, are translated. -/
def Kmem.hwPte (m : Kmem) (r va : Nat) : Option Nat :=
  if va < 2 ^ 38 ∨ 2 ^ 64 - 2 ^ 38 ≤ va then m.pte r (pageOf va % 2 ^ 27) else none

/-- What an entry permits in user mode. -/
def permits (read : Bool) (w : Nat) : Bool := pteU w && if read then pteR w else pteW w

/-- The frame of an access that the hardware carries out. -/
def Kmem.hwFrame (m : Kmem) (r va : Nat) (read : Bool) : Option Nat :=
  ((m.hwPte r va).filter (permits read)).map pte2pa

section

variable [Image]

/-- An access of the user, with the page-fault branch of `usertrap`: the frame, `none` when the
process is killed. -/
def userAccess (p : Fin NPROC) (sz pagetable va : Nat) (read : Bool) : VmM (Option Nat) := do
  let v ← get
  match v.kmem.hwFrame pagetable va read with
  | some pa => pure (some pa)
  | none => do
    if ← vmfault p sz pagetable va read then do
      let v ← get
      pure (v.kmem.hwFrame pagetable va read)
    else pure none

/-- A store of one byte. -/
def storeByte (p : Fin NPROC) (sz pagetable va : Nat) (c : UInt8) : VmM Bool := do
  match ← userAccess p sz pagetable va false with
  | none => pure false
  | some pa => do
    onKmem (modify fun m => m.setPage pa (blit (m.mem pa) (va % PGSIZE) 1 fun _ => c))
    pure true

/-- A load of one byte. -/
def loadByte (p : Fin NPROC) (sz pagetable va : Nat) : VmM (Option UInt8) := do
  match ← userAccess p sz pagetable va true with
  | none => pure none
  | some pa => do
    let v ← get
    pure (some (byteAt (v.kmem.mem pa) (va % PGSIZE)))

end

section

variable [Image] {K T : Nat → Nat} {R : Finset Nat} {v : Vm} {p : Fin NPROC} {sz r va : Nat}
  {E : Panic → Prop}

/-! ### Faults that are refused at once -/

theorem vmfault_pgrounddown (p : Fin NPROC) (sz r va : Nat) (read : Bool) :
    vmfault p sz r (pgrounddown va) read = vmfault p sz r va read := by
  unfold vmfault
  rw [pgrounddown_of_mod (pgrounddown_mod va)]

theorem vmfault_mapped {w : Nat} (hw : v.kmem.pte r (pageOf va) = some w)
    (hva : va < MAXVA) (sz : Nat) (read : Bool) :
    wp (vmfault p sz r va read) v (fun b v' => b = false ∧ v' = v) E := by
  have hlt : pgrounddown va < MAXVA := Nat.lt_of_le_of_lt (pgrounddown_le va) hva
  have hw' : v.kmem.pte r (pageOf (pgrounddown va)) = some w := by rw [pageOf_pgrounddown, hw]
  unfold vmfault
  dsimp only
  rw [wp_bind, mmapLookup, wp_bind, wp_get, wp_pure]
  cases (v.findArea fun a => a.p == some p && a.covers (pgrounddown va)).map v.area with
  | some b =>
    dsimp only
    split
    · exact wp_pure.2 ⟨rfl, rfl⟩
    · rw [wp_bind, wp_onKmem]
      refine wp_ismapped hlt ?_
      rw [hw', Option.isSome_some, if_pos rfl]
      exact wp_pure.2 ⟨rfl, rfl⟩
  | none =>
    dsimp only
    split
    · exact wp_pure.2 ⟨rfl, rfl⟩
    split
    · exact wp_pure.2 ⟨rfl, rfl⟩
    · rw [wp_bind, wp_onKmem]
      refine wp_ismapped hlt ?_
      rw [hw', Option.isSome_some, if_pos rfl]
      exact wp_pure.2 ⟨rfl, rfl⟩

theorem Space.vmfault_high (h : Space K T R v p r) (hva : MAXVA ≤ va) (sz : Nat) (read : Bool) :
    wp (vmfault p sz r va read) v (fun b v' => b = false ∧ v' = v) E := by
  have hge : MAXVA ≤ pgrounddown va := by
    have hva' : 274877906944 ≤ va := hva
    show 274877906944 ≤ va / 4096 * 4096
    omega
  have harea : v.areaAt p (pgrounddown va) = none := by
    cases ha : v.areaAt p (pgrounddown va) with
    | none => rfl
    | some a =>
      have hlt := (h.areas.lt ha).2
      have : TRAPFRAME < MAXVA := by decide
      omega
  unfold vmfault
  dsimp only
  rw [wp_bind, mmapLookup, wp_bind, wp_get, wp_pure]
  have hfind : (v.findArea fun a => a.p == some p && a.covers (pgrounddown va)).map v.area = none := harea
  rw [hfind]
  dsimp only
  rw [if_pos (Nat.le_trans (by decide) hge)]
  exact wp_pure.2 ⟨rfl, rfl⟩

/-! ### Where the hardware and `walkaddr` look -/

omit [Image] in
theorem Kmem.hwPte_low (m : Kmem) (hva : va < MAXVA) : m.hwPte r va = m.pte r (pageOf va) := by
  have hlt := pageOf_lt hva
  unfold Kmem.hwPte
  rw [if_pos (Or.inl hva), Nat.mod_eq_of_lt (by omega)]

theorem Space.hwPte_high (h : Space K T R v p r) (hva : MAXVA ≤ va) (hmax : va < 2 ^ 64) :
    v.kmem.hwPte r va = none := by
  have hva' : 274877906944 ≤ va := hva
  unfold Kmem.hwPte
  split
  · refine h.high ?_
    show 2 ^ 26 ≤ va / 4096 % 2 ^ 27
    omega
  · rfl

omit [Image] in
theorem Kmem.hwFrame_eq {m : Kmem} {w : Nat} {read : Bool} (hva : va < MAXVA)
    (hw : m.pte r (pageOf va) = some w) :
    m.hwFrame r va read = if permits read w then some (pte2pa w) else none := by
  unfold Kmem.hwFrame
  rw [m.hwPte_low hva, hw, Option.filter_some]
  split
  · rfl
  · rfl

omit [Image] in
theorem Kmem.hwFrame_none {m : Kmem} {read : Bool} (hw : m.hwPte r va = none) :
    m.hwFrame r va read = none := by
  unfold Kmem.hwFrame
  rw [hw]
  rfl

theorem Space.frame_ne_zero (h : Space K T R v p r) {n w : Nat} (hw : v.kmem.pte r n = some w)
    (hu : pteU w = true) : pte2pa w ≠ 0 :=
  ne_zero_of_managed (h.user hw hu).2.2.2

theorem userAccess_hit {pa : Nat} {read : Bool} (h : v.kmem.hwFrame r va read = some pa) :
    (userAccess p sz r va read) v = .ok (some pa, v) := by
  refine run_of_wp ?_
  rw [userAccess, wp_bind, wp_get, h]
  exact wp_pure.2 ⟨rfl, rfl⟩

theorem userAccess_miss {read b : Bool} {v' : Vm} (h : v.kmem.hwFrame r va read = none)
    (hrun : (vmfault p sz r va read) v = .ok (b, v')) :
    (userAccess p sz r va read) v = .ok (if b then v'.kmem.hwFrame r va read else none, v') := by
  refine run_of_wp ?_
  rw [userAccess, wp_bind, wp_get, h]
  dsimp only
  rw [wp_bind]
  refine wp_of_run hrun ?_
  cases b with
  | true =>
    rw [if_pos rfl, wp_bind, wp_get]
    exact wp_pure.2 ⟨rfl, rfl⟩
  | false => exact wp_pure.2 ⟨rfl, rfl⟩

/-- **The page behind an address, in both ways.**  When the software finds a page that permits the
access so does the hardware, with the same state behind it, and otherwise neither does. -/
theorem Space.userPage_access (h : Space K T R v p r) (sz : Nat) (hva : va < MAXVA) (read : Bool) :
    wp (userPage p sz r (pgrounddown va) read) v (fun pa v' => Space K T R v' p r ∧
      ((pa ≠ 0 ∧ ∃ w, v'.kmem.pte r (pageOf va) = some w ∧ pteU w = true ∧ pte2pa w = pa ∧
        (userAccess p sz r va read) v = .ok (if permits read w then some pa else none, v')) ∨
      (pa = 0 ∧ (userAccess p sz r va read) v = .ok (none, v')))) E := by
  have hlt : pgrounddown va < MAXVA := Nat.lt_of_le_of_lt (pgrounddown_le va) hva
  unfold userPage
  rw [wp_bind, wp_onKmem]
  refine wp_walkaddr ?_
  rw [if_pos hlt, pageOf_pgrounddown]
  cases hw : v.kmem.pte r (pageOf va) with
  | some w =>
    -- an entry that does not permit the access: the fault is refused
    have haccess : (userAccess p sz r va read) v =
        .ok (if permits read w then some (pte2pa w) else none, v) := by
      have hframe : v.kmem.hwFrame r va read = if permits read w then some (pte2pa w) else none :=
        Kmem.hwFrame_eq hva hw
      cases hp : permits read w with
      | true =>
        rw [hp, if_pos rfl] at hframe
        exact userAccess_hit hframe
      | false =>
        rw [hp, if_neg Bool.false_ne_true] at hframe
        exact userAccess_miss hframe (run_of_wp (vmfault_mapped hw hva sz read))
    cases hu : pteU w with
    | true =>
      have hne := h.frame_ne_zero hw hu
      rw [Kmem.userFrame_user hw hu, if_pos hne]
      exact wp_pure.2 ⟨h, .inl ⟨hne, w, hw, hu, rfl, haccess⟩⟩
    | false =>
      have hperm : permits read w = false := by
        unfold permits
        rw [hu]
        rfl
      rw [Kmem.userFrame_kernel hw hu, if_neg (not_not_intro rfl), wp_bind, vmfault_pgrounddown]
      refine wp_conseq (vmfault_mapped hw hva sz read) fun b v' hb => ?_
      obtain ⟨rfl, rfl⟩ := hb
      rw [if_neg Bool.false_ne_true]
      rw [hperm] at haccess
      exact wp_pure.2 ⟨h, .inr ⟨rfl, haccess⟩⟩
  | none =>
    rw [Kmem.userFrame_none hw, if_neg (not_not_intro rfl), wp_bind, vmfault_pgrounddown]
    have hnone : v.kmem.hwFrame r va read = none := by
      refine Kmem.hwFrame_none ?_
      rw [v.kmem.hwPte_low hva, hw]
    refine wp_conseq (wp_run (h.wp_vmfault sz va read)) fun b v' hb => ?_
    obtain ⟨hrun, hf⟩ := hb
    have hspace := hf.space h
    obtain ⟨m', rfl, hfalse, htrue⟩ := hf
    cases b with
    | false =>
      have haccess : (userAccess p sz r va read) v = .ok (none, v.setKmem m') := userAccess_miss hnone hrun
      rw [if_neg Bool.false_ne_true]
      exact wp_pure.2 ⟨hspace, .inr ⟨rfl, haccess⟩⟩
    | true =>
      obtain ⟨a, g, perm, hb, hg, hload⟩ := htrue rfl
      obtain ⟨hperm, hu, -, -⟩ := Vm.faultPage_perm hg
      have hpte : (v.setKmem m').kmem.pte r (pageOf va) = some (mkPte a perm) := by
        rw [Vm.setKmem_kmem, hload.pte r h.root, if_pos rfl]
      have hpa : pte2pa (mkPte a perm) = a := pte2pa_mkPte (aligned_of_managed hb) hperm
      have haccess : (userAccess p sz r va read) v =
          .ok (if permits read (mkPte a perm) then some a else none, v.setKmem m') := by
        rw [userAccess_miss hnone hrun, if_pos rfl, Kmem.hwFrame_eq hva hpte, hpa]
      rw [if_pos rfl, wp_onKmem]
      refine wp_walkaddr ?_
      have huser : pteU (mkPte a perm) = true := by rw [pteU_mkPte, hu]
      rw [if_pos hlt, pageOf_pgrounddown, Kmem.userFrame_user hpte huser, hpa]
      exact ⟨hspace, .inl ⟨ne_zero_of_managed hb, mkPte a perm, hpte, huser, hpa, haccess⟩⟩

omit [Image] in
theorem sub_pgrounddown (va : Nat) : va - pgrounddown va = va % PGSIZE := by
  show va - va / 4096 * 4096 = va % 4096
  omega

omit [Image] in
theorem maxva_pgrounddown (va : Nat) : MAXVA ≤ pgrounddown va ↔ MAXVA ≤ va := by
  show 274877906944 ≤ va / 4096 * 4096 ↔ 274877906944 ≤ va
  omega

omit [Image] in
theorem wp_walk_leaf {m : Kmem} {n w : Nat} {Q : Option (Nat × Nat) → Kmem → Prop} (hva : va < MAXVA)
    (hn : pageOf va = n) (hw : m.pte r n = some w) (hQ : ∀ t i, m.mem t i = w → Q (some (t, i)) m)
    {E : MemPanic → Prop} : wp (walk r va false) m Q E := by
  obtain ⟨t, ht, hmem, -⟩ := Kmem.pte_eq_some.1 hw
  refine wp_walk hva ?_
  rw [hn, ht]
  exact hQ t _ hmem

theorem Space.userAccess_high (h : Space K T R v p r) (hva : MAXVA ≤ va) (hmax : va < 2 ^ 64) (read : Bool) :
    (userAccess p sz r va read) v = .ok (none, v) :=
  userAccess_miss (Kmem.hwFrame_none (h.hwPte_high hva hmax)) (run_of_wp (h.vmfault_high hva sz read))

theorem storeByte_none {v' : Vm} {c : UInt8} (h : (userAccess p sz r va false) v = .ok (none, v')) :
    (storeByte p sz r va c) v = .ok (false, v') := by
  refine run_of_wp ?_
  rw [storeByte, wp_bind]
  exact wp_of_run h (wp_pure.2 ⟨rfl, rfl⟩)

theorem storeByte_some {v' : Vm} {c : UInt8} {pa : Nat}
    (h : (userAccess p sz r va false) v = .ok (some pa, v')) :
    (storeByte p sz r va c) v = .ok (true,
      v'.setKmem (v'.kmem.setPage pa (blit (v'.kmem.mem pa) (va % PGSIZE) 1 fun _ => c))) := by
  refine run_of_wp ?_
  rw [storeByte, wp_bind]
  refine wp_of_run h ?_
  dsimp only
  rw [wp_bind, wp_onKmem, wp_modify]
  exact wp_pure.2 ⟨rfl, rfl⟩

theorem loadByte_none {v' : Vm} (h : (userAccess p sz r va true) v = .ok (none, v')) :
    (loadByte p sz r va) v = .ok (none, v') := by
  refine run_of_wp ?_
  rw [loadByte, wp_bind]
  exact wp_of_run h (wp_pure.2 ⟨rfl, rfl⟩)

theorem loadByte_some {v' : Vm} {pa : Nat} (h : (userAccess p sz r va true) v = .ok (some pa, v')) :
    (loadByte p sz r va) v = .ok (some (byteAt (v'.kmem.mem pa) (va % PGSIZE)), v') := by
  refine run_of_wp ?_
  rw [loadByte, wp_bind]
  refine wp_of_run h ?_
  dsimp only
  rw [wp_bind, wp_get]
  exact wp_pure.2 ⟨rfl, rfl⟩

/-- **`copyout` of one byte** is a store of the user. -/
theorem Space.copyout_one (h : Space K T R v p r) (sz : Nat) (hmax : va < 2 ^ 64) (c : UInt8) :
    wp (copyout p sz r va (fun _ => c) 1) v (fun b v' => (storeByte p sz r va c) v = .ok (b, v')) E := by
  have hone : min (PGSIZE - (va - pgrounddown va)) 1 = 1 := by
    have := Nat.mod_lt va (show 0 < PGSIZE by decide)
    rw [sub_pgrounddown]
    omega
  unfold copyout
  rw [show 1 / PGSIZE + 3 = 2 + 1 from rfl]
  unfold copyoutLoop
  rw [if_neg Nat.one_ne_zero]
  dsimp only
  by_cases hva : MAXVA ≤ va
  · rw [if_pos ((maxva_pgrounddown va).2 hva)]
    exact wp_pure.2 (storeByte_none (h.userAccess_high hva hmax false))
  have hlt : pgrounddown va < MAXVA := Nat.lt_of_not_le fun hle => hva ((maxva_pgrounddown va).1 hle)
  rw [if_neg (by omega), wp_bind]
  refine wp_conseq (h.userPage_access sz (by omega) false) fun pa v' hpa => ?_
  obtain ⟨hspace, ⟨hne, w, hw, hu, rfl, hacc⟩ | ⟨rfl, hacc⟩⟩ := hpa
  · rw [if_neg hne, wp_bind, wp_onKmem]
    refine wp_walk_leaf hlt (pageOf_pgrounddown va) hw fun t i hmem => ?_
    dsimp only
    rw [wp_bind, wp_onKmem, wp_loadWord]
    rw [Vm.setKmem_self, hmem]
    have hperm : permits false w = pteW w := by
      unfold permits
      rw [hu]
      rfl
    rw [hperm] at hacc
    cases hwr : pteW w with
    | false =>
      rw [hwr] at hacc
      exact wp_pure.2 (storeByte_none hacc)
    | true =>
      rw [hwr] at hacc
      rw [if_neg (by simp), wp_bind, wp_onKmem, wp_modify, hone]
      unfold copyoutLoop
      rw [if_pos rfl, sub_pgrounddown]
      exact wp_pure.2 (storeByte_some hacc)
  · rw [if_pos rfl]
    exact wp_pure.2 (storeByte_none hacc)

/-- **`copyin` of one byte** is a load of the user. -/
theorem Space.copyin_one (h : Space K T R v p r) (sz : Nat) (hmax : va < 2 ^ 64) :
    wp (copyin p sz r va 1) v (fun o v' => ∃ x, (loadByte p sz r va) v = .ok (x, v') ∧
      o = x.map fun b => [b]) E := by
  have hone : min (PGSIZE - (va - pgrounddown va)) 1 = 1 := by
    have := Nat.mod_lt va (show 0 < PGSIZE by decide)
    rw [sub_pgrounddown]
    omega
  unfold copyin
  rw [show 1 / PGSIZE + 3 = 2 + 1 from rfl]
  unfold copyinLoop
  rw [if_neg Nat.one_ne_zero]
  dsimp only
  rw [wp_bind]
  by_cases hva : MAXVA ≤ va
  · -- `walkaddr` finds nothing, and the fault is refused
    unfold userPage
    rw [wp_bind, wp_onKmem]
    refine wp_walkaddr ?_
    have hge : ¬ pgrounddown va < MAXVA := Nat.not_lt_of_le ((maxva_pgrounddown va).2 hva)
    rw [if_neg hge, if_neg (not_not_intro rfl), wp_bind, vmfault_pgrounddown]
    refine wp_conseq (h.vmfault_high hva sz true) fun b v' hb => ?_
    obtain ⟨rfl, rfl⟩ := hb
    rw [if_neg Bool.false_ne_true, wp_pure, if_pos rfl]
    exact wp_pure.2 ⟨none, loadByte_none (h.userAccess_high hva hmax true), rfl⟩
  refine wp_conseq (h.userPage_access sz (by omega) true) fun pa v' hpa => ?_
  obtain ⟨hspace, ⟨hne, w, hw, hu, rfl, hacc⟩ | ⟨rfl, hacc⟩⟩ := hpa
  · have hperm : permits true w = true := by
      unfold permits
      rw [hu, (hspace.user hw hu).2.2.1]
      rfl
    rw [hperm, if_pos rfl] at hacc
    rw [if_neg hne, wp_bind, wp_get, hone]
    unfold copyinLoop
    rw [if_pos rfl, sub_pgrounddown]
    exact wp_pure.2 ⟨_, loadByte_some hacc, rfl⟩
  · rw [if_pos rfl]
    exact wp_pure.2 ⟨none, loadByte_none hacc, rfl⟩

/-- **User and kernel accesses agree**: at every address, for one byte, a copy of the kernel and an
access of the user give the same result and leave the same state. -/
theorem user_kernel_agree (h : Space K T R v p r) (sz : Nat) (hmax : va < 2 ^ 64) (c : UInt8) :
    (∃ b v', (copyout p sz r va (fun _ => c) 1) v = .ok (b, v') ∧
      (storeByte p sz r va c) v = .ok (b, v')) ∧
    ∃ x v', (copyin p sz r va 1) v = .ok (x.map fun b => [b], v') ∧
      (loadByte p sz r va) v = .ok (x, v') := by
  constructor
  · exact wp_total (h.copyout_one sz hmax c)
  · obtain ⟨o, v', hrun, x, hload, rfl⟩ := wp_total (h.copyin_one sz hmax)
    exact ⟨x, v', hrun, hload⟩

end

/-- A store to the lazily allocated page of a small process. -/
theorem user_kernel_agree_five :
    (∃ b v', (@copyout fivePages ⟨0, by decide⟩ 4096 fiveRoot 7 (fun _ => 9) 1) fiveVm = .ok (b, v') ∧
      (@storeByte fivePages ⟨0, by decide⟩ 4096 fiveRoot 7 9) fiveVm = .ok (b, v')) ∧
    ∃ x v', (@copyin fivePages ⟨0, by decide⟩ 4096 fiveRoot 7 1) fiveVm = .ok (x.map fun b => [b], v') ∧
      (@loadByte fivePages ⟨0, by decide⟩ 4096 fiveRoot 7) fiveVm = .ok (x, v') :=
  @user_kernel_agree fivePages _ _ _ _ _ _ _ (space_five _) 4096 (by decide) 9

end Xv6
