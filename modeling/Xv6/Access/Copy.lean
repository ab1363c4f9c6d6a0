import Xv6.Access.Agree

/-!
# `copyout` and `copyin`

Both functions take a range of user addresses page by page.  In terms of what the process sees
(`Vm.viewByte`), one round of `copyout` writes the part of the range that lies in one page and nothing
else: the pages that are loaded on the way were in the view already, and no two pages of a page table
share a frame.  The loop stops at the first page that is neither writable nor resolved by `vmfault`.
-/

namespace Xv6

open Xv6.Lib

section

variable [Image] {K T : Nat → Nat} {R : Finset Nat} {v v' v₁ : Vm} {p : Fin NPROC} {sz r va n w : Nat}
  {E : Panic → Prop}

/-! ### Finding a page -/

/-- Pages may have been loaded, and nothing else has happened. -/
structure Touched (K T : Nat → Nat) (R : Finset Nat) (p : Fin NPROC) (sz r : Nat) (v v' : Vm) : Prop where
  space : Space K T R v' p r
  view : ∀ n, v'.viewPage p sz r n = v.viewPage p sz r n
  leaf : ∀ n w, v.kmem.pte r n = some w → v'.kmem.pte r n = some w

theorem Touched.refl (h : Space K T R v p r) : Touched K T R p sz r v v :=
  ⟨h, fun _ => rfl, fun _ _ hw => hw⟩

theorem Touched.trans {v'' : Vm} (h : Touched K T R p sz r v v') (h' : Touched K T R p sz r v' v'') :
    Touched K T R p sz r v v'' :=
  ⟨h'.space, fun n => (h'.view n).trans (h.view n), fun n w hw => h'.leaf n w (h.leaf n w hw)⟩

theorem Faulted.touched {read b : Bool} (hf : Faulted K T R v p sz r va read b v')
    (h : Space K T R v p r) : Touched K T R p sz r v v' := by
  refine ⟨hf.space h, hf.view h, fun n w hw => ?_⟩
  obtain ⟨m', rfl, hfalse, htrue⟩ := hf
  cases b with
  | false => exact ((hfalse rfl).pte r h.root n).trans hw
  | true =>
    obtain ⟨_, _, _, _, _, hload⟩ := htrue rfl
    have hpte := hload.pte r h.root n
    rw [if_neg, hw] at hpte
    · exact hpte
    · intro he
      cases he
      rw [hload.fresh] at hw
      cases hw

/-- The access is not permitted, and `vmfault` does not resolve it. -/
def Refused (p : Fin NPROC) (sz r va : Nat) (read : Bool) (v v' : Vm) : Prop :=
  v.kmem.hwFrame r va read = none ∧ (vmfault p sz r va read) v = .ok (false, v')

/-- A user page that is there. -/
def Present (v : Vm) (r va : Nat) : Prop := ∃ w, v.kmem.pte r (pageOf va) = some w ∧ pteU w = true

/-- A page that the process sees is found if there is memory for it. -/
def Found (p : Fin NPROC) (sz r va : Nat) (v : Vm) (pa : Nat) (v' : Vm) : Prop :=
  (v.viewPage p sz r (pageOf va)).isSome = true → 3 ≤ v.kmem.nfree →
    pa ≠ 0 ∧ v.kmem.nfree ≤ v'.kmem.nfree + 3

/-- **The page behind an address**: a user page, or the access is refused. -/
theorem Space.wp_userPage (h : Space K T R v p r) (sz : Nat) (hmax : va < 2 ^ 64) (read : Bool) :
    wp (userPage p sz r (pgrounddown va) read) v (fun pa v' => Touched K T R p sz r v v' ∧
      (Present v r va → pa ≠ 0 ∧ v' = v) ∧ (read = true → Found p sz r va v pa v') ∧
      ((pa ≠ 0 ∧ va < MAXVA ∧ ∃ w, v'.kmem.pte r (pageOf va) = some w ∧ pteU w = true ∧ pte2pa w = pa ∧
        (permits read w = true ∨ Refused p sz r va read v v')) ∨
      (pa = 0 ∧ Refused p sz r va read v v'))) E := by
  unfold userPage
  rw [wp_bind, wp_onKmem]
  refine wp_walkaddr ?_
  by_cases hva : MAXVA ≤ va
  · have hge : ¬ pgrounddown va < MAXVA := Nat.not_lt_of_le ((maxva_pgrounddown va).2 hva)
    rw [if_neg hge, if_neg (not_not_intro rfl), wp_bind, vmfault_pgrounddown]
    refine wp_conseq (wp_run (h.vmfault_high hva sz read)) fun b v' hb => ?_
    obtain ⟨hrun, rfl, rfl⟩ := hb
    rw [if_neg Bool.false_ne_true]
    have hhigh : 2 ^ 26 ≤ pageOf va := by
      have hva' : 274877906944 ≤ va := hva
      show 2 ^ 26 ≤ va / 4096
      omega
    refine wp_pure.2 ⟨.refl h, fun hp => ?_, fun _ hv _ => ?_,
      .inr ⟨rfl, Kmem.hwFrame_none (h.hwPte_high hva hmax), hrun⟩⟩
    · obtain ⟨w, hw, hu⟩ := hp
      exact absurd (h.user hw hu).2.1 (Nat.not_lt_of_le hhigh)
    · obtain ⟨x, hx⟩ := Option.ne_none_iff_exists'.1 (Vm.faultPage_of_view (h.high hhigh) hv)
      exact absurd (pageOf_lt_tf (h.areas.fault_lt hx)) (Nat.not_lt_of_le hhigh)
  have hva' : va < MAXVA := by omega
  have hlt : pgrounddown va < MAXVA := Nat.lt_of_le_of_lt (pgrounddown_le va) hva'
  rw [if_pos hlt, pageOf_pgrounddown]
  cases hw : v.kmem.pte r (pageOf va) with
  | some w =>
    have hframe : v.kmem.hwFrame r va read = if permits read w then some (pte2pa w) else none :=
      Kmem.hwFrame_eq hva' hw
    have hrefused : permits read w = false → Refused p sz r va read v v := fun hp =>
      ⟨by rw [hframe, hp]; rfl, run_of_wp (vmfault_mapped hw hva' sz read)⟩
    cases hu : pteU w with
    | true =>
      have hne := h.frame_ne_zero hw hu
      rw [Kmem.userFrame_user hw hu, if_pos hne]
      refine wp_pure.2 ⟨.refl h, fun _ => ⟨hne, rfl⟩, fun _ _ _ => ⟨hne, Nat.le_add_right _ _⟩,
        .inl ⟨hne, hva', w, hw, hu, rfl, ?_⟩⟩
      cases hp : permits read w with
      | true => exact .inl rfl
      | false => exact .inr (hrefused hp)
    | false =>
      have hp : permits read w = false := by
        unfold permits
        rw [hu]
        rfl
      rw [Kmem.userFrame_kernel hw hu, if_neg (not_not_intro rfl), wp_bind, vmfault_pgrounddown]
      refine wp_conseq (vmfault_mapped hw hva' sz read) fun b v' hb => ?_
      obtain ⟨rfl, rfl⟩ := hb
      rw [if_neg Bool.false_ne_true]
      refine wp_pure.2 ⟨.refl h, fun hpr => ?_, fun _ hv _ => ?_, .inr ⟨rfl, hrefused hp⟩⟩
      · obtain ⟨w', hw', hu'⟩ := hpr
        rw [hw] at hw'
        cases hw'
        rw [hu] at hu'
        cases hu'
      · rw [Vm.viewPage_some hw, hu] at hv
        cases hv
  | none =>
    have hnot : ¬ Present v r va := by
      rintro ⟨w, hw', -⟩
      rw [hw] at hw'
      cases hw'
    rw [Kmem.userFrame_none hw, if_neg (not_not_intro rfl), wp_bind, vmfault_pgrounddown]
    refine wp_conseq (wp_run (h.wp_vmfault_tables sz va read)) fun b v' hb => ?_
    obtain ⟨hrun, hf, -, hspent⟩ := hb
    have htouch := hf.touched h
    obtain ⟨m', rfl, -, htrue⟩ := hf
    cases b with
    | false =>
      rw [if_neg Bool.false_ne_true]
      refine wp_pure.2 ⟨htouch, fun hpr => absurd hpr hnot, ?_, .inr ⟨rfl, Kmem.hwFrame_none ?_, hrun⟩⟩
      · rintro rfl hv h3
        rcases hspent with hx | hpte | hlow
        · exact absurd hx (Vm.faultPage_of_view hw hv)
        · exact absurd hw hpte
        · omega
      · rw [v.kmem.hwPte_low hva', hw]
    | true =>
      obtain ⟨a, g, perm, hb, hg, hload⟩ := htrue rfl
      obtain ⟨hperm, hu, hr, hwr⟩ := Vm.faultPage_perm hg
      have hpte : (v.setKmem m').kmem.pte r (pageOf va) = some (mkPte a perm) := by
        rw [Vm.setKmem_kmem, hload.pte r h.root, if_pos rfl]
      have hpa : pte2pa (mkPte a perm) = a := pte2pa_mkPte (aligned_of_managed hb) hperm
      have huser : pteU (mkPte a perm) = true := by rw [pteU_mkPte, hu]
      rw [if_pos rfl, wp_onKmem]
      refine wp_walkaddr ?_
      rw [if_pos hlt, pageOf_pgrounddown, Kmem.userFrame_user hpte huser, hpa]
      refine ⟨htouch, fun hpr => absurd hpr hnot, fun _ _ _ => ⟨ne_zero_of_managed hb, hspent⟩,
        .inl ⟨ne_zero_of_managed hb, hva', mkPte a perm, hpte, huser, hpa, .inl ?_⟩⟩
      unfold permits
      rw [huser, pteR_mkPte, pteW_mkPte, hr]
      cases read with
      | true => rfl
      | false => exact hwr rfl

/-! ### Writing into a page -/

theorem Space.setFrame (h : Space K T R v p r) (hw : v.kmem.pte r n = some w) (hu : pteU w = true)
    (sz : Nat) (g : Page) :
    Space K T R (v.setKmem (v.kmem.setPage (pte2pa w) g)) p r ∧
      (∀ k, (v.setKmem (v.kmem.setPage (pte2pa w) g)).kmem.pte r k = v.kmem.pte r k) ∧
      ∀ k, (v.setKmem (v.kmem.setPage (pte2pa w) g)).viewPage p sz r k =
        if k = n then some g else v.viewPage p sz r k := by
  obtain ⟨hn, -, -, hb⟩ := h.user hw hu
  have htab : ∀ a, v.kmem.IsTable R a → (v.kmem.setPage (pte2pa w) g).mem a = v.kmem.mem a := by
    intro a ha
    refine upd_other _ _ ?_
    rintro rfl
    obtain ⟨r', hr', d, k, hd, hk⟩ := ha
    exact h.inv.table_not_leaf hr' h.root hd hn hk (Kmem.node_three_some.2 ⟨w, hw, rfl⟩)
  have hpte : ∀ k, (v.setKmem (v.kmem.setPage (pte2pa w) g)).kmem.pte r k = v.kmem.pte r k :=
    fun k => Kmem.pte_congr htab h.root k
  refine ⟨⟨h.inv.setLeafPage h.root hn hw hb fun _ _ _ _ _ _ _ hok => hok, h.root, h.areas⟩, hpte,
    fun k => ?_⟩
  by_cases hk : k = n
  · subst hk
    have hmem : (v.kmem.setPage (pte2pa w) g).mem (pte2pa w) = g := upd_same _ _ _
    rw [if_pos rfl, Vm.viewPage_some ((hpte k).trans hw), hu, if_pos rfl, Vm.setKmem_kmem, hmem]
  · rw [if_neg hk]
    cases hwk : v.kmem.pte r k with
    | none =>
      rw [Vm.viewPage_none hwk, Vm.viewPage_none ((hpte k).trans hwk)]
      rfl
    | some w' =>
      rw [Vm.viewPage_some hwk, Vm.viewPage_some ((hpte k).trans hwk)]
      cases hu' : pteU w' with
      | false => rfl
      | true =>
        rw [if_pos rfl, if_pos rfl]
        -- two pages of one page table do not share a frame
        have hne : pte2pa w' ≠ pte2pa w := by
          intro heq
          have htr : pte2pa w' ≠ Image.trampoline := by
            intro he
            rw [heq] at he
            rw [he, badPage_trampoline] at hb
            cases hb
          have hsame := h.inv.share r h.root r h.root k n w' w (h.user hwk hu').1 hn hwk hw heq htr
            fun he => hk (Prod.mk.inj he).2
          exact hk hsame.1
        have hmem : (v.kmem.setPage (pte2pa w) g).mem (pte2pa w') = v.kmem.mem (pte2pa w') := by
          rw [Kmem.setPage_mem, upd_other _ _ hne]
        rw [Vm.setKmem_kmem, hmem]

/-- The state after `k` bytes of a copy to `dstva`. -/
structure Written (K T : Nat → Nat) (R : Finset Nat) (p : Fin NPROC) (sz r dstva : Nat) (src : Nat → UInt8)
    (k : Nat) (v v' : Vm) : Prop where
  space : Space K T R v' p r
  view : ∀ va, v'.viewByte p sz r va =
    if dstva ≤ va ∧ va < dstva + k then some (src (va - dstva)) else v.viewByte p sz r va
  leaf : ∀ n w, v.kmem.pte r n = some w → v'.kmem.pte r n = some w

theorem Touched.written (h : Touched K T R p sz r v v') (dstva : Nat) (src : Nat → UInt8) :
    Written K T R p sz r dstva src 0 v v' := by
  refine ⟨h.space, fun va => ?_, h.leaf⟩
  rw [if_neg (by omega)]
  unfold Vm.viewByte
  rw [h.view]

variable {src : Nat → UInt8} {dstva len : Nat}

theorem Written.of_touched {dstva k : Nat} (h : Touched K T R p sz r v v₁)
    (h' : Written K T R p sz r dstva src k v₁ v') : Written K T R p sz r dstva src k v v' := by
  refine ⟨h'.space, fun va => ?_, fun n w hw => h'.leaf n w (h.leaf n w hw)⟩
  rw [h'.view]
  unfold Vm.viewByte
  rw [h.view]

theorem Written.append {dstva dstva' j k : Nat} (h : Written K T R p sz r dstva src j v v₁)
    (h' : Written K T R p sz r dstva' (fun i => src (j + i)) k v₁ v')
    (hk : k = 0 ∨ dstva' = dstva + j) : Written K T R p sz r dstva src (j + k) v v' := by
  refine ⟨h'.space, fun va => ?_, fun n w hw => h'.leaf n w (h.leaf n w hw)⟩
  rw [h'.view, h.view]
  rcases hk with rfl | rfl
  · rw [if_neg (by omega), Nat.add_zero]
  · by_cases h2 : dstva + j ≤ va ∧ va < dstva + j + k
    · rw [if_pos h2, if_pos (by omega)]
      have hidx : j + (va - (dstva + j)) = va - dstva := by omega
      rw [hidx]
    · rw [if_neg h2]
      by_cases h1 : dstva ≤ va ∧ va < dstva + j
      · rw [if_pos h1, if_pos (by omega)]
      · rw [if_neg h1, if_neg (by omega)]

/-- **One page of `copyout`.** -/
theorem Space.written_page (h : Space K T R v p r) (sz : Nat) {dstva : Nat}
    (hw : v.kmem.pte r (pageOf dstva) = some w) (hu : pteU w = true) (src : Nat → UInt8) {k : Nat}
    (hk : dstva % PGSIZE + k ≤ PGSIZE) :
    Written K T R p sz r dstva src k v (v.setKmem (v.kmem.setPage (pte2pa w)
      (blit (v.kmem.mem (pte2pa w)) (dstva % PGSIZE) k src))) := by
  obtain ⟨hspace, hpte, hview⟩ := h.setFrame hw hu sz
    (blit (v.kmem.mem (pte2pa w)) (dstva % PGSIZE) k src)
  refine ⟨hspace, fun va => ?_, fun n w' hw' => (hpte n).trans hw'⟩
  have hk' : dstva % 4096 + k ≤ 4096 := hk
  unfold Vm.viewByte
  rw [hview]
  by_cases hn : pageOf va = pageOf dstva
  · have hn' : va / 4096 = dstva / 4096 := hn
    rw [if_pos hn, hn, Vm.viewPage_some hw, hu, if_pos rfl, Option.map_some, Option.map_some, byteAt_blit]
    by_cases hin : dstva ≤ va ∧ va < dstva + k
    · have hoff : va % PGSIZE - dstva % PGSIZE = va - dstva := by
        show va % 4096 - dstva % 4096 = va - dstva
        omega
      rw [if_pos hin, if_pos (by show dstva % 4096 ≤ va % 4096 ∧ va % 4096 < dstva % 4096 + k; omega), hoff]
    · rw [if_neg hin, if_neg (by show ¬ (dstva % 4096 ≤ va % 4096 ∧ va % 4096 < dstva % 4096 + k); omega)]
  · have hn' : va / 4096 ≠ dstva / 4096 := hn
    rw [if_neg hn, if_neg (by omega)]

/-! ### The loop of `copyout` -/

/-- The pages of a range are there. -/
def Resident (v : Vm) (r va len : Nat) : Prop := ∀ i < len, Present v r (va + i)

/-- What `copyout` leaves: the whole range is written, or the part before a page that is refused. -/
def CopyoutPost (K T : Nat → Nat) (R : Finset Nat) (p : Fin NPROC) (sz r dstva : Nat) (src : Nat → UInt8)
    (len : Nat) (v : Vm) (b : Bool) (v' : Vm) : Prop :=
  (b = true → Written K T R p sz r dstva src len v v' ∧ Resident v' r dstva len) ∧
  (b = false → ∃ k < len, (k = 0 ∨ (dstva + k) % PGSIZE = 0) ∧ ∃ v₁,
    Written K T R p sz r dstva src k v v₁ ∧ Refused p sz r (dstva + k) false v₁ v' ∧
    Written K T R p sz r dstva src k v v')

theorem CopyoutPost.refuse (h : Space K T R v p r) (hlen : len ≠ 0)
    (ht : Touched K T R p sz r v v') (href : Refused p sz r dstva false v v') :
    CopyoutPost K T R p sz r dstva src len v false v' := by
  refine ⟨fun hb => (by cases hb), fun _ => ⟨0, by omega, .inl rfl, v, ?_, ?_, ht.written dstva src⟩⟩
  · exact (Touched.refl h).written dstva src
  · rw [Nat.add_zero]
    exact href

theorem CopyoutPost.append {dstva dstva' j len : Nat} {b : Bool}
    (h : Written K T R p sz r dstva src j v v₁)
    (h' : CopyoutPost K T R p sz r dstva' (fun i => src (j + i)) len v₁ b v')
    (hres : Resident v₁ r dstva j) (hk : len = 0 ∨ dstva' = dstva + j ∧ dstva' % PGSIZE = 0) :
    CopyoutPost K T R p sz r dstva src (j + len) v b v' := by
  refine ⟨fun hb => ?_, fun hb => ?_⟩
  · obtain ⟨hw, hr⟩ := h'.1 hb
    refine ⟨h.append hw (hk.imp_right And.left), fun i hi => ?_⟩
    by_cases hij : i < j
    · obtain ⟨w, hleaf, hu⟩ := hres i hij
      exact ⟨w, hw.leaf _ w hleaf, hu⟩
    · rcases hk with rfl | ⟨rfl, -⟩
      · omega
      · have hidx : dstva + i = dstva + j + (i - j) := by omega
        rw [hidx]
        exact hr (i - j) (by omega)
  · obtain ⟨k, hklt, hkpage, v₂, hv₂, href, hv'⟩ := h'.2 hb
    rcases hk with rfl | ⟨rfl, hpage⟩
    · omega
    · refine ⟨j + k, by omega, ?_, v₂, h.append hv₂ (.inr rfl), ?_, h.append hv' (.inr rfl)⟩
      · rcases hkpage with rfl | hkpage
        · exact .inr hpage
        · right
          rw [← Nat.add_assoc]
          exact hkpage
      · rw [← Nat.add_assoc]
        exact href

omit [Image] in
theorem round_bounds (va len : Nat) (hlen : len ≠ 0) :
    va % PGSIZE + min (PGSIZE - (va - pgrounddown va)) len ≤ PGSIZE ∧
      0 < min (PGSIZE - (va - pgrounddown va)) len ∧
      (len - min (PGSIZE - (va - pgrounddown va)) len = 0 ∨
        pgrounddown va + PGSIZE = va + min (PGSIZE - (va - pgrounddown va)) len ∧
          (pgrounddown va + PGSIZE) % PGSIZE = 0) := by
  show va % 4096 + min (4096 - (va - va / 4096 * 4096)) len ≤ 4096 ∧
      0 < min (4096 - (va - va / 4096 * 4096)) len ∧
      (len - min (4096 - (va - va / 4096 * 4096)) len = 0 ∨
        va / 4096 * 4096 + 4096 = va + min (4096 - (va - va / 4096 * 4096)) len ∧
          (va / 4096 * 4096 + 4096) % 4096 = 0)
  omega

omit [Image] in
theorem round_fuel {va len fuel : Nat} (hlen : len ≠ 0)
    (h : (va % PGSIZE + len + PGSIZE - 1) / PGSIZE < fuel + 1) :
    ((pgrounddown va + PGSIZE) % PGSIZE + (len - min (PGSIZE - (va - pgrounddown va)) len) + PGSIZE - 1) /
      PGSIZE < fuel := by
  have h' : (va % 4096 + len + 4096 - 1) / 4096 < fuel + 1 := h
  show ((va / 4096 * 4096 + 4096) % 4096 + (len - min (4096 - (va - va / 4096 * 4096)) len) + 4096 - 1) /
      4096 < fuel
  omega

omit [Image] in
theorem pageOf_round {va k i : Nat} (hk : va % PGSIZE + k ≤ PGSIZE) (hi : i < k) :
    pageOf (va + i) = pageOf va := by
  have hk' : va % 4096 + k ≤ 4096 := hk
  show (va + i) / 4096 = va / 4096
  omega

/-- **The loop of `copyout`.** -/
theorem Space.wp_copyoutLoop (sz fuel : Nat) {v : Vm} (h : Space K T R v p r)
    (hmax : dstva < 2 ^ 64) (hfuel : (dstva % PGSIZE + len + PGSIZE - 1) / PGSIZE < fuel) :
    wp (copyoutLoop p sz r fuel dstva src len) v (CopyoutPost K T R p sz r dstva src len v) E := by
  induction fuel generalizing v dstva src len with
  | zero => exact absurd hfuel (Nat.not_lt_zero _)
  | succ fuel ih =>
    unfold copyoutLoop
    by_cases hlen : len = 0
    · subst hlen
      rw [if_pos rfl]
      refine wp_pure.2 ⟨fun _ => ⟨(Touched.refl h).written dstva src, fun i hi => ?_⟩, fun hb => ?_⟩
      · omega
      · cases hb
    rw [if_neg hlen]
    dsimp only
    by_cases hva : MAXVA ≤ dstva
    · rw [if_pos ((maxva_pgrounddown dstva).2 hva)]
      exact wp_pure.2 (.refuse h hlen (.refl h) ⟨Kmem.hwFrame_none (h.hwPte_high hva hmax),
        run_of_wp (h.vmfault_high hva sz false)⟩)
    have hlt : pgrounddown dstva < MAXVA :=
      Nat.lt_of_not_le fun hle => hva ((maxva_pgrounddown dstva).1 hle)
    rw [if_neg (by omega), wp_bind]
    refine wp_conseq (h.wp_userPage sz hmax false) fun pa v' hpa => ?_
    obtain ⟨htouch, -, -, ⟨hne, -, w, hw, hu, rfl, hperm⟩ | ⟨rfl, href⟩⟩ := hpa
    · rw [if_neg hne, wp_bind, wp_onKmem]
      refine wp_walk_leaf hlt (pageOf_pgrounddown dstva) hw fun t i hmem => ?_
      dsimp only
      rw [wp_bind, wp_onKmem, wp_loadWord, Vm.setKmem_self, hmem]
      cases hwr : pteW w with
      | false =>
        have hno : permits false w = false := by
          unfold permits
          rw [hu, hwr]
          rfl
        rw [hno] at hperm
        refine wp_pure.2 (.refuse h hlen htouch (hperm.resolve_left Bool.false_ne_true))
      | true =>
        obtain ⟨hin, -, hnext⟩ := round_bounds dstva len hlen
        have hfuel' := round_fuel hlen hfuel
        rw [if_neg (by simp), wp_bind, wp_onKmem, wp_modify, sub_pgrounddown]
        rw [sub_pgrounddown] at hin hnext hfuel'
        generalize hj : min (PGSIZE - dstva % PGSIZE) len = j at *
        have hpage := htouch.space.written_page sz hw hu src hin
        have hsum : len = j + (len - j) := by omega
        have hres : Resident (v'.setKmem (v'.kmem.setPage (pte2pa w)
            (blit (v'.kmem.mem (pte2pa w)) (dstva % PGSIZE) j src))) r dstva j := fun i hi => by
          refine ⟨w, hpage.leaf _ w ?_, hu⟩
          rw [pageOf_round hin hi]
          exact hw
        have hmax' : pgrounddown dstva + PGSIZE < 2 ^ 64 := by
          have hlt' : pgrounddown dstva < 274877906944 := hlt
          show pgrounddown dstva + 4096 < 2 ^ 64
          omega
        refine wp_conseq (ih hpage.space hmax' hfuel') fun b v'' hpost => ?_
        rw [hsum]
        exact CopyoutPost.append (.of_touched htouch hpage) hpost hres hnext
    · rw [if_pos rfl]
      exact wp_pure.2 (.refuse h hlen htouch href)

/-- **`copyout`.** -/
theorem Space.wp_copyout (h : Space K T R v p r) (sz : Nat) {dstva : Nat} (hmax : dstva < 2 ^ 64)
    (src : Nat → UInt8) (len : Nat) :
    wp (copyout p sz r dstva src len) v (CopyoutPost K T R p sz r dstva src len v) E := by
  refine h.wp_copyoutLoop sz _ hmax ?_
  show (dstva % 4096 + len + 4096 - 1) / 4096 < len / 4096 + 3
  omega

/-! ### `copyin` -/

/-- The bytes of a range, as the process sees them. -/
def Vm.viewBytes (v : Vm) (p : Fin NPROC) (sz r va len : Nat) : List UInt8 :=
  (List.range len).map fun i => (v.viewByte p sz r (va + i)).getD 0

omit [Image] in
theorem Vm.viewBytes_append (v : Vm) (p : Fin NPROC) (sz r va j k : Nat) :
    v.viewBytes p sz r va j ++ v.viewBytes p sz r (va + j) k = v.viewBytes p sz r va (j + k) := by
  unfold Vm.viewBytes
  rw [List.range_add, List.map_append, List.map_map]
  congr 1
  refine List.map_congr_left fun i _ => ?_
  rw [Nat.add_assoc]
  rfl

theorem Touched.viewBytes (h : Touched K T R p sz r v v') (va len : Nat) :
    v'.viewBytes p sz r va len = v.viewBytes p sz r va len := by
  unfold Vm.viewBytes Vm.viewByte
  simp only [h.view]

omit [Image] in
theorem Vm.viewBytes_page {k : Nat} (hw : v.kmem.pte r (pageOf va) = some w) (hu : pteU w = true)
    (hk : va % PGSIZE + k ≤ PGSIZE) :
    (List.range k).map (fun i => byteAt (v.kmem.mem (pte2pa w)) (va % PGSIZE + i)) =
      v.viewBytes p sz r va k := by
  refine List.map_congr_left fun i hi => ?_
  have hi' := List.mem_range.1 hi
  have hmod : (va + i) % PGSIZE = va % PGSIZE + i := by
    have hk' : va % 4096 + k ≤ 4096 := hk
    show (va + i) % 4096 = va % 4096 + i
    omega
  unfold Vm.viewByte
  rw [pageOf_round hk hi', Vm.viewPage_some hw, hu, if_pos rfl, hmod]
  rfl

/-- How many pages a range meets. -/
def pagesIn (va len : Nat) : Nat := (va % PGSIZE + len + PGSIZE - 1) / PGSIZE

/-- The process sees the range, and there is memory for its pages. -/
def Affordable (p : Fin NPROC) (sz r va len : Nat) (v : Vm) : Prop :=
  (∀ i < len, (v.viewByte p sz r (va + i)).isSome = true) ∧ 3 * pagesIn va len ≤ v.kmem.nfree

/-- **The loop of `copyin`**: the bytes of the range; a range that is there is read without a fault,
and one that is seen is read if there is memory. -/
theorem Space.wp_copyinLoop (sz fuel : Nat) {v : Vm} (h : Space K T R v p r) {srcva len : Nat}
    {dst : List UInt8} (hmax : srcva < 2 ^ 64) :
    wp (copyinLoop p sz r fuel srcva len dst) v (fun o v' => Touched K T R p sz r v v' ∧
      (∀ bs, o = some bs → bs = dst ++ v.viewBytes p sz r srcva len) ∧
      (pagesIn srcva len < fuel → (Resident v r srcva len → o.isSome = true ∧ v' = v) ∧
        (Affordable p sz r srcva len v → o.isSome = true))) E := by
  induction fuel generalizing v srcva len dst with
  | zero =>
    rw [copyinLoop]
    exact wp_pure.2 ⟨.refl h, fun bs hbs => (by cases hbs), fun hlt => absurd hlt (Nat.not_lt_zero _)⟩
  | succ fuel ih =>
    unfold copyinLoop
    by_cases hlen : len = 0
    · subst hlen
      rw [if_pos rfl]
      refine wp_pure.2 ⟨.refl h, fun bs hbs => ?_, fun _ => ⟨fun _ => ⟨rfl, rfl⟩, fun _ => rfl⟩⟩
      cases hbs
      exact (List.append_nil dst).symm
    rw [if_neg hlen]
    dsimp only
    refine wp_seq (h.wp_userPage sz hmax true) fun pa v' hpa => ?_
    obtain ⟨htouch, hpresent, hfound, hpa⟩ := hpa
    have hpages : 1 ≤ pagesIn srcva len := by
      show 1 ≤ (srcva % 4096 + len + 4096 - 1) / 4096
      omega
    -- the first byte of the range is in this page
    have hfirst : Affordable p sz r srcva len v → pa ≠ 0 ∧ v.kmem.nfree ≤ v'.kmem.nfree + 3 := by
      rintro ⟨hv, hle⟩
      have h0 := hv 0 (by omega)
      rw [Nat.add_zero, Vm.viewByte, Option.isSome_map] at h0
      exact hfound rfl h0 (by omega)
    rcases hpa with ⟨hne, hlow, w, hw, hu, rfl, -⟩ | ⟨rfl, href⟩
    · obtain ⟨hin, -, hnext⟩ := round_bounds srcva len hlen
      have hround : ∀ fuel, pagesIn srcva len < fuel + 1 → pagesIn _ _ < fuel :=
        fun fuel => @round_fuel srcva len fuel hlen
      rw [if_neg hne, wp_bind, wp_get, sub_pgrounddown]
      rw [sub_pgrounddown] at hin hnext hround
      generalize hj : min (PGSIZE - srcva % PGSIZE) len = j at *
      have hlt' : pgrounddown srcva < 274877906944 := Nat.lt_of_le_of_lt (pgrounddown_le srcva) hlow
      have hmax' : pgrounddown srcva + PGSIZE < 2 ^ 64 := by
        show pgrounddown srcva + 4096 < 2 ^ 64
        omega
      rw [Nat.mod_eq_of_lt hmax', Vm.viewBytes_page hw hu hin]
      refine wp_conseq (ih htouch.space hmax') fun o v'' ho => ?_
      obtain ⟨htouch', hbytes, hrest⟩ := ho
      refine ⟨htouch.trans htouch', fun bs hbs => ?_, fun hfuel => ⟨fun hr => ?_, fun hafford => ?_⟩⟩
      · rw [hbytes bs hbs, List.append_assoc, htouch.viewBytes, htouch.viewBytes]
        congr 1
        rcases hnext with h0 | ⟨hnext, -⟩
        · have hjl : j = len := by omega
          rw [h0, hjl]
          exact List.append_nil _
        · rw [hnext, Vm.viewBytes_append, Nat.add_sub_cancel' (by omega)]
      · obtain ⟨-, rfl⟩ := hpresent (by
          have h0 := hr 0 (by omega)
          rw [Nat.add_zero] at h0
          exact h0)
        refine (hrest (hround _ hfuel)).1 fun i hi => ?_
        rcases hnext with h0 | ⟨hnext, -⟩
        · omega
        · rw [hnext, Nat.add_assoc]
          exact hr (j + i) (by omega)
      · have hless := hround _ (Nat.lt_succ_self _)
        have hleft := (hfirst hafford).2
        refine (hrest (hround _ hfuel)).2 ⟨fun i hi => ?_, by have := hafford.2; omega⟩
        rcases hnext with h0 | ⟨hnext, -⟩
        · omega
        · rw [hnext, Nat.add_assoc, Vm.viewByte, htouch.view]
          exact hafford.1 (j + i) (by omega)
    · rw [if_pos rfl]
      refine wp_pure.2 ⟨htouch, fun bs hbs => (by cases hbs), fun _ => ⟨fun hr => ?_, fun hafford => ?_⟩⟩
      · have h0 := hr 0 (by omega)
        rw [Nat.add_zero] at h0
        exact absurd rfl (hpresent h0).1
      · exact absurd rfl (hfirst hafford).1

/-- **`copyin`.** -/
theorem Space.wp_copyin (h : Space K T R v p r) (sz : Nat) {srcva : Nat} (hmax : srcva < 2 ^ 64)
    (len : Nat) :
    wp (copyin p sz r srcva len) v (fun o v' => Touched K T R p sz r v v' ∧
      (∀ bs, o = some bs → bs = v.viewBytes p sz r srcva len) ∧
      (Resident v r srcva len → o.isSome = true ∧ v' = v) ∧
      (Affordable p sz r srcva len v → o.isSome = true)) E := by
  refine wp_conseq (h.wp_copyinLoop sz (len / PGSIZE + 3) hmax) fun o v' ho => ?_
  refine ⟨ho.1, fun bs hbs => ?_, ho.2.2 ?_⟩
  · rw [ho.2.1 bs hbs, List.nil_append]
  · show (srcva % 4096 + len + 4096 - 1) / 4096 < len / 4096 + 3
    omega

theorem Space.userPage_managed (h : Space K T R v p r) {read : Bool} {pa : Nat} (hmax : va < 2 ^ 64)
    (hrun : (userPage p sz r (pgrounddown va) read) v = .ok (pa, v')) : pa = 0 ∨ badPage pa = false := by
  obtain ⟨htouch, -, -, ⟨-, -, w, hw, hu, rfl, -⟩ | ⟨rfl, -⟩⟩ :=
    wp_ok (h.wp_userPage (E := fun _ => True) sz hmax read) hrun
  · exact .inr (htouch.space.user hw hu).2.2.2
  · exact .inl rfl

omit [Image] in
theorem viewBytes_written (h : ∀ i < len, v.viewByte p sz r (dstva + i) = some (src i)) :
    v.viewBytes p sz r dstva len = (List.range len).map src := by
  refine List.map_congr_left fun i hi => ?_
  rw [h i (List.mem_range.1 hi)]
  rfl

/-- **`copyout` and `copyin` are correct**, at every address and for every length.  A copy that
succeeds writes the range and nothing else, and reads back; one that fails has written the part of the
range before a page that is neither writable nor resolved by `vmfault`.  Neither function panics, and
the frames they use are frames that `kalloc` manages. -/
theorem copyout_copyin_correct (h : Space K T R v p r) (sz : Nat) {dstva : Nat} (hmax : dstva < 2 ^ 64)
    (src : Nat → UInt8) (len : Nat) :
    (∃ b v', (copyout p sz r dstva src len) v = .ok (b, v') ∧ Space K T R v' p r ∧
      (b = true →
        (∀ va, v'.viewByte p sz r va =
          if dstva ≤ va ∧ va < dstva + len then some (src (va - dstva)) else v.viewByte p sz r va) ∧
        (copyin p sz r dstva len) v' = .ok (some ((List.range len).map src), v')) ∧
      (b = false → ∃ k < len, (k = 0 ∨ (dstva + k) % PGSIZE = 0) ∧
        (∃ v₁, Written K T R p sz r dstva src k v v₁ ∧ v₁.kmem.hwFrame r (dstva + k) false = none ∧
          (vmfault p sz r (dstva + k) false) v₁ = .ok (false, v')) ∧
        ∀ va, v'.viewByte p sz r va =
          if dstva ≤ va ∧ va < dstva + k then some (src (va - dstva)) else v.viewByte p sz r va)) ∧
    (∃ o v', (copyin p sz r dstva len) v = .ok (o, v') ∧
      (∀ va, v'.viewByte p sz r va = v.viewByte p sz r va) ∧
      ∀ bs, o = some bs → bs = v.viewBytes p sz r dstva len) ∧
    ∀ v₁ va read pa v₂, Space K T R v₁ p r → va < 2 ^ 64 →
      (userPage p sz r (pgrounddown va) read) v₁ = .ok (pa, v₂) → pa = 0 ∨ badPage pa = false := by
  refine ⟨?_, ?_, fun v₁ va read pa v₂ h₁ hva hrun => h₁.userPage_managed hva hrun⟩
  · obtain ⟨b, v', hrun, htrue, hfalse⟩ := wp_total (h.wp_copyout sz hmax src len)
    cases b with
    | true =>
      obtain ⟨hw, hres⟩ := htrue rfl
      refine ⟨true, v', hrun, hw.space, fun _ => ⟨hw.view, ?_⟩, fun hb => (by cases hb)⟩
      obtain ⟨o, v'', hin, -, hbytes, hsome, -⟩ := wp_total (hw.space.wp_copyin sz hmax len)
      obtain ⟨ho, rfl⟩ := hsome hres
      obtain ⟨bs, rfl⟩ := Option.isSome_iff_exists.1 ho
      rw [hin, hbytes bs rfl, viewBytes_written fun i hi => ?_]
      rw [hw.view, if_pos (by omega), Nat.add_sub_cancel_left]
    | false =>
      obtain ⟨k, hk, hpage, v₁, hv₁, href, hv'⟩ := hfalse rfl
      exact ⟨false, v', hrun, hv'.space, fun hb => (by cases hb), fun _ =>
        ⟨k, hk, hpage, ⟨v₁, hv₁, href.1, href.2⟩, hv'.view⟩⟩
  · obtain ⟨o, v', hrun, htouch, hbytes, -⟩ := wp_total (h.wp_copyin sz hmax len)
    refine ⟨o, v', hrun, fun va => ?_, hbytes⟩
    unfold Vm.viewByte
    rw [htouch.view]

end

/-- Twelve bytes over the boundary of two pages of a small process, which are allocated on the
way. -/
theorem copyout_copyin_five :
    ∃ v', (@copyout fivePages ⟨0, by decide⟩ 8192 fiveRoot 4090 (fun k => UInt8.ofNat (k + 1)) 12)
        fiveVm = .ok (true, v') ∧
      (@copyin fivePages ⟨0, by decide⟩ 8192 fiveRoot 4090 12) v' =
        .ok (some [1, 2, 3, 4, 5, 6, 7, 8, 9, 10, 11, 12], v') := by
  obtain ⟨⟨b, v', hout, -, htrue, -⟩, -⟩ :=
    @copyout_copyin_correct fivePages _ _ _ _ ⟨0, by decide⟩ _ (space_five _) 8192 4090 (by decide)
      (fun k => UInt8.ofNat (k + 1)) 12
  have hb : (Except.toOption ((@copyout fivePages ⟨0, by decide⟩ 8192 fiveRoot 4090
      (fun k => UInt8.ofNat (k + 1)) 12) fiveVm)).map Prod.fst = some true := by decide +kernel
  rw [hout] at hb
  cases Option.some.inj hb
  exact ⟨v', hout, (htrue rfl).2⟩

end Xv6
