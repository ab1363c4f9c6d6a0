import Mathlib.Data.List.Perm.Subperm
import Xv6.Virtio.Owners

/-!
# The requests between the driver and the device

The heads that are on the available ring, with the device, or on the used ring are distinct, and each
belongs to one waiting thread whose buffer is still marked as with the disk; so there are at most
`NUM` of them.  A request on the used ring has been served.
-/

namespace Xv6.Virtio

open Xv6.Lib

variable {T B : Type} [DecidableEq T] [DecidableEq B]

/-- `A` and `U` are what the two rings hold. -/
structure Queued (s : Sys T B) (A U : List Nat) : Prop where
  avail : Window NUM IDX s.avail s.seen s.availIdx A
  used : Window NUM IDX s.used s.driverIdx s.next U
  shown : ∃ m ≤ U.length, s.usedIdx = (s.driverIdx + m) % IDX
  nodup : (A ++ s.busy ++ U).Nodup
  owner : ∀ i ∈ A ++ s.busy ++ U, ∃ t j i1 i2,
    (s.pc t).waiting = some (j, i, i1, i2) ∧ s.disk j.buf = true
  slot : ∀ t j i0 i1 i2, s.pc t = .publish j i0 i1 i2 →
    s.avail (s.availIdx % NUM) = i0 ∧ s.disk j.buf = true
  status : ∀ i ∈ U, s.status i = 0
  served : ∀ t j i0 i1 i2, (s.pc t).waiting = some (j, i0, i1, i2) → i0 ∈ U → j.done ∈ s.served
  back : ∀ t j i0 i1 i2, (s.pc t).waiting = some (j, i0, i1, i2) → s.disk j.buf = false →
    j.done ∈ s.served
  finish : ∀ t j, (s.pc t).finished = some j → j.done ∈ s.served

namespace Queued

variable {s s' : Sys T B} {A U : List Nat} {t : T} {c : Pc B}

theorem dvd_idx : NUM ∣ IDX := by decide

omit [DecidableEq T] [DecidableEq B] in
theorem held (h : Queued s A U) {i : Nat} (hi : i ∈ A ++ s.busy ++ U) :
    ∃ t, i ∈ (s.pc t).held ∧ (s.pc t).waiting.isSome = true := by
  obtain ⟨t, j, i1, i2, hw, -⟩ := h.owner i hi
  refine ⟨t, ?_, by rw [hw]; rfl⟩
  rw [Pc.held_of_flight (Pc.flight_of_waiting hw)]
  simp

omit [DecidableEq T] [DecidableEq B] in
theorem notMem (h : Queued s A U) (ho : Owned s) (hw : (s.pc t).waiting = none) {i : Nat}
    (hi : i ∈ (s.pc t).held) : i ∉ A ++ s.busy ++ U := by
  intro hmem
  obtain ⟨u, hu, hwait⟩ := h.held hmem
  rw [ho.disj u t i hu hi, hw] at hwait
  cases hwait

omit [DecidableEq T] [DecidableEq B] in
/-- **At most `NUM` requests are outstanding.** -/
theorem length_le (h : Queued s A U) (ho : Owned s) : (A ++ s.busy ++ U).length ≤ NUM := by
  have hsub : (A ++ s.busy ++ U) ⊆ List.range NUM := by
    intro i hi
    obtain ⟨t, ht, -⟩ := h.held hi
    exact List.mem_range.2 (ho.bound t i ht)
  have := (List.subperm_of_subset h.nodup hsub).length_le
  rwa [List.length_range] at this

omit [DecidableEq T] [DecidableEq B] in
theorem length_lt (h : Queued s A U) (ho : Owned s) (hw : (s.pc t).waiting = none) {i : Nat}
    (hi : i ∈ (s.pc t).held) : (A ++ s.busy ++ U).length < NUM := by
  have hsub : (i :: (A ++ s.busy ++ U)) ⊆ List.range NUM := by
    intro d hd
    rcases List.mem_cons.1 hd with rfl | hd
    · exact List.mem_range.2 (ho.bound t d hi)
    · obtain ⟨u, hu, -⟩ := h.held hd
      exact List.mem_range.2 (ho.bound u d hu)
  have hnodup : (i :: (A ++ s.busy ++ U)).Nodup := List.nodup_cons.2 ⟨h.notMem ho hw hi, h.nodup⟩
  have := (List.subperm_of_subset hnodup hsub).length_le
  rw [List.length_range, List.length_cons] at this
  omega

omit [DecidableEq B] in
/-- **A thread goes on** without a change of the rings. -/
theorem keep (h : Queued s A U) (hpc : s'.pc = upd s.pc t c)
    (hrest : s'.avail = s.avail ∧ s'.availIdx = s.availIdx ∧ s'.used = s.used ∧
      s'.usedIdx = s.usedIdx ∧ s'.driverIdx = s.driverIdx ∧ s'.disk = s.disk ∧
      s'.status = s.status ∧ s'.seen = s.seen ∧ s'.busy = s.busy ∧ s'.next = s.next ∧
      s'.served = s.served)
    (hwait : c.waiting = (s.pc t).waiting) (hpub : ∀ j i0 i1 i2, c ≠ .publish j i0 i1 i2)
    (hfin : ∀ j, c.finished = some j → j.done ∈ s.served) : Queued s' A U := by
  obtain ⟨h1, h2, h3, h4, h5, h6, h7, h8, h9, h10, h11⟩ := hrest
  have hw : ∀ u, (s'.pc u).waiting = (s.pc u).waiting := by
    intro u
    rw [hpc, upd_apply]
    split
    · subst u
      exact hwait
    · rfl
  refine ⟨?_, ?_, ?_, ?_, ?_, fun u j i0 i1 i2 hu => ?_, ?_, ?_, ?_, fun u j hu => ?_⟩
  · rw [h1, h2, h8]
    exact h.avail
  · rw [h3, h5, h10]
    exact h.used
  · rw [h4, h5]
    exact h.shown
  · rw [h9]
    exact h.nodup
  · rw [h9, h6]
    simp only [hw]
    exact h.owner
  · rw [h1, h2, h6]
    rw [hpc, upd_apply] at hu
    split at hu
    · exact absurd hu (hpub j i0 i1 i2)
    · exact h.slot u j i0 i1 i2 hu
  · rw [h7]
    exact h.status
  · simp only [hw, h11]
    exact h.served
  · simp only [hw, h11, h6]
    exact h.back
  · rw [h11]
    rw [hpc, upd_apply] at hu
    split at hu
    · exact hfin j hu
    · exact h.finish u j hu

theorem format (h : Queued s A U) (ho : Owned s) {j : Job B} {i0 i1 i2 : Nat}
    (hpc : s.pc t = .format j i0 i1 i2) :
    Queued ((s.format j i0 i1 i2).goTo t (.publish j i0 i1 i2)) A U := by
  have hw : (s.pc t).waiting = none := by rw [hpc]; rfl
  have hi : i0 ∈ (s.pc t).held := by rw [hpc]; simp [Pc.held]
  have hnot := h.notMem ho hw hi
  have hlen := h.length_lt ho hw hi
  rw [List.length_append, List.length_append] at hlen
  have hjob : (s.pc t).job = some j := by rw [hpc]; rfl
  have hwaits : ∀ u, ((upd s.pc t (.publish j i0 i1 i2)) u).waiting = (s.pc u).waiting := by
    intro u
    rw [upd_apply]
    split
    · subst u
      exact hw.symm
    · rfl
  -- the buffers of the others are not touched
  have hdisk : ∀ u k a b e, (s.pc u).waiting = some (k, a, b, e) →
      upd s.disk j.buf true k.buf = s.disk k.buf := by
    intro u k a b e hu
    refine upd_other _ _ (ho.buf_ne (Pc.job_of_flight (Pc.flight_of_waiting hu)) hjob ?_)
    rintro rfl
    rw [hw] at hu
    cases hu
  refine ⟨h.avail.write dvd_idx (by omega) i0, h.used, h.shown, h.nodup, fun i hi' => ?_,
    fun u k a b e hu => ?_, fun i hiU => ?_, fun u k a b e hu hU => ?_, fun u k a b e hu hd => ?_,
    fun u k hu => ?_⟩
  · obtain ⟨u, k, b, e, hu, hd⟩ := h.owner i hi'
    refine ⟨u, k, b, e, (hwaits u).trans hu, ?_⟩
    exact (hdisk u k i b e hu).trans hd
  · have hu' : upd s.pc t (.publish j i0 i1 i2) u = .publish k a b e := hu
    rw [upd_apply] at hu'
    split at hu'
    · cases hu'
      exact ⟨upd_same _ _ _, upd_same _ _ _⟩
    · have hlock := ho.others_of_holder (o := none) (t := t) (by rw [hpc]; rfl) u ‹_› (by rw [hu']; rfl)
      cases hlock
  · refine (upd_other _ _ ?_).trans (h.status i hiU)
    rintro rfl
    exact hnot (List.mem_append_right _ hiU)
  · exact h.served u k a b e ((hwaits u).symm.trans hu) hU
  · have hu' := (hwaits u).symm.trans hu
    exact h.back u k a b e hu' ((hdisk u k a b e hu').symm.trans hd)
  · have hu' : (upd s.pc t (.publish j i0 i1 i2) u).finished = some k := hu
    rw [upd_apply] at hu'
    split at hu'
    · cases hu'
    · exact h.finish u k hu'

omit [DecidableEq B] in
theorem publish (h : Queued s A U) (ho : Owned s) {j : Job B} {i0 i1 i2 : Nat}
    (hpc : s.pc t = .publish j i0 i1 i2) :
    Queued ({ s with availIdx := (s.availIdx + 1) % IDX }.goTo t (.wait j i0 i1 i2)) (A ++ [i0]) U := by
  have hw : (s.pc t).waiting = none := by rw [hpc]; rfl
  have hi : i0 ∈ (s.pc t).held := by rw [hpc]; simp [Pc.held]
  have hnot := h.notMem ho hw hi
  have hlen := h.length_lt ho hw hi
  rw [List.length_append, List.length_append] at hlen
  obtain ⟨hslot, hdisk⟩ := h.slot t j i0 i1 i2 hpc
  have hperm : (A ++ [i0] ++ s.busy ++ U).Perm (i0 :: (A ++ s.busy ++ U)) := by
    simp only [List.append_assoc, List.singleton_append]
    exact List.perm_middle
  have hne : ∀ {u k a b e}, (s.pc u).waiting = some (k, a, b, e) → u ≠ t := by
    rintro u k a b e hu rfl
    rw [hw] at hu
    cases hu
  refine ⟨h.avail.advance dvd_idx (by omega) hslot, h.used, h.shown, ?_, fun i hi' => ?_,
    fun u k a b e hu => ?_, h.status, fun u k a b e hu hU => ?_, fun u k a b e hu hd => ?_,
    fun u k hu => ?_⟩
  · exact hperm.nodup_iff.2 (List.nodup_cons.2 ⟨hnot, h.nodup⟩)
  · rcases List.mem_cons.1 (hperm.mem_iff.1 hi') with rfl | hi'
    · refine ⟨t, j, i1, i2, ?_, hdisk⟩
      show (upd s.pc t (.wait j i i1 i2) t).waiting = _
      rw [upd_same]
      rfl
    · obtain ⟨u, k, b, e, hu, hd⟩ := h.owner i hi'
      refine ⟨u, k, b, e, ?_, hd⟩
      show (upd s.pc t (.wait j i0 i1 i2) u).waiting = _
      rw [upd_other _ _ (hne hu)]
      exact hu
  · have hu' : upd s.pc t (.wait j i0 i1 i2) u = .publish k a b e := hu
    rw [upd_apply] at hu'
    split at hu'
    · cases hu'
    · have hlock := ho.others_of_holder (o := none) (t := t) (by rw [hpc]; rfl) u ‹_› (by rw [hu']; rfl)
      cases hlock
  · have hu' : (upd s.pc t (.wait j i0 i1 i2) u).waiting = some (k, a, b, e) := hu
    rw [upd_apply] at hu'
    split at hu'
    · cases hu'
      exact absurd (List.mem_append_right _ hU) hnot
    · exact h.served u k a b e hu' hU
  · have hu' : (upd s.pc t (.wait j i0 i1 i2) u).waiting = some (k, a, b, e) := hu
    rw [upd_apply] at hu'
    split at hu'
    · cases hu'
      have hd' : s.disk j.buf = false := hd
      rw [hdisk] at hd'
      cases hd'
    · exact h.back u k a b e hu' hd
  · have hu' : (upd s.pc t (.wait j i0 i1 i2) u).finished = some k := hu
    rw [upd_apply] at hu'
    split at hu'
    · cases hu'
    · exact h.finish u k hu'

omit [DecidableEq B] in
theorem collect (h : Queued s A U) {j : Job B} {i0 i1 i2 : Nat} (hpc : s.pc t = .wait j i0 i1 i2)
    (hd : s.disk j.buf = false) :
    Queued ({ s with infoB := upd s.infoB i0 none }.goTo t (.chain j i0 [i0, i1, i2])) A U := by
  have hw : (s.pc t).waiting = some (j, i0, i1, i2) := by rw [hpc]; rfl
  have hold : ∀ {u} {x : Job B × Nat × Nat × Nat},
      (upd s.pc t (.chain j i0 [i0, i1, i2]) u).waiting = some x → (s.pc u).waiting = some x := by
    intro u x hu
    rw [upd_apply] at hu
    split at hu
    · cases hu
    · exact hu
  refine ⟨h.avail, h.used, h.shown, h.nodup, fun i hi => ?_, fun u k a b e hu => ?_, h.status,
    fun u k a b e hu => h.served u k a b e (hold hu), fun u k a b e hu => h.back u k a b e (hold hu),
    fun u k hu => ?_⟩
  · obtain ⟨u, k, b, e, hu, hd'⟩ := h.owner i hi
    refine ⟨u, k, b, e, ?_, hd'⟩
    show (upd s.pc t (.chain j i0 [i0, i1, i2]) u).waiting = _
    rw [upd_other]
    · exact hu
    · rintro rfl
      rw [hw] at hu
      cases hu
      rw [hd] at hd'
      cases hd'
  · have hu' : upd s.pc t (.chain j i0 [i0, i1, i2]) u = .publish k a b e := hu
    rw [upd_apply] at hu'
    split at hu'
    · cases hu'
    · exact h.slot u k a b e hu'
  · have hu' : (upd s.pc t (.chain j i0 [i0, i1, i2]) u).finished = some k := hu
    rw [upd_apply] at hu'
    split at hu'
    · cases hu'
      exact h.back t j i0 i1 i2 hw hd
    · exact h.finish u k hu'

omit [DecidableEq T] [DecidableEq B] in
theorem entry (h : Queued s A U) (hf : Formed s) (hne : s.driverIdx ≠ s.usedIdx) :
    ∃ i U' u j i1 i2, U = i :: U' ∧ s.used (s.driverIdx % NUM) = i ∧ s.status i = 0 ∧
      (s.pc u).waiting = some (j, i, i1, i2) ∧ s.infoB i = some j.buf := by
  obtain ⟨m, hm, hidx⟩ := h.shown
  cases U with
  | nil =>
    have hm0 : m = 0 := Nat.le_zero.1 hm
    rw [hm0, Nat.add_zero, Nat.mod_eq_of_lt h.used.low] at hidx
    exact absurd hidx.symm hne
  | cons i U' =>
    obtain ⟨u, j, i1, i2, hu, -⟩ := h.owner i (by simp)
    have hform := hf.flight u j i i1 i2 (Pc.flight_of_waiting hu)
    exact ⟨i, U', u, j, i1, i2, rfl, h.used.head, h.status i (by simp), hu, hform.2.2.2.2⟩

theorem interrupt (h : Queued s A (i :: U)) (ho : Owned s) (hne : s.driverIdx ≠ s.usedIdx) {u : T}
    {j : Job B} {i1 i2 : Nat} (hu : (s.pc u).waiting = some (j, i, i1, i2)) :
    Queued { s with disk := upd s.disk j.buf false, driverIdx := (s.driverIdx + 1) % IDX } A U := by
  have hnodup := h.nodup
  rw [List.nodup_append, List.nodup_cons] at hnodup
  obtain ⟨hnd, ⟨hiU, hU⟩, hsep⟩ := hnodup
  have hjob := Pc.job_of_flight (Pc.flight_of_waiting hu)
  have hdisk : ∀ v k, (s.pc v).job = some k → v ≠ u →
      upd s.disk j.buf false k.buf = s.disk k.buf := fun v k hk hv =>
    upd_other _ _ (ho.buf_ne hk hjob hv)
  refine ⟨h.avail, h.used.pop dvd_idx, ?_, ?_, fun d hd => ?_, fun v k a b e hv => ?_,
    fun d hd => h.status d (List.mem_cons_of_mem _ hd), fun v k a b e hv hU' => ?_,
    fun v k a b e hv hd => ?_, h.finish⟩
  · -- one entry less is shown
    obtain ⟨m, hm, hidx⟩ := h.shown
    rw [List.length_cons] at hm
    have hlow := h.used.low
    have hm1 : m ≠ 0 := by
      rintro rfl
      rw [Nat.add_zero, Nat.mod_eq_of_lt hlow] at hidx
      exact hne hidx.symm
    refine ⟨m - 1, by omega, ?_⟩
    show s.usedIdx = ((s.driverIdx + 1) % IDX + (m - 1)) % IDX
    rw [hidx, Nat.mod_add_mod]
    congr 1
    omega
  · exact List.nodup_append.2 ⟨hnd, hU, fun a ha b hb => hsep a ha b (List.mem_cons_of_mem _ hb)⟩
  · have hd' : d ∈ A ++ s.busy ++ i :: U := by
      rcases List.mem_append.1 hd with hd | hd
      · exact List.mem_append_left _ hd
      · exact List.mem_append_right _ (List.mem_cons_of_mem _ hd)
    obtain ⟨v, k, b, e, hv, hdk⟩ := h.owner d hd'
    refine ⟨v, k, b, e, hv, ?_⟩
    refine (hdisk v k (Pc.job_of_flight (Pc.flight_of_waiting hv)) ?_).trans hdk
    rintro rfl
    rw [hu] at hv
    cases hv
    rcases List.mem_append.1 hd with hd | hd
    · exact hsep _ hd _ List.mem_cons_self rfl
    · exact hiU hd
  · obtain ⟨hslot, hdk⟩ := h.slot v k a b e hv
    refine ⟨hslot, ?_⟩
    have hvj : (s.pc v).job = some k := by
      have hv' : s.pc v = .publish k a b e := hv
      rw [hv']
      rfl
    refine (hdisk v k hvj ?_).trans hdk
    rintro rfl
    have hv' : s.pc v = .publish k a b e := hv
    rw [hv'] at hu
    cases hu
  · exact h.served v k a b e hv (List.mem_cons_of_mem _ hU')
  · by_cases hvu : v = u
    · subst hvu
      have hv' : (s.pc v).waiting = some (k, a, b, e) := hv
      rw [hu] at hv'
      cases hv'
      exact h.served v j i i1 i2 hu List.mem_cons_self
    · exact h.back v k a b e hv
        ((hdisk v k (Pc.job_of_flight (Pc.flight_of_waiting hv)) hvu).symm.trans hd)

/-! ### The device -/

omit [DecidableEq T] [DecidableEq B] in
theorem fetch (h : Queued s A U) (hne : s.seen ≠ s.availIdx) :
    ∃ A', Queued { s with busy := s.avail (s.seen % NUM) :: s.busy, seen := (s.seen + 1) % IDX }
      A' U := by
  cases A with
  | nil => exact absurd rfl (h.avail.ne_nil hne)
  | cons i A' =>
    have hhead := h.avail.head
    have hperm : (A' ++ (i :: s.busy) ++ U).Perm (i :: A' ++ s.busy ++ U) := by
      simp only [List.append_assoc, List.cons_append]
      exact List.perm_middle
    rw [hhead]
    exact ⟨A', h.avail.pop dvd_idx, h.used, h.shown, hperm.nodup_iff.2 h.nodup,
      fun d hd => h.owner d (hperm.mem_iff.1 hd), h.slot, h.status, h.served, h.back, h.finish⟩

omit [DecidableEq T] [DecidableEq B] in
theorem serve_eq (h : Queued s A U) (hf : Formed s) {i : Nat} (hi : i ∈ s.busy) :
    ∃ u j i1 i2, (s.pc u).waiting = some (j, i, i1, i2) ∧ serve s i = .ok { s with
      status := upd s.status i 0
      served := s.served ++ [j.done]
      busy := s.busy.erase i
      used := upd s.used (s.next % NUM) i
      next := (s.next + 1) % IDX } := by
  obtain ⟨u, j, i1, i2, hu, -⟩ := h.owner i (by simp [hi])
  obtain ⟨hops, h0, h1, h2, -⟩ := hf.flight u j i i1 i2 (Pc.flight_of_waiting hu)
  refine ⟨u, j, i1, i2, hu, ?_⟩
  simp [serve, h0, h1, h2, hops, Job.done]

omit [DecidableEq T] [DecidableEq B] in
theorem serve (h : Queued s A U) (ho : Owned s) {i : Nat} (hi : i ∈ s.busy) {u : T} {j : Job B}
    {i1 i2 : Nat} (hu : (s.pc u).waiting = some (j, i, i1, i2)) :
    Queued { s with
      status := upd s.status i 0
      served := s.served ++ [j.done]
      busy := s.busy.erase i
      used := upd s.used (s.next % NUM) i
      next := (s.next + 1) % IDX } A (U ++ [i]) := by
  have hperm : (A ++ s.busy.erase i ++ (U ++ [i])).Perm (A ++ s.busy ++ U) := by
    have hb : s.busy.Perm (i :: s.busy.erase i) := List.perm_cons_erase hi
    calc (A ++ s.busy.erase i ++ (U ++ [i])).Perm (i :: (A ++ s.busy.erase i ++ U)) := by
          rw [← List.append_assoc]
          exact List.perm_append_singleton _ _
      _ |>.Perm (A ++ (i :: s.busy.erase i) ++ U) := by
          simp only [List.append_assoc, List.cons_append]
          exact List.perm_middle.symm
      _ |>.Perm (A ++ s.busy ++ U) := (hb.symm.append_left A).append_right U
  have hlen := h.length_le ho
  rw [← hperm.length_eq] at hlen
  simp only [List.length_append, List.length_singleton] at hlen
  obtain ⟨m, hm, hidx⟩ := h.shown
  refine ⟨h.avail, h.used.push dvd_idx (by omega) i,
    ⟨m, by rw [List.length_append]; omega, hidx⟩, hperm.nodup_iff.2 h.nodup,
    fun d hd => h.owner d (hperm.mem_iff.1 hd), h.slot, fun d hd => ?_, fun v k a b e hv hU => ?_,
    fun v k a b e hv hd => List.mem_append_left _ (h.back v k a b e hv hd),
    fun v k hv => List.mem_append_left _ (h.finish v k hv)⟩
  · show upd s.status i 0 d = 0
    rw [upd_apply]
    split
    · rfl
    · rcases List.mem_append.1 hd with hd | hd
      · exact h.status d hd
      · exact absurd (List.mem_singleton.1 hd) ‹_›
  · rcases List.mem_append.1 hU with hU | hU
    · exact List.mem_append_left _ (h.served v k a b e hv hU)
    · have hai := List.mem_singleton.1 hU
      subst hai
      have hvu : v = u := by
        refine ho.disj v u a ?_ ?_
        · rw [Pc.held_of_flight (Pc.flight_of_waiting hv)]
          simp
        · rw [Pc.held_of_flight (Pc.flight_of_waiting hu)]
          simp
      subst hvu
      have hv' : (s.pc v).waiting = some (k, a, b, e) := hv
      rw [hu] at hv'
      cases hv'
      exact List.mem_append_right _ (List.mem_singleton.2 rfl)

omit [DecidableEq T] [DecidableEq B] in
theorem reveal (h : Queued s A U) {k : Nat} (hk : k ≤ (s.next + IDX - s.usedIdx) % IDX) :
    Queued { s with usedIdx := (s.usedIdx + k) % IDX } A U := by
  refine { h with shown := ?_ }
  obtain ⟨m, hm, hidx⟩ := h.shown
  have hnext := h.used.high
  have hlow := h.used.low
  have hlen := h.used.len
  rw [hidx, hnext] at hk
  refine ⟨m + k, ?_, ?_⟩
  · simp only [IDX, NUM] at hk hlow hlen
    omega
  · show (s.usedIdx + k) % IDX = _
    rw [hidx, Nat.mod_add_mod, Nat.add_assoc]

end Queued

end Xv6.Virtio
