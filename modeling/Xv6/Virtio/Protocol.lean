import Xv6.Virtio.Queue

/-!
# Every run of the driver and the device

Each step of a thread and of the device keeps the ownership of the descriptors, the chains and the
rings in order, and none of them ends in a panic.
-/

namespace Xv6.Virtio

open Xv6.Lib

variable {T B : Type}

/-- **The invariant.** -/
structure Inv (s : Sys T B) : Prop where
  owned : Owned s
  formed : Formed s
  queued : ∃ A U, Queued s A U

/-- A step ends well: it keeps the invariant, or it has to wait. -/
def Good (r : Except Stop (Sys T B)) : Prop :=
  match r with
  | .ok s => Inv s
  | .error e => e = .wait

namespace Inv

variable {s : Sys T B} {t : T}

theorem lock_none (hl : ¬ s.lock.isSome = true) : s.lock = none := by simpa using hl

theorem job (h : Inv s) {c c' : Pc B} (hpc : s.pc t = c) (hc : c'.job = c.job) :
    ∀ j, c'.job = some j → s.owner j.buf = some t := by
  intro j hj
  refine h.owned.buf t j ?_
  rw [hpc, ← hc]
  exact hj

variable [DecidableEq T]

theorem keep (h : Inv s) {s' : Sys T B} {c : Pc B}
    (hs : s' = { s with lock := s'.lock, calls := s'.calls, pc := upd s.pc t c })
    (hheld : c.held = (s.pc t).held) (hin : c.inLock = true → s'.lock = some t)
    (hother : ∀ u, u ≠ t → (s.pc u).inLock = true → s'.lock = some u)
    (hjob : ∀ j, c.job = some j → s.owner j.buf = some t)
    (hflight : c.flight = (s.pc t).flight) (hwait : c.waiting = (s.pc t).waiting)
    (hchain : ∀ j i left, c ≠ .chain j i left) (hpub : ∀ j i0 i1 i2, c ≠ .publish j i0 i1 i2)
    (hfin : c.finished = none) : Inv s' := by
  obtain ⟨A, U, hq⟩ := h.queued
  rw [hs]
  refine ⟨h.owned.keep rfl hheld rfl hin hother rfl hjob,
    h.formed.keep h.owned rfl rfl rfl rfl (fun j i0 i1 i2 hc => by rw [← hflight]; exact hc) hchain,
    A, U, hq.keep rfl ⟨rfl, rfl, rfl, rfl, rfl, rfl, rfl, rfl, rfl, rfl, rfl⟩ hwait hpub
      fun j hj => ?_⟩
  rw [hfin] at hj
  cases hj

variable {ids : List Nat} {j : Job B} {i0 i1 i2 : Nat}

theorem full (h : Inv s) (hpc : s.pc t = .alloc j ids) : Inv (s.goTo t (.undo j ids)) := by
  have hin : (s.pc t).inLock = true := by rw [hpc]; rfl
  refine h.keep (t := t) (c := .undo j ids) rfl (by rw [hpc]; rfl) (fun _ => h.owned.locked t hin)
    (fun u _ hu => h.owned.locked u hu) (h.job hpc rfl) (by rw [hpc]; rfl) (by rw [hpc]; rfl) ?_ ?_ rfl
  · intro _ _ _ hc
    cases hc
  · intro _ _ _ _ hc
    cases hc

theorem alloc (h : Inv s) (hpc : s.pc t = .alloc j ids) {i : Nat}
    (hf : (List.range NUM).find? s.free = some i) :
    Inv ({ s with free := upd s.free i false }.goTo t (.alloc j (ids ++ [i]))) := by
  obtain ⟨A, U, hq⟩ := h.queued
  have hin : (s.pc t).inLock = true := by rw [hpc]; rfl
  have hi : i < NUM := List.mem_range.1 (List.mem_of_find?_eq_some hf)
  have hfree : s.free i = true := List.find?_some hf
  refine ⟨h.owned.grow (t := t) (c := .alloc j (ids ++ [i])) rfl (by rw [hpc]; rfl) hi hfree rfl
    rfl hin rfl (h.job hpc rfl), ?_, A, U, ?_⟩
  · refine h.formed.keep (t := t) (c := .alloc j (ids ++ [i])) h.owned rfl rfl rfl rfl ?_ ?_
    · intro _ _ _ _ hc
      cases hc
    · intro _ _ _ hc
      cases hc
  · refine hq.keep (t := t) (c := .alloc j (ids ++ [i])) rfl
      ⟨rfl, rfl, rfl, rfl, rfl, rfl, rfl, rfl, rfl, rfl, rfl⟩ (by rw [hpc]; rfl) ?_ ?_
    · intro _ _ _ _ hc
      cases hc
    · intro _ hc
      cases hc

variable [DecidableEq B]

theorem good_alloc (h : Inv s) (hpc : s.pc t = .alloc j ids) (hne : ids.length ≠ 3) :
    Good (run s t (.alloc j ids)) := by
  have hrun : run s t (.alloc j ids) = .ok (((List.range NUM).find? s.free).elim (s.goTo t (.undo j ids))
      fun i => { s with free := upd s.free i false }.goTo t (.alloc j (ids ++ [i]))) := by
    rcases ids with _ | ⟨i0, _ | ⟨i1, _ | ⟨i2, _ | ⟨i3, ids⟩⟩⟩⟩
    case cons.cons.cons.nil => exact absurd rfl hne
    all_goals
      simp only [run, Sys.allocDesc]
      cases (List.range NUM).find? s.free <;> rfl
  rw [hrun]
  cases hf : (List.range NUM).find? s.free with
  | none => exact h.full hpc
  | some i => exact h.alloc hpc hf

omit [DecidableEq B] in
theorem free (h : Inv s) {i : Nat} {c : Pc B} (hheld : (s.pc t).held = i :: c.held)
    (hin : (s.pc t).inLock = true) (hjob : ∀ j, c.job = some j → s.owner j.buf = some t)
    (hflight : c.flight = none) (hwait : (s.pc t).waiting = none)
    (hchain : ∀ j k left, c = .chain j k left →
      left.head? = some k ∧ Linked (upd s.desc i Sys.zeroDesc) left)
    (hfin : ∀ j, c.finished = some j → (s.pc t).finished = some j) :
    Inv ({ s with desc := upd s.desc i Sys.zeroDesc, free := upd s.free i true }.goTo t c) := by
  obtain ⟨A, U, hq⟩ := h.queued
  have hnot : ∀ {j i0 i1 i2}, c.flight ≠ some (j, i0, i1, i2) := by
    intro j i0 i1 i2 hc
    rw [hflight] at hc
    cases hc
  refine ⟨h.owned.shrink rfl hheld rfl rfl hin rfl hjob, ?_, A, U, ?_⟩
  · refine h.formed.change h.owned rfl (fun d hd => ⟨upd_other _ _ ?_, rfl, rfl⟩)
      (fun j i0 i1 i2 hc => absurd hc hnot) hchain
    rintro rfl
    rw [hheld] at hd
    exact hd List.mem_cons_self
  · refine hq.keep rfl ⟨rfl, rfl, rfl, rfl, rfl, rfl, rfl, rfl, rfl, rfl, rfl⟩ ?_ ?_
      fun j hj => hq.finish t j (hfin j hj)
    · rw [hwait]
      cases c <;> first | rfl | cases hflight
    · rintro j i0 i1 i2 rfl
      cases hflight

theorem chain (h : Inv s) {i : Nat} {left : List Nat} (hpc : s.pc t = .chain j i left) :
    Good (run s t (.chain j i left)) := by
  obtain ⟨hhead, hlink⟩ := h.formed.chain t j i left hpc
  have hin : (s.pc t).inLock = true := by rw [hpc]; rfl
  cases left with
  | nil => cases hhead
  | cons k rest =>
    cases hhead
    have hheld : (s.pc t).held = i :: rest := by rw [hpc]; rfl
    have hnodup := h.owned.nodup t
    rw [hheld, List.nodup_cons] at hnodup
    have hd := h.owned.freeDesc (t := t) (i := i) (by rw [hheld]; exact List.mem_cons_self)
    simp only [run, hd]
    cases rest with
    | nil =>
      have hlast : (s.desc i).hasNext = false := hlink
      rw [hlast, if_neg (by simp)]
      refine h.free (c := .release j) hheld hin (h.job hpc rfl) rfl (by rw [hpc]; rfl) ?_ ?_
      · intro _ _ _ hc
        cases hc
      · intro _ hc
        rw [hpc]
        exact hc
    | cons k rest =>
      obtain ⟨hnext, hk, htail⟩ := hlink
      rw [hnext, if_pos rfl, hk]
      refine h.free (c := .chain j k (k :: rest)) hheld hin (h.job hpc rfl) rfl (by rw [hpc]; rfl) ?_ ?_
      · intro _ _ _ hc
        cases hc
        refine ⟨rfl, htail.congr fun x hx => upd_other _ _ ?_⟩
        rintro rfl
        exact hnodup.1 hx
      · intro _ hc
        rw [hpc]
        exact hc

theorem format (h : Inv s) (hpc : s.pc t = .format j i0 i1 i2) :
    Inv ((s.format j i0 i1 i2).goTo t (.publish j i0 i1 i2)) := by
  obtain ⟨A, U, hq⟩ := h.queued
  have hin : (s.pc t).inLock = true := by rw [hpc]; rfl
  have hheld : (s.pc t).held = [i0, i1, i2] := by rw [hpc]; rfl
  have hnodup := h.owned.nodup t
  rw [hheld] at hnodup
  simp only [List.nodup_cons, List.mem_cons, List.not_mem_nil, or_false, not_or] at hnodup
  obtain ⟨⟨h01, h02⟩, h12, -⟩ := hnodup
  refine ⟨h.owned.keep (t := t) (c := .publish j i0 i1 i2) rfl (by rw [hpc]; rfl) rfl
    (fun _ => h.owned.locked t hin) (fun u _ hu => h.owned.locked u hu) rfl (h.job hpc rfl), ?_,
    A, U, hq.format h.owned hpc⟩
  refine h.formed.change (t := t) (c := .publish j i0 i1 i2) h.owned rfl (fun d hd => ?_) ?_ ?_
  · rw [hheld] at hd
    simp only [List.mem_cons, List.not_mem_nil, or_false, not_or] at hd
    obtain ⟨hd0, hd1, hd2⟩ := hd
    refine ⟨?_, upd_other _ _ hd0, upd_other _ _ hd0⟩
    show upd (upd (upd s.desc i0 _) i1 _) i2 _ d = _
    rw [upd_other _ _ hd2, upd_other _ _ hd1, upd_other _ _ hd0]
  · intro k a b e hc
    cases hc
    refine ⟨upd_same _ _ _, ?_, ?_, upd_same _ _ _, upd_same _ _ _⟩
    · show upd (upd (upd s.desc i0 _) i1 _) i2 _ i0 = _
      rw [upd_other _ _ h02, upd_other _ _ h01, upd_same]
    · show upd (upd (upd s.desc i0 _) i1 _) i2 _ i1 = _
      rw [upd_other _ _ h12, upd_same]
  · intro _ _ _ hc
    cases hc

omit [DecidableEq B] in
theorem publish (h : Inv s) (hpc : s.pc t = .publish j i0 i1 i2) :
    Inv ({ s with availIdx := (s.availIdx + 1) % IDX }.goTo t (.wait j i0 i1 i2)) := by
  obtain ⟨A, U, hq⟩ := h.queued
  have hin : (s.pc t).inLock = true := by rw [hpc]; rfl
  refine ⟨h.owned.keep (t := t) (c := .wait j i0 i1 i2) rfl (by rw [hpc]; rfl) rfl
    (fun _ => h.owned.locked t hin) (fun u _ hu => h.owned.locked u hu) rfl (h.job hpc rfl), ?_,
    A ++ [i0], U, hq.publish h.owned hpc⟩
  refine h.formed.keep (t := t) (c := .wait j i0 i1 i2) h.owned rfl rfl rfl rfl ?_ ?_
  · intro k a b e hc
    rw [hpc]
    exact hc
  · intro _ _ _ hc
    cases hc

omit [DecidableEq B] in
theorem collect (h : Inv s) (hpc : s.pc t = .wait j i0 i1 i2) (hd : s.disk j.buf = false) :
    Inv ({ s with infoB := upd s.infoB i0 none }.goTo t (.chain j i0 [i0, i1, i2])) := by
  obtain ⟨A, U, hq⟩ := h.queued
  have hin : (s.pc t).inLock = true := by rw [hpc]; rfl
  have hheld : (s.pc t).held = [i0, i1, i2] := by rw [hpc]; rfl
  obtain ⟨-, h0, h1, h2, -⟩ := h.formed.flight t j i0 i1 i2 (by rw [hpc]; rfl)
  refine ⟨h.owned.keep (t := t) (c := .chain j i0 [i0, i1, i2]) rfl (by rw [hpc]; rfl) rfl
    (fun _ => h.owned.locked t hin) (fun u _ hu => h.owned.locked u hu) rfl (h.job hpc rfl), ?_,
    A, U, hq.collect hpc hd⟩
  refine h.formed.change (t := t) (c := .chain j i0 [i0, i1, i2]) h.owned rfl
    (fun d hd' => ⟨rfl, rfl, upd_other _ _ ?_⟩) ?_ ?_
  · rintro rfl
    rw [hheld] at hd'
    exact hd' List.mem_cons_self
  · intro _ _ _ _ hc
    cases hc
  · intro _ _ _ hc
    cases hc
    exact ⟨rfl, by rw [Sys.goTo, h0], by rw [Sys.goTo, h0], by rw [Sys.goTo, h1],
      by rw [Sys.goTo, h1], by rw [Sys.goTo]; show (s.desc i2).hasNext = false; rw [h2]⟩

theorem intr (h : Inv s) (hpc : s.pc t = .intr) : Good (run s t .intr) := by
  obtain ⟨A, U, hq⟩ := h.queued
  simp only [run]
  split
  · refine h.keep (t := t) (c := .idle) rfl (by rw [hpc]; rfl) (fun hc => by cases hc)
      (h.owned.others_of_holder (by rw [hpc]; rfl)) (fun j hj => by cases hj) (by rw [hpc]; rfl)
      (by rw [hpc]; rfl) ?_ ?_ rfl
    · intro _ _ _ hc
      cases hc
    · intro _ _ _ _ hc
      cases hc
  · rename_i hne
    obtain ⟨i, U', u, j, i1, i2, rfl, hid, hst, hu, hinfo⟩ := hq.entry h.formed hne
    rw [hid, hst, if_neg (by simp), hinfo]
    exact ⟨⟨h.owned.bound, h.owned.free, h.owned.nodup, h.owned.disj, h.owned.locked, h.owned.buf⟩,
      ⟨h.formed.flight, h.formed.chain⟩, A, U', hq.interrupt h.owned hne hu⟩

end Inv

variable [DecidableEq T] [DecidableEq B]

/-! ### Every step -/

/-- **A thread keeps the invariant** and does not panic. -/
theorem inv_run {s : Sys T B} (h : Inv s) (t : T) : Good (run s t (s.pc t)) := by
  have hno : ∀ {c : Pc B}, c.flight = none → ∀ j i0 i1 i2, c ≠ .publish j i0 i1 i2 := by
    rintro c hc j i0 i1 i2 rfl
    cases hc
  cases hpc : s.pc t with
  | idle => rfl
  | acquire j | waitFree j =>
    simp only [run]
    split
    · rfl
    · rename_i hl
      refine h.keep (t := t) (c := .alloc j []) rfl (by rw [hpc]; rfl) (fun _ => rfl)
        (h.owned.others_of_free (Inv.lock_none hl)) (h.job hpc rfl) (by rw [hpc]; rfl)
        (by rw [hpc]; rfl) ?_ (hno rfl) rfl
      intro _ _ _ hc
      cases hc
  | alloc j ids =>
    rcases ids with _ | ⟨i0, _ | ⟨i1, _ | ⟨i2, _ | ⟨i3, ids⟩⟩⟩⟩
    · exact h.good_alloc hpc (by simp)
    · exact h.good_alloc hpc (by simp)
    · exact h.good_alloc hpc (by simp)
    · simp only [run]
      have hin : (s.pc t).inLock = true := by rw [hpc]; rfl
      refine h.keep (t := t) (c := .format j i0 i1 i2) rfl (by rw [hpc]; rfl)
        (fun _ => h.owned.locked t hin) (fun u _ hu => h.owned.locked u hu) (h.job hpc rfl)
        (by rw [hpc]; rfl) (by rw [hpc]; rfl) ?_ (hno rfl) rfl
      intro _ _ _ hc
      cases hc
    · exact h.good_alloc hpc (by simp)
  | undo j ids =>
    cases ids with
    | nil =>
      simp only [run]
      refine h.keep (t := t) (c := .waitFree j) rfl (by rw [hpc]; rfl) (fun hc => by cases hc)
        (h.owned.others_of_holder (by rw [hpc]; rfl)) (h.job hpc rfl) (by rw [hpc]; rfl)
        (by rw [hpc]; rfl) ?_ (hno rfl) rfl
      intro _ _ _ hc
      cases hc
    | cons i ids =>
      have hheld : (s.pc t).held = i :: ids := by rw [hpc]; rfl
      have hd := h.owned.freeDesc (t := t) (i := i) (by rw [hheld]; exact List.mem_cons_self)
      simp only [run, hd]
      refine h.free (c := .undo j ids) hheld (by rw [hpc]; rfl) (h.job hpc rfl) rfl
        (by rw [hpc]; rfl) ?_ ?_
      · intro _ _ _ hc
        cases hc
      · intro _ hc
        cases hc
  | format j i0 i1 i2 => exact h.format hpc
  | publish j i0 i1 i2 => exact h.publish hpc
  | wait j i0 i1 i2 =>
    simp only [run]
    split
    · refine h.keep (t := t) (c := .asleep j i0 i1 i2) rfl (by rw [hpc]; rfl) (fun hc => by cases hc)
        (h.owned.others_of_holder (by rw [hpc]; rfl)) (h.job hpc rfl) (by rw [hpc]; rfl)
        (by rw [hpc]; rfl) ?_ ?_ rfl
      · intro _ _ _ hc
        cases hc
      · intro _ _ _ _ hc
        cases hc
    · rename_i hd
      exact h.collect hpc (by simpa using hd)
  | asleep j i0 i1 i2 =>
    simp only [run]
    split
    · rfl
    · rename_i hl
      refine h.keep (t := t) (c := .wait j i0 i1 i2) rfl (by rw [hpc]; rfl) (fun _ => rfl)
        (h.owned.others_of_free (Inv.lock_none hl)) (h.job hpc rfl) (by rw [hpc]; rfl)
        (by rw [hpc]; rfl) ?_ ?_ rfl
      · intro _ _ _ hc
        cases hc
      · intro _ _ _ _ hc
        cases hc
  | chain j i left => exact h.chain hpc
  | release j =>
    simp only [run]
    refine h.keep (t := t) (c := .idle) rfl (by rw [hpc]; rfl) (fun hc => by cases hc)
      (h.owned.others_of_holder (by rw [hpc]; rfl)) (fun j hj => by cases hj) (by rw [hpc]; rfl)
      (by rw [hpc]; rfl) ?_ (hno rfl) rfl
    intro _ _ _ hc
    cases hc
  | intrAcquire =>
    simp only [run]
    split
    · rfl
    · rename_i hl
      refine h.keep (t := t) (c := .intr) rfl (by rw [hpc]; rfl) (fun _ => rfl)
        (h.owned.others_of_free (Inv.lock_none hl)) (fun j hj => by cases hj) (by rw [hpc]; rfl)
        (by rw [hpc]; rfl) ?_ (hno rfl) rfl
      intro _ _ _ hc
      cases hc
  | intr => exact h.intr hpc

omit [DecidableEq T] [DecidableEq B] in
/-- A step outside of the threads and of the queue keeps the invariant. -/
theorem Inv.of_owner {s : Sys T B} (h : Inv s) {o : B → Option T}
    (ho : ∀ t j, (s.pc t).job = some j → o j.buf = some t) : Inv { s with owner := o } := by
  obtain ⟨A, U, hq⟩ := h.queued
  exact ⟨⟨h.owned.bound, h.owned.free, h.owned.nodup, h.owned.disj, h.owned.locked, ho⟩,
    ⟨h.formed.flight, h.formed.chain⟩, A, U, hq.avail, hq.used, hq.shown, hq.nodup, hq.owner, hq.slot,
    hq.status, hq.served, hq.back, hq.finish⟩

omit [DecidableEq T] [DecidableEq B] in
theorem Inv.of_device {s s' : Sys T B} (h : Inv s) {A U : List Nat} (hq : Queued s' A U)
    (hs : s' = { s with
      status := s'.status, used := s'.used, usedIdx := s'.usedIdx, seen := s'.seen,
      busy := s'.busy, next := s'.next, served := s'.served }) : Inv s' := by
  refine ⟨?_, ?_, A, U, hq⟩
  · rw [hs]
    exact ⟨h.owned.bound, h.owned.free, h.owned.nodup, h.owned.disj, h.owned.locked, h.owned.buf⟩
  · rw [hs]
    exact ⟨h.formed.flight, h.formed.chain⟩

omit [DecidableEq B] in
theorem Inv.enter {s : Sys T B} (h : Inv s) {t : T} (hpc : s.pc t = .idle) {c : Pc B} {n : Nat}
    (hheld : c.held = []) (hlock : c.inLock = false) (hflight : c.flight = none)
    (hwait : c.waiting = none) (hfin : c.finished = none)
    (hjob : ∀ j, c.job = some j → s.owner j.buf = some t) :
    Inv ({ s with calls := n }.goTo t c) := by
  refine h.keep (t := t) (c := c) rfl (by rw [hpc]; exact hheld) (fun hc => ?_)
    (fun u _ hu => h.owned.locked u hu) hjob (by rw [hpc]; exact hflight) (by rw [hpc]; exact hwait)
    ?_ ?_ hfin
  · rw [hlock] at hc
    cases hc
  · rintro j i left rfl
    cases hfin
  · rintro j i0 i1 i2 rfl
    cases hflight

/-- **Every step keeps the invariant**, or has to wait. -/
theorem inv_step {s : Sys T B} (h : Inv s) (a : Act T B) : Good (step s a) := by
  cases a with
  | lockBuf t b =>
    simp only [step]
    split
    · rfl
    · rename_i hb
      have hnone : s.owner b = none := by simpa using hb
      refine h.of_owner fun u j hj => ?_
      have hold := h.owned.buf u j hj
      rw [upd_other]
      · exact hold
      · intro heq
        rw [heq, hnone] at hold
        cases hold
  | unlockBuf t b =>
    cases hpc : s.pc t with
    | idle =>
      simp only [step, hpc]
      split
      · rename_i hb
        refine h.of_owner fun u j hj => ?_
        have hold := h.owned.buf u j hj
        rw [upd_other]
        · exact hold
        · intro heq
          -- the holder is idle, so it has no call under way
          rw [heq, hb] at hold
          cases hold
          rw [hpc] at hj
          cases hj
      · rfl
    | _ =>
      simp only [step, hpc]
      rfl
  | rw t b blockno write =>
    cases hpc : s.pc t with
    | idle =>
      simp only [step, hpc]
      split
      · rename_i hb
        refine h.enter hpc rfl rfl rfl rfl rfl fun j hj => ?_
        cases hj
        exact hb
      · rfl
    | _ =>
      simp only [step, hpc]
      rfl
  | interrupt t =>
    cases hpc : s.pc t with
    | idle =>
      simp only [step, hpc]
      exact h.enter (n := s.calls) hpc rfl rfl rfl rfl rfl fun j hj => by cases hj
    | _ =>
      simp only [step, hpc]
      rfl
  | go t => exact inv_run h t
  | fetch =>
    obtain ⟨A, U, hq⟩ := h.queued
    simp only [step]
    split
    · rfl
    · rename_i hne
      obtain ⟨A', hq'⟩ := hq.fetch hne
      exact h.of_device hq' rfl
  | serve i =>
    obtain ⟨A, U, hq⟩ := h.queued
    simp only [step]
    split
    · rename_i hi
      obtain ⟨u, j, i1, i2, hu, hs⟩ := hq.serve_eq h.formed hi
      rw [hs]
      exact h.of_device (hq.serve h.owned hi hu) rfl
    · rfl
  | reveal k =>
    obtain ⟨A, U, hq⟩ := h.queued
    simp only [step]
    split
    · rename_i hk
      exact h.of_device (hq.reveal hk) rfl
    · rfl

omit [DecidableEq T] [DecidableEq B] in
theorem inv_start : Inv (start : Sys T B) where
  owned :=
    { bound := fun t d hd => by cases hd
      free := fun d _ => iff_of_false (by simp [start]) fun ⟨t, ht⟩ => by cases ht
      nodup := fun t => List.nodup_nil
      disj := fun t u d hd => by cases hd
      locked := fun t ht => by cases ht
      buf := fun t j hj => by cases hj }
  formed :=
    { flight := fun t j i0 i1 i2 h => by cases h
      chain := fun t j i left h => by cases h }
  queued := ⟨[], [],
    { avail := ⟨Nat.zero_le _, Nat.two_pow_pos 16, rfl, fun k hk => by cases hk⟩
      used := ⟨Nat.zero_le _, Nat.two_pow_pos 16, rfl, fun k hk => by cases hk⟩
      shown := ⟨0, Nat.le_refl _, rfl⟩
      nodup := List.nodup_nil
      owner := fun i hi => by cases hi
      slot := fun t j i0 i1 i2 h => by cases h
      status := fun i hi => by cases hi
      served := fun t j i0 i1 i2 h => by cases h
      back := fun t j i0 i1 i2 h => by cases h
      finish := fun t j h => by cases h }⟩

/-! ### Every run -/

end Xv6.Virtio
