import Xv6.Wait.Inv

/-!
# Every step keeps the invariant

`Inv.soft` and `Inv.firm` are the two ways in which the invariant is kept: by a step that
leaves the tree and the zombies alone, and by a step of the process that holds
`wait_lock`.  The lemmas after them are their instances for the regions of the source;
`inv_step` puts them together, `inv_reached` is the invariant of every run.
-/

namespace Xv6.Wait

open Xv6.Lib

variable {s s' : Sys} {i q : Fin NPROC} {c : Pc} {p' : Proc}

/-! ### The two rules -/

/-- A step that leaves the tree and the zombies alone keeps the invariant. -/
theorem Inv.soft (h : Inv s) {x y : Option (Fin NPROC)} (hs : Soft s s' x y)
    (hpc : s'.pc = upd s.pc i c) (htree : TreeInv s'.proc s'.initproc s'.nextpid)
    (hn : 1 ≤ s'.nextpid) (hx : ∀ np, x = some np → (s.pc i).child = some np)
    (hy : ∀ k, y = some k → k = i)
    (hheld : ∀ k, s'.waitLock = some k ↔ (s'.pc k).holds = true)
    (hrun : ∀ k, (s'.pc k).holds = true → (s'.proc k).state = .running)
    (hi : c ≠ .user → (s.proc i).state.live = true)
    (hinj : ∀ np, c.child = some np → ∀ k, k ≠ i → (s.pc k).child ≠ some np)
    (hown : PcOk s' i c)
    (hwin : ∀ st k q, s.pc i = .wakeInit st k q → q ≤ s.initproc.val →
      (∃ st' k' q', c = .wakeInit st' k' q' ∧ q' ≤ s.initproc.val) ∨ ¬s'.Asleep s.initproc) :
    Inv s' := by
  have hsame : s'.pc i = c := by rw [hpc, upd_same]
  have hother : ∀ k, k ≠ i → s'.pc k = s.pc k := fun k hk => by rw [hpc, upd_other _ _ hk]
  refine ⟨htree, hn, fun k => ?_, hheld, hrun, fun k hk => ?_, fun k k' np hk hk' => ?_, ?_⟩
  · by_cases hki : k = i
    · subst hki
      rw [hsame]
      exact hown
    · rw [hother k hki]
      refine (h.pcs k).soft hs (fun hyk => hki (hy k hyk)) fun np hnp hxn => ?_
      exact h.child_ne hki np hnp (hx np hxn)
  · by_cases hki : k = i
    · subst hki
      exact hs.live k (hi (by rwa [hsame] at hk))
    · rw [hother k hki] at hk
      exact hs.live k (h.alive k hk)
  · by_cases hki : k = i
    · subst hki
      by_contra hne
      rw [hsame] at hk
      rw [hother k' (Ne.symm hne)] at hk'
      exact hinj np hk k' (Ne.symm hne) hk'
    · by_cases hki' : k' = i
      · subst hki'
        rw [hsame] at hk'
        rw [hother k hki] at hk
        exact absurd hk (hinj np hk' k hki)
      · rw [hother k hki] at hk
        rw [hother k' hki'] at hk'
        exact h.child_inj k k' np hk hk'
  · intro k w j hk hsl hj hz hwant
    obtain ⟨hk', hsl'⟩ := hs.asleep k w hk hsl
    rw [hs.parent] at hj
    rw [hs.zombie] at hz
    rw [(hs.pid j (by rw [hz]; simp)).2] at hwant
    obtain ⟨rfl, z, st, k', q, hz', hq⟩ := h.missed k w j hk' hsl' hj hz hwant
    rw [hs.initproc]
    refine ⟨rfl, ?_⟩
    by_cases hzi : z = i
    · subst hzi
      rcases hwin st k' q hz' hq with ⟨st', k'', q', hc, hq'⟩ | hna
      · exact ⟨z, st', k'', q', by rw [hsame, hc], hq'⟩
      · exact absurd ⟨⟨w, hk⟩, hsl⟩ hna
    · exact ⟨z, st, k', q, by rw [hother z hzi, hz'], hq⟩

/-- A step of the one process that may use what `wait_lock` protects keeps the invariant. -/
theorem Inv.firm (h : Inv s) (hf : Firm s s' i) (hpc : s'.pc = upd s.pc i c)
    (htree : TreeInv s'.proc s'.initproc s'.nextpid) (hn : 1 ≤ s'.nextpid)
    (hmine : (s.pc i).holds = true ∨ s.waitLock = none)
    (hheld : ∀ k, s'.waitLock = some k ↔ (s'.pc k).holds = true)
    (hrun : (s'.pc i).holds = true → (s'.proc i).state = .running)
    (hi : c ≠ .user → (s'.proc i).state.live = true)
    (hlive : ∀ k, k ≠ i → (s.proc k).state.live = true → (s'.proc k).state.live = true)
    (hinj : ∀ np, c.child = some np → (s.pc i).child = some np)
    (hown : PcOk s' i c)
    (hmissed : ∀ k w j, s'.pc k = .asleep w → (s'.proc k).state = .sleeping →
      (s'.proc j).parent = some k → (s'.proc j).state = .zombie → w.wants (s'.proc j).pid →
      k = s'.initproc ∧ ∃ h st k q, s'.pc h = .wakeInit st k q ∧ q ≤ s'.initproc.val) :
    Inv s' := by
  have hsame : s'.pc i = c := by rw [hpc, upd_same]
  have hother : ∀ k, k ≠ i → s'.pc k = s.pc k := fun k hk => by rw [hpc, upd_other _ _ hk]
  have hfree : ∀ k, k ≠ i → (s.pc k).holds = false := by
    intro k hk
    rcases hmine with hm | hl
    · exact h.alone hm hk
    · exact h.free hl
  refine ⟨htree, hn, fun k => ?_, hheld, fun k hk => ?_, fun k hk => ?_,
    fun k k' np hk hk' => ?_, hmissed⟩
  · by_cases hki : k = i
    · subst hki
      rw [hsame]
      exact hown
    · rw [hother k hki]
      exact (h.pcs k).firm hf hki (hfree k hki) (h.child_ne hki)
  · by_cases hki : k = i
    · subst hki
      exact hrun hk
    · rw [hother k hki, hfree k hki] at hk
      cases hk
  · by_cases hki : k = i
    · subst hki
      exact hi (by rwa [hsame] at hk)
    · rw [hother k hki] at hk
      exact hlive k hki (h.alive k hk)
  · have hback : ∀ z, (s'.pc z).child = some np → (s.pc z).child = some np := by
      intro z hz
      by_cases hzi : z = i
      · subst hzi
        rw [hsame] at hz
        exact hinj np hz
      · rwa [hother z hzi] at hz
    exact h.child_inj k k' np (hback k hk) (hback k' hk')

/-! ### Calm steps -/

theorem asleep_of_upd {pc : Fin NPROC → Pc} (hc : ∀ w, c = .asleep w → pc i = .asleep w)
    {k : Fin NPROC} {w : Target} (hk : upd pc i c k = .asleep w) : pc k = .asleep w := by
  by_cases hki : k = i
  · subst hki
    rw [upd_same] at hk
    exact hc w hk
  · rwa [upd_other _ _ hki] at hk

/-- Who holds `wait_lock` after a step at which nobody acquires it was running before. -/
theorem running_of_upd (h : Inv s) (hc : c.holds = true → (s.pc i).holds = true)
    {k : Fin NPROC} (hk : (upd s.pc i c k).holds = true) :
    (s.pc k).holds = true ∧ (s.proc k).state = .running := by
  have hk' : (s.pc k).holds = true := by
    by_cases hki : k = i
    · subst hki
      rw [upd_same] at hk
      exact hc hk
    · rwa [upd_other _ _ hki] at hk
  exact ⟨hk', h.running k hk'⟩

/-- The same if also the slot `q` changes, of a process that does not have the lock. -/
theorem running_of_upd_slot (h : Inv s) (hc : c.holds = true → (s.pc i).holds = true)
    (hq : (s.pc q).holds = true → (s.proc q).state ≠ .running) {k : Fin NPROC}
    (hk : (upd s.pc i c k).holds = true) : (upd s.proc q p' k).state = .running := by
  obtain ⟨hk', hr⟩ := running_of_upd h hc hk
  have hkq : k ≠ q := by
    rintro rfl
    exact hq hk' hr
  rw [upd_other _ _ hkq]
  exact hr

/-- The process goes on, and has the lock or not as before. -/
theorem Inv.held_same (h : Inv s) (hc : c.holds = (s.pc i).holds) (k : Fin NPROC) :
    s.waitLock = some k ↔ (upd s.pc i c k).holds = true :=
  held_upd h.held (by rw [h.held i, hc]) (fun _ _ => Iff.rfl) k

/-- A change of the one slot `q` is soft if it is for that slot. -/
theorem soft_upd {x y : Option (Fin NPROC)} (hp : s'.proc = upd s.proc q p') (hinit : s'.initproc = s.initproc)
    (hpc : ∀ k w, s'.pc k = .asleep w → s.pc k = .asleep w) (hparent : p'.parent = (s.proc q).parent)
    (hzombie : p'.state = .zombie ↔ (s.proc q).state = .zombie)
    (hused : (s.proc q).state = .used → x ≠ some q → p'.state = .used)
    (hpid : (s.proc q).state ≠ .unused → p'.state ≠ .unused ∧ p'.pid = (s.proc q).pid)
    (hlive : (s.proc q).state.live = true → p'.state.live = true)
    (hasleep : ∀ w, s.pc q = .asleep w → p'.state = .sleeping → (s.proc q).state = .sleeping)
    (hchan : y ≠ some q → p'.state = .sleeping → (s.proc q).state = .sleeping ∧ p'.chan = (s.proc q).chan) :
    Soft s s' x y := by
  have hsame : s'.proc q = p' := by rw [hp, upd_same]
  have hother : ∀ j, j ≠ q → s'.proc j = s.proc j := fun j hj => by rw [hp, upd_other _ _ hj]
  refine ⟨hinit, fun j => ?_, fun j => ?_, fun j hj hx => ?_, fun j hj => ?_, fun j hj => ?_,
    fun j w hw hsl => ⟨hpc j w hw, ?_⟩, fun j hy hsl => ?_⟩ <;> by_cases hjq : j = q
  · rw [hjq, hsame, hparent]
  · rw [hother j hjq]
  · rw [hjq, hsame, hzombie]
  · rw [hother j hjq]
  · subst hjq
    rw [hsame]
    exact hused hj hx
  · rw [hother j hjq, hj]
  · subst hjq
    rw [hsame]
    exact hpid hj
  · rw [hother j hjq]
    exact ⟨hj, rfl⟩
  · subst hjq
    rw [hsame]
    exact hlive hj
  · rw [hother j hjq]
    exact hj
  · subst hjq
    rw [hsame] at hsl
    exact hasleep w (hpc j w hw) hsl
  · rwa [hother j hjq] at hsl
  · subst hjq
    rw [hsame] at hsl ⊢
    exact hchan hy hsl
  · rw [hother j hjq] at hsl ⊢
    exact ⟨hsl, rfl⟩

theorem soft_calm (hc : Calm (s.proc q) p') (hp : s'.proc = upd s.proc q p')
    (hinit : s'.initproc = s.initproc)
    (hpc : ∀ k w, s'.pc k = .asleep w → s.pc k = .asleep w) : Soft s s' none none := by
  have hlive := hc.live
  have hsleep : p'.state = .sleeping → (s.proc q).state = .sleeping ∧ p'.chan = (s.proc q).chan := by
    intro hj
    rcases hc.state with ⟨he, hch⟩ | ⟨_, he | he⟩
    · rw [he] at hj
      exact ⟨hj, hch hj⟩
    · rw [he] at hj; cases hj
    · rw [he] at hj; cases hj
  refine soft_upd hp hinit hpc hc.parent ⟨fun hz => ?_, fun hz => ?_⟩ (fun hu _ => ?_)
    (fun hu => ⟨fun hu' => ?_, hc.pid⟩)
    (fun hl => hlive.trans hl) (fun w _ hs => (hsleep hs).1) fun _ => hsleep
  · rw [← hc.state_eq (by rw [← hlive, hz]; rfl), hz]
  · rw [hc.state_eq (by rw [hz]; rfl), hz]
  · rw [hc.state_eq (by rw [hu]; rfl), hu]
  · exact hu (by rw [← hc.state_eq (by rw [← hlive, hu']; rfl), hu'])

theorem Inv.calm (h : Inv s) (hc : Calm (s.proc q) p') (hholds : c.holds = (s.pc i).holds)
    (hq : (s.pc q).holds = true → p'.state = .running)
    (hi : c ≠ .user → (s.proc i).state.live = true)
    (hchild : ∀ np, c.child = some np → (s.pc i).child = some np)
    (hasl : ∀ w, c = .asleep w → s.pc i = .asleep w)
    (hown : PcOk ((s.setProc q p').setPc i c) i c)
    (hwin : ∀ st k x, s.pc i = .wakeInit st k x → x ≤ s.initproc.val →
      (∃ st' k' x', c = .wakeInit st' k' x' ∧ x' ≤ s.initproc.val) ∨
        ¬((s.setProc q p').setPc i c).Asleep s.initproc) :
    Inv ((s.setProc q p').setPc i c) := by
  have hholds' : ∀ k, (upd s.pc i c k).holds = (s.pc k).holds := by
    intro k
    by_cases hk : k = i
    · subst hk
      rw [upd_same, hholds]
    · rw [upd_other _ _ hk]
  refine h.soft (soft_calm hc rfl rfl fun k w => asleep_of_upd hasl) rfl (h.tree.calm hc) h.nextpid
    nofun nofun (fun k => ?_) (fun k hk => ?_) hi
    (fun np hnp k hk => h.child_ne (Ne.symm hk) np (hchild np hnp)) hown hwin
  · show s.waitLock = some k ↔ (upd s.pc i c k).holds = true
    rw [hholds']
    exact h.held k
  · have hk' : (s.pc k).holds = true := (hholds' k).symm.trans hk
    show (upd s.proc q p' k).state = .running
    by_cases hkq : k = q
    · subst hkq
      rw [upd_same]
      exact hq hk'
    · rw [upd_other _ _ hkq]
      exact h.running k hk'

theorem setProc_self (s : Sys) (i : Fin NPROC) : s.setProc i (s.proc i) = s := by
  rw [Sys.setProc, upd_self]

theorem setPc_self (s : Sys) (i : Fin NPROC) : s.setPc i (s.pc i) = s := by
  rw [Sys.setPc, upd_self]

/-- What a process relies on survives a calm change, wherever it goes on. -/
theorem PcOk.calm {k : Fin NPROC} (h : PcOk s k c) (hc : Calm (s.proc q) p')
    (hasl : ∀ w, c = .asleep w → s.pc i = .asleep w) :
    PcOk ((s.setProc q p').setPc i c) k c := by
  exact h.soft (soft_calm hc rfl rfl fun k' w => asleep_of_upd hasl) (by simp) (by simp)

/-- The process `i` goes on at `c`, where it holds `wait_lock` if it did before. -/
theorem Inv.goto (h : Inv s) (hholds : c.holds = (s.pc i).holds)
    (hi : c ≠ .user → (s.proc i).state.live = true) (hchild : c.child = none)
    (hasl : ∀ w, c ≠ .asleep w) (hown : PcOk s i c)
    (hwin : ∀ st k x, s.pc i = .wakeInit st k x → s.initproc.val < x) : Inv (s.setPc i c) := by
  have hr : (s.pc i).holds = true → (s.proc i).state = .running := h.running i
  have := h.calm (Calm.refl (s.proc i)) hholds hr hi (fun np hnp => by rw [hchild] at hnp; cases hnp)
    (fun w hw => absurd hw (hasl w)) (hown.calm (Calm.refl _) fun w hw => absurd hw (hasl w))
    (fun st k x hpc hx => absurd (hwin st k x hpc) (by omega))
  rwa [setProc_self] at this

theorem Inv.calmSlot (h : Inv s) (hc : Calm (s.proc q) p')
    (hq : (s.pc q).holds = true → p'.state = .running) : Inv (s.setProc q p') := by
  have hpc := h.calm (i := q) (c := s.pc q) hc rfl hq (h.alive q) (fun _ h => h) (fun _ h => h)
    ((h.pcs q).calm hc fun _ h => h) fun st k x hx hle => .inl ⟨st, k, x, hx, hle⟩
  have hid : (s.setProc q p').setPc q (s.pc q) = s.setProc q p' := setPc_self (s.setProc q p') q
  rwa [hid] at hpc

/-! ### Acquiring and releasing `wait_lock` -/

theorem soft_pc (hp : s'.proc = s.proc) (hinit : s'.initproc = s.initproc)
    (hpc : ∀ k w, s'.pc k = .asleep w → s.pc k = .asleep w) : Soft s s' none none := by
  refine soft_calm (q := s.initproc) (Calm.refl _) ?_ hinit hpc
  rw [hp]
  exact (congrArg Sys.proc (setProc_self s s.initproc)).symm

theorem Inv.acquire (h : Inv s) (hl : s.waitLock = none) (hc : c.holds = true)
    (hr : (s.proc i).state = .running) (hchild : c.child = none) (hown : PcOk s i c) :
    Inv ((s.lock i).setPc i c) := by
  have hnasl : ∀ w, c ≠ .asleep w := by
    rintro w rfl
    cases hc
  have hsoft : Soft s ((s.lock i).setPc i c) none none :=
    soft_pc rfl rfl fun k w => asleep_of_upd fun w hw => absurd hw (hnasl w)
  refine h.soft hsoft rfl h.tree h.nextpid nofun nofun
    (fun k => ?_) (fun k hk => ?_) (fun _ => by rw [hr]; rfl)
    (fun np hnp => by rw [hchild] at hnp; cases hnp) (hown.soft hsoft (by simp) (by simp)) ?_
  · refine held_upd h.held ⟨fun _ => hc, fun _ => rfl⟩ (fun k hk => ?_) k
    rw [hl]
    constructor
    · intro he
      exact absurd (Option.some.inj he).symm hk
    · intro he
      cases he
  · by_cases hki : k = i
    · subst hki
      exact hr
    · have hk' : (s.pc k).holds = true := by
        rw [← upd_other s.pc c hki]
        exact hk
      rw [h.free hl] at hk'
      cases hk'
  · intro st k x hx _
    have : (s.pc i).holds = true := by rw [hx]; rfl
    rw [h.free hl] at this
    cases this

theorem Inv.release (h : Inv s) (hhold : (s.pc i).holds = true)
    (hwin : ∀ st k x, s.pc i ≠ .wakeInit st k x) : Inv (s.unlock.setPc i .user) := by
  have hsoft : Soft s (s.unlock.setPc i .user) none none :=
    soft_pc rfl rfl fun k w => asleep_of_upd fun w hw => by cases hw
  refine h.soft hsoft rfl h.tree h.nextpid nofun nofun
    (fun k => ?_) (fun k hk => (running_of_upd h (fun hu => by cases hu) hk).2) (fun hu => absurd rfl hu)
    nofun trivial fun st k x hx => absurd hx (hwin st k x)
  · refine held_upd h.held ⟨fun he => (by cases he), fun he => (by cases he)⟩ (fun k hk => ?_) k
    rw [(h.held i).2 hhold]
    constructor
    · intro he
      cases he
    · intro he
      exact absurd (Option.some.inj he).symm hk

/-! ### Fork -/

theorem soft_alloc (hq : (s.proc q).state = .unused) (hqp : (s.proc q).parent = none)
    (hp' : p'.parent = none) (hs' : p'.state = .unused ∨ p'.state = .used)
    (hp : s'.proc = upd s.proc q p') (hinit : s'.initproc = s.initproc)
    (hpc : ∀ k w, s'.pc k = .asleep w → s.pc k = .asleep w) : Soft s s' none none := by
  have hns : p'.state ≠ .sleeping ∧ p'.state ≠ .zombie := by
    rcases hs' with hs | hs
    · rw [hs]; simp
    · rw [hs]; simp
  refine soft_upd hp hinit hpc (hp'.trans hqp.symm) ?_ (fun hu => ?_) (fun hu => absurd hq hu) (fun hl => ?_)
    (fun w _ hs => absurd hs hns.1) fun _ hs => absurd hs hns.1
  · rw [hq]
    exact ⟨fun hz => absurd hz hns.2, fun hz => by cases hz⟩
  · rw [hq] at hu; cases hu
  · rw [hq] at hl; cases hl

theorem Inv.alloc (h : Inv s) (hi : (s.proc i).state = .running) (hpc : (s.pc i).holds = false)
    (hq : (s.proc q).state = .unused) (hp' : p'.parent = none) (hs' : p'.state = .used)
    (hpid : p'.pid = s.nextpid) :
    Inv ((({ s with nextpid := s.nextpid + 1 } : Sys).setProc q p').setPc i (.adopt q)) := by
  have hqp := h.tree.unused q hq
  have hiq : i ≠ q := by
    rintro rfl
    rw [hi] at hq
    cases hq
  have hn := h.nextpid
  refine h.soft (soft_alloc hq hqp hp' (.inr hs') rfl rfl
    fun k w => asleep_of_upd fun w hw => by cases hw) rfl (h.tree.alloc h.nextpid hq hp' hs' hpid) ?_ nofun nofun
    (fun k => ?_) (fun k hk => ?_) (fun _ => by rw [hi]; rfl) (fun np hnp k hk hck => ?_) ?_ ?_
  · show 1 ≤ s.nextpid + 1
    omega
  · exact h.held_same (by rw [hpc]; rfl) k
  · exact running_of_upd_slot h (fun hu => by cases hu) (fun _ hr => by rw [hq] at hr; cases hr) hk
  · -- nobody else is forking a slot that was free
    cases hnp
    have hused : (s.proc q).state = .used := by
      have := h.pcs k
      cases hc : s.pc k with
      | adopt np | launch np => rw [hc] at this hck; cases hck; exact this.1
      | _ => rw [hc] at hck; cases hck
    rw [hused] at hq
    cases hq
  · show (upd s.proc q p' q).state = .used ∧ (upd s.proc q p' q).parent = none
    rw [upd_same]
    exact ⟨hs', hp'⟩
  · intro st k x hx _
    rw [hx] at hpc
    cases hpc

theorem Inv.unalloc (h : Inv s) (hpc : (s.pc i).holds = false)
    (hq : (s.proc q).state = .unused) (hp' : p'.parent = none) (hs' : p'.state = .unused) :
    Inv ((({ s with nextpid := s.nextpid + 1 } : Sys).setProc q p').setPc i .user) := by
  have hn := h.nextpid
  refine h.soft (soft_alloc hq (h.tree.unused q hq) hp' (.inl hs') rfl rfl
    fun k w => asleep_of_upd fun w hw => by cases hw) rfl (h.tree.unalloc hq hp' hs') ?_ nofun
    nofun (fun k => ?_) (fun k hk => ?_) (fun hu => absurd rfl hu)
    nofun trivial ?_
  · show 1 ≤ s.nextpid + 1
    omega
  · exact h.held_same (by rw [hpc]; rfl) k
  · exact running_of_upd_slot h (fun hu => by cases hu) (fun _ hr => by rw [hq] at hr; cases hr) hk
  · intro st k x hx _
    rw [hx] at hpc
    cases hpc

theorem Inv.launch (h : Inv s) (hpc : s.pc i = .launch q) :
    Inv ((s.setProc q { s.proc q with state := .runnable }).setPc i .user) := by
  have hok := h.pcs i
  rw [hpc] at hok
  obtain ⟨hq, hqp⟩ := hok
  have hsoft : Soft s ((s.setProc q { s.proc q with state := .runnable }).setPc i .user)
      (some q) none := by
    refine soft_upd rfl rfl (fun k w => asleep_of_upd fun w hw => by cases hw) rfl ?_ (fun _ hx => absurd rfl hx)
      (fun _ => ⟨by simp, rfl⟩) (fun _ => rfl) nofun fun _ hs => by cases hs
    rw [hq]
    simp
  refine h.soft hsoft rfl (h.tree.launch hq (by rw [hqp]; simp)) h.nextpid
    (fun np hx => by rw [hpc]; exact hx) nofun (fun k => ?_) (fun k hk => ?_)
    (fun hu => absurd rfl hu) nofun trivial ?_
  · exact h.held_same (by rw [hpc]; rfl) k
  · exact running_of_upd_slot h (fun hu => by cases hu) (fun _ hr => by rw [hq] at hr; cases hr) hk
  · intro st k x hx _
    rw [hx] at hpc
    cases hpc

theorem Inv.sleep (h : Inv s) (hi : (s.proc i).state = .running) (hpc : s.pc i = .user)
    (chan : Nat) :
    Inv ((s.setProc i { s.proc i with chan, state := .sleeping }).setPc i .slept) := by
  have hsoft : Soft s ((s.setProc i { s.proc i with chan, state := .sleeping }).setPc i .slept)
      none (some i) := by
    refine soft_upd rfl rfl (fun k w => asleep_of_upd fun w hw => by cases hw) rfl ?_ (fun hu => ?_)
      (fun _ => ⟨by simp, rfl⟩) (fun _ => rfl) (fun w hw _ => ?_) fun hy => absurd rfl hy
    · rw [hi]
      simp
    · rw [hi] at hu; cases hu
    · rw [hpc] at hw; cases hw
  refine h.soft hsoft rfl (h.tree.stir (by rw [hi]; rfl) rfl rfl rfl) h.nextpid
    nofun (fun k hk => (Option.some.inj hk).symm) (fun k => ?_)
    (fun k hk => ?_) (fun _ => by rw [hi]; rfl) nofun trivial ?_
  · exact h.held_same (by rw [hpc]; rfl) k
  · exact running_of_upd_slot h (fun hu => by cases hu) (fun hh => by rw [hpc] at hh; cases hh) hk
  · intro st k x hx _
    rw [hx] at hpc
    cases hpc

/-! ### Steps under `wait_lock` -/

theorem firm_upd (hp : s'.proc = upd s.proc q p') (hinit : s'.initproc = s.initproc)
    (hused : (s.proc q).state = .used → (s.proc q).parent = some i ∨ (s.pc i).child = some q)
    (hsleep : q ≠ i → p'.state = .sleeping →
      (s.proc q).state = .sleeping ∧ p'.chan = (s.proc q).chan) : Firm s s' i := by
  refine ⟨hinit, fun j hj hjp hjc => ?_, fun j hj hsl => ?_⟩
  · have hjq : j ≠ q := by
      rintro rfl
      rcases hused hj with hp' | hc
      · exact hjp hp'
      · exact hjc hc
    rw [hp, upd_other _ _ hjq]
    exact ⟨hj, rfl⟩
  · rw [hp] at hsl ⊢
    by_cases hjq : j = q
    · subst hjq
      rw [upd_same] at hsl ⊢
      exact hsleep hj hsl
    · rw [upd_other _ _ hjq] at hsl ⊢
      exact ⟨hsl, rfl⟩

theorem Inv.not_missed (h : Inv s) (p' : Proc) (hp : s'.proc = upd s.proc q p')
    (hw : ∀ st k x, s.pc i ≠ .wakeInit st k x)
    (hlock : (s.pc i).holds = true ∨ s.waitLock = none)
    (hq : p'.state = .sleeping → (s.proc q).state = .sleeping) {k j : Fin NPROC} {w : Target}
    (hk : s.pc k = .asleep w) (hsl : (s'.proc k).state = .sleeping)
    (hj : (s'.proc j).parent = some k) (hz : (s'.proc j).state = .zombie) (hjq : j ≠ q) :
    ¬w.wants (s'.proc j).pid := by
  rw [hp, upd_other _ _ hjq] at hj hz ⊢
  refine h.no_window hw hlock hk ?_ hj hz
  rw [hp] at hsl
  by_cases hkq : k = q
  · subst hkq
    rw [upd_same] at hsl
    exact hq hsl
  · rwa [upd_other _ _ hkq] at hsl

theorem Inv.adopt (h : Inv s) (hi : (s.proc i).state = .running) (hpc : s.pc i = .adopt q)
    (hl : s.waitLock = none) :
    Inv ((s.setProc q { s.proc q with parent := some i }).setPc i (.launch q)) := by
  have hok := h.pcs i
  rw [hpc] at hok
  obtain ⟨hq, hqp⟩ := hok
  have hiq : i ≠ q := by
    rintro rfl
    rw [hi] at hq
    cases hq
  have hlive : (s.proc i).state.live = true := by rw [hi]; rfl
  refine h.firm (firm_upd rfl rfl (fun _ => .inr (by rw [hpc]; rfl)) fun _ hsl => ⟨hsl, rfl⟩) rfl
    (h.tree.adopt hq hqp hlive) h.nextpid (.inr hl) (fun k => ?_) (fun hh => ?_) (fun _ => ?_)
    (fun k hk hkl => ?_) (fun np hnp => by rw [hpc]; exact hnp) ?_ ?_
  · exact h.held_same (by rw [hpc]; rfl) k
  · have : (upd s.pc i (Pc.launch q) i).holds = true := hh
    rw [upd_same] at this
    cases this
  · show (upd s.proc q _ i).state.live = true
    rw [upd_other _ _ hiq]
    exact hlive
  · show (upd s.proc q _ k).state.live = true
    have hkq : k ≠ q := by
      rintro rfl
      rw [hq] at hkl
      cases hkl
    rw [upd_other _ _ hkq]
    exact hkl
  · show (upd s.proc q { s.proc q with parent := some i } q).state = .used ∧
      (upd s.proc q { s.proc q with parent := some i } q).parent = some i
    rw [upd_same]
    exact ⟨hq, rfl⟩
  · intro k w j hk hsl hj hz hwant
    have hjq : j ≠ q := by
      rintro rfl
      have : (upd s.proc j { s.proc j with parent := some i } j).state = .zombie := hz
      rw [upd_same, hq] at this
      cases this
    exact absurd hwant (h.not_missed { s.proc q with parent := some i } rfl (by rw [hpc]; simp)
      (.inr hl) (fun hs => hs) (asleep_of_upd (fun w hw => by cases hw) hk) hsl hj hz hjq)

theorem Inv.handOver (h : Inv s) {st : Int} (hpc : s.pc i = .reparent st q.val)
    (hq : (s.proc q).parent = some i) :
    Inv ((s.setProc q { s.proc q with parent := some s.initproc }).setPc i
      (.wakeInit st q.val 0)) := by
  have hholds : (s.pc i).holds = true := by rw [hpc]; rfl
  have hr := h.running i hholds
  have hok := h.pcs i
  rw [hpc] at hok
  obtain ⟨hinit, hdone⟩ := hok
  have hstate : ∀ j, (upd s.proc q { s.proc q with parent := some s.initproc } j).state =
      (s.proc j).state := by
    intro j
    by_cases hj : j = q
    · subst hj
      rw [upd_same]
    · rw [upd_other _ _ hj]
  refine h.firm (firm_upd rfl rfl (fun _ => .inl hq) fun _ hsl => ⟨hsl, rfl⟩) rfl
    (h.tree.handOver (by rw [hq]; simp)) h.nextpid (.inl hholds) (fun k => ?_)
    (fun _ => (hstate i).trans hr) (fun _ => ?_) (fun k _ hk => ?_) nofun
    ⟨hinit, fun j hj => ?_, fun h0 => absurd h0 (Nat.not_lt_zero _)⟩ fun k w j hk hsl hj hz hwant => ?_
  · exact h.held_same (by rw [hholds]; rfl) k
  · show (upd s.proc q _ i).state.live = true
    rw [hstate, hr]
    rfl
  · show (upd s.proc q _ k).state.live = true
    rw [hstate]
    exact hk
  · show (upd s.proc q { s.proc q with parent := some s.initproc } j).parent ≠ some i
    by_cases hjq : j = q
    · subst hjq
      rw [upd_same]
      intro he
      exact hinit (Option.some.inj he).symm
    · rw [upd_other _ _ hjq]
      have hne : j.val ≠ q.val := fun he => hjq (Fin.ext he)
      exact hdone j (by omega)
  · by_cases hjq : j = q
    · subst hjq
      have hj' : (upd s.proc j { s.proc j with parent := some s.initproc } j).parent = some k := hj
      rw [upd_same] at hj'
      exact ⟨(Option.some.inj hj').symm, i, st, j.val, 0, upd_same _ _ _, Nat.zero_le _⟩
    · exact absurd hwant (h.not_missed { s.proc q with parent := some s.initproc } rfl (by rw [hpc]; simp)
        (.inl hholds) (fun hs => hs) (asleep_of_upd (fun w hw => by cases hw) hk) hsl hj hz hjq)

theorem held_unlock (h : Inv s) (hholds : (s.pc i).holds = true) (hc : c.holds = false)
    (k : Fin NPROC) : none = some k ↔ (upd s.pc i c k).holds = true := by
  refine held_upd h.held ?_ (fun k hk => ?_) k
  · rw [hc]
    simp
  · rw [(h.held i).2 hholds]
    simp [Ne.symm hk]

theorem Inv.bury (h : Inv s) {st : Int} (hpc : s.pc i = .dying st) :
    Inv (((s.setProc i { s.proc i with xstate := st, state := .zombie }).unlock).setPc i .user) := by
  have hholds : (s.pc i).holds = true := by rw [hpc]; rfl
  have hr := h.running i hholds
  have hlive : (s.proc i).state.live = true := by rw [hr]; rfl
  have hok := h.pcs i
  rw [hpc] at hok
  obtain ⟨hinit, hkids, hparent⟩ := hok
  have hfree : ∀ k, none = some k ↔ (upd s.pc i Pc.user k).holds = true :=
    held_unlock h hholds rfl
  refine h.firm (firm_upd rfl rfl (fun hu => by rw [hr] at hu; cases hu) fun hne => absurd rfl hne)
    rfl (h.tree.bury hlive (Ne.symm hinit) hkids st) h.nextpid (.inl hholds)
    (fun k => hfree k) (fun hh => ?_) (fun hu => absurd rfl hu) (fun k hk hkl => ?_)
    nofun trivial fun k w j hk hsl hj hz hwant => ?_
  · have : (upd s.pc i Pc.user i).holds = true := hh
    rw [upd_same] at this
    cases this
  · show (upd s.proc i _ k).state.live = true
    rw [upd_other _ _ hk]
    exact hkl
  · have hk' : s.pc k = .asleep w := asleep_of_upd (fun w hw => by cases hw) hk
    have hki : k ≠ i := by
      rintro rfl
      rw [hpc] at hk'
      cases hk'
    by_cases hji : j = i
    · -- its parent has been woken and is waiting for `wait_lock`
      subst hji
      have hj' : (upd s.proc j { s.proc j with xstate := st, state := .zombie } j).parent = some k :=
        hj
      have hsl' : (upd s.proc j { s.proc j with xstate := st, state := .zombie } k).state =
        .sleeping := hsl
      rw [upd_same] at hj'
      rw [upd_other _ _ hki] at hsl'
      exact absurd ⟨⟨w, hk'⟩, hsl'⟩ (hparent k hj')
    · exact absurd hwant (h.not_missed _ rfl (by rw [hpc]; simp) (.inl hholds)
        (fun hs => by cases hs) hk' hsl hj hz hji)

theorem Inv.reap (h : Inv s) {w : Target} {k : Nat} {b : Bool} (hpc : s.pc i = .scan w k b)
    (hq : (s.proc q).state = .zombie) :
    Inv (((s.setProc q (clearSlot (s.proc q))).unlock).setPc i .user) := by
  have hholds : (s.pc i).holds = true := by rw [hpc]; rfl
  have hfree : ∀ k, none = some k ↔ (upd s.pc i Pc.user k).holds = true :=
    held_unlock h hholds rfl
  refine h.firm (firm_upd rfl rfl (fun hu => by rw [hq] at hu; cases hu) fun _ hs => by cases hs)
    rfl (h.tree.reap hq rfl rfl) h.nextpid (.inl hholds) (fun k => hfree k) (fun hh => ?_)
    (fun hu => absurd rfl hu) (fun k hk hkl => ?_) nofun trivial
    fun k w j hk hsl hj hz hwant => ?_
  · have : (upd s.pc i Pc.user i).holds = true := hh
    rw [upd_same] at this
    cases this
  · have hkq : k ≠ q := by
      rintro rfl
      rw [hq] at hkl
      cases hkl
    show (upd s.proc q _ k).state.live = true
    rw [upd_other _ _ hkq]
    exact hkl
  · have hjq : j ≠ q := by
      rintro rfl
      have : (upd s.proc j (clearSlot (s.proc j)) j).state = .zombie := hz
      rw [upd_same] at this
      cases this
    exact absurd hwant (h.not_missed _ rfl (by rw [hpc]; simp) (.inl hholds) (fun hs => by cases hs)
      (asleep_of_upd (fun w hw => by cases hw) hk) hsl hj hz hjq)

theorem Inv.no_zombie (h : Inv s) {w : Target} (hpc : s.pc i = .rest w) {j : Fin NPROC}
    (hj : (s.proc j).parent = some i) (hz : (s.proc j).state = .zombie) :
    ¬w.wants (s.proc j).pid := by
  intro hwant
  have hok := h.pcs i
  rw [hpc] at hok
  cases w with
  | any a => exact hok j hj hz
  | pid n =>
    -- the child that was found has this pid, and no other process has it
    obtain ⟨j', hu, hnz, hp, _⟩ := hok
    have : j = j' := h.tree.pid_inj j j' (by rw [hz]; simp) hu (hwant.trans hp.symm)
    subst this
    exact hnz hz

theorem Inv.rest (h : Inv s) {w : Target} (hpc : s.pc i = .rest w) :
    Inv (((s.setProc i { s.proc i with chan := procChan i, state := .sleeping }).unlock).setPc i
      (.asleep w)) := by
  have hholds : (s.pc i).holds = true := by rw [hpc]; rfl
  have hr := h.running i hholds
  have hfree : ∀ k, none = some k ↔ (upd s.pc i (Pc.asleep w) k).holds = true :=
    held_unlock h hholds rfl
  refine h.firm (firm_upd rfl rfl (fun hu => by rw [hr] at hu; cases hu) fun hne => absurd rfl hne)
    rfl (h.tree.stir (by rw [hr]; rfl) rfl rfl rfl) h.nextpid (.inl hholds)
    (fun k => hfree k) (fun hh => ?_) (fun _ => ?_) (fun k hk hkl => ?_)
    nofun (fun _ => ?_) fun k w' j hk hsl hj hz hwant => ?_
  · have : (upd s.pc i (Pc.asleep w) i).holds = true := hh
    rw [upd_same] at this
    cases this
  · show (upd s.proc i _ i).state.live = true
    rw [upd_same]
    rfl
  · show (upd s.proc i _ k).state.live = true
    rw [upd_other _ _ hk]
    exact hkl
  · show (upd s.proc i { s.proc i with chan := procChan i, state := .sleeping } i).chan = procChan i
    rw [upd_same]
  · have hji : j ≠ i := by
      rintro rfl
      have : (upd s.proc j { s.proc j with chan := procChan j, state := .sleeping } j).state =
        .zombie := hz
      rw [upd_same] at this
      cases this
    have hq : ∀ z, z ≠ i → upd s.proc i { s.proc i with chan := procChan i, state := .sleeping } z =
      s.proc z := fun z hz => upd_other _ _ hz
    have hj' : (s.proc j).parent = some k := by rw [← hq j hji]; exact hj
    have hz' : (s.proc j).state = .zombie := by rw [← hq j hji]; exact hz
    have hw' : w'.wants (s.proc j).pid := by rw [← hq j hji]; exact hwant
    by_cases hki : k = i
    · subst hki
      have hk' : upd s.pc k (Pc.asleep w) k = .asleep w' := hk
      rw [upd_same] at hk'
      cases hk'
      exact absurd hw' (h.no_zombie hpc hj' hz')
    · have hk' : upd s.pc i (Pc.asleep w) k = .asleep w' := hk
      rw [upd_other _ _ hki] at hk'
      have hsl' : (s.proc k).state = .sleeping := by rw [← hq k hki]; exact hsl
      exact absurd hw' (h.no_window (by rw [hpc]; simp) (.inl hholds) hk' hsl' hj' hz')

end Xv6.Wait
