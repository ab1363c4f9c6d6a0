import Xv6.Smp.Local

/-!
# Each routine keeps to the service

A routine that is called with no lock returns with none: `Idle`.  An interrupt handler returns to
what it interrupted with the same knowledge: `Back`.
-/

namespace Xv6.Smp

open Xv6.Lib

variable {me : Option (Fin NPROC)} {quiet : Prop} {x y z : Loc} {i p b : Fin NPROC} {v : View}
  {l : Lock} {chan : Chan} {α : Type}

/-! ### Views under a lock -/

namespace View.Free

theorem idle (h : v.Free) (hr : v.proc.state ≠ .running) (hs : v.proc.state ≠ .sleeping) :
    v.live = false ∧ v.saved = true ∧ v.nap = none := by
  have hl : v.live = false := by
    cases hv : v.live with
    | false => rfl
    | true => exact absurd (h.live.1 hv) hr
  refine ⟨hl, ?_, h.nap_none hs⟩
  rw [h.saved, hl]
  rfl

theorem of_idle (hl : v.live = false) (hs : v.saved = true) (hn : v.nap = none)
    (hr : v.proc.state ≠ .running) : v.Free where
  live := by
    rw [hl]
    exact ⟨fun h => absurd h Bool.false_ne_true, fun h => absurd h hr⟩
  saved := by rw [hl, hs]; rfl
  nap chan l h := by
    rw [hn] at h
    cases h

theorem rouse {c : Option Chan} (h : v.Free) (hs : v.proc.state = .sleeping) :
    ((Write.rouse c).view v).Free where
  live := by
    refine ⟨?_, fun hr => ProcState.noConfusion hr⟩
    intro hl
    have hr := h.live.1 hl
    rw [hs] at hr
    cases hr
  saved := h.saved
  nap chan l hn := by cases hn

theorem kill (h : v.Free) : (Write.kill.view v).Free := ⟨h.live, h.saved, h.nap⟩

/-- A process that is neither running nor asleep may be written to, except by `run` and `doze`. -/
theorem rewrite {w : Write} (h : v.Free) (hr : v.proc.state ≠ .running)
    (hs : v.proc.state ≠ .sleeping) (hw : (w.proc v.proc).state ≠ .running) :
    (w.view v).Free := by
  obtain ⟨hl, hsv, hn⟩ := h.idle hr hs
  refine of_idle hl hsv ?_ hw
  cases w with
  | rouse c => rfl
  | _ => exact hn

end View.Free

/-! ### Short routines -/

theorem fits_brief (hx : x.WF) (hl : l.Cond) (hp : l ≠ .pipe) (hh : l ∉ x.held) :
    Code.Fits (brief l) me quiet x fun _ y => Keeps x y := by
  refine fits_bind (fits_acquire_cond hl hp hh ?_)
  intro _
  refine fits_release_cond hl List.mem_cons_self (fun _ h => absurd h hp) ?_
  intro hw
  refine ⟨List.erase_cons_head .., rfl, rfl, rfl, if_neg hp, ?_, ?_, hw⟩
  · intro i n hn
    refine ⟨hn, ?_⟩
    intro hnl
    exact hh (hnl ▸ (hx.clear i n hn).1)
  · intro hc
    show (if l = .pipe then false else x.calm) = true
    rw [if_neg hp]
    exact hc

theorem fits_killed (hx : x.WF) (hc : x.cpu = me) (hn : x.NoProc) :
    Code.Fits (killed p) me quiet x fun r y => Keeps x y ∧
      (quiet → x.calm = true → me = some p → r = false) ∧
      (me = some p → Lock.pipe ∈ x.held → r = false → y.calm = true) := by
  refine fits_bind (fits_acquire_proc (hn p) (fun j hj => absurd hj (hn j)) ?_)
  intro v hv _ _ hcalm _
  refine fits_bind (fits_read Loc.known_lock List.mem_cons_self ?_)
  intro b hb hkill _
  refine fits_bind (fits_release_proc (fun h => hc.symm.trans h) (v := v) Loc.known_lock List.mem_cons_self hv ?_)
  intro hw
  refine fits_pure ⟨(Within.lock.setCalm hb).keeps hx (hn p) hw, hcalm, ?_⟩
  intro hm hp hk
  exact hkill hm (List.mem_cons_of_mem _ hp) hk

theorem fits_setkilled (hx : x.WF) (hc : x.cpu = me) (hn : x.NoProc) :
    Code.Fits (setkilled p) me quiet x fun _ y => Keeps x y := by
  refine fits_bind (fits_acquire_alone hn ?_)
  intro v hv
  refine fits_bind (fits_write (w := .kill) Loc.known_lock trivial ?_)
  intro _
  have hin : Within p x ((x.lock p v).written p .kill v) := Within.lock.write rfl
  exact hin.fits_release hx hc (hn p) Loc.known_written hv.kill fun _ hz => hz

theorem fits_kkill (hx : x.WF) (hc : x.cpu = me) (hn : x.NoProc) :
    Code.Fits kkill me quiet x fun _ y => Keeps x y := by
  refine Eff.Uses.mono (fits_search (I := Keeps x) (K := fun _ => Keeps x) ?_ (Keeps.rfl hx)) ?_
  · intro p y hy
    have hny := hy.noProc hn
    have hcy := hy.cpu.trans hc
    refine fits_bind (fits_acquire_alone hny ?_)
    intro v hv
    refine fits_bind (fits_ask ?_)
    intro hit
    cases hit with
    | false =>
      exact fits_bind (Within.lock.fits_release hy.wf hcy (hny p) Loc.known_lock hv
        fun z hz => fits_pure (hy.trans hz))
    | true =>
      refine fits_bind (fits_write (w := .kill) Loc.known_lock trivial ?_)
      intro _
      have hin : Within p y ((y.lock p v).written p .kill v) := Within.lock.write rfl
      refine fits_bind (fits_read Loc.known_written hin.mem ?_)
      intro b hb _ _
      have hin' := hin.setCalm hb
      by_cases hs : (Write.kill.view v).proc.state = .sleeping
      · rw [if_pos hs]
        refine fits_bind (fits_write (w := .rouse none) Loc.known_written
          ⟨hs, fun ch h => absurd h (Option.some_ne_none ch).symm⟩ ?_)
        intro _
        have hin2 := hin'.write (w := .rouse none) (v := Write.kill.view v) rfl
        exact fits_bind (hin2.fits_release hy.wf hcy (hny p) Loc.known_written (hv.kill.rouse hs)
          fun z hz => fits_pure (hy.trans hz))
      · rw [if_neg hs]
        exact fits_bind (hin'.fits_release hy.wf hcy (hny p) Loc.known_written hv.kill
          fun z hz => fits_pure (hy.trans hz))
  · intro r y hy
    cases r with
    | none | some _ => exact hy

theorem fits_findPid (hx : x.WF) (hc : x.cpu = me) (hn : x.NoProc) :
    Code.Fits findPid me quiet x fun _ y => Keeps x y := by
  refine Eff.Uses.mono (fits_search (I := Keeps x) (K := fun _ => Keeps x) ?_ (Keeps.rfl hx)) ?_
  · intro p y hy
    have hny := hy.noProc hn
    have hcy := hy.cpu.trans hc
    refine fits_bind (fits_acquire_alone hny ?_)
    intro v hv
    refine fits_bind (fits_read Loc.known_lock List.mem_cons_self ?_)
    intro b hb _ _
    refine fits_bind (fits_ask ?_)
    intro same
    refine fits_bind ((Within.lock.setCalm hb).fits_release hy.wf hcy (hny p) Loc.known_lock hv fun z hz => ?_)
    split
    · exact fits_pure (hy.trans hz)
    · exact fits_pure (hy.trans hz)
  · intro r y hy
    cases r with
    | none | some _ => exact hy

theorem fits_ksetnice (hx : x.WF) (hc : x.cpu = me) (hn : x.NoProc) :
    Code.Fits ksetnice me quiet x fun _ y => Keeps x y := by
  refine fits_bind (fits_ask ?_)
  intro bad
  cases bad with
  | true => exact fits_pure (Keeps.rfl hx)
  | false => exact fits_findPid hx hc hn

theorem fits_kps (hx : x.WF) (hc : x.cpu = me) (hn : x.NoProc) :
    Code.Fits kps me quiet x fun _ y => Keeps x y := by
  refine fits_bind (fits_ask ?_)
  intro one
  have hrest : ∀ y, Keeps x y → Code.Fits (do
      eevdfCollectRqStats
      each look procs) me quiet y fun _ z => Keeps x z := by
    intro y hy
    refine fits_bind (Eff.Uses.mono (fits_eevdfCollectRqStats hy.wf (hy.cpu.trans hc) (hy.noProc hn)) ?_)
    intro _ z hz
    have hxz := hy.trans hz
    exact (fits_eachLook hxz.wf (hxz.cpu.trans hc) (hxz.noProc hn)).mono fun _ u hu => hxz.trans hu
  cases one with
  | true =>
    refine fits_bind ((fits_findPid hx hc hn).mono ?_)
    intro found y hy
    cases found with
    | none => exact fits_pure hy
    | some _ => exact hrest y hy
  | false => exact fits_bind (fits_pure (hrest x (Keeps.rfl hx)))

/-! ### The scheduler -/

/-- The scheduler has kept the lock of the best process so far. -/
structure Picked (x : Loc) (best : Option (Fin NPROC)) (y : Loc) : Prop where
  held : y.held = best.toList.map Lock.proc
  cpu : y.cpu = x.cpu
  born : y.born = x.born
  view : ∀ b, best = some b → ∃ v, y.known b = some v ∧ v.Free ∧ v.proc.state = .runnable
  wf : y.WF

variable {best : Option (Fin NPROC)} {ps : List (Fin NPROC)} {np : Fin NPROC}

theorem Picked.keeps (h : Picked x best y) (hz : Keeps y z) :
    Picked x best z where
  held := hz.held.trans h.held
  cpu := hz.cpu.trans h.cpu
  born := hz.born.trans h.born
  view b hb := by
    rw [hz.known]
    exact h.view b hb
  wf := hz.wf

theorem Picked.mem (h : Picked x best y) : Lock.proc i ∈ y.held ↔ best = some i := by
  rw [h.held]
  cases best with
  | none => exact ⟨fun hm => absurd hm List.not_mem_nil, fun hm => absurd hm.symm (Option.some_ne_none i)⟩
  | some b =>
    rw [Option.toList_some, List.map_singleton, List.mem_singleton, Lock.proc.injEq,
      Option.some.injEq]
    exact eq_comm

theorem fits_scan (hc : x.cpu = me) (hs : ps.Pairwise (· < ·))
    (hb : ∀ b, best = some b → ∀ q ∈ ps, b < q) (hy : Picked x best y) :
    Code.Fits (scan ps best) me quiet y fun r z => Picked x r z := by
  induction ps generalizing best y with
  | nil => exact fits_pure hy
  | cons p ps ih =>
    obtain ⟨hp, hs⟩ := List.pairwise_cons.1 hs
    have hcy := hy.cpu.trans hc
    have hb' : ∀ b, best = some b → ∀ q ∈ ps, b < q := fun b h q hq =>
      hb b h q (List.mem_cons_of_mem _ hq)
    have hnot : Lock.proc p ∉ y.held := by
      intro hm
      exact Nat.lt_irrefl _ (hb p (hy.mem.1 hm) p List.mem_cons_self)
    have hnew : ∀ b, some p = some b → ∀ q ∈ ps, b < q := by
      intro b h
      cases h
      exact hp
    refine fits_bind (fits_acquire_proc hnot
      (fun j hj => hb j (hy.mem.1 hj) p List.mem_cons_self) ?_)
    intro v hv _ _ _ _
    refine fits_bind (fits_read Loc.known_lock List.mem_cons_self ?_)
    intro calm hcalm _ hwf
    have hin : Within p y { y.lock p v with calm := calm } := Within.lock.setCalm hcalm
    have hdrop : Code.Fits (release (.proc p) >>= fun _ => scan ps best) me quiet
        { y.lock p v with calm := calm } fun r z => Picked x r z := by
      exact fits_bind (hin.fits_release hy.wf hcy hnot Loc.known_lock hv fun z hz => ih hs hb' (hy.keeps hz))
    split
    case isFalse => exact hdrop
    case isTrue hr =>
      refine fits_bind (fits_ask ?_)
      intro eligible
      cases eligible with
      | false => exact hdrop
      | true =>
        cases best with
        | none =>
          refine ih hs hnew ⟨?_, hy.cpu, hy.born, ?_, hwf⟩
          · show Lock.proc p :: y.held = _
            rw [hy.held]
            rfl
          · intro b h
            cases h
            exact ⟨v, Loc.known_lock, hv, hr⟩
        | some b =>
          refine fits_bind (fits_ask ?_)
          intro earlier
          cases earlier with
          | false => exact hdrop
          | true =>
            obtain ⟨w, hw, hwf', -⟩ := hy.view b rfl
            have hbp : b ≠ p := Fin.ne_of_lt (hb b rfl p List.mem_cons_self)
            have hk : (y.lock p v).known b = some w := (upd_other _ _ hbp).trans hw
            refine fits_bind (fits_release_proc (fun h => hcy.symm.trans h) (v := w) hk
              (List.mem_cons_of_mem _ (hy.mem.2 rfl)) hwf' ?_)
            intro hwf2
            refine ih hs hnew ⟨?_, hy.cpu, hy.born, ?_, hwf2⟩
            · show (Lock.proc p :: y.held).erase (.proc b) = _
              have hne : Lock.proc p ≠ .proc b := fun h => hbp (Lock.proc.inj h).symm
              rw [hy.held, List.erase_cons_tail (by simpa using hne)]
              exact congrArg _ (List.erase_cons_head ..)
            · intro q h
              cases h
              exact ⟨v, (upd_other _ _ hbp.symm).trans Loc.known_lock, hv, hr⟩

theorem procs_sorted : procs.Pairwise (· < ·) := List.pairwise_lt_finRange NPROC

theorem fits_schedulerBack (hc : x.cpu = some b) (hh : x.held = [.proc b])
    (hv : x.known b = some v) (hr : v.proc.state ≠ .running) (hs : v.saved = true)
    (hn : ∀ chan l, v.nap = some (chan, l) →
      v.proc.state = .sleeping ∧ v.proc.chan = some chan) :
    Code.Fits (schedulerBack b) none quiet x fun _ y =>
      y.held = [] ∧ y.cpu = none ∧ y.born = x.born ∧ y.WF := by
  refine fits_bind ⟨⟨rfl, b, v, hc, hv⟩, ?_⟩
  rintro _ y ⟨⟨i, w, hi, hw, rfl⟩, -⟩
  cases hc.symm.trans hi
  cases hv.symm.trans hw
  refine fits_release_proc (fun h => absurd h.symm (Option.some_ne_none b)) Loc.known_set ?_ ⟨?_, hs, hn⟩ ?_
  · show Lock.proc b ∈ x.held
    rw [hh]
    exact List.mem_cons_self
  · exact ⟨fun h => absurd h Bool.false_ne_true, fun h => absurd h hr⟩
  · intro hwf
    refine ⟨?_, rfl, rfl, hwf⟩
    show x.held.erase (.proc b) = []
    rw [hh, List.erase_cons_head]

theorem fits_scheduler (hx : x.WF) (hc : x.cpu = none) (hh : x.held = []) :
    Code.Fits scheduler none quiet x fun _ y =>
      y.held = [] ∧ y.cpu = none ∧ y.born = x.born ∧ y.WF := by
  have hn : x.NoProc := by
    intro j hj
    rw [hh] at hj
    cases hj
  refine fits_bind (Eff.Uses.mono (fits_eevdfCollectRqStats hx hc hn) ?_)
  intro _ y hy
  refine fits_bind (Eff.Uses.mono (fits_scan (x := y) (hy.cpu.trans hc) procs_sorted
    (fun b h => absurd h.symm (Option.some_ne_none b))
    ⟨hy.held.trans hh, rfl, rfl, fun b h => absurd h.symm (Option.some_ne_none b), hy.wf⟩) ?_)
  intro best z hz
  cases best with
  | none => exact fits_pure ⟨hz.held, hz.cpu.trans (hy.cpu.trans hc), hz.born.trans hy.born, hz.wf⟩
  | some b =>
    obtain ⟨v, hv, hfree, hr⟩ := hz.view b rfl
    obtain ⟨hl, hsv, hnap⟩ := hfree.idle (by rw [hr]; exact ProcState.noConfusion)
      (by rw [hr]; exact ProcState.noConfusion)
    refine fits_bind (fits_write (w := .run) hv ⟨hr, hl⟩ ?_)
    intro _
    refine fits_bind ⟨⟨rfl, hz.cpu.trans (hy.cpu.trans hc), _, Loc.known_written, hl⟩, ?_⟩
    rintro _ u ⟨⟨w, hw, rfl⟩, -⟩
    have hw' : some w = some (Write.run.view v) := hw.symm.trans Loc.known_written
    cases hw'
    refine fits_bind ⟨⟨b, _, rfl, hz.held, Loc.known_set, Or.inl rfl⟩, ?_⟩
    rintro _ u ⟨rfl, -⟩
    refine fits_bind ⟨⟨_, rfl, rfl, hz.held, Loc.known_set, rfl, hsv, rfl, hnap⟩, ?_⟩
    rintro _ u ⟨⟨v', hr', _, hs', hn', rfl⟩, -⟩
    show Code.Fits (schedulerBack b) none quiet _ _
    refine Eff.Uses.mono (fits_schedulerBack rfl rfl Loc.known_only hr' hs' hn') ?_
    rintro _ t ⟨h1, h2, h3, h4⟩
    exact ⟨h1, h2, h3.trans (hz.born.trans hy.born), h4⟩

/-! ### Processes -/

/-- A process in the kernel that holds one lock, and is not creating another process. -/
structure Has (p : Fin NPROC) (l : Lock) (x : Loc) : Prop where
  held : x.held = [l]
  cpu : x.cpu = some p
  born : x.born = none
  wf : x.WF

/-- A process that holds no lock. -/
structure Idle (p : Fin NPROC) (x : Loc) : Prop where
  held : x.held = []
  cpu : x.cpu = some p
  born : x.born = none
  wf : x.WF

namespace Idle

theorem noProc (h : Idle p x) : x.NoProc := by
  intro j hj
  rw [h.held] at hj
  cases hj

theorem not_mem (h : Idle p x) : l ∉ x.held := by
  rw [h.held]
  exact List.not_mem_nil

theorem keeps (h : Idle p x) (hk : Keeps x y) : Idle p y :=
  ⟨hk.held.trans h.held, hk.cpu.trans h.cpu, hk.born.trans h.born, hk.wf⟩

theorem back (h : Idle p x) (hb : Back x y) : Idle p y :=
  ⟨hb.held, hb.cpu.trans h.cpu, hb.born.trans h.born, hb.wf⟩

theorem lockCond (h : Idle p x) (hw : (x.lockCond l).WF) : Has p l (x.lockCond l) :=
  ⟨congrArg (l :: ·) h.held, h.cpu, h.born, hw⟩

end Idle

namespace Has

theorem noProc (h : Has p l x) (hl : l.Cond) : x.NoProc := by
  intro j hj
  rw [h.held, List.mem_singleton] at hj
  exact hl j hj.symm

theorem mem (h : Has p l x) : l ∈ x.held := by
  rw [h.held]
  exact List.mem_cons_self

theorem keeps (h : Has p l x) (hk : Keeps x y) : Has p l y :=
  ⟨hk.held.trans h.held, hk.cpu.trans h.cpu, hk.born.trans h.born, hk.wf⟩

theorem unlockCond (h : Has p l x) (hw : (x.unlockCond l).WF) : Idle p (x.unlockCond l) :=
  ⟨by show x.held.erase l = []; rw [h.held, List.erase_cons_head], h.cpu, h.born, hw⟩

theorem awake (h : Has p l x) (ha : Awake l quiet x y) : Has p l y :=
  ⟨ha.held, ha.cpu.trans h.cpu, ha.born.trans h.born, ha.wf⟩

end Has

theorem fits_forkret (hx : Resumed p x y) (hm : me = some p) (hc : x.cpu = some p)
    (hb : x.born = none) : Code.Fits forkret me quiet y fun _ z => Idle p z := by
  refine fits_bind (fits_self (hx.cpu.trans hc) ?_)
  intro z hz
  obtain ⟨v, hv, hr, hl, hs, hn⟩ := hx.view
  refine fits_release_resumed (x := x) hm ⟨hz.held.trans hx.held, hz.cpu.trans hx.cpu,
    hz.born.trans hx.born, ⟨v, hz.known ▸ hv, hr, hl, hs, hn⟩, hz.wf⟩ ?_
  intro u hu
  exact ⟨hu.held, hu.cpu.trans hc, hu.born.trans hb, hu.wf⟩

/-- A process has been taken from the table and is being filled in. -/
structure Making (np p : Fin NPROC) (x : Loc) : Prop where
  held : x.held = [.proc np]
  cpu : x.cpu = some p
  born : x.born = some np
  view : ∃ v, x.known np = some v ∧ v.Free ∧ v.proc.state = .used
  wf : x.WF

theorem Making.keeps (h : Making np p x) (hk : Keeps x y) : Making np p y :=
  ⟨hk.held.trans h.held, hk.cpu.trans h.cpu, hk.born.trans h.born, by rw [hk.known]; exact h.view,
    hk.wf⟩

theorem Making.not_mem (h : Making np p x) (hl : l.Cond) : l ∉ x.held := by
  rw [h.held, List.mem_singleton]
  exact hl np

theorem Making.fits_free {K : Unit → Loc → Prop} (h : Making np p x) (hK : ∀ y, Idle p y → K () y) :
    Code.Fits (write np .free >>= fun _ => release (.proc np)) (some p) quiet x K := by
  obtain ⟨v, hv, hf, hs⟩ := h.view
  refine fits_bind (fits_write (w := .free) hv (Or.inr h.born) ?_)
  intro _
  have hmem : Lock.proc np ∈ x.held := by
    rw [h.held]
    exact List.mem_cons_self
  refine fits_release_proc (fun h' => h.cpu.symm.trans h') Loc.known_written hmem
    (hf.rewrite (by rw [hs]; exact ProcState.noConfusion) (by rw [hs]; exact ProcState.noConfusion)
      (fun h => ProcState.noConfusion h)) ?_
  intro hw
  refine hK _ ⟨?_, h.cpu, ?_, hw⟩
  · show x.held.erase (.proc np) = []
    rw [h.held, List.erase_cons_head]
  · show (if x.born = some np then none else x.born) = none
    rw [if_pos h.born]

theorem fits_allocproc (hx : Idle p x) :
    Code.Fits allocproc (some p) quiet x fun r y =>
      match r with
      | none => Idle p y
      | some np => Making np p y := by
  refine fits_bind (Eff.Uses.mono (fits_search (I := Idle p)
    (K := fun np y => Has p (.proc np) y ∧ ∃ v, y.known np = some v ∧ v.Free ∧
      v.proc.state = .unused) ?_ hx) ?_)
  · intro q y hy
    have hny := hy.noProc
    refine fits_bind (fits_acquire_alone hny ?_)
    intro v hv
    refine fits_bind (fits_read Loc.known_lock List.mem_cons_self ?_)
    intro b hb _ hw
    split
    case isTrue hu =>
      exact fits_pure ⟨⟨congrArg (_ :: ·) hy.held, hy.cpu, hy.born, hw⟩, v, Loc.known_lock, hv, hu⟩
    case isFalse =>
      exact fits_bind ((Within.lock.setCalm hb).fits_release hy.wf hy.cpu (hny q) Loc.known_lock hv
        fun z hz => fits_pure (hy.keeps hz))
  · intro r y hy
    cases r with
    | none => exact fits_pure hy
    | some np =>
      obtain ⟨hhas, v, hv, hf, hu⟩ := hy
      refine fits_bind (Eff.Uses.mono (fits_brief hhas.wf (fun i h => Lock.noConfusion h)
        (fun h => Lock.noConfusion h) ?_) ?_)
      · rw [hhas.held, List.mem_singleton]
        exact fun h => Lock.noConfusion h
      intro _ z hz
      have hz' := hhas.keeps hz
      have hvz : z.known np = some v := hz.known ▸ hv
      have hidle := hf.idle (by rw [hu]; exact ProcState.noConfusion)
        (by rw [hu]; exact ProcState.noConfusion)
      refine fits_bind (fits_write (w := .create) hvz ⟨hu, hidle.1, hz'.born⟩ ?_)
      intro hw
      have hmake : Making np p (z.written np .create v) :=
        ⟨hz'.held, hz'.cpu, rfl, ⟨_, Loc.known_written, hf.rewrite
          (by rw [hu]; exact ProcState.noConfusion) (by rw [hu]; exact ProcState.noConfusion)
          (fun h => ProcState.noConfusion h), rfl⟩, hw⟩
      refine fits_bind (Eff.Uses.mono (fits_brief hw (fun i h => Lock.noConfusion h)
        (fun h => Lock.noConfusion h) (hmake.not_mem fun i h => Lock.noConfusion h)) ?_)
      intro _ u hu
      have hmu := hmake.keeps hu
      refine fits_bind (fits_ask ?_)
      intro fail
      cases fail with
      | true =>
        have hfree : Code.Fits (write np .free >>= fun _ => release (.proc np)) (some p) quiet u
            fun _ y => Code.Fits (pure none) (some p) quiet y fun r y =>
              match r with
              | none => Idle p y
              | some np => Making np p y := hmu.fits_free fun y hy => fits_pure hy
        rw [Code.Fits, Eff.uses_bind] at hfree
        exact fits_bind (Eff.Uses.mono hfree fun _ t ht => fits_bind ht)
      | false => exact fits_pure hmu

theorem fits_kfork (hx : Idle p x) : Code.Fits kfork (some p) quiet x fun _ y => Idle p y := by
  refine fits_bind (Eff.Uses.mono (fits_allocproc hx) ?_)
  intro r y hy
  cases r with
  | none => exact fits_pure hy
  | some np =>
    have hother : ∀ n, (Lock.other n).Cond := fun n i h => Lock.noConfusion h
    have hbrief : ∀ n z, Making np p z →
        Code.Fits (brief (.other n)) (some p) quiet z fun _ u => Making np p u := fun n z hz =>
      (fits_brief hz.wf (hother n) (fun h => Lock.noConfusion h) (hz.not_mem (hother n))).mono
        fun _ u hu => hz.keeps hu
    refine fits_bind ((hbrief 0 y hy).mono ?_)
    intro _ z hz
    refine fits_bind (fits_ask ?_)
    intro fail
    cases fail with
    | true => exact hz.fits_free fun y hy => hy
    | false =>
      refine fits_bind ((hbrief 1 z hz).mono ?_)
      intro _ u hu
      obtain ⟨v, hv, hf, hs⟩ := hu.view
      refine fits_bind (fits_release_proc (fun h => hu.cpu.symm.trans h) hv
        (by rw [hu.held]; exact List.mem_cons_self) hf ?_)
      intro hw
      -- the lock is free for a moment, but the process remains as it is
      have hheld : (u.unlock np).held = [] := by
        show u.held.erase (.proc np) = []
        rw [hu.held, List.erase_cons_head]
      refine fits_bind (Eff.Uses.mono (fits_brief hw (fun i h => Lock.noConfusion h)
        (fun h => Lock.noConfusion h) (by rw [hheld]; exact List.not_mem_nil)) ?_)
      intro _ t ht
      have hn : t.NoProc := by
        intro j hj
        rw [ht.held, hheld] at hj
        cases hj
      refine fits_bind (fits_acquire_proc (hn np) (fun j hj => absurd hj (hn j)) ?_)
      intro v' hv' _ hborn _ _
      have hused := hborn (ht.born.trans hu.born)
      refine fits_bind (fits_write (w := .start) Loc.known_lock (ht.born.trans hu.born) ?_)
      intro _
      refine fits_release_proc (fun h => (ht.cpu.trans hu.cpu).symm.trans h) Loc.known_written
        List.mem_cons_self (hv'.rewrite
        (by rw [hused]; exact ProcState.noConfusion) (by rw [hused]; exact ProcState.noConfusion)
        (fun h => ProcState.noConfusion h)) ?_
      intro hw'
      refine ⟨?_, ht.cpu.trans hu.cpu, rfl, hw'⟩
      show (Lock.proc np :: t.held).erase (.proc np) = []
      rw [List.erase_cons_head, ht.held, hheld]

theorem fits_reparent (hx : x.WF) (hc : x.cpu = me) (hn : x.NoProc) :
    Code.Fits reparent me quiet x fun _ y => Keeps x y := by
  refine fits_each (I := Keeps x) ?_ (Keeps.rfl hx)
  intro q y hy
  refine fits_bind (fits_ask ?_)
  intro child
  cases child with
  | true => exact (fits_wakeup hy.wf (hy.cpu.trans hc) (hy.noProc hn)).mono fun _ z hz => hy.trans hz.1
  | false => exact fits_pure hy

theorem wait_cond : Lock.wait.Cond := fun _ h => Lock.noConfusion h

theorem wait_ne_pipe : Lock.wait ≠ .pipe := fun h => Lock.noConfusion h

theorem fits_kexit (hx : Idle p x) : Code.Fits kexit (some p) quiet x fun _ y => Idle p y := by
  refine fits_bind (fits_self hx.cpu ?_)
  intro y hy
  have hy' := hx.keeps hy
  split
  case isTrue => exact Or.inr rfl
  case isFalse =>
    refine fits_bind (fits_acquire_cond wait_cond wait_ne_pipe hy'.not_mem ?_)
    intro hw
    have hhas := hy'.lockCond hw
    refine fits_bind (Eff.Uses.mono (fits_reparent hw hhas.cpu (hhas.noProc wait_cond)) ?_)
    intro _ z hz
    have hz' := hhas.keeps hz
    refine fits_bind (fits_choose ?_)
    intro parent
    refine fits_bind (Eff.Uses.mono (fits_wakeup hz'.wf hz'.cpu (hz'.noProc wait_cond)) ?_)
    rintro _ u ⟨hu, -⟩
    have hu' := hz'.keeps hu
    refine fits_bind (fits_acquire_self hu'.cpu (hu'.noProc wait_cond) ?_)
    intro v _ hr hl hs hn _ _
    refine fits_bind (fits_write (w := .exit) Loc.known_lock ⟨rfl, hr, hu'.born⟩ ?_)
    intro _
    refine fits_bind (fits_release_cond wait_cond (List.mem_cons_of_mem _ hu'.mem)
      (fun _ h => absurd h wait_ne_pipe) ?_)
    intro _
    refine fits_bind (Eff.Uses.mono (fits_sched (v := Write.exit.view v) rfl ?_ ?_ Loc.known_written
      hl (fun h => ProcState.noConfusion h) ?_ ?_) ?_)
    · exact hu'.cpu
    · show (Lock.proc p :: u.held).erase .wait = _
      rw [hu'.held]
      rfl
    · intro chan l h
      have h' : v.nap = some (chan, l) := h
      rw [hn] at h'
      cases h'
    · intro _
      exact hu'.born
    · rintro _ t ⟨hz, -⟩
      exact absurd rfl hz

/-- The loop over the table: it has returned, or the locks are as before. -/
abbrev Scanned (p : Fin NPROC) (x : Loc) (r : Option Bool) (y : Loc) : Prop :=
  match r with
  | none => Idle p y
  | some _ => Keeps x y

theorem Scanned.keeps {r : Option Bool} (h : Scanned p y r z) (hk : Keeps x y) :
    Scanned p x r z := by
  cases r with
  | none => exact h
  | some _ => exact hk.trans h

theorem Has.fits_leave (hx : Has p .wait x) {q : Fin NPROC} (hin : Within q x y)
    (hv : y.known q = some v) (hf : v.Free) :
    Code.Fits (release (.proc q) >>= fun _ => release .wait >>= fun _ =>
      pure (none : Option Bool)) (some p) quiet y (Scanned p x) := by
  refine fits_bind (hin.fits_release hx.wf hx.cpu (hx.noProc wait_cond q) hv hf fun z hz => ?_)
  have hk := hx.keeps hz
  refine fits_bind (fits_release_cond wait_cond hk.mem (fun _ h => absurd h wait_ne_pipe) ?_)
  intro hw'
  exact fits_pure (hk.unlockCond hw')

/-- `freeproc` of a child that has exited, and the return from `kwait` or `kwaitpid`. -/
theorem Has.fits_free (hx : Has p .wait x) {q : Fin NPROC} (hin : Within q x y)
    (hv : y.known q = some v) (hf : v.Free) (hz : v.proc.state = .zombie) :
    Code.Fits (write q .free >>= fun _ => release (.proc q) >>= fun _ => release .wait >>= fun _ =>
      pure (none : Option Bool)) (some p) quiet y (Scanned p x) := by
  have hborn : y.born = none := hin.born.trans hx.born
  refine fits_bind (fits_write (w := .free) hv (Or.inl hz) ?_)
  intro _
  have hin' : Within q x (y.written q .free v) := by
    refine hin.write ?_
    show (if y.born = some q then none else y.born) = y.born
    rw [hborn]
    rfl
  exact hx.fits_leave hin' Loc.known_written (hf.rewrite (by rw [hz]; exact ProcState.noConfusion)
    (by rw [hz]; exact ProcState.noConfusion) (fun h => ProcState.noConfusion h))

theorem fits_kwaitScan {kids : Bool} (hx : Has p .wait x) :
    Code.Fits (kwaitScan ask ps kids) (some p) quiet x (Scanned p x) := by
  induction ps generalizing x kids with
  | nil => exact fits_pure (Keeps.rfl hx.wf)
  | cons q ps ih =>
    have hn := hx.noProc wait_cond
    refine fits_bind (fits_ask ?_)
    intro child
    cases child with
    | false => exact ih hx
    | true =>
      refine fits_bind (fits_acquire_alone hn ?_)
      intro v hv
      refine fits_bind (fits_read Loc.known_lock List.mem_cons_self ?_)
      intro b hb _ _
      have hin : Within q x { x.lock q v with calm := b } := Within.lock.setCalm hb
      split
      case isTrue hz =>
        refine fits_bind (fits_ask ?_)
        intro fail
        cases fail with
        | true => exact hx.fits_leave hin Loc.known_lock hv
        | false => exact hx.fits_free hin Loc.known_lock hv hz
      case isFalse =>
        exact fits_bind (hin.fits_release hx.wf hx.cpu (hn q) Loc.known_lock hv
          fun z hk => (ih (hx.keeps hk)).mono fun r u hu => hu.keeps hk)

theorem fits_kwaitpidScan (hx : Has p .wait x) :
    Code.Fits (kwaitpidScan ps) (some p) quiet x (Scanned p x) := by
  induction ps generalizing x with
  | nil => exact fits_pure (Keeps.rfl hx.wf)
  | cons q ps ih =>
    have hn := hx.noProc wait_cond
    refine fits_bind (fits_acquire_alone hn ?_)
    intro v hv
    refine fits_bind (fits_read Loc.known_lock List.mem_cons_self ?_)
    intro b hb _ _
    have hin : Within q x { x.lock q v with calm := b } := Within.lock.setCalm hb
    refine fits_bind (fits_ask ?_)
    intro same
    split
    case isTrue =>
      refine fits_bind (fits_ask ?_)
      intro foreign
      cases foreign with
      | true => exact hx.fits_leave hin Loc.known_lock hv
      | false =>
        rw [if_neg Bool.false_ne_true]
        split
        case isTrue hz => exact hx.fits_free hin Loc.known_lock hv hz
        case isFalse =>
          exact fits_bind (hin.fits_release hx.wf hx.cpu (hn q) Loc.known_lock hv fun z hz => fits_pure hz)
    case isFalse =>
      exact fits_bind (hin.fits_release hx.wf hx.cpu (hn q) Loc.known_lock hv
        fun z hk => (ih (hx.keeps hk)).mono fun r u hu => hu.keeps hk)

theorem fits_waitLoop {body : Code (Option Bool)} {k : Nat}
    (hbody : ∀ x, Has p .wait x → Code.Fits body (some p) quiet x (Scanned p x))
    (hx : Has p .wait x) :
    Code.Fits (waitLoop body p k) (some p) quiet x fun _ y => Idle p y := by
  induction k generalizing x with
  | zero => exact fits_rounds
  | succ k ih =>
    refine fits_bind ((hbody x hx).mono ?_)
    intro r y hy
    cases r with
    | none => exact fits_pure hy
    | some found =>
      have hy' := hx.keeps hy
      have hleave : ∀ z, Has p .wait z →
          Code.Fits (release .wait) (some p) quiet z fun _ u => Idle p u := fun z hz =>
        fits_release_cond wait_cond hz.mem (fun _ h => absurd h wait_ne_pipe) fun hw =>
          hz.unlockCond hw
      cases found with
      | false => exact hleave y hy'
      | true =>
        refine fits_bind (Eff.Uses.mono (fits_killed hy'.wf hy'.cpu (hy'.noProc wait_cond)) ?_)
        rintro dead z ⟨hz, -⟩
        have hz' := hy'.keeps hz
        cases dead with
        | true => exact hleave z hz'
        | false =>
          refine fits_bind (Eff.Uses.mono (fits_sleep rfl hz'.cpu wait_cond hz'.held ?_
            fun _ h => absurd h wait_ne_pipe) ?_)
          · exact ⟨fun h => h.elim (fun h => Chan.noConfusion h) (fun h => Chan.noConfusion h),
              fun h => absurd h wait_ne_pipe⟩
          · intro _ u hu
            exact ih (hz'.awake hu)

theorem fits_wait {body : Code (Option Bool)} {k : Nat}
    (hbody : ∀ x, Has p .wait x → Code.Fits body (some p) quiet x (Scanned p x)) (hx : Idle p x) :
    Code.Fits (self >>= fun p => acquire .wait >>= fun _ => waitLoop body p k) (some p) quiet x
      fun _ y => Idle p y := by
  refine fits_bind (fits_self hx.cpu ?_)
  intro y hy
  have hy' := hx.keeps hy
  refine fits_bind (fits_acquire_cond wait_cond wait_ne_pipe hy'.not_mem ?_)
  intro hw
  exact fits_waitLoop hbody (hy'.lockCond hw)

theorem fits_kwait {k : Nat} (hx : Idle p x) :
    Code.Fits (kwait ask k) (some p) quiet x fun _ y => Idle p y :=
  fits_wait (fun _ hx => fits_kwaitScan hx) hx

theorem fits_kwaitpid {k : Nat} (hx : Idle p x) :
    Code.Fits (kwaitpid k) (some p) quiet x fun _ y => Idle p y :=
  fits_wait (fun _ hx => fits_kwaitpidScan hx) hx

/-! ### Sleep locks -/

theorem other_cond (n : Nat) : (Lock.other n).Cond := fun _ h => Lock.noConfusion h

theorem other_ne_pipe (n : Nat) : Lock.other n ≠ .pipe := fun h => Lock.noConfusion h

theorem fits_acquiresleep {n m k : Nat} (hx : Idle p x) :
    Code.Fits (acquiresleep n m k) (some p) quiet x fun _ y => Idle p y := by
  have hloop : ∀ k y, Has p (.other m) y →
      Code.Fits (acquiresleepLoop n m k) (some p) quiet y fun _ z => Has p (.other m) z := by
    intro k
    induction k with
    | zero => exact fun y _ => fits_rounds
    | succ k ih =>
      intro y hy
      refine fits_bind (fits_ask ?_)
      intro locked
      cases locked with
      | false => exact fits_pure hy
      | true =>
        refine fits_bind (Eff.Uses.mono (fits_sleep rfl hy.cpu (other_cond m) hy.held ?_
          fun _ h => absurd h (other_ne_pipe m)) ?_)
        · exact ⟨fun h => h.elim (fun h => Chan.noConfusion h) (fun h => Chan.noConfusion h),
            fun h => absurd h (other_ne_pipe m)⟩
        · intro _ u hu
          exact ih u (hy.awake hu)
  refine fits_bind (fits_acquire_cond (other_cond m) (other_ne_pipe m) hx.not_mem ?_)
  intro hw
  refine fits_bind ((hloop k _ (hx.lockCond hw)).mono ?_)
  intro _ z hz
  exact fits_release_cond (other_cond m) hz.mem (fun _ h => absurd h (other_ne_pipe m)) fun hw =>
    hz.unlockCond hw

/-- Also in an interrupt, when the scheduler runs or a process is being created. -/
theorem fits_releasesleep {n m : Nat} (hc : x.cpu = me) (hh : x.held = []) :
    Code.Fits (releasesleep n m) me quiet x fun _ y => Back x y := by
  have hnot : Lock.other m ∉ x.held := by
    rw [hh]
    exact List.not_mem_nil
  refine fits_bind (fits_acquire_cond (other_cond m) (other_ne_pipe m) hnot ?_)
  intro hw
  have hn : (x.lockCond (.other m)).NoProc := by
    intro j hj
    rcases List.mem_cons.1 hj with h | h
    · exact Lock.noConfusion h
    · rw [hh] at h
      cases h
  refine fits_bind (Eff.Uses.mono (fits_wakeup hw hc hn) ?_)
  rintro _ y ⟨hy, -⟩
  refine fits_release_cond (other_cond m) (by rw [hy.held]; exact List.mem_cons_self)
    (fun _ h => absurd h (other_ne_pipe m)) ?_
  intro hw'
  refine ⟨?_, hy.cpu, hy.born, hw'⟩
  show y.held.erase (.other m) = []
  rw [hy.held]
  show (Lock.other m :: x.held).erase (.other m) = []
  rw [List.erase_cons_head, hh]

end Xv6.Smp
