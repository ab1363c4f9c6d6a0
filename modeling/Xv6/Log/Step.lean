import Xv6.Log.Cache

/-!
# What one step does

The steps of the threads change the buffers, and `CacheInv` says how; the steps of
`commit` and `recover_from_log` are listed in `Worked`.  Nothing after this file looks
into the code.
-/

namespace Xv6.Log

open Xv6.Lib

variable {s t : Fs} {c : Nat → Block} {P : List Nat} {D : Nat → List Nat} {x y : Traced} {o : Nat}

/-! ### Threads -/

theorem Traced.run_ok {α : Type} {code : FsM α} {f : Fs → Traced} (h : x.run code f = .ok y) :
    ∃ a t, code x.fs = .ok (a, t) ∧ y = f t := by
  unfold Traced.run at h
  split at h
  · rename_i a t hc
    exact ⟨a, t, hc, (Except.ok.inj h).symm⟩
  · cases h

theorem of_guard {p : Prop} [Decidable p] {e : Stop} {r : Except Stop Traced}
    (h : (if p then .error e else r) = .ok y) : ¬p ∧ r = .ok y := by
  split at h
  · cases h
  · exact ⟨‹_›, h⟩

/-- The state with other buffers. -/
abbrev Traced.setBufs (x : Traced) (B : Fin NBUF → Buf) : Traced :=
  { x with fs := { x.fs with buf := B } }

theorem bread_buf (v : Fin NBUF) (b : Nat) :
    wp (bread o v b) s (fun _ t => ∃ B, t = { s with buf := B }) (fun _ => True) := by
  have hget : wp (bget o v b) s (fun _ t => ∃ B, t = { s with buf := B }) (fun _ => True) := by
    unfold bget
    rw [wp_bind, wp_get]
    split
    · split
      · rw [wp_bind, wp_set]; exact wp_pure.2 ⟨_, rfl⟩
      · exact wp_throw.2 trivial
    · split
      · rw [wp_bind, wp_set]; exact wp_pure.2 ⟨_, rfl⟩
      · exact wp_throw.2 trivial
  unfold bread
  refine wp_seq hget ?_
  rintro i _ ⟨B, rfl⟩
  rw [wp_bind, wp_get]
  split
  · exact wp_pure.2 ⟨B, rfl⟩
  · rw [wp_bind, wp_set]
    exact wp_pure.2 ⟨_, rfl⟩

/-- **`bread`.** -/
theorem bread_step {v : Fin NBUF} {b : Nat} (h : step x (.bread o v b) = .ok y) :
    x.fs.pc.up = true ∧ ∃ B, y = x.setBufs B ∧
      ∀ c P, CacheInv x.fs c P x.dirty → CacheInv { x.fs with buf := B } c P x.dirty := by
  rw [step] at h
  obtain ⟨hup, h⟩ := of_guard h
  obtain ⟨i, t, hc, rfl⟩ := Traced.run_ok h
  obtain ⟨B, rfl⟩ := wp_ok (bread_buf v b) hc
  refine ⟨by simpa using hup, B, rfl, fun c P hi => ?_⟩
  obtain ⟨_, _, h', _⟩ := wp_ok (wp_bread (E := fun _ => True) hi v b (.inr fun _ => trivial)) hc
  exact h'

/-- **`brelse`** of a buffer whose changes are recorded. -/
theorem brelse_step {i : Fin NBUF} (h : step x (.brelse o i) = .ok y)
    (hD : (x.fs.buf i).blockno ∉ x.dirty o) :
    x.fs.pc.up = true ∧ ∃ B, y = x.setBufs B ∧
      ∀ c P, CacheInv x.fs c P x.dirty → CacheInv { x.fs with buf := B } c P x.dirty := by
  rw [step] at h
  obtain ⟨hup, h⟩ := of_guard h
  obtain ⟨u, t, hc, rfl⟩ := Traced.run_ok h
  have hshape : wp (brelse o i) x.fs (fun _ t => ∃ B, t = { x.fs with buf := B }) (fun _ => True) := by
    unfold brelse
    rw [wp_bind, wp_get]
    split
    · exact wp_set.2 ⟨_, rfl⟩
    · exact wp_throw.2 trivial
  obtain ⟨B, rfl⟩ := wp_ok hshape hc
  refine ⟨by simpa using hup, B, rfl, fun c P hi => ?_⟩
  obtain ⟨_, h'⟩ := wp_ok (wp_brelse (E := fun _ => True) hi hD (.inr fun _ => trivial)) hc
  exact h'

/-- **A change.** -/
theorem setData_step {i : Fin NBUF} {g : Block} (h : step x (.setData o i g) = .ok y) :
    o ∈ x.ops ∧ ∃ B, y =
      { x.setBufs B with
        dirty := upd x.dirty o ((x.fs.buf i).blockno :: x.dirty o)
        cur := x.cur ++ [.wrote o (x.fs.buf i).blockno g] } ∧
      ∀ c P, CacheInv x.fs c P x.dirty → CacheInv { x.fs with buf := B }
        (upd c (x.fs.buf i).blockno g) P (upd x.dirty o ((x.fs.buf i).blockno :: x.dirty o)) := by
  rw [step] at h
  obtain ⟨hup, h⟩ := of_guard h
  obtain ⟨u, t, hc, rfl⟩ := Traced.run_ok h
  have hshape : wp (setData o i g) x.fs (fun _ t => ∃ B, t = { x.fs with buf := B })
      (fun _ => True) := by
    unfold setData
    rw [wp_bind, wp_get]
    split
    · exact wp_set.2 ⟨_, rfl⟩
    · exact wp_throw.2 trivial
  obtain ⟨B, rfl⟩ := wp_ok hshape hc
  refine ⟨by_contra fun ho => hup (.inr ho), B, rfl, fun c P hi => ?_⟩
  obtain ⟨_, _, h'⟩ := wp_ok (wp_setData hi i g) hc
  exact h'

theorem nodup_concat {l : List Nat} {b : Nat} (h : l.Nodup) (hb : b ∉ l) : (l ++ [b]).Nodup := by
  rw [List.nodup_append]
  refine ⟨h, List.pairwise_singleton _ _, fun a ha c hc => ?_⟩
  rw [List.mem_singleton] at hc
  rintro rfl
  exact hb (hc ▸ ha)

/-- **`log_write`**: the block is recorded, once. -/
theorem logWrite_step {i : Fin NBUF} (h : step x (.logWrite o i) = .ok y) :
    o ∈ x.ops ∧ x.fs.lh.length < LOGBLOCKS ∧ ∃ B l, y =
      { x with
        fs := { x.fs with buf := B, lh := l }
        dirty := upd x.dirty o ((x.dirty o).filter (· ≠ (x.fs.buf i).blockno)) } ∧
      (l = x.fs.lh ∨ l = x.fs.lh ++ [(x.fs.buf i).blockno] ∧ (x.fs.buf i).blockno ∉ x.fs.lh) ∧
      ∀ c, CacheInv x.fs c x.fs.lh x.dirty → CacheInv { x.fs with buf := B, lh := l } c l
        (upd x.dirty o ((x.dirty o).filter (· ≠ (x.fs.buf i).blockno))) := by
  rw [step] at h
  obtain ⟨hup, h⟩ := of_guard h
  simp only [not_or, not_not] at hup
  obtain ⟨-, ho, hl⟩ := hup
  obtain ⟨u, t, hc, rfl⟩ := Traced.run_ok h
  -- who has changed what, after the block is taken off the list
  have hsub : ∀ o', ∀ b ∈ upd x.dirty o ((x.dirty o).filter (· ≠ (x.fs.buf i).blockno)) o',
      b ∈ x.dirty o' := by
    intro o' b hb
    by_cases hoo : o' = o
    · subst hoo
      rw [upd_same] at hb
      exact (List.mem_filter.1 hb).1
    · rwa [upd_other _ _ hoo] at hb
  have hsup : ∀ o', ∀ b ∈ x.dirty o', b ≠ (x.fs.buf i).blockno →
      b ∈ upd x.dirty o ((x.dirty o).filter (· ≠ (x.fs.buf i).blockno)) o' := by
    intro o' b hb hne
    by_cases hoo : o' = o
    · subst hoo
      rw [upd_same, List.mem_filter]
      exact ⟨hb, by simpa using hne⟩
    · rwa [upd_other _ _ hoo]
  have hspec : wp (logWrite i) x.fs (fun _ t => x.fs.lh.length < LOGBLOCKS ∧
      ((x.fs.buf i).blockno ∈ x.fs.lh ∧ t = x.fs ∨ (x.fs.buf i).blockno ∉ x.fs.lh ∧
        t = { x.fs.setBuf i { x.fs.buf i with refcnt := (x.fs.buf i).refcnt + 1 } with
          lh := x.fs.lh ++ [(x.fs.buf i).blockno] })) (fun _ => True) := by
    unfold logWrite bpin
    rw [wp_bind, wp_get]
    split
    · exact wp_throw.2 trivial
    · rename_i hlen
      split
      · exact wp_throw.2 trivial
      · split
        · exact wp_pure.2 ⟨by omega, .inl ⟨‹_›, rfl⟩⟩
        · rw [wp_bind, wp_modify, wp_modify]
          refine ⟨by omega, .inr ⟨‹_›, ?_⟩⟩
          simp
  obtain ⟨hlen, hcase⟩ := wp_ok hspec hc
  refine ⟨ho, hlen, ?_⟩
  rcases hcase with ⟨hmem, rfl⟩ | ⟨hmem, rfl⟩
  · refine ⟨x.fs.buf, x.fs.lh, rfl, .inl rfl, fun c hi => ?_⟩
    refine hi.forget hsub fun o' b hb hbP => hsup o' b hb ?_
    rintro rfl
    exact hbP hmem
  · refine ⟨_, _, rfl, .inr ⟨rfl, hmem⟩, fun c hi => ?_⟩
    exact (hi.pin hl hmem hsub hsup).congr rfl rfl

/-- **`begin_op`.** -/
theorem beginOp_step (h : step x (.beginOp o) = .ok y) :
    x.fs.pc.up = true ∧ o ∉ x.ops ∧ x.fs.committing = false ∧ y =
      { x with
        fs := { x.fs with outstanding := x.fs.outstanding + 1 }
        ops := o :: x.ops, cur := x.cur ++ [.began o] } := by
  rw [step] at h
  obtain ⟨hup, h⟩ := of_guard h
  simp only [not_or] at hup
  obtain ⟨u, t, hc, rfl⟩ := Traced.run_ok h
  have hspec : wp beginOp x.fs (fun _ t => x.fs.committing = false ∧
      t = { x.fs with outstanding := x.fs.outstanding + 1 }) (fun _ => True) := by
    unfold beginOp
    rw [wp_bind, wp_get]
    split
    · exact wp_throw.2 trivial
    · rename_i hcom
      split
      · exact wp_throw.2 trivial
      · exact wp_set.2 ⟨by simpa using hcom, rfl⟩
  obtain ⟨hcom, rfl⟩ := wp_ok hspec hc
  exact ⟨by simpa using hup.1, hup.2, hcom, rfl⟩

/-- **`end_op`**: the last operation starts the commit. -/
theorem endOp_step (h : step x (.endOp o) = .ok y) :
    o ∈ x.ops ∧ x.fs.committing = false ∧
      (x.fs.outstanding ≤ 1 ∧ (∃ pc n, (x.fs.lh = [] ∧ pc = .finish ∧ n = x.durable + 1 ∨
          x.fs.lh ≠ [] ∧ pc = .writeLog 0 ∧ n = x.durable) ∧ y =
        { x with
          fs := { x.fs with outstanding := 0, committing := true, worker := o, pc := pc }
          ops := x.ops.erase o, cur := [], groups := x.groups ++ [x.cur ++ [.ended o]]
          durable := n }) ∨
      1 < x.fs.outstanding ∧ y =
        { x with
          fs := { x.fs with outstanding := x.fs.outstanding - 1 }
          ops := x.ops.erase o, cur := x.cur ++ [.ended o] }) := by
  rw [step] at h
  obtain ⟨hup, h⟩ := of_guard h
  simp only [not_or, not_not] at hup
  obtain ⟨u, t, hc, rfl⟩ := Traced.run_ok h
  have hspec : wp (endOp o) x.fs (fun _ t => x.fs.committing = false ∧
      (x.fs.outstanding ≤ 1 ∧ t = { x.fs with
        outstanding := 0, committing := true, worker := o
        pc := if 0 < x.fs.lh.length then .writeLog 0 else .finish } ∨
      1 < x.fs.outstanding ∧ t = { x.fs with outstanding := x.fs.outstanding - 1 }))
      (fun _ => True) := by
    unfold endOp
    rw [wp_bind, wp_get]
    split
    · exact wp_throw.2 trivial
    · rename_i hcom
      split
      · exact wp_set.2 ⟨by simpa using hcom, .inl ⟨by omega, rfl⟩⟩
      · exact wp_set.2 ⟨by simpa using hcom, .inr ⟨by omega, rfl⟩⟩
  obtain ⟨hcom, ht⟩ := wp_ok hspec hc
  refine ⟨hup.2, hcom, ?_⟩
  rcases ht with ⟨hout, rfl⟩ | ⟨hout, rfl⟩
  · left
    refine ⟨hout, _, _, ?_, rfl⟩
    by_cases hlh : x.fs.lh = []
    · simp [hlh]
    · have hpos := List.length_pos_iff.2 hlh
      simp [hlh, hpos]
  · right
    refine ⟨hout, ?_⟩
    simp [hcom]

/-! ### Crashes -/

theorem cacheInv_reboot (start : Nat) (disk : Nat → Block) :
    CacheInv (reboot start disk) disk [] (fun _ => []) where
  fresh _ _ := ⟨rfl, rfl⟩
  used _ hv := absurd hv Bool.false_ne_true
  uniq _ _ hi := absurd hi Nat.zero_ne_one
  data _ hi := absurd hi Nat.zero_ne_one
  held _ hl := absurd rfl hl
  refcnt _ hi := absurd hi Nat.zero_ne_one
  pinned _ hb := absurd hb List.not_mem_nil
  dirty _ _ hb := absurd hb List.not_mem_nil
  disk _ _ _ := rfl

/-! ### `commit` and `recover_from_log` -/

/-- The blocks that the log has pinned. -/
def Fs.pins (s : Fs) : List Nat :=
  match s.pc with
  | .readHead | .recover _ | .recoverEnd => []
  | .install tail => s.lh.drop tail
  | _ => s.lh

/-- What a step of `commit` or `recover_from_log` does to the state and to the contents of
the cache, apart from the buffers. -/
inductive Worked (s : Fs) (c : Nat → Block) : Fs → (Nat → Block) → Prop
  | readHead {B : Fin NBUF → Buf} (hpc : s.pc = .readHead) :
      Worked s c { s with buf := B, lh := header (c s.start), pc := .recover 0 } c
  | recover {B : Fin NBUF → Buf} {tail : Nat} (hpc : s.pc = .recover tail)
      (ht : tail < s.lh.length) :
      Worked s c
        { s with
          buf := B, disk := upd s.disk (s.lh.getD tail 0) (c (s.start + tail + 1))
          pc := .recover (tail + 1) }
        (upd c (s.lh.getD tail 0) (c (s.start + tail + 1)))
  | recovered {tail : Nat} (hpc : s.pc = .recover tail) (ht : s.lh.length ≤ tail) :
      Worked s c { s with lh := [], pc := .recoverEnd } c
  | recoverEnd {B : Fin NBUF → Buf} (hpc : s.pc = .recoverEnd) :
      Worked s c
        { s with
          buf := B, disk := upd s.disk s.start (setHeader (c s.start) s.lh), pc := .idle }
        (upd c s.start (setHeader (c s.start) s.lh))
  | writeLog {B : Fin NBUF → Buf} {tail : Nat} (hpc : s.pc = .writeLog tail)
      (ht : tail < s.lh.length) :
      Worked s c
        { s with
          buf := B, disk := upd s.disk (s.start + tail + 1) (c (s.lh.getD tail 0))
          pc := .writeLog (tail + 1) }
        (upd c (s.start + tail + 1) (c (s.lh.getD tail 0)))
  | written {tail : Nat} (hpc : s.pc = .writeLog tail) (ht : s.lh.length ≤ tail) :
      Worked s c { s with pc := .writeHead } c
  | writeHead {B : Fin NBUF → Buf} (hpc : s.pc = .writeHead) :
      Worked s c
        { s with
          buf := B, disk := upd s.disk s.start (setHeader (c s.start) s.lh), pc := .install 0 }
        (upd c s.start (setHeader (c s.start) s.lh))
  | install {B : Fin NBUF → Buf} {tail : Nat} (hpc : s.pc = .install tail)
      (ht : tail < s.lh.length) :
      Worked s c
        { s with
          buf := B, disk := upd s.disk (s.lh.getD tail 0) (c (s.start + tail + 1))
          pc := .install (tail + 1) }
        (upd c (s.lh.getD tail 0) (c (s.start + tail + 1)))
  | installed {tail : Nat} (hpc : s.pc = .install tail) (ht : s.lh.length ≤ tail) :
      Worked s c { s with lh := [], pc := .clear } c
  | clear {B : Fin NBUF → Buf} (hpc : s.pc = .clear) :
      Worked s c
        { s with
          buf := B, disk := upd s.disk s.start (setHeader (c s.start) s.lh), pc := .finish }
        (upd c s.start (setHeader (c s.start) s.lh))
  | finish (hpc : s.pc = .finish) : Worked s c { s with committing := false, pc := .idle } c

theorem not_worked_idle {c' : Nat → Block} (h : s.pc = .idle) : ¬Worked s c t c' := by
  intro hw
  cases hw <;> simp_all

theorem SameLog.eq_with (h : SameLog s t) : t = { s with disk := t.disk, buf := t.buf } := by
  obtain ⟨h1, h2, h3, h4, h5, h6⟩ := h
  cases t
  cases s
  simp_all

theorem Passed.goto (h : Passed s t) (pc : Pc) {d : Nat → Block} (hd : t.disk = d) :
    ({ t with pc } : Fs) = { s with buf := t.buf, disk := d, pc } := by
  rw [h.toSameLog.eq_with, hd]

theorem wp_writeHead_goto {E : Stop → Prop} (h : CacheInv s c P D) (hD : ∀ o b, b ∉ D o)
    (v : Fin NBUF) (pc : Pc) (hE : Avail s s.start ∨ ∀ e, E e) {Q : Unit → Fs → Prop}
    (hQ : ∀ B, CacheInv
      { s with buf := B, disk := upd s.disk s.start (setHeader (c s.start) s.lh), pc := pc }
        (upd c s.start (setHeader (c s.start) s.lh)) P D →
      (s.Unlocked → ∀ i, (B i).lock = none) →
      Q () { s with buf := B, disk := upd s.disk s.start (setHeader (c s.start) s.lh), pc := pc }) :
    wp (do writeHead v; goto pc) s Q E := by
  refine wp_seq (wp_writeHead h hD v hE) ?_
  rintro _ t ⟨hp, hd, h'⟩
  refine wp_modify.2 ?_
  rw [hp.goto _ hd]
  exact hQ t.buf (h'.congr hd.symm rfl) hp.unlocked

/-- The block that `install_trans` unpins is pinned by the part of the log that is left, and not by the rest
of it. -/
theorem pins_install {l : List Nat} (hn : l.Nodup) {tail : Nat} (ht : tail < l.length) :
    l.getD tail 0 ∈ l.drop tail ∧ l.getD tail 0 ∉ l.drop (tail + 1) ∧
      ∀ b, b ≠ l.getD tail 0 → (b ∈ l.drop (tail + 1) ↔ b ∈ l.drop tail) := by
  have hdrop : l.drop tail = l.getD tail 0 :: l.drop (tail + 1) := by
    rw [List.getD_eq_getElem _ _ ht]
    exact List.drop_eq_getElem_cons ht
  have hnodup := hn.sublist (List.drop_sublist tail l)
  rw [hdrop] at hnodup ⊢
  refine ⟨List.mem_cons_self, (List.nodup_cons.1 hnodup).1, fun b hb => ?_⟩
  rw [List.mem_cons]
  exact ⟨.inr, fun h => h.resolve_left hb⟩

/-- **One step of `commit` or `recover_from_log`.**  In recovery nothing can stop it. -/
theorem wp_work {E : Stop → Prop} (h : CacheInv s c s.pins D)
    (hD : s.pc ≠ .idle → ∀ o b, b ∉ D o) (hn : s.pc.up = true → s.lh.Nodup)
    (hend : s.pc = .recoverEnd → s.lh = []) (v w : Fin NBUF)
    (hE : (s.pc.up = false ∧ s.Unlocked ∧
      ∀ tail < s.lh.length, s.start + tail + 1 ≠ s.lh.getD tail 0) ∨ ∀ e, E e) :
    wp (work v w) s (fun _ t => ∃ c', Worked s c t c' ∧ CacheInv t c' t.pins D ∧
      (s.Unlocked → t.Unlocked)) E := by
  unfold work
  rw [wp_bind, wp_get]
  -- in recovery the header can always be read
  have hhead : s.pins = [] → Avail s s.start ∨ ∀ e, E e := by
    intro hP
    rcases hE with ⟨-, hs, -⟩ | hE
    · exact .inl (.of_unlocked (hP ▸ h) hs _)
    · exact .inr hE
  have hgo : s.pc.up = true → ∀ e, E e := by
    intro hup
    rcases hE with ⟨hup', -⟩ | hE
    · rw [hup] at hup'; cases hup'
    · exact hE
  cases hpc : s.pc with
  | idle => exact wp_throw.2 (hgo (by rw [hpc]; rfl) _)
  | readHead =>
    have hD' := hD (by rw [hpc]; exact Pc.noConfusion)
    have hP : s.pins = [] := by simp [Fs.pins, hpc]
    refine wp_seq (wp_readHead h hD' v (hhead hP)) ?_
    rintro _ t ⟨hp, hd, h'⟩
    rw [hP] at h'
    refine wp_modify.2 ⟨c, ?_, h'.congr rfl rfl, hp.unlocked⟩
    rw [hp.goto _ hd]
    exact .readHead hpc
  | recover tail =>
    have hD' := hD (by rw [hpc]; exact Pc.noConfusion)
    have hP : s.pins = [] := by simp [Fs.pins, hpc]
    rw [hP] at h
    dsimp only
    split
    · rename_i ht
      have hE' : ([] = ([] : List Nat) ∧ s.Unlocked ∧ s.start + tail + 1 ≠ s.lh.getD tail 0) ∨
          ∀ e, E e := by
        rcases hE with ⟨-, hs, hne⟩ | hE
        · exact .inl ⟨rfl, hs, hne tail ht⟩
        · exact .inr hE
      refine wp_seq (wp_installBlock h hD' true _ tail v w hE' (fun _ => rfl) (fun hr => by cases hr)) ?_
      rintro _ t ⟨hp, hd, h'⟩
      refine wp_modify.2 ⟨_, ?_, h'.congr rfl rfl, hp.unlocked⟩
      rw [hp.goto _ hd]
      exact .recover hpc ht
    · rename_i ht
      rw [wp_bind, wp_modify]
      refine wp_modify.2 ⟨c, .recovered hpc (by omega), h.congr rfl rfl, id⟩
  | recoverEnd =>
    have hP : s.pins = [] := by simp [Fs.pins, hpc]
    refine wp_writeHead_goto h (hD (by rw [hpc]; exact Pc.noConfusion)) v _ (hhead hP)
      fun B h' hB => ⟨_, .recoverEnd hpc, ?_, hB⟩
    rw [hP, ← hend hpc] at h'
    exact h'
  | writeLog tail =>
    have hD' := hD (by rw [hpc]; exact Pc.noConfusion)
    have hP : s.pins = s.lh := by simp [Fs.pins, hpc]
    rw [hP] at h
    dsimp only
    split
    · rename_i ht
      rw [wp_bind]
      refine wp_mono (wp_writeLogBlock h hD' tail v w) ?_ (fun e _ => hgo (by rw [hpc]; rfl) e)
      rintro _ t ⟨hp, hd, h'⟩
      have h2 : CacheInv t (upd c (s.start + tail + 1) (c (s.lh.getD tail 0))) t.lh D := by
        rw [hp.lh]; exact h'
      refine wp_modify.2 ⟨_, ?_, h2.congr rfl rfl, hp.unlocked⟩
      rw [hp.goto _ hd]
      exact .writeLog hpc ht
    · rename_i ht
      exact wp_modify.2 ⟨c, .written hpc (by omega), h.congr rfl rfl, id⟩
  | writeHead =>
    have hP : s.pins = s.lh := by simp [Fs.pins, hpc]
    rw [hP] at h
    exact wp_writeHead_goto h (hD (by rw [hpc]; exact Pc.noConfusion)) v _
      (.inr (hgo (by rw [hpc]; rfl))) fun B h' hB => ⟨_, .writeHead hpc, h', hB⟩
  | install tail =>
    have hD' := hD (by rw [hpc]; exact Pc.noConfusion)
    have hP : s.pins = s.lh.drop tail := by simp [Fs.pins, hpc]
    rw [hP] at h
    dsimp only
    split
    · rename_i ht
      refine wp_seq (wp_installBlock h hD' false (s.lh.drop (tail + 1)) tail v w
        (.inr (hgo (by rw [hpc]; rfl))) (fun hr => by cases hr)
        (fun _ => pins_install (hn (by rw [hpc]; rfl)) ht)) ?_
      rintro _ t ⟨hp, hd, h'⟩
      have h2 : CacheInv t (upd c (s.lh.getD tail 0) (c (s.start + tail + 1)))
          (t.lh.drop (tail + 1)) D := by rw [hp.lh]; exact h'
      refine wp_modify.2 ⟨_, ?_, h2.congr rfl rfl, hp.unlocked⟩
      rw [hp.goto _ hd]
      exact .install hpc ht
    · rename_i ht
      rw [List.drop_eq_nil_of_le (by omega)] at h
      rw [wp_bind, wp_modify]
      exact wp_modify.2 ⟨c, .installed hpc (by omega), h.congr rfl rfl, id⟩
  | clear =>
    have hP : s.pins = s.lh := by simp [Fs.pins, hpc]
    rw [hP] at h
    exact wp_writeHead_goto h (hD (by rw [hpc]; exact Pc.noConfusion)) v _
      (.inr (hgo (by rw [hpc]; rfl))) fun B h' hB => ⟨_, .clear hpc, h', hB⟩
  | finish =>
    have hP : s.pins = s.lh := by simp [Fs.pins, hpc]
    rw [hP] at h
    rw [wp_bind, wp_modify]
    exact wp_modify.2 ⟨c, .finish hpc, h.congr rfl rfl, id⟩

end Xv6.Log
