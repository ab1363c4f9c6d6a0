import Xv6.Log.Step

/-!
# Coherence of the buffer cache

A change that is recorded before its buffer is given back is either pinned by the log or on
the disk.  `Tracked` keeps that along every step whose changes are recorded, for any blocks
and whatever is on the disk; then a valid buffer that nobody holds agrees with the disk,
unless its block is in the current transaction.
-/

namespace Xv6.Log

open Xv6.Lib

/-- **What the cache keeps as long as changes are recorded.** -/
structure Tracked (x : Traced) : Prop where
  cache : ∃ c, CacheInv x.fs c x.fs.pins x.dirty
  nodup : x.fs.pc.up = true → x.fs.lh.Nodup
  recoverEnd : x.fs.pc = .recoverEnd → x.fs.lh = []
  /-- A commit and a recovery run alone. -/
  alone : x.fs.pc ≠ .idle → x.ops = [] ∧ ∀ o b, b ∉ x.dirty o
  committing : x.fs.pc.up = true → x.fs.pc ≠ .idle → x.fs.committing = true
  outstanding : x.fs.outstanding = x.ops.length
  dirty : ∀ o, o ∉ x.ops → x.dirty o = []

section Steps

variable {x y : Traced} {o : Nat}

theorem Tracked.idle_of_op (h : Tracked x) (ho : o ∈ x.ops) : x.fs.pc = .idle := by
  by_contra hpc
  rw [(h.alone hpc).1] at ho
  cases ho

theorem Tracked.reader (h : Tracked x) {B : Fin NBUF → Buf}
    (hB : ∀ c P, CacheInv x.fs c P x.dirty → CacheInv { x.fs with buf := B } c P x.dirty) :
    Tracked (x.setBufs B) := by
  obtain ⟨c, hc⟩ := h.cache
  exact ⟨⟨c, hB _ _ hc⟩, h.nodup, h.recoverEnd, h.alone, h.committing, h.outstanding, h.dirty⟩

theorem tracked_beginOp (h : Tracked x) (hs : step x (.beginOp o) = .ok y) : Tracked y := by
  obtain ⟨hup, ho, hcom, rfl⟩ := beginOp_step hs
  obtain ⟨c, hc⟩ := h.cache
  have hidle : x.fs.pc = .idle := by
    by_contra hpc
    rw [h.committing hup hpc] at hcom
    cases hcom
  refine ⟨⟨c, hc.congr rfl rfl⟩, h.nodup, h.recoverEnd, fun hpc => absurd hidle hpc, h.committing,
    ?_, fun o' ho' => h.dirty o' fun hmem => ho' (List.mem_cons_of_mem _ hmem)⟩
  rw [List.length_cons, ← h.outstanding]

theorem tracked_setData (h : Tracked x) {i : Fin NBUF} {g : Block}
    (hs : step x (.setData o i g) = .ok y) : Tracked y := by
  obtain ⟨ho, B, rfl, hB⟩ := setData_step hs
  have hidle := h.idle_of_op ho
  obtain ⟨c, hc⟩ := h.cache
  refine ⟨⟨_, hB _ _ hc⟩, h.nodup, h.recoverEnd, fun hpc => absurd hidle hpc, h.committing,
    h.outstanding, fun o' ho' => ?_⟩
  have hne : o' ≠ o := by rintro rfl; exact ho' ho
  show upd x.dirty o _ o' = []
  rw [upd_other _ _ hne]
  exact h.dirty o' ho'

theorem tracked_logWrite (h : Tracked x) {i : Fin NBUF} (hs : step x (.logWrite o i) = .ok y) :
    Tracked y := by
  obtain ⟨ho, -, B, l, rfl, hl, hB⟩ := logWrite_step hs
  have hidle := h.idle_of_op ho
  have hpins : x.fs.pins = x.fs.lh := by simp [Fs.pins, hidle]
  obtain ⟨c, hc⟩ := h.cache
  rw [hpins] at hc
  refine ⟨⟨c, ?_⟩, fun hup => ?_, fun hpc => ?_, fun hpc => absurd hidle hpc, h.committing,
    h.outstanding, fun o' ho' => ?_⟩
  · have hpins' : ({ x.fs with buf := B, lh := l } : Fs).pins = l := by simp [Fs.pins, hidle]
    rw [hpins']
    exact hB c hc
  · rcases hl with rfl | ⟨rfl, hmem⟩
    · exact h.nodup hup
    · exact nodup_concat (h.nodup hup) hmem
  · rw [show x.fs.pc = .recoverEnd from hpc] at hidle
    cases hidle
  · have hne : o' ≠ o := by rintro rfl; exact ho' ho
    show upd x.dirty o _ o' = []
    rw [upd_other _ _ hne]
    exact h.dirty o' ho'

theorem tracked_endOp (h : Tracked x) (hclean : x.dirty o = []) (hs : step x (.endOp o) = .ok y) :
    Tracked y := by
  obtain ⟨ho, hcom, hcase⟩ := endOp_step hs
  have hidle := h.idle_of_op ho
  have hpins : x.fs.pins = x.fs.lh := by simp [Fs.pins, hidle]
  have hnodup : x.fs.lh.Nodup := h.nodup (by rw [hidle]; rfl)
  have hout := h.outstanding
  have herase := List.length_erase_of_mem ho
  have hdirty : ∀ o', o' ∉ x.ops.erase o → x.dirty o' = [] := by
    intro o' ho'
    by_cases hoo : o' = o
    · rw [hoo]; exact hclean
    · exact h.dirty o' fun hmem => ho' ((List.mem_erase_of_ne hoo).2 hmem)
  obtain ⟨c, hc⟩ := h.cache
  rw [hpins] at hc
  rcases hcase with ⟨hone, pc, n, hpc, rfl⟩ | ⟨hmore, rfl⟩
  · have hnil : x.ops.erase o = [] := by
      rw [← List.length_eq_zero_iff]
      omega
    have halone : ∀ o' b, b ∉ x.dirty o' := by
      intro o' b hb
      rw [hdirty o' (by rw [hnil]; exact List.not_mem_nil)] at hb
      cases hb
    rcases hpc with ⟨hlh, rfl, rfl⟩ | ⟨hlh, rfl, rfl⟩
    · exact ⟨⟨c, hc.congr rfl rfl⟩, fun _ => hnodup, fun hpc => (by cases hpc),
        fun _ => ⟨hnil, halone⟩, fun _ _ => rfl, by rw [hnil]; rfl, hdirty⟩
    · exact ⟨⟨c, hc.congr rfl rfl⟩, fun _ => hnodup, fun hpc => (by cases hpc),
        fun _ => ⟨hnil, halone⟩, fun _ _ => rfl, by rw [hnil]; rfl, hdirty⟩
  · refine ⟨⟨c, ?_⟩, fun _ => hnodup, h.recoverEnd, fun hpc => absurd hidle hpc, h.committing,
      ?_, hdirty⟩
    · have hpins' : ({ x.fs with outstanding := x.fs.outstanding - 1 } : Fs).pins = x.fs.lh := by
        simp [Fs.pins, hidle]
      rw [hpins']
      exact hc.congr rfl rfl
    · show x.fs.outstanding - 1 = (x.ops.erase o).length
      omega

theorem tracked_work (h : Tracked x) {v w : Fin NBUF} (hs : step x (.work v w) = .ok y) :
    Tracked y := by
  rw [step] at hs
  obtain ⟨u, t, hcode, rfl⟩ := Traced.run_ok hs
  obtain ⟨c, hc⟩ := h.cache
  obtain ⟨c', hw, hc', -⟩ := wp_ok (wp_work (E := fun _ => True) hc (fun hpc => (h.alone hpc).2)
    h.nodup h.recoverEnd v w (.inr fun _ => trivial)) hcode
  have hpc : x.fs.pc ≠ .idle := fun hpc => not_worked_idle hpc hw
  obtain ⟨hops, hclean⟩ := h.alone hpc
  have hout := h.outstanding
  refine ⟨⟨c', hc'⟩, ?_, ?_, fun _ => ⟨hops, hclean⟩, ?_, ?_, h.dirty⟩
  · intro hup
    cases hw with
    | readHead | recover | recovered => cases hup
    | recoverEnd hpc =>
      show x.fs.lh.Nodup
      rw [h.recoverEnd hpc]
      exact List.nodup_nil
    | writeLog hpc | written hpc | writeHead hpc | install hpc => exact h.nodup (by rw [hpc]; rfl)
    | installed hpc => exact List.nodup_nil
    | clear hpc | finish hpc => exact h.nodup (by rw [hpc]; rfl)
  · intro hpc'
    cases hw with
    | recovered => rfl
    | readHead | recover | recoverEnd | writeLog | written | writeHead | install | installed | clear
    | finish => cases hpc'
  · intro hup hidle
    cases hw with
    | readHead | recover | recovered => cases hup
    | recoverEnd | finish => exact absurd rfl hidle
    | writeLog hpc' | written hpc' | writeHead hpc' | install hpc' | installed hpc' | clear hpc' =>
      exact h.committing (by rw [hpc']; rfl) hpc
  · cases hw <;> exact hout

theorem tracked_crash (hs : step x .crash = .ok y) : Tracked y := by
  rw [step] at hs
  cases hs
  exact ⟨⟨_, cacheInv_reboot _ _⟩, fun _ => List.nodup_nil, fun hpc => (by cases hpc),
    fun _ => ⟨rfl, fun _ _ => List.not_mem_nil⟩, fun hup => (by cases hup), rfl, fun _ _ => rfl⟩

/-- **Every step keeps the cache coherent, if changes are recorded.** -/
theorem tracked_step {a : Act} (h : Tracked x) (hok : Recorded x a) (hs : step x a = .ok y) :
    Tracked y := by
  cases a with
  | beginOp o => exact tracked_beginOp h hs
  | bread o v b =>
    obtain ⟨-, B, rfl, hB⟩ := bread_step hs
    exact h.reader hB
  | setData o i g => exact tracked_setData h hs
  | logWrite o i => exact tracked_logWrite h hs
  | brelse o i =>
    obtain ⟨-, B, rfl, hB⟩ := brelse_step hs hok
    exact h.reader hB
  | endOp o => exact tracked_endOp h hok hs
  | work v w => exact tracked_work h hs
  | crash => exact tracked_crash hs

theorem tracked_boot (start : Nat) (d : Nat → Block) : Tracked (boot start d) :=
  ⟨⟨_, cacheInv_reboot _ _⟩, fun _ => List.nodup_nil, fun hpc => (by cases hpc),
    fun _ => ⟨rfl, fun _ _ => List.not_mem_nil⟩, fun hup => (by cases hup), rfl, fun _ _ => rfl⟩

end Steps

/-- Each valid buffer that nobody holds and whose block is not in the current transaction
holds what is on the disk. -/
def Fs.Coherent (s : Fs) : Prop :=
  ∀ i, (s.buf i).valid = true → (s.buf i).lock = none → (s.buf i).blockno ∉ s.lh →
    (s.buf i).data = s.disk (s.buf i).blockno

theorem Fs.mem_lh_of_mem_pins {s : Fs} {b : Nat} (h : b ∈ s.pins) : b ∈ s.lh := by
  unfold Fs.pins at h
  split at h
  · cases h
  · cases h
  · cases h
  · exact List.mem_of_mem_drop h
  · exact h

theorem Tracked.coherent {x : Traced} (h : Tracked x) : x.fs.Coherent := by
  obtain ⟨c, hc⟩ := h.cache
  exact fun i hv hl hlh => hc.coherent hv hl fun hmem => hlh (Fs.mem_lh_of_mem_pins hmem)

end Xv6.Log
