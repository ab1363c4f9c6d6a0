import Xv6.Log.Model

/-!
# What the buffer cache keeps

`CacheInv s c P D` says that `bread` of any block `b` gives the contents `c b`: a valid
buffer holds them, and the disk does for every block that is not pinned (`P`) and that no
thread has changed without recording it (`D`).  Each function of `bio.c` has one
specification over it; the bodies of the loops of `log.c` follow from them.
-/

namespace Xv6.Log

open Xv6.Lib

namespace Fs

variable (s : Fs) (i : Fin NBUF) (x : Buf)

@[simp] theorem setBuf_buf : (s.setBuf i x).buf = upd s.buf i x := rfl
@[simp] theorem setBuf_disk : (s.setBuf i x).disk = s.disk := rfl
@[simp] theorem setBuf_start : (s.setBuf i x).start = s.start := rfl
@[simp] theorem setBuf_lh : (s.setBuf i x).lh = s.lh := rfl
@[simp] theorem setBuf_worker : (s.setBuf i x).worker = s.worker := rfl
@[simp] theorem setBuf_pc : (s.setBuf i x).pc = s.pc := rfl
@[simp] theorem setBuf_outstanding : (s.setBuf i x).outstanding = s.outstanding := rfl
@[simp] theorem setBuf_committing : (s.setBuf i x).committing = s.committing := rfl

end Fs

variable {b : Nat}

theorem Buf.caches_iff {x : Buf} : x.caches b = true ↔ x.dev = ROOTDEV ∧ x.blockno = b := by
  simp [Buf.caches]

/-- `bread` of the block `b` gives `c b`. -/
structure CacheInv (s : Fs) (c : Nat → Block) (P : List Nat) (D : Nat → List Nat) : Prop where
  /-- A buffer that was never used is unused. -/
  fresh : ∀ i, (s.buf i).dev ≠ ROOTDEV → (s.buf i).refcnt = 0 ∧ (s.buf i).lock = none
  used : ∀ i, (s.buf i).valid = true → (s.buf i).dev = ROOTDEV
  /-- A block is in one buffer at most. -/
  uniq : ∀ i j, (s.buf i).dev = ROOTDEV → (s.buf j).dev = ROOTDEV →
    (s.buf i).blockno = (s.buf j).blockno → i = j
  data : ∀ i, (s.buf i).dev = ROOTDEV → (s.buf i).valid = true →
    (s.buf i).data = c (s.buf i).blockno
  held : ∀ i, (s.buf i).lock ≠ none → (s.buf i).valid = true
  /-- One reference for the holder of the lock, one for the log. -/
  refcnt : ∀ i, (s.buf i).dev = ROOTDEV → (s.buf i).refcnt =
    (if (s.buf i).lock = none then 0 else 1) + (if (s.buf i).blockno ∈ P then 1 else 0)
  pinned : ∀ b ∈ P, ∃ i, (s.buf i).caches b = true ∧ (s.buf i).valid = true
  /-- Only the holder of the lock changes a buffer. -/
  dirty : ∀ o, ∀ b ∈ D o, ∃ i, (s.buf i).caches b = true ∧ (s.buf i).lock = some o
  disk : ∀ b, b ∉ P → (∀ o, b ∉ D o) → s.disk b = c b

namespace CacheInv

variable {s : Fs} {c : Nat → Block} {P : List Nat} {D : Nat → List Nat}

theorem congr {t : Fs} (h : CacheInv s c P D) (hd : t.disk = s.disk) (hb : t.buf = s.buf) :
    CacheInv t c P D := by
  obtain ⟨h1, h2, h3, h4, h5, h6, h7, h8, h9⟩ := h
  constructor <;> simpa only [hd, hb]

theorem dev_of_lock (h : CacheInv s c P D) {i : Fin NBUF} (hl : (s.buf i).lock ≠ none) :
    (s.buf i).dev = ROOTDEV := by
  by_contra hd
  exact hl (h.fresh i hd).2

theorem caches_inj (h : CacheInv s c P D) {i j : Fin NBUF} (hi : (s.buf i).caches b = true)
    (hj : (s.buf j).caches b = true) : i = j := by
  rw [Buf.caches_iff] at hi hj
  exact h.uniq i j hi.1 hj.1 (hi.2.trans hj.2.symm)

/-- A block that another thread has changed is not in a buffer of ours. -/
theorem not_dirty (h : CacheInv s c P D) {i : Fin NBUF} {o : Nat} (hl : (s.buf i).lock = some o)
    (ho : (s.buf i).blockno ∉ D o) (o' : Nat) : (s.buf i).blockno ∉ D o' := by
  intro hb
  obtain ⟨j, hj, hlj⟩ := h.dirty o' _ hb
  have hi : (s.buf i).caches (s.buf i).blockno = true :=
    Buf.caches_iff.2 ⟨h.dev_of_lock (by rw [hl]; exact Option.some_ne_none o), rfl⟩
  have hij := h.caches_inj hi hj
  subst hij
  have : o = o' := Option.some.inj (hl.symm.trans hlj)
  subst this
  exact ho hb

/-- What was changed is in a locked buffer, so an unlocked one is clean. -/
theorem clean (h : CacheInv s c P D) {i : Fin NBUF} (hl : (s.buf i).lock = none)
    (hd : (s.buf i).dev = ROOTDEV) (o : Nat) : (s.buf i).blockno ∉ D o := by
  intro hb
  obtain ⟨j, hj, hlj⟩ := h.dirty o _ hb
  have hij := h.caches_inj (Buf.caches_iff.2 ⟨hd, rfl⟩) hj
  subst hij
  rw [hl] at hlj
  cases hlj

/-- **Coherence**: an unlocked valid buffer whose block is not pinned agrees with the disk. -/
theorem coherent (h : CacheInv s c P D) {i : Fin NBUF} (hv : (s.buf i).valid = true)
    (hl : (s.buf i).lock = none) (hP : (s.buf i).blockno ∉ P) :
    (s.buf i).data = s.disk (s.buf i).blockno := by
  have hd := h.used i hv
  rw [h.data i hd hv, h.disk _ hP (h.clean hl hd)]

/-- Replacing the buffer `i` by one for the same block that keeps what it held. -/
theorem setBuf_same (h : CacheInv s c P D) {i : Fin NBUF} {x : Buf}
    (hdev : x.dev = (s.buf i).dev) (hno : x.blockno = (s.buf i).blockno)
    (hvalid : (s.buf i).valid = true → x.valid = true)
    (hused : x.valid = true → x.dev = ROOTDEV)
    (hdata : x.dev = ROOTDEV → x.valid = true → x.data = c x.blockno)
    (hlock : x.lock ≠ none → x.dev = ROOTDEV ∧ x.valid = true)
    (hclean : ∀ o, (s.buf i).blockno ∈ D o → (s.buf i).lock = some o → x.lock = some o)
    (href0 : x.dev ≠ ROOTDEV → x.refcnt = 0)
    (href : x.dev = ROOTDEV → x.refcnt =
      (if x.lock = none then 0 else 1) + (if x.blockno ∈ P then 1 else 0)) :
    CacheInv (s.setBuf i x) c P D where
  fresh j hj := by
    by_cases hji : j = i
    · subst hji
      simp only [Fs.setBuf_buf, upd_same] at hj ⊢
      refine ⟨href0 hj, ?_⟩
      by_contra hl
      exact hj (hlock hl).1
    · simp only [Fs.setBuf_buf, upd_other _ _ hji] at hj ⊢
      exact h.fresh j hj
  used j hv := by
    by_cases hji : j = i
    · subst hji
      simp only [Fs.setBuf_buf, upd_same] at hv ⊢
      exact hused hv
    · simp only [Fs.setBuf_buf, upd_other _ _ hji] at hv ⊢
      exact h.used j hv
  uniq j k hj hk hjk := by
    have key : ∀ m, ((s.setBuf i x).buf m).dev = (s.buf m).dev ∧
        ((s.setBuf i x).buf m).blockno = (s.buf m).blockno := by
      intro m
      by_cases hm : m = i
      · subst hm; simp [hdev, hno]
      · simp [hm]
    rw [(key j).1] at hj
    rw [(key k).1] at hk
    rw [(key j).2, (key k).2] at hjk
    exact h.uniq j k hj hk hjk
  data j hj hv := by
    by_cases hji : j = i
    · subst hji
      simp only [Fs.setBuf_buf, upd_same] at hj hv ⊢
      exact hdata hj hv
    · simp only [Fs.setBuf_buf, upd_other _ _ hji] at hj hv ⊢
      exact h.data j hj hv
  held j hl := by
    by_cases hji : j = i
    · subst hji
      simp only [Fs.setBuf_buf, upd_same] at hl ⊢
      exact (hlock hl).2
    · simp only [Fs.setBuf_buf, upd_other _ _ hji] at hl ⊢
      exact h.held j hl
  refcnt j hj := by
    by_cases hji : j = i
    · subst hji
      simp only [Fs.setBuf_buf, upd_same] at hj ⊢
      exact href hj
    · simp only [Fs.setBuf_buf, upd_other _ _ hji] at hj ⊢
      exact h.refcnt j hj
  pinned b hb := by
    obtain ⟨j, hj, hv⟩ := h.pinned b hb
    refine ⟨j, ?_⟩
    by_cases hji : j = i
    · subst hji
      rw [Buf.caches_iff] at hj ⊢
      simp only [Fs.setBuf_buf, upd_same]
      exact ⟨⟨hdev.trans hj.1, hno.trans hj.2⟩, hvalid hv⟩
    · simp only [Fs.setBuf_buf, upd_other _ _ hji]
      exact ⟨hj, hv⟩
  dirty o b hb := by
    obtain ⟨j, hj, hl⟩ := h.dirty o b hb
    refine ⟨j, ?_⟩
    by_cases hji : j = i
    · subst hji
      rw [Buf.caches_iff] at hj ⊢
      simp only [Fs.setBuf_buf, upd_same]
      refine ⟨⟨hdev.trans hj.1, hno.trans hj.2⟩, hclean o ?_ hl⟩
      rw [hj.2]; exact hb
    · simp only [Fs.setBuf_buf, upd_other _ _ hji]
      exact ⟨hj, hl⟩
  disk b hb hD := h.disk b hb hD

end CacheInv

/-! ### `bio.c` -/

section Bio

variable {s : Fs} {c : Nat → Block} {P : List Nat} {D : Nat → List Nat} {o : Nat}
  {E : Stop → Prop}

theorem find_some {i : Fin NBUF}
    (h : (List.finRange NBUF).find? (fun i => (s.buf i).caches b) = some i) :
    (s.buf i).caches b = true := by
  have := List.find?_some h
  exact this

theorem find_none (h : (List.finRange NBUF).find? (fun i => (s.buf i).caches b) = none)
    (i : Fin NBUF) : ¬(s.buf i).caches b = true := by
  rw [List.find?_eq_none] at h
  exact h i (List.mem_finRange i)

theorem victim_some {v i : Fin NBUF} (h : victim s v = some i) : (s.buf i).refcnt = 0 := by
  unfold victim at h
  split at h
  · rename_i hv
    rw [← Option.some.inj h]
    exact hv
  · simpa using List.find?_some h

variable {v : Fin NBUF} {D' : Nat → List Nat}

theorem victim_none (h : victim s v = none) (i : Fin NBUF) : (s.buf i).refcnt ≠ 0 := by
  unfold victim at h
  split at h
  · cases h
  · rw [List.find?_eq_none] at h
    simpa using h i (List.mem_finRange i)

theorem CacheInv.unused (h : CacheInv s c P D) (hv : (s.buf v).refcnt = 0) :
    (s.buf v).lock = none ∧ ((s.buf v).dev = ROOTDEV → (s.buf v).blockno ∉ P) := by
  by_cases hd : (s.buf v).dev = ROOTDEV
  · have hr := h.refcnt v hd
    rw [hv] at hr
    constructor
    · by_contra hl
      rw [if_neg hl] at hr
      omega
    · intro _ hp
      rw [if_pos hp] at hr
      omega
  · exact ⟨(h.fresh v hd).2, fun hd' => absurd hd' hd⟩

theorem CacheInv.recycle (h : CacheInv s c P D) (hfree : (s.buf v).refcnt = 0)
    (hmiss : ∀ i, ¬(s.buf i).caches b = true) {x : Buf} (hdev : x.dev = ROOTDEV)
    (hno : x.blockno = b) (hlock : x.lock = some o) (href : x.refcnt = 1)
    (hvalid : x.valid = true) (hdata : x.data = s.disk b) : CacheInv (s.setBuf v x) c P D := by
  obtain ⟨hvl, hvP⟩ := h.unused hfree
  have hbP : b ∉ P := by
    intro hb
    obtain ⟨i, hi, _⟩ := h.pinned b hb
    exact hmiss i hi
  have hbD : ∀ o, b ∉ D o := by
    intro o' hb
    obtain ⟨i, hi, _⟩ := h.dirty o' b hb
    exact hmiss i hi
  have hne : ∀ j, (s.buf j).dev = ROOTDEV → (s.buf j).blockno ≠ b := by
    intro j hj hb
    exact hmiss j (Buf.caches_iff.2 ⟨hj, hb⟩)
  constructor
  case fresh =>
    intro j hj
    by_cases hjv : j = v
    · subst hjv
      simp only [Fs.setBuf_buf, upd_same] at hj
      exact absurd hdev hj
    · simp only [Fs.setBuf_buf, upd_other _ _ hjv] at hj ⊢
      exact h.fresh j hj
  case used =>
    intro j hv
    by_cases hjv : j = v
    · subst hjv
      simpa only [Fs.setBuf_buf, upd_same] using hdev
    · simp only [Fs.setBuf_buf, upd_other _ _ hjv] at hv ⊢
      exact h.used j hv
  case uniq =>
    intro j k hj hk hjk
    by_cases hjv : j = v <;> by_cases hkv : k = v
    · rw [hjv, hkv]
    · subst hjv
      simp only [Fs.setBuf_buf, upd_same, upd_other _ _ hkv] at hj hk hjk
      exact absurd (hjk.symm.trans hno) (hne k hk)
    · subst hkv
      simp only [Fs.setBuf_buf, upd_same, upd_other _ _ hjv] at hj hk hjk
      exact absurd (hjk.trans hno) (hne j hj)
    · simp only [Fs.setBuf_buf, upd_other _ _ hjv, upd_other _ _ hkv] at hj hk hjk
      exact h.uniq j k hj hk hjk
  case data =>
    intro j hj hv
    by_cases hjv : j = v
    · subst hjv
      simp only [Fs.setBuf_buf, upd_same]
      rw [hdata, hno, h.disk b hbP hbD]
    · simp only [Fs.setBuf_buf, upd_other _ _ hjv] at hj hv ⊢
      exact h.data j hj hv
  case held =>
    intro j hl
    by_cases hjv : j = v
    · subst hjv
      simpa only [Fs.setBuf_buf, upd_same] using hvalid
    · simp only [Fs.setBuf_buf, upd_other _ _ hjv] at hl ⊢
      exact h.held j hl
  case refcnt =>
    intro j hj
    by_cases hjv : j = v
    · subst hjv
      simp [href, hlock, hno, hbP]
    · simp only [Fs.setBuf_buf, upd_other _ _ hjv] at hj ⊢
      exact h.refcnt j hj
  case pinned =>
    intro b' hb'
    obtain ⟨j, hj, hv⟩ := h.pinned b' hb'
    have hjv : j ≠ v := by
      rintro rfl
      rw [Buf.caches_iff] at hj
      exact hvP hj.1 (hj.2 ▸ hb')
    refine ⟨j, ?_⟩
    simp only [Fs.setBuf_buf, upd_other _ _ hjv]
    exact ⟨hj, hv⟩
  case dirty =>
    intro o' b' hb'
    obtain ⟨j, hj, hl⟩ := h.dirty o' b' hb'
    have hjv : j ≠ v := by
      rintro rfl
      rw [hvl] at hl
      cases hl
    refine ⟨j, ?_⟩
    simp only [Fs.setBuf_buf, upd_other _ _ hjv]
    exact ⟨hj, hl⟩
  case disk => exact fun b' hb' hD => h.disk b' hb' hD

/-- The buffer `i` of the state `t` is locked by `o` and holds the block `b`. -/
structure Holds (t : Fs) (o : Nat) (i : Fin NBUF) (b : Nat) : Prop where
  lock : (t.buf i).lock = some o
  dev : (t.buf i).dev = ROOTDEV
  blockno : (t.buf i).blockno = b

/-- `bread` of the block `b` has nothing to wait for and finds a buffer. -/
structure Avail (s : Fs) (b : Nat) : Prop where
  unlocked : ∀ i, (s.buf i).caches b = true → (s.buf i).lock = none
  unused : ∃ i, (s.buf i).refcnt = 0

/-- **`bread`** locks a buffer that nobody had locked and that holds the block. -/
theorem wp_bread (h : CacheInv s c P D) (v : Fin NBUF) (b : Nat) (hE : Avail s b ∨ ∀ e, E e) :
    wp (bread o v b) s (fun i t => ∃ x, t = s.setBuf i x ∧ CacheInv t c P D ∧ Holds t o i b ∧
      (s.buf i).lock = none) E := by
  unfold bread bget
  rw [wp_bind, wp_bind, wp_get]
  split
  · rename_i i hfind
    have hi := Buf.caches_iff.1 (find_some hfind)
    split
    · rename_i hl
      rw [wp_bind, wp_set, wp_pure, wp_bind, wp_get]
      have hclean := h.clean hl hi.1
      have href := h.refcnt i hi.1
      rw [if_pos hl] at href
      split
      · rename_i hv
        simp only [Fs.setBuf_buf, upd_same] at hv
        refine wp_pure.2 ⟨_, rfl, ?_, ⟨?_, ?_, ?_⟩, hl⟩
        · refine h.setBuf_same rfl rfl id (fun _ => hi.1) (fun _ _ => h.data i hi.1 hv)
            (fun _ => ⟨hi.1, hv⟩)
            (fun o' ho' => absurd ho' (hclean o')) (fun hd => absurd hi.1 hd) (fun _ => ?_)
          rw [href]
          simp only [reduceCtorEq, if_false]
          omega
        · simp
        · simpa using hi.1
        · simpa using hi.2
      · rename_i hv
        simp only [Fs.setBuf_buf, upd_same] at hv
        have hbP : (s.buf i).blockno ∉ P := by
          intro hb
          obtain ⟨j, hj, hvj⟩ := h.pinned _ hb
          rw [← h.caches_inj (Buf.caches_iff.2 ⟨hi.1, rfl⟩) hj] at hvj
          exact hv hvj
        rw [wp_bind, wp_set]
        refine wp_pure.2 ⟨{ s.buf i with
          refcnt := (s.buf i).refcnt + 1, lock := some o, data := s.disk b, valid := true }, ?_, ?_,
          ⟨?_, ?_, ?_⟩, hl⟩
        · simp [Fs.setBuf]
        · have hgoal := h.setBuf_same (x := { s.buf i with
            refcnt := (s.buf i).refcnt + 1, lock := some o, data := s.disk b, valid := true })
            rfl rfl (fun _ => rfl) (fun _ => hi.1)
            (fun _ _ => by rw [← hi.2]; exact h.disk _ hbP hclean) (fun _ => ⟨hi.1, rfl⟩)
            (fun o' ho' => absurd ho' (hclean o')) (fun hd => absurd hi.1 hd)
            (fun _ => by rw [href]; simp only [reduceCtorEq, if_false]; omega)
          exact hgoal.congr rfl (by simp [Fs.setBuf])
        · simp
        · simpa using hi.1
        · simpa using hi.2
    · rename_i hl
      rcases hE with hE | hE
      · exact absurd (hE.unlocked i (find_some hfind)) hl
      · exact wp_throw.2 (hE _)
  · rename_i hfind
    split
    · rename_i i hvictim
      have hfree := victim_some hvictim
      rw [wp_bind, wp_set, wp_pure, wp_bind, wp_get]
      rw [if_neg (by simp), wp_bind, wp_set]
      have hgoal := h.recycle (o := o) hfree (find_none hfind) (x := { s.buf i with
        dev := ROOTDEV, blockno := b, valid := true, refcnt := 1, lock := some o, data := s.disk b })
        rfl rfl rfl rfl rfl rfl
      refine wp_pure.2 ⟨{ s.buf i with
        dev := ROOTDEV, blockno := b, valid := true, refcnt := 1, lock := some o, data := s.disk b },
        ?_, hgoal.congr rfl ?_, ⟨?_, ?_, ?_⟩, (h.unused hfree).1⟩
      · simp [Fs.setBuf]
      · simp [Fs.setBuf]
      · simp
      · simp
      · simp
    · rename_i hvictim
      rcases hE with hE | hE
      · obtain ⟨i, hi⟩ := hE.unused
        exact absurd hi (victim_none hvictim i)
      · exact wp_throw.2 (hE _)

/-- **`brelse`** of a buffer with nothing unrecorded. -/
theorem wp_brelse (h : CacheInv s c P D) {i : Fin NBUF} (hD : (s.buf i).blockno ∉ D o)
    (hE : (s.buf i).lock = some o ∨ ∀ e, E e) :
    wp (brelse o i) s (fun _ t =>
      t = s.setBuf i { s.buf i with lock := none, refcnt := (s.buf i).refcnt - 1 } ∧
      CacheInv t c P D) E := by
  unfold brelse
  rw [wp_bind, wp_get]
  split
  · rename_i hl
    have hdev := h.dev_of_lock (i := i) (by rw [hl]; exact Option.some_ne_none o)
    have hv := h.held i (by rw [hl]; exact Option.some_ne_none o)
    refine wp_set.2 ⟨rfl, ?_⟩
    refine h.setBuf_same rfl rfl id (fun _ => hdev) (fun _ _ => h.data i hdev hv) (fun hne => absurd rfl hne)
      (fun o' ho' _ => absurd ho' (h.not_dirty hl hD o')) (fun hd => absurd hdev hd) (fun _ => ?_)
    have href := h.refcnt i hdev
    rw [hl, if_neg (Option.some_ne_none o)] at href
    rw [href]
    simp only [if_true]
    omega
  · rename_i hl
    rcases hE with hE | hE
    · exact absurd hE hl
    · exact wp_throw.2 (hE _)

/-- **A locked buffer changes**: its data, or the reference of the log. -/
theorem CacheInv.rework (h : CacheInv s c P D) {i : Fin NBUF} (hl : (s.buf i).lock = some o)
    (x : Buf) (hdev : x.dev = (s.buf i).dev) (hno : x.blockno = (s.buf i).blockno)
    (hlock : x.lock = (s.buf i).lock) (hvalid : x.valid = (s.buf i).valid) {c' : Nat → Block}
    {P' : List Nat} {d : Nat → Block} (hdata : x.data = c' (s.buf i).blockno)
    (hc : ∀ b, b ≠ (s.buf i).blockno → c' b = c b)
    (href : x.refcnt = 1 + if (s.buf i).blockno ∈ P' then 1 else 0)
    (hP : ∀ b, b ≠ (s.buf i).blockno → (b ∈ P' ↔ b ∈ P))
    (hD : ∀ o', ∀ b ∈ D' o', b ∈ D o' ∨ o' = o ∧ b = (s.buf i).blockno)
    (hd : ∀ b, b ∉ P' → (∀ o', b ∉ D' o') → d b = c' b) :
    CacheInv { s.setBuf i x with disk := d } c' P' D' := by
  have hsome : (s.buf i).lock ≠ none := by rw [hl]; exact Option.some_ne_none o
  have hroot := h.dev_of_lock hsome
  have hne : ∀ j, j ≠ i → (s.buf j).dev = ROOTDEV → (s.buf j).blockno ≠ (s.buf i).blockno :=
    fun j hji hj he => hji (h.uniq j i hj hroot he)
  -- which block a buffer holds, and who has it, stays
  have key : ∀ m, (upd s.buf i x m).dev = (s.buf m).dev ∧
      (upd s.buf i x m).blockno = (s.buf m).blockno ∧
      (upd s.buf i x m).lock = (s.buf m).lock ∧ (upd s.buf i x m).valid = (s.buf m).valid := by
    intro m
    by_cases hm : m = i
    · subst hm; simp [hdev, hno, hlock, hvalid]
    · simp [hm]
  constructor
  case fresh =>
    intro j hj
    simp only [Fs.setBuf_buf, (key j).1] at hj
    have hji : j ≠ i := by rintro rfl; exact hj hroot
    simp only [Fs.setBuf_buf, upd_other _ _ hji]
    exact h.fresh j hj
  case used =>
    intro j hv
    simp only [Fs.setBuf_buf, (key j).1, (key j).2.2.2] at hv ⊢
    exact h.used j hv
  case uniq =>
    intro j k hj hk hjk
    simp only [Fs.setBuf_buf, (key j).1, (key k).1, (key j).2.1, (key k).2.1] at hj hk hjk
    exact h.uniq j k hj hk hjk
  case data =>
    intro j hj hv
    by_cases hji : j = i
    · subst hji
      simp only [Fs.setBuf_buf, upd_same]
      rw [hdata, hno]
    · simp only [Fs.setBuf_buf, upd_other _ _ hji] at hj hv ⊢
      rw [hc _ (hne j hji hj)]
      exact h.data j hj hv
  case held =>
    intro j hlj
    simp only [Fs.setBuf_buf, (key j).2.2.1, (key j).2.2.2] at hlj ⊢
    exact h.held j hlj
  case refcnt =>
    intro j hj
    by_cases hji : j = i
    · subst hji
      simp only [Fs.setBuf_buf, upd_same]
      rw [href, hlock, hno, if_neg hsome]
    · simp only [Fs.setBuf_buf, upd_other _ _ hji] at hj ⊢
      simp only [h.refcnt j hj, hP _ (hne j hji hj)]
  case pinned =>
    intro b hb
    by_cases hbi : b = (s.buf i).blockno
    · subst hbi
      refine ⟨i, ?_⟩
      rw [Buf.caches_iff]
      simp [hdev, hroot, hno, hvalid, h.held i hsome]
    · obtain ⟨j, hj, hv⟩ := h.pinned b ((hP b hbi).1 hb)
      refine ⟨j, ?_⟩
      rw [Buf.caches_iff] at hj ⊢
      simp only [Fs.setBuf_buf, (key j).1, (key j).2.1, (key j).2.2.2]
      exact ⟨hj, hv⟩
  case dirty =>
    intro o' b hb
    rcases hD o' b hb with hb | ⟨rfl, rfl⟩
    · obtain ⟨j, hj, hlj⟩ := h.dirty o' b hb
      refine ⟨j, ?_⟩
      rw [Buf.caches_iff] at hj ⊢
      simp only [Fs.setBuf_buf, (key j).1, (key j).2.1, (key j).2.2.1]
      exact ⟨hj, hlj⟩
    · refine ⟨i, ?_⟩
      rw [Buf.caches_iff]
      simp [hdev, hroot, hno, hlock, hl]
  case disk => exact hd

theorem CacheInv.refcnt_of_lock (h : CacheInv s c P D) {i : Fin NBUF}
    (hl : (s.buf i).lock = some o) :
    (s.buf i).refcnt = 1 + if (s.buf i).blockno ∈ P then 1 else 0 := by
  have hsome : (s.buf i).lock ≠ none := by rw [hl]; exact Option.some_ne_none o
  rw [h.refcnt i (h.dev_of_lock hsome), if_neg hsome]

theorem CacheInv.change (h : CacheInv s c P D) {i : Fin NBUF} (hl : (s.buf i).lock = some o)
    (g : Block) (hD : ∀ o', ∀ b ∈ D' o', b ∈ D o' ∨ o' = o ∧ b = (s.buf i).blockno)
    {d : Nat → Block} (hd : ∀ b, b ∉ P → (∀ o', b ∉ D' o') → d b = upd c (s.buf i).blockno g b) :
    CacheInv { s.setBuf i { s.buf i with data := g } with disk := d }
      (upd c (s.buf i).blockno g) P D' := by
  refine h.rework hl { s.buf i with data := g } rfl rfl rfl rfl ?_ (fun b hb => ?_)
    (h.refcnt_of_lock hl) (fun _ _ => Iff.rfl) hD hd
  · simp
  · simp [hb]

/-- **A change that is not recorded yet.** -/
theorem wp_setData (h : CacheInv s c P D) (i : Fin NBUF) (g : Block) :
    wp (setData o i g) s (fun _ t => (s.buf i).lock = some o ∧
      t = s.setBuf i { s.buf i with data := g } ∧
      CacheInv t (upd c (s.buf i).blockno g) P (upd D o ((s.buf i).blockno :: D o)))
      (fun _ => True) := by
  unfold setData
  rw [wp_bind, wp_get]
  split
  · rename_i hl
    refine wp_set.2 ⟨hl, rfl, ?_⟩
    have hD : ∀ o', ∀ b ∈ upd D o ((s.buf i).blockno :: D o) o',
        b ∈ D o' ∨ o' = o ∧ b = (s.buf i).blockno := by
      intro o' b hb
      by_cases ho : o' = o
      · subst ho
        rw [upd_same, List.mem_cons] at hb
        rcases hb with hb | hb
        · exact .inr ⟨rfl, hb⟩
        · exact .inl hb
      · rw [upd_other _ _ ho] at hb
        exact .inl hb
    have hd : ∀ b, b ∉ P → (∀ o', b ∉ upd D o ((s.buf i).blockno :: D o) o') →
        s.disk b = upd c (s.buf i).blockno g b := by
      intro b hb hbD
      have hbo := hbD o
      rw [upd_same, List.mem_cons, not_or] at hbo
      rw [upd_other _ _ hbo.1]
      refine h.disk b hb fun o' hb' => ?_
      by_cases ho : o' = o
      · subst ho; exact hbo.2 hb'
      · exact hbD o' (by rw [upd_other _ _ ho]; exact hb')
    exact (h.change hl g hD hd).congr rfl rfl
  · exact wp_throw.2 trivial

/-- **A change that is written to the disk at once**, as `log.c` makes them. -/
theorem wp_setData_bwrite (h : CacheInv s c P D) {i : Fin NBUF} (hh : Holds s o i b)
    (hD : ∀ o', b ∉ D o') (g : Block) {β : Type} {k : FsM β} {Q : β → Fs → Prop}
    (hk : ∀ t, t = { s.setBuf i { s.buf i with data := g } with disk := upd s.disk b g } →
      CacheInv t (upd c b g) P D → wp k t Q E) :
    wp (setData o i g >>= fun _ => bwrite o i >>= fun _ => k) s Q E := by
  obtain ⟨hl, hdev, rfl⟩ := hh
  unfold setData bwrite
  rw [wp_bind, wp_bind, wp_get, if_pos hl, wp_set, wp_bind, wp_bind, wp_get]
  have hl' : ((s.setBuf i { s.buf i with data := g }).buf i).lock = some o := by simpa using hl
  rw [if_pos hl', wp_set]
  refine hk _ (by simp) ?_
  simp only [Fs.setBuf_buf, upd_same, Fs.setBuf_disk]
  refine (h.change hl g (fun o' b hb => .inl hb) fun b hb hbD => ?_)
  by_cases hbi : b = (s.buf i).blockno
  · subst hbi; simp
  · rw [upd_other _ _ hbi, upd_other _ _ hbi]
    exact h.disk b hb hbD

theorem CacheInv.pin (h : CacheInv s c P D) {i : Fin NBUF} (hl : (s.buf i).lock = some o)
    (hP : (s.buf i).blockno ∉ P) (hD : ∀ o', ∀ b ∈ D' o', b ∈ D o')
    (hD' : ∀ o', ∀ b ∈ D o', b ≠ (s.buf i).blockno → b ∈ D' o') :
    CacheInv (s.setBuf i { s.buf i with refcnt := (s.buf i).refcnt + 1 }) c
      (P ++ [(s.buf i).blockno]) D' := by
  have hsome : (s.buf i).lock ≠ none := by rw [hl]; exact Option.some_ne_none o
  have hdev := h.dev_of_lock hsome
  have href := h.refcnt_of_lock hl
  rw [if_neg hP] at href
  refine h.rework (d := s.disk) hl { s.buf i with refcnt := (s.buf i).refcnt + 1 } rfl rfl rfl rfl
    (h.data i hdev (h.held i hsome)) (fun _ _ => rfl) ?_ (fun b hb => ?_)
    (fun o' b hb => .inl (hD o' b hb)) fun b hb hbD => ?_
  · simp [href]
  · simp [hb]
  · rw [List.mem_append, List.mem_singleton, not_or] at hb
    exact h.disk b hb.1 fun o' hb' => hbD o' (hD' o' b hb' hb.2)

theorem CacheInv.unpin (h : CacheInv s c P D) {i : Fin NBUF} (hl : (s.buf i).lock = some o)
    (P' : List Nat) (hP : (s.buf i).blockno ∈ P) (hP' : (s.buf i).blockno ∉ P')
    (hPP : ∀ b, b ≠ (s.buf i).blockno → (b ∈ P' ↔ b ∈ P))
    (hdisk : s.disk (s.buf i).blockno = c (s.buf i).blockno) :
    CacheInv (s.setBuf i { s.buf i with refcnt := (s.buf i).refcnt - 1 }) c P' D := by
  have hsome : (s.buf i).lock ≠ none := by rw [hl]; exact Option.some_ne_none o
  have hdev := h.dev_of_lock hsome
  have href := h.refcnt_of_lock hl
  rw [if_pos hP] at href
  refine h.rework (d := s.disk) hl { s.buf i with refcnt := (s.buf i).refcnt - 1 } rfl rfl rfl rfl
    (h.data i hdev (h.held i hsome)) (fun _ _ => rfl) ?_ hPP (fun o' b hb => .inl hb) fun b hb hbD => ?_
  · simp [href, hP']
  · by_cases hbi : b = (s.buf i).blockno
    · rw [hbi, hdisk]
    · exact h.disk b (fun hb' => hb ((hPP b hbi).2 hb')) hbD

theorem CacheInv.forget (h : CacheInv s c P D) (hD : ∀ o', ∀ b ∈ D' o', b ∈ D o')
    (hD' : ∀ o', ∀ b ∈ D o', b ∉ P → b ∈ D' o') : CacheInv s c P D' :=
  { h with
    dirty := fun o b hb => h.dirty o b (hD o b hb)
    disk := fun b hb hbD => h.disk b hb fun o' hb' => hbD o' (hD' o' b hb' hb) }

end Bio

/-! ### The loops of `log.c` -/

/-- Everything but the disk and the buffers is the same. -/
structure SameLog (s t : Fs) : Prop where
  start : t.start = s.start
  outstanding : t.outstanding = s.outstanding
  committing : t.committing = s.committing
  lh : t.lh = s.lh
  pc : t.pc = s.pc
  worker : t.worker = s.worker

namespace SameLog

variable {s t u : Fs}

theorem refl (s : Fs) : SameLog s s := ⟨rfl, rfl, rfl, rfl, rfl, rfl⟩

theorem trans (h : SameLog s t) (h' : SameLog t u) : SameLog s u :=
  ⟨h'.start.trans h.start, h'.outstanding.trans h.outstanding, h'.committing.trans h.committing,
    h'.lh.trans h.lh, h'.pc.trans h.pc, h'.worker.trans h.worker⟩

end SameLog

/-- No buffer is locked. -/
def Fs.Unlocked (s : Fs) : Prop := ∀ i, (s.buf i).lock = none

/-- What a step of `log.c` leaves behind: it has given back the buffers that it took. -/
structure Passed (s t : Fs) : Prop extends SameLog s t where
  buf : ∀ i, (t.buf i).lock = none ∨ t.buf i = s.buf i

theorem Passed.unlocked {s t : Fs} (h : Passed s t) (hs : s.Unlocked) : t.Unlocked := by
  intro i
  rcases h.buf i with hi | hi
  · exact hi
  · rw [hi]; exact hs i

section Loops

variable {s : Fs} {c : Nat → Block} {P : List Nat} {D : Nat → List Nat} {o : Nat}
  {E : Stop → Prop}

theorem Holds.setBuf {i j : Fin NBUF} (h : Holds s o i b) (hij : i ≠ j) (x : Buf) :
    Holds (s.setBuf j x) o i b := by
  obtain ⟨h1, h2, h3⟩ := h
  constructor
  · simpa [hij] using h1
  · simpa [hij] using h2
  · simpa [hij] using h3

theorem CacheInv.data_of_holds (h : CacheInv s c P D) {i : Fin NBUF} (hh : Holds s o i b) :
    (s.buf i).data = c b := by
  have hv := h.held i (by rw [hh.lock]; exact Option.some_ne_none o)
  rw [h.data i hh.dev hv, hh.blockno]

theorem CacheInv.refcnt_zero (h : CacheInv s c [] D) {i : Fin NBUF} (hl : (s.buf i).lock = none) :
    (s.buf i).refcnt = 0 := by
  by_cases hd : (s.buf i).dev = ROOTDEV
  · simp [h.refcnt i hd, hl]
  · exact (h.fresh i hd).1

theorem wp_bread_two {β : Type} (h : CacheInv s c P D) (v w : Fin NBUF) (a b : Nat)
    (hE : (P = [] ∧ s.Unlocked ∧ a ≠ b) ∨ ∀ e, E e)
    {k : Fin NBUF → Fin NBUF → FsM β} {Q : β → Fs → Prop}
    (hk : ∀ i j t, SameLog s t → t.disk = s.disk → CacheInv t c P D → Holds t o i a →
      Holds t o j b → i ≠ j → (∀ m, m ≠ i → m ≠ j → t.buf m = s.buf m) → wp (k i j) t Q E) :
    wp (bread o v a >>= fun i => bread o w b >>= fun j => k i j) s Q E := by
  have hE1 : Avail s a ∨ ∀ e, E e := by
    rcases hE with ⟨rfl, hs, _⟩ | hE
    · exact .inl ⟨fun i _ => hs i, ⟨0, h.refcnt_zero (hs 0)⟩⟩
    · exact .inr hE
  refine wp_seq (wp_bread h v a hE1) ?_
  rintro i _ ⟨x, rfl, h1, hh1, _⟩
  have hE2 : Avail (s.setBuf i x) b ∨ ∀ e, E e := by
    rcases hE with ⟨rfl, hs, hab⟩ | hE
    · left
      refine ⟨fun j hj => ?_, ?_⟩
      · -- the buffer that is locked now holds the other block
        have hji : j ≠ i := by
          rintro rfl
          rw [Buf.caches_iff, hh1.blockno] at hj
          exact hab hj.2
        simpa [hji] using hs j
      · have : ∃ j : Fin NBUF, j ≠ i := by
          by_cases hi : i = 0
          · exact ⟨1, by rw [hi]; decide⟩
          · exact ⟨0, fun h => hi h.symm⟩
        obtain ⟨j, hji⟩ := this
        exact ⟨j, h1.refcnt_zero (by simpa [hji] using hs j)⟩
    · exact .inr hE
  refine wp_seq (wp_bread h1 w b hE2) ?_
  rintro j _ ⟨y, rfl, h2, hh2, hl2⟩
  have hij : i ≠ j := by
    rintro rfl
    rw [hh1.lock] at hl2
    cases hl2
  refine hk i j _ ⟨rfl, rfl, rfl, rfl, rfl, rfl⟩ rfl h2 (hh1.setBuf hij y) hh2 hij ?_
  intro m hi hj
  simp [hi, hj]

theorem wp_brelse_two (h : CacheInv s c P D) (hD : ∀ o b, b ∉ D o) {i j : Fin NBUF} (hij : i ≠ j)
    (hi : (s.buf i).lock = some o) (hj : (s.buf j).lock = some o) {r : Fs} (hr : SameLog r s)
    (hrs : ∀ m, m ≠ i → m ≠ j → s.buf m = r.buf m) :
    wp (brelse o i >>= fun _ => brelse o j) s (fun _ t => Passed r t ∧ t.disk = s.disk ∧
      CacheInv t c P D) E := by
  refine wp_seq (wp_brelse h (hD o _) (.inl hi)) ?_
  rintro _ _ ⟨rfl, h1⟩
  refine wp_conseq (wp_brelse h1 (hD o _) (.inl ?_)) ?_
  · simpa [hij.symm] using hj
  rintro _ _ ⟨rfl, h2⟩
  refine ⟨⟨hr.trans ⟨rfl, rfl, rfl, rfl, rfl, rfl⟩, fun m => ?_⟩, rfl, h2⟩
  by_cases hmj : m = j
  · subst hmj; simp
  · by_cases hmi : m = i
    · subst hmi; simp [hmj]
    · simp [hmi, hmj, hrs m hmi hmj]

/-- **`write_log`** copies one block into the log. -/
theorem wp_writeLogBlock (h : CacheInv s c P D) (hD : ∀ o b, b ∉ D o) (tail : Nat)
    (v w : Fin NBUF) :
    wp (writeLogBlock tail v w) s (fun _ t => Passed s t ∧
      t.disk = upd s.disk (s.start + tail + 1) (c (s.lh.getD tail 0)) ∧
      CacheInv t (upd c (s.start + tail + 1) (c (s.lh.getD tail 0))) P D) (fun _ => True) := by
  unfold writeLogBlock
  rw [wp_bind, wp_get]
  refine wp_bread_two h v w _ _ (.inr fun _ => trivial) fun i j t hs hd h1 hi hj hij hm => ?_
  rw [wp_bind, wp_get, hs.worker, h1.data_of_holds hj]
  refine wp_setData_bwrite h1 hi (fun o' => hD o' _) _ fun u hu h2 => ?_
  refine wp_conseq (wp_brelse_two (r := s) h2 hD hij.symm ?_ ?_ ?_ ?_) ?_
  · subst hu; simpa [hij.symm] using hj.lock
  · subst hu; simpa using hi.lock
  · subst hu; exact hs.trans ⟨rfl, rfl, rfl, rfl, rfl, rfl⟩
  · intro m hmj hmi
    subst hu
    simp [hmi, hm m hmi hmj]
  · rintro _ t' ⟨hp, hd', h'⟩
    exact ⟨hp, by rw [hd', hu, hd], h'⟩

/-- **`install_trans`** copies one block of the log to its home; then the log lets go of
the buffer, except in recovery, where it has no reference. -/
theorem wp_installBlock (h : CacheInv s c P D) (hD : ∀ o b, b ∉ D o) (recovering : Bool)
    (P' : List Nat) (tail : Nat) (v w : Fin NBUF)
    (hE : (P = [] ∧ s.Unlocked ∧ s.start + tail + 1 ≠ s.lh.getD tail 0) ∨ ∀ e, E e)
    (hrec : recovering = true → P' = P)
    (hP : recovering = false → s.lh.getD tail 0 ∈ P ∧ s.lh.getD tail 0 ∉ P' ∧
      ∀ b, b ≠ s.lh.getD tail 0 → (b ∈ P' ↔ b ∈ P)) :
    wp (installBlock recovering tail v w) s (fun _ t => Passed s t ∧
      t.disk = upd s.disk (s.lh.getD tail 0) (c (s.start + tail + 1)) ∧
      CacheInv t (upd c (s.lh.getD tail 0) (c (s.start + tail + 1))) P' D) E := by
  unfold installBlock
  rw [wp_bind, wp_get]
  refine wp_bread_two h v w _ _ hE fun i j t hs hd h1 hi hj hij hm => ?_
  rw [wp_bind, wp_get, hs.worker, h1.data_of_holds hi]
  refine wp_setData_bwrite h1 hj (fun o' => hD o' _) _ fun u hu h2 => ?_
  have hus : SameLog s u := by
    subst hu
    exact hs.trans ⟨rfl, rfl, rfl, rfl, rfl, rfl⟩
  have hud : u.disk = upd s.disk (s.lh.getD tail 0) (c (s.start + tail + 1)) := by rw [hu, hd]
  have hui : (u.buf i).lock = some s.worker := by subst hu; simpa [hij] using hi.lock
  have huj : (u.buf j).lock = some s.worker := by subst hu; simpa using hj.lock
  have hub : (u.buf j).blockno = s.lh.getD tail 0 := by subst hu; simpa using hj.blockno
  have hum : ∀ m, m ≠ i → m ≠ j → u.buf m = s.buf m := by
    intro m hmi hmj
    subst hu
    simp [hmj, hm m hmi hmj]
  rw [wp_bind, wp_when]
  constructor
  · intro hr
    obtain ⟨hmem, hnot, hother⟩ := hP hr
    unfold bunpin
    rw [wp_modify]
    have h3 := h2.unpin huj P' (by rw [hub]; exact hmem) (by rw [hub]; exact hnot)
      (by rw [hub]; exact hother) (by rw [hub, hud]; simp)
    refine wp_conseq (wp_brelse_two (r := s) h3 hD hij ?_ ?_ ?_ ?_) ?_
    · simpa [hij] using hui
    · simpa using huj
    · exact hus.trans ⟨rfl, rfl, rfl, rfl, rfl, rfl⟩
    · intro m hmi hmj
      simp [hmj, hum m hmi hmj]
    · rintro _ t' ⟨hp, hd', h'⟩
      exact ⟨hp, hd'.trans hud, h'⟩
  · intro hr
    rw [hrec (by simpa using hr)]
    refine wp_conseq (wp_brelse_two (r := s) h2 hD hij hui huj hus hum) ?_
    rintro _ t' ⟨hp, hd', h'⟩
    exact ⟨hp, hd'.trans hud, h'⟩

/-- Reading and giving back the header needs no more than one buffer. -/
theorem Avail.of_unlocked (h : CacheInv s c [] D) (hs : s.Unlocked) (b : Nat) : Avail s b :=
  ⟨fun i _ => hs i, ⟨0, h.refcnt_zero (hs 0)⟩⟩

/-- **`write_head`** writes the header. -/
theorem wp_writeHead (h : CacheInv s c P D) (hD : ∀ o b, b ∉ D o) (v : Fin NBUF)
    (hE : Avail s s.start ∨ ∀ e, E e) :
    wp (writeHead v) s (fun _ t => Passed s t ∧
      t.disk = upd s.disk s.start (setHeader (c s.start) s.lh) ∧
      CacheInv t (upd c s.start (setHeader (c s.start) s.lh)) P D) E := by
  unfold writeHead
  rw [wp_bind, wp_get, wp_bind]
  refine wp_conseq (wp_bread h v _ hE) ?_
  rintro i t ⟨x, rfl, h1, hi, _⟩
  rw [wp_bind, wp_get, h1.data_of_holds hi]
  refine wp_setData_bwrite h1 hi (fun o' => hD o' _) _ fun u hu h2 => ?_
  refine wp_conseq (wp_brelse h2 (hD _ _) (.inl ?_)) ?_
  · subst hu
    simpa using hi.lock
  rintro _ t' ⟨rfl, h'⟩
  subst hu
  refine ⟨⟨⟨rfl, rfl, rfl, rfl, rfl, rfl⟩, fun m => ?_⟩, rfl, h'⟩
  by_cases hm : m = i
  · subst hm; simp
  · simp [hm]

/-- **`read_head`** reads the header. -/
theorem wp_readHead (h : CacheInv s c P D) (hD : ∀ o b, b ∉ D o) (v : Fin NBUF)
    (hE : Avail s s.start ∨ ∀ e, E e) :
    wp (readHead v) s (fun _ t => Passed { s with lh := header (c s.start) } t ∧
      t.disk = s.disk ∧ CacheInv t c P D) E := by
  unfold readHead
  rw [wp_bind, wp_get, wp_bind]
  refine wp_conseq (wp_bread h v _ hE) ?_
  rintro i t ⟨x, rfl, h1, hi, _⟩
  rw [wp_bind, wp_get, wp_bind, wp_set, h1.data_of_holds hi]
  have h2 : CacheInv { s.setBuf i x with lh := header (c s.start) } c P D := h1.congr rfl rfl
  refine wp_conseq (wp_brelse h2 (hD _ _) (.inl hi.lock)) ?_
  rintro _ t' ⟨rfl, h'⟩
  refine ⟨⟨⟨rfl, rfl, rfl, rfl, rfl, rfl⟩, fun m => ?_⟩, rfl, h'⟩
  by_cases hm : m = i
  · subst hm; simp
  · simp [hm]

end Loops

end Xv6.Log
