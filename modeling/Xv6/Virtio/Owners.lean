import Xv6.Virtio.Model

/-!
# Who holds which descriptor

A descriptor is marked free or held by exactly one thread.  What a thread does to its own descriptors
leaves the chains of the others as they were formatted.
-/

namespace Xv6.Virtio

open Xv6.Lib

variable {T B : Type}

namespace Pc

/-- The descriptors that the thread holds. -/
def held : Pc B → List Nat
  | .alloc _ ids => ids
  | .undo _ ids => ids
  | .format _ i0 i1 i2 => [i0, i1, i2]
  | .publish _ i0 i1 i2 => [i0, i1, i2]
  | .wait _ i0 i1 i2 => [i0, i1, i2]
  | .asleep _ i0 i1 i2 => [i0, i1, i2]
  | .chain _ _ left => left
  | _ => []

/-- The thread is inside of `vdisk_lock`. -/
def inLock : Pc B → Bool
  | .alloc .. => true
  | .undo .. => true
  | .format .. => true
  | .publish .. => true
  | .wait .. => true
  | .chain .. => true
  | .release .. => true
  | .intr => true
  | _ => false

def job : Pc B → Option (Job B)
  | .acquire j => some j
  | .alloc j _ => some j
  | .undo j _ => some j
  | .waitFree j => some j
  | .format j _ _ _ => some j
  | .publish j _ _ _ => some j
  | .wait j _ _ _ => some j
  | .asleep j _ _ _ => some j
  | .chain j _ _ => some j
  | .release j => some j
  | _ => none

/-- The chain that the thread has formatted and not begun to free. -/
def flight : Pc B → Option (Job B × Nat × Nat × Nat)
  | .publish j i0 i1 i2 => some (j, i0, i1, i2)
  | .wait j i0 i1 i2 => some (j, i0, i1, i2)
  | .asleep j i0 i1 i2 => some (j, i0, i1, i2)
  | _ => none

/-- The chain that the thread has handed to the device. -/
def waiting : Pc B → Option (Job B × Nat × Nat × Nat)
  | .wait j i0 i1 i2 => some (j, i0, i1, i2)
  | .asleep j i0 i1 i2 => some (j, i0, i1, i2)
  | _ => none

/-- The request whose descriptors the thread gives back. -/
def finished : Pc B → Option (Job B)
  | .chain j _ _ => some j
  | .release j => some j
  | _ => none

variable {c : Pc B} {j : Job B} {i0 i1 i2 : Nat}

theorem held_of_flight (h : c.flight = some (j, i0, i1, i2)) : c.held = [i0, i1, i2] := by
  cases c <;> cases h <;> rfl

theorem flight_of_waiting (h : c.waiting = some (j, i0, i1, i2)) : c.flight = some (j, i0, i1, i2) := by
  cases c <;> cases h <;> rfl

theorem job_of_flight (h : c.flight = some (j, i0, i1, i2)) : c.job = some j := by
  cases c <;> cases h <;> rfl

end Pc

variable [DecidableEq T]

/-! ### The descriptors and the locks -/

/-- Every descriptor is free or held once, and one thread is inside of the lock. -/
structure Owned (s : Sys T B) : Prop where
  bound : ∀ t, ∀ d ∈ (s.pc t).held, d < NUM
  free : ∀ d < NUM, s.free d = false ↔ ∃ t, d ∈ (s.pc t).held
  nodup : ∀ t, (s.pc t).held.Nodup
  disj : ∀ t u d, d ∈ (s.pc t).held → d ∈ (s.pc u).held → t = u
  locked : ∀ t, (s.pc t).inLock = true → s.lock = some t
  buf : ∀ t j, (s.pc t).job = some j → s.owner j.buf = some t

namespace Owned

variable {s s' : Sys T B} {t : T} {c : Pc B}

/-- **One thread goes on**, with descriptors it has or that were free. -/
theorem change (h : Owned s) (hpc : s'.pc = upd s.pc t c)
    (hmem : ∀ d ∈ c.held, d ∈ (s.pc t).held ∨ d < NUM ∧ s.free d = true) (hnodup : c.held.Nodup)
    (hfree : ∀ d < NUM, s'.free d =
      if d ∈ c.held then false else if d ∈ (s.pc t).held then true else s.free d)
    (hin : c.inLock = true → s'.lock = some t)
    (hother : ∀ u, u ≠ t → (s.pc u).inLock = true → s'.lock = some u)
    (howner : s'.owner = s.owner) (hjob : ∀ j, c.job = some j → s.owner j.buf = some t) :
    Owned s' := by
  -- nobody else holds what the thread holds now
  have hsole : ∀ u d, u ≠ t → d ∈ (s.pc u).held → d ∉ c.held := by
    intro u d hu hd hc
    rcases hmem d hc with hold | ⟨hlt, hf⟩
    · exact hu (h.disj u t d hd hold)
    · have := (h.free d hlt).2 ⟨u, hd⟩
      rw [hf] at this
      cases this
  refine ⟨fun u d hd => ?_, fun d hd => ?_, fun u => ?_, fun u v d hu hv => ?_, fun u hu => ?_,
    fun u j hj => ?_⟩
  · rw [hpc, upd_apply] at hd
    split at hd
    · rcases hmem d hd with hold | hlt
      · exact h.bound t d hold
      · exact hlt.1
    · exact h.bound u d hd
  · rw [hfree d hd]
    split
    · rename_i hc
      refine iff_of_true rfl ⟨t, ?_⟩
      rw [hpc, upd_same]
      exact hc
    · rename_i hc
      split
      · rename_i hold
        refine iff_of_false (by simp) ?_
        rintro ⟨u, hu⟩
        rw [hpc, upd_apply] at hu
        split at hu
        · exact hc hu
        · exact ‹u ≠ t› (h.disj u t d hu hold)
      · rename_i hold
        rw [h.free d hd]
        constructor
        · rintro ⟨u, hu⟩
          refine ⟨u, ?_⟩
          rw [hpc, upd_other _ _ (by rintro rfl; exact hold hu)]
          exact hu
        · rintro ⟨u, hu⟩
          rw [hpc, upd_apply] at hu
          split at hu
          · exact absurd hu hc
          · exact ⟨u, hu⟩
  · rw [hpc, upd_apply]
    split
    · exact hnodup
    · exact h.nodup u
  · rw [hpc, upd_apply] at hu hv
    split at hu <;> split at hv
    · subst u v
      rfl
    · exact absurd hu (hsole v d ‹_› hv)
    · exact absurd hv (hsole u d ‹_› hu)
    · exact h.disj u v d hu hv
  · rw [hpc, upd_apply] at hu
    split at hu
    · subst u
      exact hin hu
    · exact hother u ‹_› hu
  · rw [howner]
    rw [hpc, upd_apply] at hj
    split at hj
    · subst u
      exact hjob j hj
    · exact h.buf u j hj

theorem keep (h : Owned s) (hpc : s'.pc = upd s.pc t c) (hheld : c.held = (s.pc t).held)
    (hfree : s'.free = s.free) (hin : c.inLock = true → s'.lock = some t)
    (hother : ∀ u, u ≠ t → (s.pc u).inLock = true → s'.lock = some u)
    (howner : s'.owner = s.owner) (hjob : ∀ j, c.job = some j → s.owner j.buf = some t) :
    Owned s' := by
  refine h.change hpc (fun d hd => .inl (by rw [← hheld]; exact hd)) (by rw [hheld]; exact h.nodup t)
    (fun d hd => ?_) hin hother howner hjob
  rw [hfree, hheld]
  split
  · rename_i hd'
    exact (h.free d hd).2 ⟨t, hd'⟩
  · rfl

theorem grow (h : Owned s) {i : Nat} (hpc : s'.pc = upd s.pc t c)
    (hheld : c.held = (s.pc t).held ++ [i]) (hi : i < NUM) (hf : s.free i = true)
    (hfree : s'.free = upd s.free i false) (hlock : s'.lock = s.lock)
    (hin : (s.pc t).inLock = true) (howner : s'.owner = s.owner)
    (hjob : ∀ j, c.job = some j → s.owner j.buf = some t) : Owned s' := by
  have hnot : i ∉ (s.pc t).held := by
    intro hmem
    have := (h.free i hi).2 ⟨t, hmem⟩
    rw [hf] at this
    cases this
  refine h.change hpc (fun d hd => ?_) ?_ (fun d hd => ?_) (fun _ => ?_) (fun u _ hu => ?_) howner hjob
  · rw [hheld, List.mem_append, List.mem_singleton] at hd
    rcases hd with hd | rfl
    · exact .inl hd
    · exact .inr ⟨hi, hf⟩
  · rw [hheld]
    refine List.nodup_append.2 ⟨h.nodup t, by simp, fun a ha b hb => ?_⟩
    rw [List.mem_singleton.1 hb]
    rintro rfl
    exact hnot ha
  · rw [hheld, hfree, upd_apply]
    by_cases hdi : d = i
    · rw [if_pos hdi, if_pos (by simp [hdi])]
    · rw [if_neg hdi]
      by_cases hdt : d ∈ (s.pc t).held
      · rw [if_pos (by simp [hdt])]
        exact (h.free d hd).2 ⟨t, hdt⟩
      · rw [if_neg (by simp [hdt, hdi]), if_neg hdt]
  · rw [hlock]
    exact h.locked t hin
  · rw [hlock]
    exact h.locked u hu

theorem shrink (h : Owned s) {i : Nat} (hpc : s'.pc = upd s.pc t c)
    (hheld : (s.pc t).held = i :: c.held) (hfree : s'.free = upd s.free i true)
    (hlock : s'.lock = s.lock) (hin : (s.pc t).inLock = true) (howner : s'.owner = s.owner)
    (hjob : ∀ j, c.job = some j → s.owner j.buf = some t) : Owned s' := by
  have hnodup := h.nodup t
  rw [hheld, List.nodup_cons] at hnodup
  refine h.change hpc (fun d hd => .inl ?_) hnodup.2 (fun d hd => ?_) (fun _ => ?_) (fun u _ hu => ?_)
    howner hjob
  · rw [hheld]
    exact List.mem_cons_of_mem _ hd
  · rw [hfree, upd_apply, hheld]
    by_cases hdi : d = i
    · subst hdi
      rw [if_pos rfl, if_neg hnodup.1, if_pos List.mem_cons_self]
    · rw [if_neg hdi]
      by_cases hdc : d ∈ c.held
      · rw [if_pos hdc]
        exact (h.free d hd).2 ⟨t, by rw [hheld]; exact List.mem_cons_of_mem _ hdc⟩
      · rw [if_neg hdc, if_neg (by simp [hdi, hdc])]
  · rw [hlock]
    exact h.locked t hin
  · rw [hlock]
    exact h.locked u hu

omit [DecidableEq T] in
theorem freeDesc (h : Owned s) {i : Nat} (hi : i ∈ (s.pc t).held) :
    s.freeDesc i = .ok { s with desc := upd s.desc i Sys.zeroDesc, free := upd s.free i true } := by
  have hlt := h.bound t i hi
  have hf := (h.free i hlt).2 ⟨t, hi⟩
  unfold Sys.freeDesc
  rw [if_neg (Nat.not_le.2 hlt), hf]
  rfl

omit [DecidableEq T] in
theorem others_of_free (h : Owned s) (hl : s.lock = none) {o : Option T} :
    ∀ u, u ≠ t → (s.pc u).inLock = true → o = some u := by
  intro u _ hu
  have := h.locked u hu
  rw [hl] at this
  cases this

omit [DecidableEq T] in
theorem others_of_holder (h : Owned s) (hin : (s.pc t).inLock = true) {o : Option T} :
    ∀ u, u ≠ t → (s.pc u).inLock = true → o = some u := by
  intro u hne hu
  have hlock := h.locked u hu
  rw [h.locked t hin] at hlock
  exact absurd (Option.some.inj hlock).symm hne

omit [DecidableEq T] in
theorem buf_ne (h : Owned s) {u : T} {j k : Job B} (hu : (s.pc u).job = some j)
    (ht : (s.pc t).job = some k) (hne : u ≠ t) : j.buf ≠ k.buf := by
  intro heq
  have h1 := h.buf u j hu
  have h2 := h.buf t k ht
  rw [heq, h2] at h1
  exact hne (Option.some.inj h1).symm

end Owned

/-! ### The chains -/

/-- The chain as `virtio_disk_rw` formats it. -/
def Formatted (s : Sys T B) (j : Job B) (i0 i1 i2 : Nat) : Prop :=
  s.ops i0 = ⟨j.tag, j.write, j.sector⟩ ∧ s.desc i0 = ⟨.op i0, 16, true, false, i1⟩ ∧
    s.desc i1 = ⟨.data j.buf, 1024, true, !j.write, i2⟩ ∧
    s.desc i2 = ⟨.status i0, 1, false, true, 0⟩ ∧ s.infoB i0 = some j.buf

/-- Each descriptor points to the next one, the last one to none. -/
def Linked (desc : Nat → Desc B) : List Nat → Prop
  | [] => True
  | [i] => (desc i).hasNext = false
  | i :: k :: l => (desc i).hasNext = true ∧ (desc i).next = k ∧ Linked desc (k :: l)

theorem Linked.congr {desc desc' : Nat → Desc B} {l : List Nat} (h : Linked desc l)
    (hd : ∀ i ∈ l, desc' i = desc i) : Linked desc' l := by
  induction l with
  | nil => trivial
  | cons i l ih =>
    cases l with
    | nil =>
      show (desc' i).hasNext = false
      rw [hd i (by simp)]
      exact h
    | cons k l =>
      refine ⟨?_, ?_, ih h.2.2 fun x hx => hd x (List.mem_cons_of_mem _ hx)⟩
      · rw [hd i (by simp)]
        exact h.1
      · rw [hd i (by simp)]
        exact h.2.1

structure Formed (s : Sys T B) : Prop where
  flight : ∀ t j i0 i1 i2, (s.pc t).flight = some (j, i0, i1, i2) → Formatted s j i0 i1 i2
  chain : ∀ t j i left, s.pc t = .chain j i left → left.head? = some i ∧ Linked s.desc left

/-- **The chains of the others stay** when a thread touches its own descriptors only. -/
theorem Formed.change {s s' : Sys T B} {t : T} {c : Pc B} (h : Formed s) (ho : Owned s)
    (hpc : s'.pc = upd s.pc t c)
    (hkeep : ∀ d, d ∉ (s.pc t).held →
      s'.desc d = s.desc d ∧ s'.ops d = s.ops d ∧ s'.infoB d = s.infoB d)
    (hflight : ∀ j i0 i1 i2, c.flight = some (j, i0, i1, i2) → Formatted s' j i0 i1 i2)
    (hchain : ∀ j i left, c = .chain j i left → left.head? = some i ∧ Linked s'.desc left) :
    Formed s' := by
  have hsep : ∀ u d, u ≠ t → d ∈ (s.pc u).held →
      s'.desc d = s.desc d ∧ s'.ops d = s.ops d ∧ s'.infoB d = s.infoB d := fun u d hu hd =>
    hkeep d fun hd' => hu (ho.disj u t d hd hd')
  refine ⟨fun u j i0 i1 i2 hu => ?_, fun u j i left hu => ?_⟩
  · rw [hpc, upd_apply] at hu
    split at hu
    · exact hflight j i0 i1 i2 hu
    · rename_i hne
      have hheld := Pc.held_of_flight hu
      obtain ⟨hops, h0, h1, h2, hinfo⟩ := h.flight u j i0 i1 i2 hu
      have k0 := hsep u i0 hne (by rw [hheld]; simp)
      have k1 := hsep u i1 hne (by rw [hheld]; simp)
      have k2 := hsep u i2 hne (by rw [hheld]; simp)
      exact ⟨k0.2.1.trans hops, k0.1.trans h0, k1.1.trans h1, k2.1.trans h2, k0.2.2.trans hinfo⟩
  · rw [hpc, upd_apply] at hu
    split at hu
    · exact hchain j i left hu
    · rename_i hne
      obtain ⟨hhead, hlink⟩ := h.chain u j i left hu
      refine ⟨hhead, hlink.congr fun d hd => (hsep u d hne ?_).1⟩
      rw [hu]
      exact hd

theorem Formed.keep {s s' : Sys T B} {t : T} {c : Pc B} (h : Formed s) (ho : Owned s)
    (hpc : s'.pc = upd s.pc t c) (hdesc : s'.desc = s.desc) (hops : s'.ops = s.ops)
    (hinfo : s'.infoB = s.infoB)
    (hflight : ∀ j i0 i1 i2, c.flight = some (j, i0, i1, i2) →
      (s.pc t).flight = some (j, i0, i1, i2))
    (hchain : ∀ j i left, c ≠ .chain j i left) : Formed s' := by
  refine h.change ho hpc (fun d _ => ⟨by rw [hdesc], by rw [hops], by rw [hinfo]⟩)
    (fun j i0 i1 i2 hc => ?_) fun j i left hc => absurd hc (hchain j i left)
  have := h.flight t j i0 i1 i2 (hflight j i0 i1 i2 hc)
  unfold Formatted
  rw [hdesc, hops, hinfo]
  exact this

end Xv6.Virtio
