import Xv6.Ftable.Quiet
import Xv6.Lib.Count

/-!
# Counting the holders of an open file

A file of the table is held by the descriptors that name it, by the mmap areas of it, and for
the time of a call by the call itself.  `Files v₀ D N v` says that the counts in `v` are right
when the areas are those of `v` and the other holders are given by `D`; the files of `N` have
been allocated and are not set up yet.  `v₀` is the memory at the start of the call: what it
had open is open still, or its last holder is gone and it was released once.

Each operation on the table has one lemma here, which says how it changes `D`.
-/

namespace Xv6

open Xv6.Lib

/-- The areas that map a file. -/
def Vm.areas (v : Vm) (f : Fin NFILE) : ℕ := count Finset.univ (fun i => (v.area i).f) f

/-- What was open in `v₀` is open, or was released once. -/
def Vm.Since (v₀ v : Vm) : Prop :=
  ∃ l, v.released = l ++ v₀.released ∧ ∀ f r, (v₀.file f).resource = some r →
    (0 < (v.file f).ref ∧ (v.file f).resource = some r ∧ l.count (f, r) = 0) ∨
      ((v.file f).ref = 0 ∧ l.count (f, r) = 1)

/-- What was open in `v₀` is open. -/
def Vm.Kept (v₀ v : Vm) : Prop := ∀ f, (v₀.file f).resource ≠ none → 0 < (v.file f).ref

structure Files (v₀ : Vm) (D : Fin NFILE → ℕ) (N : Finset (Fin NFILE)) (v : Vm) : Prop where
  refs : ∀ f, (v.file f).ref = D f + v.areas f
  typed : ∀ f, f ∉ N → ((v.file f).resource = none ↔ (v.file f).ref = 0)
  fresh : ∀ f ∈ N, (v.file f).resource = none ∧ (v.file f).ref = 1
  free : ∀ i, (v.area i).p = none → (v.area i).f = none
  since : v₀.Since v

theorem File.resource_none {f : File} : f.resource = none ↔ f.type = .none := by
  unfold File.resource
  cases f.type <;> simp

variable {v₀ v w : Vm} {D D' : Fin NFILE → ℕ} {N : Finset (Fin NFILE)} {f : Fin NFILE}
  {i : Fin NMMAPAREA}

/-! ### The table -/

theorem Vm.setFile_same {x : File} : (v.setFile f x).file f = x := upd_same ..

theorem Vm.setFile_other {x : File} {g : Fin NFILE} (h : g ≠ f) : (v.setFile f x).file g = v.file g :=
  upd_other _ _ h

theorem holds_other {g : Fin NFILE} (h : g ≠ f) : holds (some f) g = 0 := by
  rw [holds_some, if_neg fun he => h he.symm]

theorem Files.beside (h : Files v₀ D N v) (hw : v.Beside w) : Files v₀ D N w := by
  have hareas : ∀ f, w.areas f = v.areas f := fun f => by rw [Vm.areas, Vm.areas, hw.area]
  obtain ⟨l, hl, hs⟩ := h.since
  refine ⟨?_, ?_, ?_, ?_, l, ?_, ?_⟩
  · intro f
    rw [hw.file, hareas]
    exact h.refs f
  · rw [hw.file]
    exact h.typed
  · rw [hw.file]
    exact h.fresh
  · rw [hw.area]
    exact h.free
  · rw [hw.released, hl]
  · rw [hw.file]
    exact hs

theorem Files.of_eq (h : Files v₀ D N v) (hD : D' = D) : Files v₀ D' N v := by
  rw [hD]
  exact h

theorem Aside.files {α : Type} {x : VmM α} (hx : Aside x) (h : Files v₀ D N v) :
    wp x v (fun _ w => Files v₀ D N w) Panic.Other :=
  wp_conseq (hx.spec v) fun _ _ hw => h.beside hw

theorem Files.ref_pos (h : Files v₀ D N v) (hf : 0 < D f) : 0 < (v.file f).ref := by
  rw [h.refs]
  omega

theorem Files.ref_area (h : Files v₀ D N v) (hf : (v.area i).f = some f) : 0 < (v.file f).ref := by
  have hpos : 0 < v.areas f := count_pos.2 ⟨i, Finset.mem_univ i, hf⟩
  rw [h.refs]
  omega

theorem Files.fresh_base (h : Files v₀ D N v) (hf : f ∈ N) : (v₀.file f).resource = none := by
  obtain ⟨hr, h1⟩ := h.fresh f hf
  obtain ⟨l, -, hs⟩ := h.since
  cases hb : (v₀.file f).resource with
  | none => rfl
  | some r =>
    rcases hs f r hb with ⟨-, hres, -⟩ | ⟨h0, -⟩
    · rw [hr] at hres
      cases hres
    · rw [h0] at h1
      cases h1

theorem wp_filealloc (h : Files v₀ D N v) (hk : v₀.Kept v) :
    wp filealloc v (fun r w => match r with
      | none => w = v
      | some f => Files v₀ (fun g => D g + holds (some f) g) (insert f N) w ∧ v₀.Kept w ∧ f ∉ N)
      Panic.Other := by
  rw [filealloc, wp_bind, wp_get]
  split
  case h_1 => exact wp_pure.2 rfl
  case h_2 f hf =>
    have h0 : (v.file f).ref = 0 := by simpa using List.find?_some hf
    have hN : f ∉ N := fun hm => by
      have h1 := (h.fresh f hm).2
      rw [h0] at h1
      cases h1
    have hres : (v.file f).resource = none := (h.typed f hN).2 h0
    have hbase : (v₀.file f).resource = none := by
      by_contra hb
      have := hk f hb
      omega
    rw [wp_bind, wp_set, wp_pure]
    have hother : ∀ {g}, g ≠ f → (v.setFile f { v.file f with ref := 1 }).file g = v.file g :=
      fun hg => Vm.setFile_other hg
    refine ⟨⟨?_, ?_, ?_, h.free, ?_⟩, ?_, hN⟩
    · intro g
      have hg := h.refs g
      show _ = D g + holds (some f) g + v.areas g
      by_cases he : g = f
      · rw [he, Vm.setFile_same, holds_self]
        rw [he, h0] at hg
        show 1 = _
        omega
      · rw [hother he, holds_other he, hg]
        omega
    · intro g hg
      rw [Finset.mem_insert, not_or] at hg
      rw [hother hg.1]
      exact h.typed g hg.2
    · intro g hg
      by_cases he : g = f
      · rw [he, Vm.setFile_same]
        exact ⟨hres, rfl⟩
      · rw [hother he]
        exact h.fresh g ((Finset.mem_insert.1 hg).resolve_left he)
    · obtain ⟨l, hl, hs⟩ := h.since
      refine ⟨l, hl, ?_⟩
      intro g r hr
      have he : g ≠ f := by
        intro he
        rw [he, hbase] at hr
        cases hr
      rw [hother he]
      exact hs g r hr
    · intro g hg
      by_cases he : g = f
      · rw [he, Vm.setFile_same]
        exact Nat.one_pos
      · rw [hother he]
        exact hk g hg

theorem Files.setUp {x : File} (h : Files v₀ D N v) (hf : f ∈ N) (hx : x.ref = (v.file f).ref)
    (hr : x.resource ≠ none) : Files v₀ D (N.erase f) (v.setFile f x) := by
  have hbase := h.fresh_base hf
  have h1 := (h.fresh f hf).2
  have hother : ∀ {g}, g ≠ f → (v.setFile f x).file g = v.file g := fun hg => Vm.setFile_other hg
  refine ⟨?_, ?_, ?_, h.free, ?_⟩
  · intro g
    have hg := h.refs g
    by_cases he : g = f
    · rw [he, Vm.setFile_same, hx]
      rw [he] at hg
      exact hg
    · rw [hother he]
      exact hg
  · intro g hg
    by_cases he : g = f
    · rw [he, Vm.setFile_same]
      refine ⟨fun hn => absurd hn hr, fun h0 => ?_⟩
      rw [hx, h1] at h0
      cases h0
    · rw [hother he]
      exact h.typed g fun hm => hg (Finset.mem_erase.2 ⟨he, hm⟩)
  · intro g hg
    obtain ⟨he, hm⟩ := Finset.mem_erase.1 hg
    rw [hother he]
    exact h.fresh g hm
  · obtain ⟨l, hl, hs⟩ := h.since
    refine ⟨l, hl, ?_⟩
    intro g r hg
    have he : g ≠ f := by
      intro he
      rw [he, hbase] at hg
      cases hg
    rw [hother he]
    exact hs g r hg

theorem wp_filedup (h : Files v₀ D N v) (hf : 0 < (v.file f).ref) (hN : f ∉ N)
    (hD : ∀ g, D' g = D g + holds (some f) g) :
    wp (filedup f) v (fun _ w => Files v₀ D' N w ∧ w.area = v.area) Panic.Other := by
  rw [filedup, wp_bind, wp_get, if_neg (by omega), wp_set]
  have hother : ∀ {g}, g ≠ f → (v.setFile f { v.file f with ref := (v.file f).ref + 1 }).file g =
      v.file g := fun hg => Vm.setFile_other hg
  refine ⟨⟨?_, ?_, ?_, h.free, ?_⟩, rfl⟩
  · intro g
    have hg := h.refs g
    show _ = D' g + v.areas g
    by_cases he : g = f
    · rw [he, Vm.setFile_same, hD, holds_self]
      rw [he] at hg
      show (v.file f).ref + 1 = _
      omega
    · rw [hother he, hD, holds_other he, hg]
      rfl
  · intro g hg
    by_cases he : g = f
    · rw [he, Vm.setFile_same]
      have ht := h.typed f hN
      refine ⟨fun hn => ?_, fun h0 => absurd h0 (Nat.succ_ne_zero _)⟩
      have h0 := ht.1 hn
      omega
    · rw [hother he]
      exact h.typed g hg
  · intro g hg
    have he : g ≠ f := fun he => hN (he ▸ hg)
    rw [hother he]
    exact h.fresh g hg
  · obtain ⟨l, hl, hs⟩ := h.since
    refine ⟨l, hl, ?_⟩
    intro g r hg
    by_cases he : g = f
    · rw [he] at hg ⊢
      rw [Vm.setFile_same]
      rcases hs f r hg with ⟨-, hres, hc⟩ | ⟨h0, -⟩
      · exact Or.inl ⟨Nat.succ_pos _, hres, hc⟩
      · omega
    · rw [hother he]
      exact hs g r hg

section Close

variable [Image]

omit [Image] in
theorem Files.shut {l : List Resource} (h : Files v₀ D N v) (h1 : (v.file f).ref = 1)
    (hD : ∀ g, D g = D' g + holds (some f) g) (hl : (v.file f).resource.toList = l)
    (hw : w.file = upd v.file f { v.file f with ref := 0, type := .none }) (ha : w.area = v.area)
    (hr : w.released = l.map (Prod.mk f) ++ v.released) : Files v₀ D' (N.erase f) w := by
  have hsame : w.file f = { v.file f with ref := 0, type := .none } := by rw [hw, upd_same]
  have hother : ∀ {g}, g ≠ f → w.file g = v.file g := fun hg => by rw [hw, upd_other _ _ hg]
  have hareas : ∀ g, w.areas g = v.areas g := fun g => by rw [Vm.areas, Vm.areas, ha]
  refine ⟨?_, ?_, ?_, ?_, ?_⟩
  · intro g
    have hg := h.refs g
    have hd := hD g
    rw [hareas]
    by_cases he : g = f
    · rw [he, hsame]
      rw [he, h1] at hg
      rw [he, holds_self] at hd
      show 0 = _
      omega
    · rw [hother he, hg, hd, holds_other he]
      rfl
  · intro g hg
    by_cases he : g = f
    · rw [he, hsame]
      exact ⟨fun _ => rfl, fun _ => rfl⟩
    · rw [hother he]
      exact h.typed g fun hm => hg (Finset.mem_erase.2 ⟨he, hm⟩)
  · intro g hg
    obtain ⟨he, hm⟩ := Finset.mem_erase.1 hg
    rw [hother he]
    exact h.fresh g hm
  · rw [ha]
    exact h.free
  · obtain ⟨l', hl', hs⟩ := h.since
    refine ⟨l.map (Prod.mk f) ++ l', by rw [hr, hl', List.append_assoc], ?_⟩
    intro g r hg
    by_cases he : g = f
    · rw [he] at hg ⊢
      rcases hs f r hg with ⟨-, hres, hc⟩ | ⟨h0, -⟩
      · refine Or.inr ⟨by rw [hsame], ?_⟩
        have hlr : l = [r] := by
          rw [← hl, hres]
          rfl
        rw [hlr, List.map_cons, List.map_nil, List.singleton_append, List.count_cons_self, hc]
      · omega
    · have hnot : (l.map (Prod.mk f)).count (g, r) = 0 := by
        refine List.count_eq_zero.2 fun hm => ?_
        obtain ⟨x, -, hx⟩ := List.mem_map.1 hm
        exact he (Prod.mk.inj hx).1.symm
      rw [hother he, List.count_append, hnot, Nat.zero_add]
      exact hs g r hg

theorem wp_fileclose (h : Files v₀ D N v) (hD : ∀ g, D g = D' g + holds (some f) g) :
    wp (fileclose f) v (fun _ w => Files v₀ D' (N.erase f) w ∧ w.area = v.area) Panic.Other := by
  have hdf := hD f
  rw [holds_self] at hdf
  have hpos : 0 < (v.file f).ref := h.ref_pos (by omega)
  rw [fileclose, wp_bind, wp_get]
  dsimp only
  rw [if_neg (by omega)]
  split
  case isTrue hlt =>
    -- other holders remain
    have hN : f ∉ N := fun hm => by
      have h1 := (h.fresh f hm).2
      omega
    rw [wp_set, Finset.erase_eq_of_notMem hN]
    have hother : ∀ {g}, g ≠ f → (v.setFile f { v.file f with ref := (v.file f).ref - 1 }).file g =
        v.file g := fun hg => Vm.setFile_other hg
    refine ⟨⟨?_, ?_, ?_, h.free, ?_⟩, rfl⟩
    · intro g
      have hg := h.refs g
      have hd := hD g
      show _ = D' g + v.areas g
      by_cases he : g = f
      · rw [he, Vm.setFile_same]
        rw [he] at hg
        show (v.file f).ref - 1 = _
        omega
      · rw [hother he, hg, hd, holds_other he]
        rfl
    · intro g hg
      by_cases he : g = f
      · rw [he, Vm.setFile_same]
        have ht := h.typed f hN
        refine ⟨fun hn => ?_, fun h0 => ?_⟩
        · have h0 := ht.1 hn
          omega
        · exact absurd h0 (by show (v.file f).ref - 1 ≠ 0; omega)
      · rw [hother he]
        exact h.typed g hg
    · intro g hg
      have he : g ≠ f := fun he => hN (he ▸ hg)
      rw [hother he]
      exact h.fresh g hg
    · obtain ⟨l, hl, hs⟩ := h.since
      refine ⟨l, hl, ?_⟩
      intro g r hg
      by_cases he : g = f
      · rw [he] at hg ⊢
        rw [Vm.setFile_same]
        rcases hs f r hg with ⟨-, hres, hc⟩ | ⟨h0, -⟩
        · exact Or.inl ⟨hlt, hres, hc⟩
        · omega
      · rw [hother he]
        exact hs g r hg
  case isFalse hlt =>
    have h1 : (v.file f).ref = 1 := by omega
    rw [wp_bind, wp_set]
    cases hres : (v.file f).resource with
    | none =>
      refine wp_pure.2 ⟨h.shut (l := []) h1 hD (by rw [hres]; rfl) rfl rfl rfl, rfl⟩
    | some r =>
      show wp (release f r) _ _ _
      have hshut := fun (w : Vm) (hw : Vm.Beside
          { v.setFile f { v.file f with ref := 0, type := .none } with
            released := (f, r) :: v.released } w) =>
        (show Files v₀ D' (N.erase f) w ∧ w.area = v.area from
          ⟨h.shut (l := [r]) h1 hD (by rw [hres]; rfl) hw.file hw.area hw.released, hw.area⟩)
      unfold release
      rw [wp_bind, wp_modify]
      cases r with
      | pipe pi writable => exact wp_conseq ((aside_pipeclose pi writable).spec _) fun _ w hw => hshut w hw
      | inode ip => exact wp_pure.2 (hshut _ (.refl _))

theorem wp_filecloseOpt {o : Option (Fin NFILE)} (h : Files v₀ D N v)
    (hD : ∀ g, D g = D' g + holds o g) (hN : ∀ f, o = some f → f ∉ N) :
    wp (filecloseOpt o) v (fun _ w => Files v₀ D' N w ∧ w.area = v.area) Panic.Other := by
  cases o with
  | none =>
    have he : D = D' := funext fun g => by rw [hD g, holds_none, Nat.add_zero]
    exact wp_pure.2 ⟨he ▸ h, rfl⟩
  | some f =>
    have hc := wp_fileclose h hD
    rw [Finset.erase_eq_of_notMem (hN f rfl)] at hc
    exact hc

end Close

theorem wp_filedupOpt {o : Option (Fin NFILE)} (h : Files v₀ D N v)
    (ho : ∀ f, o = some f → 0 < (v.file f).ref ∧ f ∉ N) (hD : ∀ g, D' g = D g + holds o g) :
    wp (filedupOpt o) v (fun _ w => Files v₀ D' N w ∧ w.area = v.area) Panic.Other := by
  cases o with
  | none =>
    have he : D' = D := funext fun g => by rw [hD g, holds_none, Nat.add_zero]
    exact wp_pure.2 ⟨he ▸ h, rfl⟩
  | some f => exact wp_filedup h (ho f rfl).1 (ho f rfl).2 hD

/-! ### Areas -/

theorem Vm.areas_setArea (a : MmapArea) (g : Fin NFILE) :
    (v.setArea i a).areas g + holds (v.area i).f g = v.areas g + holds a.f g := by
  have hfun : (fun j => ((v.setArea i a).area j).f) = upd (fun j => (v.area j).f) i a.f :=
    comp_upd MmapArea.f v.area i a
  rw [Vm.areas, hfun]
  exact count_upd (Finset.mem_univ i) a.f g

variable {a : MmapArea}

/-- An area is written: the reference of the old one goes to the call, that of the new one comes
from it. -/
theorem Files.setArea (h : Files v₀ D N v) (ha : a.p = none → a.f = none)
    (hD : ∀ g, D' g + holds a.f g = D g + holds (v.area i).f g) :
    Files v₀ D' N (v.setArea i a) := by
  refine ⟨?_, h.typed, h.fresh, ?_, h.since⟩
  · intro g
    have h1 := h.refs g
    have h2 := v.areas_setArea (i := i) a g
    have h3 := hD g
    show (v.file g).ref = _
    omega
  · intro j hj
    by_cases he : j = i
    · have hs : (v.setArea i a).area j = a := by rw [he]; exact upd_same ..
      rw [hs] at hj ⊢
      exact ha hj
    · have hs : (v.setArea i a).area j = v.area j := upd_other _ _ he
      rw [hs] at hj ⊢
      exact h.free j hj

/-- `mmap_take_start` and `mmap_take_any` hand the reference of the area to the caller. -/
theorem wp_mmapTake {q : MmapArea → Bool} (h : Files v₀ D N v) :
    wp (mmapTake q) v (fun r w => match r with
      | none => w = v
      | some a => Files v₀ (fun g => D g + holds a.f g) N w) Panic.Other := by
  rw [mmapTake, wp_bind, wp_get]
  split
  case h_1 => exact wp_pure.2 rfl
  case h_2 i _ =>
    rw [wp_bind, wp_set, wp_pure]
    exact h.setArea (fun _ => rfl) fun g => rfl

theorem wp_mmapInsert (h : Files v₀ D N v) (ha : a.p ≠ none) (hD : ∀ g, D g = D' g + holds a.f g) :
    wp (mmapInsert a) v (fun r w => if r then Files v₀ D' N w else w = v) Panic.Other := by
  rw [mmapInsert, wp_bind, wp_get]
  split
  case h_1 => exact wp_pure.2 rfl
  case h_2 i hi =>
    rw [wp_bind, wp_set, wp_pure]
    have hp : (v.area i).p = none := by
      have := List.find?_some hi
      simpa using this
    refine h.setArea (fun hn => absurd hn ha) fun g => ?_
    rw [h.free i hp, holds_none, hD g]
    rfl

theorem Files.not_empty (f : Fin NFILE) : f ∉ (∅ : Finset (Fin NFILE)) := Finset.notMem_empty f

section Maps

variable [Image]

variable {pagetable : Nat} {p : Fin NPROC}

theorem wp_kmmapInsert (h : Files v₀ D ∅ v) (ha : a.p ≠ none) (hD : ∀ g, D g = D' g + holds a.f g) :
    wp (kmmapInsert pagetable a) v (fun _ w => Files v₀ D' ∅ w) Panic.Other := by
  rw [kmmapInsert, wp_bind]
  refine wp_conseq (wp_mmapInsert h ha hD) fun r w hw => ?_
  cases r with
  | true =>
    have hw' : Files v₀ D' ∅ w := hw
    rw [if_pos rfl]
    refine Aside.files (aside_ite ?_ aside_pure) hw'
    exact aside_bind (aside_populate ..) fun _ => aside_ite aside_pure aside_pure
  | false =>
    have hw' : w = v := hw
    rw [hw']
    show wp (filecloseOpt a.f >>= fun _ => pure 0) v _ _
    exact wp_seq (wp_filecloseOpt h hD fun f _ => Files.not_empty f) fun _ u hu => wp_pure.2 hu.1

theorem wp_kmmap {ofile : Fin NOFILE → Option (Fin NFILE)} {addr : Nat}
    {length prot flags fd offset : Int} (h : Files v₀ D ∅ v)
    (hD : ∀ fd f, ofile fd = some f → 0 < D f) :
    wp (kmmap p pagetable ofile addr length prot flags fd offset) v (fun _ w => Files v₀ D ∅ w)
      Panic.Other := by
  rw [kmmap]
  split
  · exact wp_pure.2 h
  split
  · exact wp_pure.2 h
  split
  · exact wp_pure.2 h
  dsimp only
  split
  · split
    · exact wp_pure.2 h
    · exact wp_kmmapInsert h (Option.some_ne_none p) fun g => rfl
  split
  case isFalse => exact wp_pure.2 h
  case isTrue hfd =>
    split
    case h_1 => exact wp_pure.2 h
    case h_2 f hf =>
      rw [wp_bind, wp_get]
      split
      · exact wp_pure.2 h
      · refine wp_seq (wp_filedup h (h.ref_pos (hD _ f hf)) (Files.not_empty f) fun g => rfl) ?_
        intro _ w hw
        exact wp_kmmapInsert hw.1 (Option.some_ne_none p) fun g => rfl

theorem wp_kmunmap {pagetable addr : Nat} (h : Files v₀ D ∅ v) :
    wp (kmunmap p pagetable addr) v (fun _ w => Files v₀ D ∅ w) Panic.Other := by
  rw [kmunmap]
  split
  · exact wp_pure.2 h
  · rw [mmapTakeStart, wp_bind]
    refine wp_conseq (wp_mmapTake h) fun r w hw => ?_
    cases r with
    | none =>
      have hw' : w = v := hw
      exact wp_pure.2 (hw' ▸ h)
    | some a =>
      dsimp only
      refine wp_seq ((aside_unmapArea ..).files hw) fun _ u hu => ?_
      exact wp_seq (wp_filecloseOpt hu (fun g => rfl) fun f _ => Files.not_empty f) fun _ x hx =>
        wp_pure.2 hx.1

theorem wp_mmapfreeprocLoop (fuel : Nat) :
    ∀ {v}, Files v₀ D ∅ v →
      wp (mmapfreeprocLoop p pagetable fuel) v (fun _ w => Files v₀ D ∅ w) Panic.Other := by
  induction fuel with
  | zero => exact fun h => wp_pure.2 h
  | succ fuel ih =>
    intro v h
    rw [mmapfreeprocLoop, mmapTakeAny, wp_bind]
    refine wp_conseq (wp_mmapTake h) fun r w hw => ?_
    cases r with
    | none =>
      have hw' : w = v := hw
      exact wp_pure.2 (hw' ▸ h)
    | some a =>
      dsimp only
      refine wp_seq ((aside_when (aside_unmapArea ..)).files hw) fun _ u hu => ?_
      exact wp_seq (wp_filecloseOpt hu (fun g => rfl) fun f _ => Files.not_empty f) fun _ x hx =>
        ih hx.1

theorem wp_mmapfreeproc (h : Files v₀ D ∅ v) :
    wp (mmapfreeproc p pagetable) v (fun _ w => Files v₀ D ∅ w) Panic.Other :=
  wp_mmapfreeprocLoop _ h

theorem wp_mmapforkLoop {oldp newp : Fin NPROC} {old new : Nat} (is : List (Fin NMMAPAREA)) :
    ∀ {v}, Files v₀ D ∅ v →
      wp (mmapforkLoop oldp newp old new is) v (fun _ w => Files v₀ D ∅ w) Panic.Other := by
  induction is with
  | nil => exact fun h => wp_pure.2 h
  | cons i is ih =>
    intro v h
    rw [mmapforkLoop, mmapCopyIndex, wp_bind, wp_bind, wp_get, wp_pure]
    split
    case h_1 => exact ih h
    case h_2 a ha =>
      have hai : a = v.area i := by
        split at ha
        · exact (Option.some.inj ha).symm
        · cases ha
      have hfail : ∀ u, Files v₀ D ∅ u → wp (mmapfreeproc newp new >>= fun _ => pure false) u
          (fun _ w => Files v₀ D ∅ w) Panic.Other := by
        intro u hu
        exact wp_seq (wp_mmapfreeproc hu) fun _ w hw => wp_pure.2 hw
      have href : ∀ f, a.f = some f → 0 < (v.file f).ref ∧ f ∉ (∅ : Finset (Fin NFILE)) := by
        intro f hf
        rw [hai] at hf
        exact ⟨h.ref_area hf, Files.not_empty f⟩
      refine wp_seq (wp_filedupOpt h href fun g => rfl) fun _ w hw => ?_
      rw [wp_bind]
      have hins := wp_mmapInsert (a := { a with p := some newp }) hw.1 (Option.some_ne_none newp)
        fun g => rfl
      refine wp_conseq hins fun r u hu => ?_
      cases r with
      | true =>
        have hu' : Files v₀ D ∅ u := hu
        rw [if_pos rfl, wp_bind]
        refine wp_conseq (aside_onKmem.files hu') fun r x hx => ?_
        cases r with
        | true => exact ih hx
        | false => exact hfail x hx
      | false =>
        have hu' : u = w := hu
        rw [hu']
        show wp (filecloseOpt a.f >>= fun _ => mmapfreeproc newp new >>= fun _ => pure false) w _ _
        exact wp_seq (wp_filecloseOpt hw.1 (fun g => rfl) fun f _ => Files.not_empty f) fun _ x hx =>
          hfail x hx.1

theorem wp_mmapfork {oldp newp : Fin NPROC} {old new : Nat} (h : Files v₀ D ∅ v) :
    wp (mmapfork oldp newp old new) v (fun _ w => Files v₀ D ∅ w) Panic.Other :=
  wp_mmapforkLoop _ h

theorem wp_kexec {oldsz oldpagetable trapframe : Nat} {ip : Option Nat} {argv : List (List UInt8)}
    (h : Files v₀ D ∅ v) :
    wp (kexec p oldsz oldpagetable trapframe ip argv) v (fun _ w => Files v₀ D ∅ w)
      Panic.Other := by
  unfold kexec
  cases ip with
  | none => exact wp_pure.2 h
  | some ip =>
    dsimp only
    rw [wp_bind, wp_get]
    split
    · exact wp_pure.2 h
    split
    · exact wp_pure.2 h
    refine wp_seq (aside_onKmem.files h) fun r w hw => ?_
    cases r with
    | none => exact wp_pure.2 hw
    | some pagetable =>
      have hfree : ∀ sz u, Files v₀ D ∅ u → wp (onKmem (procFreepagetable pagetable sz) >>= fun _ =>
          pure (none : Option ExecImage)) u (fun _ w => Files v₀ D ∅ w) Panic.Other := fun sz u hu =>
        (aside_bind aside_onKmem fun _ => aside_pure).files hu
      dsimp only
      rw [kexecLoad, wp_bind]
      refine wp_conseq ((aside_loadSegments ..).files hw) fun r u hu => ?_
      obtain ⟨ok, sz⟩ := r
      cases ok with
      | false => exact hfree sz u hu
      | true =>
        dsimp only
        refine wp_seq ((aside_setupStack ..).files hu) fun r x hx => ?_
        cases r with
        | error sz => exact hfree sz x hx
        | ok r =>
          obtain ⟨sz, sp⟩ := r
          dsimp only
          refine wp_seq (aside_onKmem.files hx) fun _ y hy => ?_
          refine wp_seq (wp_mmapfreeproc hy) fun _ z hz => Aside.files ?_ hz
          refine aside_bind aside_onKmem fun _ => ?_
          refine aside_bind aside_onKmem fun _ => ?_
          exact aside_bind aside_onKmem fun _ => aside_pure

end Maps

end Xv6
