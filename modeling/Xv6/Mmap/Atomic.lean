import Xv6.Ftable.Quiet
import Xv6.Machine
import Xv6.Mem.Frames

/-!
# When a failed `mmap` leaves nothing behind

`kmmap` publishes the area before it populates it, and there is no way back from there: when a page
of a populated mapping cannot be loaded, the area, the reference to its file and the pages loaded so
far stay.  So a call that returns `0` leaves the process as it was exactly if it was refused before
`mmap_insert` had entered the area.
-/

namespace Xv6

open Xv6.Lib

/-- The area table, the counts of the open files and the valid leaves of a page table are the
same. -/
def Vm.SameMappings (pagetable : Nat) (v v' : Vm) : Prop :=
  v'.area = v.area ∧ (∀ f, (v'.file f).ref = (v.file f).ref) ∧
    ∀ va, v'.kmem.pte pagetable va = v.kmem.pte pagetable va

theorem fd_lt {fd : Int} (h : 0 ≤ fd ∧ fd < NOFILE) : fd.toNat < NOFILE := by omega

/-- The checks of `kmmap` on the descriptor of a call. -/
def mmapSource (v : Vm) (ofile : Fin NOFILE → Option (Fin NFILE)) (prot flags fd offset : Int) :
    Bool :=
  if mapAnonymous flags then fd == -1 && offset == 0
  else if h : 0 ≤ fd ∧ fd < NOFILE then
    match ofile ⟨fd.toNat, fd_lt h⟩ with
    | none => false
    | some f => mmapFileOk (v.file f) prot
  else false

/-- `kmmap` passes its checks, and there is a free slot for the area. -/
def mmapEnters (v : Vm) (ofile : Fin NOFILE → Option (Fin NFILE)) (addr : Nat)
    (length prot flags fd offset : Int) : Bool :=
  addr % PGSIZE == 0 && decide (0 < length) && length % PGSIZE == 0 && mmapValidProt prot &&
    decide (0 ≤ offset) && mmapSource v ofile prot flags fd offset &&
    (v.findArea fun b => b.p == none).isSome

theorem Vm.findArea_some {v : Vm} {q : MmapArea → Bool} {i : Fin NMMAPAREA}
    (h : v.findArea q = some i) : q (v.area i) = true := by
  have := List.find?_some h
  exact this

theorem Vm.setFile_back (v : Vm) (f : Fin NFILE) :
    (v.setFile f { v.file f with ref := (v.file f).ref + 1 }).setFile f
      { v.file f with ref := (v.file f).ref } = v := by
  have hfile : upd v.file f (v.file f) = v.file := upd_self v.file f
  simp only [Vm.setFile, upd_upd]
  rw [hfile]

section

variable [Image]

theorem wp_kmmapInsert_free {pagetable : Nat} {a : MmapArea} {v : Vm} {i : Fin NMMAPAREA}
    (hi : v.findArea (fun b => b.p == none) = some i) :
    wp (kmmapInsert pagetable a) v (fun _ v' => v'.area i = a) fun _ => True := by
  have hset : (v.setArea i a).area i = a := upd_same _ _ _
  rw [kmmapInsert, wp_bind, mmapInsert, wp_bind, wp_get, hi]
  dsimp only
  rw [wp_bind, wp_set, wp_pure, if_pos rfl]
  split
  · rw [wp_bind]
    refine wp_mono ((aside_populate a pagetable _ _).spec _) (fun b w hw => ?_) fun _ _ => trivial
    have hw' : w.area i = a := by rw [hw.area, hset]
    split
    · exact wp_pure.2 hw'
    · exact wp_pure.2 hw'
  · exact wp_pure.2 hset

theorem wp_kmmapInsert_full {pagetable : Nat} {a : MmapArea} {v : Vm}
    (hi : v.findArea (fun b => b.p == none) = none) {Q : Nat → Vm → Prop} {E : Panic → Prop}
    (h : wp (filecloseOpt a.f) v (fun _ v' => Q 0 v') E) : wp (kmmapInsert pagetable a) v Q E := by
  rw [kmmapInsert, wp_bind, mmapInsert, wp_bind, wp_get, hi]
  dsimp only
  rw [wp_pure, if_neg Bool.false_ne_true, wp_bind]
  exact wp_conseq h fun _ w hw => wp_pure.2 hw

theorem wp_kmmapInsert_cases {pagetable : Nat} {a : MmapArea} {v v₀ : Vm} {p : Fin NPROC}
    (hp : a.p = some p) (harea : v.area = v₀.area)
    (hclose : wp (filecloseOpt a.f) v (fun _ v' => v' = v₀) fun _ => True) :
    wp (kmmapInsert pagetable a) v (fun r v' =>
      ((v₀.findArea fun b => b.p == none).isSome = true → v'.area ≠ v₀.area) ∧
      ((v₀.findArea fun b => b.p == none).isSome = false → r = 0 ∧ v' = v₀)) fun _ => True := by
  have hfind : (v₀.findArea fun b => b.p == none) = v.findArea fun b => b.p == none := by
    unfold Vm.findArea
    rw [harea]
  rw [hfind]
  cases hi : v.findArea fun b => b.p == none with
  | none =>
    refine wp_kmmapInsert_full hi (wp_conseq hclose fun _ w hw => ⟨fun h => ?_, fun _ => ⟨rfl, hw⟩⟩)
    cases h
  | some i =>
    refine wp_conseq (wp_kmmapInsert_free hi) fun r w hw => ⟨fun _ he => ?_, fun h => ?_⟩
    · have hfree := Vm.findArea_some hi
      rw [harea, ← he, hw, hp] at hfree
      cases hfree
    · cases h

theorem wp_fileclose_dup {v : Vm} {f : Fin NFILE} (hf : ¬ (v.file f).ref < 1) {E : Panic → Prop} :
    wp (fileclose f) (v.setFile f { v.file f with ref := (v.file f).ref + 1 }) (fun _ v' => v' = v)
      E := by
  have hfile : (v.setFile f { v.file f with ref := (v.file f).ref + 1 }).file f =
      { v.file f with ref := (v.file f).ref + 1 } := upd_same _ _ _
  rw [fileclose, wp_bind, wp_get, hfile]
  dsimp only
  rw [if_neg (by omega), if_pos (by omega), wp_set, Nat.add_sub_cancel]
  exact v.setFile_back f

theorem wp_kmmap_cases (p : Fin NPROC) (pagetable : Nat) (ofile : Fin NOFILE → Option (Fin NFILE))
    (addr : Nat) (length prot flags fd offset : Int) (v : Vm) :
    wp (kmmap p pagetable ofile addr length prot flags fd offset) v (fun r v' =>
      (mmapEnters v ofile addr length prot flags fd offset = true → v'.area ≠ v.area) ∧
      (mmapEnters v ofile addr length prot flags fd offset = false → r = 0 ∧ v' = v))
      fun _ => True := by
  have hrefuse : mmapEnters v ofile addr length prot flags fd offset = false →
      wp (pure 0 : VmM Nat) v (fun r v' =>
        (mmapEnters v ofile addr length prot flags fd offset = true → v'.area ≠ v.area) ∧
        (mmapEnters v ofile addr length prot flags fd offset = false → r = 0 ∧ v' = v))
        fun _ => True := by
    intro h
    rw [h]
    exact wp_pure.2 ⟨fun h' => (by cases h'), fun _ => ⟨rfl, rfl⟩⟩
  unfold kmmap
  split
  · rename_i hc
    refine hrefuse ?_
    unfold mmapEnters
    rcases hc with hc | hc | hc
    · have : (addr % PGSIZE == 0) = false := beq_false_of_ne hc
      simp only [this, Bool.false_and]
    · have : decide (0 < length) = false := decide_eq_false (Int.not_lt.2 hc)
      simp only [this, Bool.and_false, Bool.false_and]
    · have : (length % PGSIZE == 0) = false := beq_false_of_ne hc
      simp only [this, Bool.and_false, Bool.false_and]
  rename_i hargs
  split
  · rename_i hc
    refine hrefuse ?_
    unfold mmapEnters
    simp_all
  rename_i hprot
  split
  · rename_i hc
    refine hrefuse ?_
    unfold mmapEnters
    simp [Int.not_le.2 hc]
  rename_i hoff
  -- the arguments are fine: what is left is the file and the slot
  have henters : mmapEnters v ofile addr length prot flags fd offset =
      (mmapSource v ofile prot flags fd offset && (v.findArea fun b => b.p == none).isSome) := by
    unfold mmapEnters
    simp only [not_or, ne_eq, Decidable.not_not] at hargs
    have hlen : 0 < length := by omega
    have hprot' : mmapValidProt prot = true := by simpa using hprot
    simp only [hargs.1, hargs.2.2, decide_eq_true hlen, hprot', decide_eq_true (Int.not_lt.1 hoff),
      BEq.rfl, Bool.true_and]
  dsimp only
  split
  · rename_i hanon
    have hsource : mmapSource v ofile prot flags fd offset = (fd == -1 && offset == 0) := by
      unfold mmapSource
      rw [if_pos hanon]
    split
    · rename_i hc
      refine hrefuse ?_
      rw [henters, hsource]
      rcases hc with hc | hc
      · simp [hc]
      · simp [hc]
    · rename_i hc
      simp only [not_or, ne_eq, Decidable.not_not] at hc
      rw [henters, hsource, hc.1, hc.2]
      exact wp_kmmapInsert_cases rfl rfl (wp_pure.2 rfl)
  rename_i hanon
  split
  · rename_i hfd
    split
    · rename_i hnone
      have hsource : mmapSource v ofile prot flags fd offset = false := by
        unfold mmapSource
        rw [if_neg hanon, dif_pos hfd, hnone]
      refine hrefuse ?_
      rw [henters, hsource]
      rfl
    · rename_i f hsome
      have hsource : mmapSource v ofile prot flags fd offset = mmapFileOk (v.file f) prot := by
        unfold mmapSource
        rw [if_neg hanon, dif_pos hfd, hsome]
      rw [wp_bind, wp_get]
      split
      · rename_i hok
        refine hrefuse ?_
        rw [henters, hsource]
        simp_all
      · rename_i hok
        rw [wp_bind, filedup, wp_bind, wp_get]
        split
        · exact wp_throw.2 trivial
        · rename_i href
          have hok' : mmapFileOk (v.file f) prot = true := by simpa using hok
          rw [wp_set, henters, hsource, hok']
          exact wp_kmmapInsert_cases rfl rfl (wp_fileclose_dup href)
  · rename_i hfd
    refine hrefuse ?_
    rw [henters]
    unfold mmapSource
    rw [if_neg hanon, dif_neg hfd]
    rfl

/-- **A failed `mmap`** leaves the areas, the references to files and the mappings of the process
as they were if and only if it was refused before the area was entered. -/
theorem kmmap_failure {p : Fin NPROC} {pagetable : Nat} {ofile : Fin NOFILE → Option (Fin NFILE)}
    {addr : Nat} {length prot flags fd offset : Int} {v v' : Vm}
    (h : kmmap p pagetable ofile addr length prot flags fd offset v = .ok (0, v')) :
    v.SameMappings pagetable v' ↔ mmapEnters v ofile addr length prot flags fd offset = false := by
  obtain ⟨henter, hrefuse⟩ := wp_ok (wp_kmmap_cases p pagetable ofile addr length prot flags fd offset v) h
  constructor
  · intro hsame
    by_contra hne
    exact henter (by simpa using hne) hsame.1
  · intro hf
    rw [(hrefuse hf).2]
    exact ⟨rfl, fun _ => rfl, fun _ => rfl⟩

end

/-- A call of the first process of the small machine. -/
def smallMmap (n : Int) : Except Panic (Nat × Vm) :=
  @kmmap smallImage 0 (smallKernel.proc 0).pagetable (fun _ => none) 0 n PROT_READ 3 (-1) 0
    smallKernel.vm

theorem exists_of_smallMmap {n : Int}
    (h : ((smallMmap n).toOption.map Prod.fst == some 0) = true) :
    ∃ v', smallMmap n = .ok (0, v') := by
  cases hr : smallMmap n with
  | error e =>
    rw [hr] at h
    cases h
  | ok r =>
    obtain ⟨a, v'⟩ := r
    rw [hr] at h
    have ha : a = 0 := by simpa [Except.toOption] using h
    subst ha
    exact ⟨v', rfl⟩

/-- The first file is open for reading, and there is no room for another area. -/
def fullTable : Vm :=
  { smallKernel.vm with
    area := fun _ => { p := some 1 }
    file := fun _ => { type := .inode, ref := 1, readable := true } }

/-- A mapping of the file: its reference is taken and given back. -/
theorem kmmap_failure_full : ∃ v',
    @kmmap smallImage 0 0 (fun _ => some 0) 0 4096 PROT_READ 0 3 0 fullTable = .ok (0, v') ∧
    fullTable.SameMappings 0 v' := by
  let _ := smallImage
  have h : kmmap 0 0 (fun _ => some 0) 0 4096 PROT_READ 0 3 0 fullTable = .ok (0, _) := rfl
  exact ⟨_, h, (kmmap_failure h).2 rfl⟩

/-- **The mapping of more pages than there are**, populated: `kmmap` returns `0`, and the area is
in the table. -/
theorem kmmap_leaves_area : ∃ v', smallMmap (300 * 4096) = .ok (0, v') ∧
    ¬ smallKernel.vm.SameMappings (smallKernel.proc 0).pagetable v' := by
  let _ := smallImage
  obtain ⟨v', h⟩ := exists_of_smallMmap (n := 300 * 4096) (by decide +kernel)
  refine ⟨v', h, fun hsame => ?_⟩
  exact (wp_ok (wp_kmmap_cases _ _ _ _ _ _ _ _ _ _) h).1 (by decide +kernel) hsame.1

end Xv6
