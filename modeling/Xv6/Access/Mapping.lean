import Xv6.Access.Copy
import Xv6.Lib.Run
import Xv6.Mmap.Atomic

/-!
# The contents of a mapping

A page of a mapping is loaded by `MAP_POPULATE`, by a fault of the user or by a copy of the kernel, and
each of them leaves in the view of the process what was there: the page of the file that the area
stands for.  So it is enough to look at the view right after `kmmap`, and that is the file from
`offset` on, with zeros behind its end.

The view has the area that `mmap_lookup` finds first in its table.  `kmmap` does not test whether the
new area overlaps one that the process has: then the pages of the older area may be found instead.
-/

namespace Xv6

open Xv6.Lib

/-! ### The page of a file -/

/-- Byte `k` of a file, `0` behind its end. -/
def Inode.byte (ip : Inode) (k : Nat) : UInt8 := if k < ip.size then ip.data k else 0

theorem lt_readiCount (ip : Inode) {off o : Nat} (hoff : off + PGSIZE < 2 ^ 32) (ho : o < PGSIZE) :
    o < readiCount ip off PGSIZE ↔ off + o < ip.size := by
  have hmod : (off + PGSIZE) % 2 ^ 32 = off + PGSIZE := Nat.mod_eq_of_lt hoff
  unfold readiCount
  rw [hmod]
  split
  · omega
  · split
    · omega
    · omega

theorem byteAt_readi (ip : Inode) {off o : Nat} (hoff : off + PGSIZE < 2 ^ 32) (ho : o < PGSIZE) :
    byteAt (blit (fillPage 0) 0 (readiCount ip off PGSIZE) fun b => ip.data (off + b)) o =
      ip.byte (off + o) := by
  have hcount := lt_readiCount ip hoff ho
  rw [byteAt_blit, byteAt_fillPage_zero, Nat.sub_zero, Nat.zero_add]
  unfold Inode.byte
  by_cases hin : off + o < ip.size
  · rw [if_pos ⟨Nat.zero_le o, hcount.2 hin⟩, if_pos hin]
  · rw [if_neg fun h => hin (hcount.1 h.2), if_neg hin]

/-- The byte `i` of a mapping: of the file from `offset` on, or zero. -/
def Vm.mappingByte (v : Vm) (a : MmapArea) (i : Nat) : UInt8 :=
  if mapAnonymous a.flags then 0
  else
    match a.f with
    | none => 0
    | some f => (v.inode (v.file f).ip).byte (a.offset.toNat + i)

/-- An area as `kmmap` makes it. -/
structure MmapArea.Ok (v : Vm) (a : MmapArea) : Prop where
  aligned : a.addr % PGSIZE = 0
  length : 0 < a.length ∧ a.length < 2 ^ 31 ∧ a.length % PGSIZE = 0
  offset : 0 ≤ a.offset ∧ a.offset < 2 ^ 31
  file : mapAnonymous a.flags = false → ∃ f, a.f = some f ∧ (v.file f).type = .inode

theorem u64_of_length {n : Int} (h : 0 < n ∧ n < 2 ^ 31) : u64 n = n.toNat := by
  unfold u64
  rw [Int.emod_eq_of_lt (by omega) (by omega)]

variable {a : MmapArea}

/-- **The offset of a page in its file** fits into 32 bits, and so does the end of the page. -/
theorem MmapArea.Ok.offset_fits {v : Vm} (h : a.Ok v) {n : Nat} (hn : n < a.length.toNat)
    (hpage : n % PGSIZE = 0) :
    u32 (a.offset + (n : Nat)) = a.offset.toNat + n ∧ a.offset.toNat + n + PGSIZE < 2 ^ 32 := by
  obtain ⟨hl0, hl1, hl2⟩ := h.length
  obtain ⟨ho0, ho1⟩ := h.offset
  have hl2' : a.length % 4096 = 0 := hl2
  have hpage' : n % 4096 = 0 := hpage
  have hfit : a.offset.toNat + n + 4096 < 2 ^ 32 := by omega
  refine ⟨?_, hfit⟩
  unfold u32
  rw [Int.emod_eq_of_lt (by omega) (by omega)]
  omega

/-- **The page that is loaded for a mapping** has the bytes of the mapping. -/
theorem MmapArea.Ok.fillOf {v : Vm} (h : a.Ok v) {n o : Nat} (hn : n < a.length.toNat)
    (hpage : n % PGSIZE = 0) (ho : o < PGSIZE) :
    (v.fillOf a (a.addr + n)).map (fun g => byteAt g o) = some (v.mappingByte a (n + o)) := by
  unfold Vm.fillOf Vm.mappingByte
  cases han : mapAnonymous a.flags with
  | true =>
    rw [if_pos rfl, if_pos rfl, Option.map_some, byteAt_fillPage_zero]
  | false =>
    obtain ⟨f, hf, hty⟩ := h.file han
    obtain ⟨hoff, hfit⟩ := h.offset_fits hn hpage
    rw [if_neg Bool.false_ne_true, if_neg Bool.false_ne_true, hf]
    dsimp only
    rw [if_neg (not_not_intro hty), Option.map_some, Nat.add_sub_cancel_left, hoff,
      byteAt_readi _ hfit ho, Nat.add_assoc]

/-! ### The view of a new area -/

/-- The new area is found for its addresses: no other area of the process has them. -/
theorem Vm.areaAt_setArea {v : Vm} {p : Fin NPROC} {j : Fin NMMAPAREA} {va : Nat}
    (hp : a.p = some p) (hc : a.covers va = true)
    (hother : ∀ i, i ≠ j → (v.area i).p = some p → (v.area i).covers va = false) :
    (v.setArea j a).areaAt p va = some a := by
  have hself : (v.setArea j a).area j = a := upd_same _ _ _
  have huniq : ∀ i, (((v.setArea j a).area i).p == some p && ((v.setArea j a).area i).covers va) = true →
      i = j := by
    intro i hi
    by_contra hne
    have hold : (v.setArea j a).area i = v.area i := upd_other _ _ hne
    rw [hold, Bool.and_eq_true, beq_iff_eq] at hi
    rw [hother i hne hi.1] at hi
    exact absurd hi.2 Bool.false_ne_true
  unfold Vm.areaAt
  cases hfind : (v.setArea j a).findArea fun b => b.p == some p && b.covers va with
  | none =>
    have hnone := List.find?_eq_none.1 hfind j (List.mem_finRange j)
    simp [hself, hp, hc] at hnone
  | some i =>
    have hq := List.find?_some hfind
    rw [huniq i hq, Option.map_some, hself]

section

variable [Image] {K T : Nat → Nat} {R : Finset Nat} {v v' : Vm} {p : Fin NPROC} {sz r va : Nat}
  {E : Panic → Prop}

omit [Image] in
/-- **The bytes that the process sees** in an area that it finds and of which no page is mapped. -/
theorem MmapArea.Ok.viewByte (h : a.Ok v) {i : Nat} (hi : i < a.length.toNat)
    (hfind : v.areaAt p (pgrounddown (a.addr + i)) = some a)
    (hnone : v.kmem.pte r (pageOf (a.addr + i)) = none) :
    v.viewByte p sz r (a.addr + i) = some (v.mappingByte a i) := by
  have hal : a.addr % 4096 = 0 := h.aligned
  have hmod : (a.addr + i) % PGSIZE = i % PGSIZE := by
    show (a.addr + i) % 4096 = i % 4096
    omega
  have hdown : pgrounddown (a.addr + i) = a.addr + i / PGSIZE * PGSIZE := by
    show (a.addr + i) / 4096 * 4096 = a.addr + i / 4096 * 4096
    omega
  have hsum : i / PGSIZE * PGSIZE + i % PGSIZE = i := Nat.div_add_mod' i PGSIZE
  have hpage := h.fillOf (n := i / PGSIZE * PGSIZE) (o := i % PGSIZE)
    (Nat.lt_of_le_of_lt (Nat.div_mul_le_self i PGSIZE) hi) (Nat.mul_mod_left _ _)
    (Nat.mod_lt i (by decide))
  unfold Vm.viewByte
  rw [Vm.viewPage_none hnone, pageOf_mul_pgsize, hmod]
  unfold Vm.faultPage
  rw [hfind]
  dsimp only
  rw [if_neg (by simp), hdown, Option.map_map, Option.map_map]
  rw [hsum] at hpage
  exact hpage

/-! ### Populating -/

/-- **The `MAP_POPULATE` loop** leaves the view as it is. -/
theorem Space.wp_populate (h : Space K T R v p r) (sz : Nat) (n : Nat) {va : Nat}
    (hva : va % PGSIZE = 0) (hfind : ∀ k < n, v.areaAt p (va + k * PGSIZE) = some a) :
    wp (populate a r n va) v (fun ok v' => ok = false ∨
      Touched K T R p sz r v v' ∧ ∃ m', v' = v.setKmem m') E := by
  induction n generalizing v va with
  | zero => exact wp_pure.2 (.inr ⟨.refl h, v.kmem, rfl⟩)
  | succ n ih =>
    have h0 := hfind 0 (Nat.succ_pos n)
    rw [Nat.zero_mul, Nat.add_zero] at h0
    rw [populate, wp_bind]
    refine wp_conseq (h.wp_mmapMapPage sz hva h0) fun ok v' hok => ?_
    cases ok with
    | false => exact wp_pure.2 (.inl rfl)
    | true =>
      obtain ⟨hf, -⟩ := hok.resolve_left Bool.false_ne_true.symm
      have htouch := hf.touched h
      obtain ⟨m', rfl, -, -⟩ := hf
      rw [if_pos rfl]
      have hnext : ∀ k < n, (v.setKmem m').areaAt p (va + PGSIZE + k * PGSIZE) = some a := by
        intro k hk
        have hk' := hfind (k + 1) (by omega)
        rw [Nat.succ_mul, Nat.add_comm (k * PGSIZE), ← Nat.add_assoc] at hk'
        exact hk'
      have hva' : (va + PGSIZE) % PGSIZE = 0 := by rw [Nat.add_mod_right, hva]
      refine wp_conseq (ih htouch.space hva' hnext) fun ok' v'' hok' => ?_
      rcases hok' with hok' | ⟨htouch', m'', rfl⟩
      · exact .inl hok'
      · exact .inr ⟨htouch.trans htouch', m'', rfl⟩

/-! ### `kmmap` -/

/-- The range is free: no area of the process meets it, and no page of it is mapped. -/
structure Vm.Free (v : Vm) (p : Fin NPROC) (r lo hi : Nat) : Prop where
  areas : ∀ i, (v.area i).p = some p → (v.area i).stop ≤ lo ∨ hi ≤ (v.area i).addr
  pages : ∀ va, lo ≤ va → va < hi → v.kmem.pte r (pageOf va) = none

omit [Image] in
theorem MmapArea.Ok.stop (h : a.Ok v) (hhigh : a.addr + a.length.toNat ≤ TRAPFRAME) :
    a.stop = a.addr + a.length.toNat := by
  unfold MmapArea.stop
  rw [u64_of_length ⟨h.length.1, h.length.2.1⟩]
  exact Nat.mod_eq_of_lt (Nat.lt_of_le_of_lt hhigh (by decide))

omit [Image] in
theorem Vm.Free.areaAt {j : Fin NMMAPAREA} (hfree : v.Free p r a.addr (a.addr + a.length.toNat))
    (h : a.Ok v) (hp : a.p = some p) (hhigh : a.addr + a.length.toNat ≤ TRAPFRAME)
    (hlow : a.addr ≤ va) (hlt : va < a.addr + a.length.toNat) :
    (v.setArea j a).areaAt p va = some a := by
  have hstop := h.stop hhigh
  refine Vm.areaAt_setArea hp ?_ fun i _ hi => ?_
  · unfold MmapArea.covers
    rw [hstop]
    simp [hlow, hlt]
  · unfold MmapArea.covers
    rw [Bool.and_eq_false_iff, decide_eq_false_iff_not, decide_eq_false_iff_not]
    rcases hfree.areas i hi with hle | hle
    · right
      omega
    · left
      omega

/-- **`kmmap` from `mmap_insert` on**, in a free range below the trapframe. -/
theorem Space.wp_kmmapInsert (h : Space K T R v p r) (sz : Nat) (hok : a.Ok v) (hp : a.p = some p)
    (hlow : MMAPBASE ≤ a.addr) (hhigh : a.addr + a.length.toNat ≤ TRAPFRAME)
    (hfree : v.Free p r a.addr (a.addr + a.length.toNat)) :
    wp (kmmapInsert r a) v (fun s v' => s = 0 ∨ Space K T R v' p r ∧
      ∀ i < a.length.toNat, v'.viewByte p sz r (a.addr + i) = some (v.mappingByte a i)) fun _ => True := by
  rw [kmmapInsert, wp_bind, mmapInsert, wp_bind, wp_get]
  cases hj : v.findArea fun b => b.p == none with
  | none =>
    dsimp only
    rw [wp_pure, if_neg Bool.false_ne_true]
    exact wp_bind.2 (wp_any fun _ _ => wp_pure.2 (.inl rfl))
  | some j =>
    dsimp only
    rw [wp_bind, wp_set, wp_pure, if_pos rfl]
    have hlen := u64_of_length ⟨hok.length.1, hok.length.2.1⟩
    have hspace : Space K T R (v.setArea j a) p r := by
      refine ⟨h.inv, h.root, fun i hi => ?_⟩
      by_cases hij : i = j
      · have hself : (v.setArea j a).area i = a := by
          rw [hij]
          exact upd_same _ _ _
        rw [hself, hlen]
        exact ⟨hlow, hhigh⟩
      · have hold : (v.setArea j a).area i = v.area i := upd_other _ _ hij
        rw [hold] at hi ⊢
        exact h.areas i hi
    have hview : ∀ i < a.length.toNat,
        (v.setArea j a).viewByte p sz r (a.addr + i) = some (v.mappingByte a i) := by
      intro i hi
      have hok' : a.Ok (v.setArea j a) := ⟨hok.aligned, hok.length, hok.offset, hok.file⟩
      have hal : a.addr % 4096 = 0 := hok.aligned
      refine hok'.viewByte hi (hfree.areaAt hok hp hhigh ?_ ?_) (hfree.pages _ (by omega) (by omega))
      · show a.addr ≤ (a.addr + i) / 4096 * 4096
        omega
      · exact Nat.lt_of_le_of_lt (pgrounddown_le _) (by omega)
    split
    · refine wp_seq (hspace.wp_populate sz _ hok.aligned fun k hk => ?_) fun ok v' hv' => ?_
      · have hk' : k < (a.stop - a.addr + 4096 - 1) / 4096 := hk
        rw [hok.stop hhigh] at hk'
        have hmul : a.length % 4096 = 0 := hok.length.2.2
        refine hfree.areaAt hok hp hhigh (Nat.le_add_right _ _) ?_
        show a.addr + k * 4096 < a.addr + a.length.toNat
        omega
      · rcases hv' with rfl | ⟨htouch, -⟩
        · exact wp_pure.2 (.inl rfl)
        · split
          · refine wp_pure.2 (.inr ⟨htouch.space, fun i hi => ?_⟩)
            rw [← hview i hi]
            unfold Vm.viewByte
            rw [htouch.view]
          · exact wp_pure.2 (.inl rfl)
    · exact wp_pure.2 (.inr ⟨hspace, hview⟩)

/-- The file of a descriptor. -/
def fdFile (ofile : Fin NOFILE → Option (Fin NFILE)) (fd : Int) : Option (Fin NFILE) :=
  if h : 0 ≤ fd ∧ fd < NOFILE then ofile ⟨fd.toNat, fd_lt h⟩ else none

/-- Byte `i` of what a call of `mmap` maps. -/
def Vm.sourceByte (v : Vm) (ofile : Fin NOFILE → Option (Fin NFILE)) (flags fd offset : Int) (i : Nat) :
    UInt8 :=
  if mapAnonymous flags then 0
  else
    match fdFile ofile fd with
    | none => 0
    | some f => (v.inode (v.file f).ip).byte (offset.toNat + i)

/-- **`kmmap`** in a free range below the trapframe: when it returns the address, the process sees the
file. -/
theorem Space.wp_kmmap (h : Space K T R v p r) (sz : Nat) (ofile : Fin NOFILE → Option (Fin NFILE))
    {addr : Nat} {length prot flags fd offset : Int} (hlen : length < 2 ^ 31) (hoff : offset < 2 ^ 31)
    (hlow : MMAPBASE ≤ (MMAPBASE + addr) % 2 ^ 64)
    (hhigh : (MMAPBASE + addr) % 2 ^ 64 + length.toNat ≤ TRAPFRAME)
    (hfree : v.Free p r ((MMAPBASE + addr) % 2 ^ 64) ((MMAPBASE + addr) % 2 ^ 64 + length.toNat)) :
    wp (kmmap p r ofile addr length prot flags fd offset) v (fun s v' => s = 0 ∨ 0 ≤ offset ∧
      Space K T R v' p r ∧ ∀ i < length.toNat, v'.viewByte p sz r ((MMAPBASE + addr) % 2 ^ 64 + i) =
        some (v.sourceByte ofile flags fd offset i)) fun _ => True := by
  have hrefuse : wp (pure 0 : VmM Nat) v (fun s v' => s = 0 ∨ 0 ≤ offset ∧ Space K T R v' p r ∧
      ∀ i < length.toNat, v'.viewByte p sz r ((MMAPBASE + addr) % 2 ^ 64 + i) =
        some (v.sourceByte ofile flags fd offset i)) fun _ => True := wp_pure.2 (.inl rfl)
  unfold kmmap
  split
  · exact hrefuse
  rename_i hargs
  split
  · exact hrefuse
  split
  · exact hrefuse
  rename_i hpos
  dsimp only
  have haligned : (MMAPBASE + addr) % 2 ^ 64 % PGSIZE = 0 := by
    have : addr % 4096 = 0 := by
      by_contra hne
      exact hargs (.inl hne)
    show (1073741824 + addr) % 2 ^ 64 % 4096 = 0
    omega
  have hlength : 0 < length ∧ length < 2 ^ 31 ∧ length % PGSIZE = 0 := by
    refine ⟨?_, hlen, ?_⟩
    · by_contra hle
      exact hargs (.inr (.inl (by omega)))
    · by_contra hne
      exact hargs (.inr (.inr hne))
  have hoffset : 0 ≤ offset ∧ offset < 2 ^ 31 := ⟨by omega, hoff⟩
  split
  · rename_i hanon
    split
    · exact hrefuse
    · have hsource : v.sourceByte ofile flags fd offset = fun _ => 0 := by
        funext i
        unfold Vm.sourceByte
        rw [if_pos hanon]
      rw [hsource]
      refine wp_conseq (h.wp_kmmapInsert sz ⟨haligned, hlength, hoffset, fun hf => ?_⟩ rfl hlow hhigh hfree)
        fun s v' hv' => hv'.imp_right fun hv => ⟨hoffset.1, hv.1, fun i hi => ?_⟩
      · rw [hanon] at hf
        cases hf
      · refine (hv.2 i hi).trans (congrArg some ?_)
        unfold Vm.mappingByte
        rw [if_pos hanon]
  rename_i hanon
  split
  · rename_i hfd
    split
    · exact hrefuse
    · rename_i f hsome
      have hfile : fdFile ofile fd = some f := by
        unfold fdFile
        rw [dif_pos hfd]
        exact hsome
      have hsource : v.sourceByte ofile flags fd offset = fun i =>
          (v.inode (v.file f).ip).byte (offset.toNat + i) := by
        funext i
        unfold Vm.sourceByte
        rw [if_neg hanon, hfile]
      rw [wp_bind, wp_get]
      split
      · exact hrefuse
      · rename_i hfok
        rw [wp_bind, filedup, wp_bind, wp_get]
        split
        · exact wp_throw.2 trivial
        · rw [wp_set]
          have hinode : (v.file f).type = .inode := by
            unfold mmapFileOk at hfok
            simp only [Bool.not_eq_true, Bool.not_eq_false', Bool.and_eq_true, beq_iff_eq] at hfok
            exact hfok.1.1
          have hfile' : (v.setFile f { v.file f with ref := (v.file f).ref + 1 }).file f =
              { v.file f with ref := (v.file f).ref + 1 } := upd_same _ _ _
          have hspace : Space K T R (v.setFile f { v.file f with ref := (v.file f).ref + 1 }) p r :=
            ⟨h.inv, h.root, h.areas⟩
          rw [hsource]
          refine wp_conseq (hspace.wp_kmmapInsert sz ⟨haligned, hlength, hoffset, fun _ => ⟨f, rfl, ?_⟩⟩ rfl
            hlow hhigh ⟨hfree.areas, hfree.pages⟩) fun s v' hv' =>
            hv'.imp_right fun hv => ⟨hoffset.1, hv.1, fun i hi => ?_⟩
          · rw [hfile']
            exact hinode
          · refine (hv.2 i hi).trans (congrArg some ?_)
            unfold Vm.mappingByte
            rw [if_neg hanon]
            dsimp only
            rw [hfile']
            rfl
  · exact hrefuse

/-! ### Runs of accesses -/

/-- What a process and the kernel do with its memory. -/
inductive Touch
  | load (va : Nat)
  | store (va : Nat) (c : UInt8)
  | copyin (va len : Nat)
  | copyout (va : Nat) (bytes : List UInt8)

/-- One access. -/
def touch (p : Fin NPROC) (sz pagetable : Nat) (v : Vm) : Touch → Except Panic Vm
  | .load va => (loadByte p sz pagetable va v).map Prod.snd
  | .store va c => (storeByte p sz pagetable va c v).map Prod.snd
  | .copyin va len => (copyin p sz pagetable va len v).map Prod.snd
  | .copyout va bytes =>
    (copyout p sz pagetable va (fun k => bytes.getD k 0) bytes.length v).map Prod.snd

/-- An access at a 64-bit address that does not write the byte at `x`. -/
def Touch.Spares (x : Nat) : Touch → Prop
  | .load va | .copyin va _ => va < 2 ^ 64
  | .store va _ => va < 2 ^ 64 ∧ va ≠ x
  | .copyout va bytes => va < 2 ^ 64 ∧ ¬ (va ≤ x ∧ x < va + bytes.length)

/-- The byte at `x` is what it was. -/
def Spared (K T : Nat → Nat) (R : Finset Nat) (p : Fin NPROC) (sz r x : Nat) (v v' : Vm) : Prop :=
  Space K T R v' p r ∧ v'.viewByte p sz r x = v.viewByte p sz r x

variable {x : Nat}

theorem Touched.spared (h : Touched K T R p sz r v v') : Spared K T R p sz r x v v' := by
  refine ⟨h.space, ?_⟩
  unfold Vm.viewByte
  rw [h.view]

theorem Space.spared_copyin (h : Space K T R v p r) {len x : Nat} {o : Option (List UInt8)}
    (hva : va < 2 ^ 64) (hrun : (copyin p sz r va len) v = .ok (o, v')) : Spared K T R p sz r x v v' :=
  (wp_ok (h.wp_copyin (E := fun _ => True) sz hva len) hrun).1.spared

theorem Space.spared_copyout (h : Space K T R v p r) {len x : Nat} {src : Nat → UInt8} {b : Bool}
    (hva : va < 2 ^ 64) (hx : ¬ (va ≤ x ∧ x < va + len))
    (hrun : (copyout p sz r va src len) v = .ok (b, v')) : Spared K T R p sz r x v v' := by
  obtain ⟨htrue, hfalse⟩ := wp_ok (h.wp_copyout (E := fun _ => True) sz hva src len) hrun
  cases b with
  | true =>
    obtain ⟨hw, -⟩ := htrue rfl
    refine ⟨hw.space, ?_⟩
    rw [hw.view, if_neg hx]
  | false =>
    obtain ⟨k, hk, -, v₁, -, -, hw⟩ := hfalse rfl
    refine ⟨hw.space, ?_⟩
    rw [hw.view, if_neg (by omega)]

/-- **One access** leaves the bytes that it does not write. -/
theorem Space.spared_touch (h : Space K T R v p r) {t : Touch} (ht : t.Spares x)
    (hrun : touch p sz r v t = .ok v') : Spared K T R p sz r x v v' := by
  cases t with
  | load va =>
    -- a load does what `copyin` of one byte does
    obtain ⟨-, y, v₁, hin, hload⟩ := user_kernel_agree h sz ht 0
    simp only [touch, hload, Except.map] at hrun
    cases hrun
    exact h.spared_copyin ht hin
  | store va c =>
    obtain ⟨⟨b, v₁, hout, hstore⟩, -⟩ := user_kernel_agree h sz ht.1 c
    simp only [touch, hstore, Except.map] at hrun
    cases hrun
    exact h.spared_copyout ht.1 (by have := ht.2; omega) hout
  | copyin va len =>
    cases hin : copyin p sz r va len v with
    | error e =>
      simp only [touch, hin, Except.map] at hrun
      cases hrun
    | ok y =>
      simp only [touch, hin, Except.map] at hrun
      cases hrun
      exact h.spared_copyin ht hin
  | copyout va bytes =>
    cases hout : copyout p sz r va (fun k => bytes.getD k 0) bytes.length v with
    | error e =>
      simp only [touch, hout, Except.map] at hrun
      cases hrun
    | ok y =>
      simp only [touch, hout, Except.map] at hrun
      cases hrun
      exact h.spared_copyout ht.1 ht.2 hout

/-- **Every run of accesses** leaves a byte that none of them writes. -/
theorem Space.spared_run (h : Space K T R v p r) {ts : List Touch}
    (hrun : Run (touch p sz r) (fun _ t => t.Spares x) v ts v') : Spared K T R p sz r x v v' := by
  refine hrun.invariant (I := fun v' => Spared K T R p sz r x v v') ⟨h, rfl⟩ fun s t u hs ht hstep => ?_
  obtain ⟨hspace, hview⟩ := hs.1.spared_touch ht hstep
  exact ⟨hspace, hview.trans hs.2⟩

theorem Space.read_view (h : Space K T R v p r) {c : UInt8} (hx : v.viewByte p sz r x = some c) :
    (∀ d v', x < 2 ^ 64 → (loadByte p sz r x) v = .ok (some d, v') → d = c) ∧
    ∀ va len bs v', va < 2 ^ 64 → va ≤ x → x < va + len → (copyin p sz r va len) v = .ok (some bs, v') →
      bs[x - va]? = some c := by
  have hcopy : ∀ va len bs v', va < 2 ^ 64 → va ≤ x → x < va + len →
      (copyin p sz r va len) v = .ok (some bs, v') → bs[x - va]? = some c := by
    intro va len bs v' hva hle hlt hrun
    obtain ⟨-, hbytes, -⟩ := wp_ok (h.wp_copyin (E := fun _ => True) sz hva len) hrun
    rw [hbytes bs rfl]
    unfold Vm.viewBytes
    rw [List.getElem?_map, List.getElem?_range (by omega), Option.map_some, Nat.add_sub_cancel' hle, hx]
    rfl
  refine ⟨fun d v' hlt hload => ?_, hcopy⟩
  obtain ⟨-, y, v₁, hin, hload'⟩ := user_kernel_agree h sz hlt 0
  rw [hload] at hload'
  cases hload'
  have := hcopy x 1 [d] v' hlt (Nat.le_refl x) (Nat.lt_succ_self x) hin
  rw [Nat.sub_self] at this
  exact Option.some.inj this

/-- **A range that is seen can be copied**, if there is memory for its pages. -/
theorem Space.copyin_view (h : Space K T R v p r) {va n : Nat} (hva : va < 2 ^ 64) {c : Nat → UInt8}
    (hx : ∀ k < n, v.viewByte p sz r (va + k) = some (c k))
    (hfree : Stocked v.kmem.mem v.kmem.freelist (3 * pagesIn va n)) :
    ∃ v', (copyin p sz r va n) v = .ok (some ((List.range n).map c), v') := by
  obtain ⟨o, v', hrun, -, hbytes, -, hsome⟩ := wp_total (h.wp_copyin sz hva n)
  have hafford : Affordable p sz r va n v :=
    ⟨fun k hk => by rw [hx k hk]; rfl, Kmem.FreeOk.le_nfree h.inv.free hfree⟩
  obtain ⟨bs, rfl⟩ := Option.isSome_iff_exists.1 (hsome hafford)
  rw [hbytes bs rfl, viewBytes_written hx] at hrun
  exact ⟨v', hrun⟩

/-- The same for a byte that the user loads. -/
theorem Space.load_view (h : Space K T R v p r) {c : UInt8} (hlt : x < 2 ^ 64)
    (hx : v.viewByte p sz r x = some c) (hfree : Stocked v.kmem.mem v.kmem.freelist 3) :
    ∃ v', (loadByte p sz r x) v = .ok (some c, v') := by
  obtain ⟨-, y, v₁, hin, hload⟩ := user_kernel_agree h sz hlt 0
  have hone : pagesIn x 1 = 1 := by
    show (x % 4096 + 1 + 4096 - 1) / 4096 = 1
    omega
  obtain ⟨v', hcopy⟩ := h.copyin_view (n := 1) (c := fun _ => c) hlt
    (fun k hk => by rw [Nat.lt_one_iff.1 hk]; exact hx) (by rw [hone]; exact hfree)
  rw [hcopy] at hin
  cases y with
  | none => cases hin
  | some d =>
    cases hin
    exact ⟨v₁, hload⟩

/-- **The contents of a mapping** in a free range below the trapframe.  After any accesses, by the user
or by the kernel, that do not write the byte `i`, a load and a copy find there what the call mapped;
they do succeed if there are three free pages for each page that they meet.  The offset of no page of
the mapping wraps. -/
theorem mapping_contents (h : Space K T R v p r) (sz : Nat) {ofile : Fin NOFILE → Option (Fin NFILE)}
    {addr start : Nat} {length prot flags fd offset : Int} {v₁ v₂ : Vm} {ts : List Touch}
    (hlen : length < 2 ^ 31) (hoff : offset < 2 ^ 31)
    (hlow : MMAPBASE ≤ (MMAPBASE + addr) % 2 ^ 64)
    (hhigh : (MMAPBASE + addr) % 2 ^ 64 + length.toNat ≤ TRAPFRAME)
    (hfree : v.Free p r ((MMAPBASE + addr) % 2 ^ 64) ((MMAPBASE + addr) % 2 ^ 64 + length.toNat))
    (hmap : (kmmap p r ofile addr length prot flags fd offset) v = .ok (start, v₁)) (hstart : start ≠ 0)
    {i : Nat} (hi : i < length.toNat)
    (hrun : Run (touch p sz r) (fun _ t => t.Spares ((MMAPBASE + addr) % 2 ^ 64 + i)) v₁ ts v₂) :
    (∀ c v₃, (loadByte p sz r ((MMAPBASE + addr) % 2 ^ 64 + i)) v₂ = .ok (some c, v₃) →
      c = v.sourceByte ofile flags fd offset i) ∧
    (∀ va len bs v₃, va < 2 ^ 64 → va ≤ (MMAPBASE + addr) % 2 ^ 64 + i →
      (MMAPBASE + addr) % 2 ^ 64 + i < va + len → (copyin p sz r va len) v₂ = .ok (some bs, v₃) →
      bs[(MMAPBASE + addr) % 2 ^ 64 + i - va]? = some (v.sourceByte ofile flags fd offset i)) ∧
    (Stocked v₂.kmem.mem v₂.kmem.freelist 3 →
      ∃ v₃, (loadByte p sz r ((MMAPBASE + addr) % 2 ^ 64 + i)) v₂ =
        .ok (some (v.sourceByte ofile flags fd offset i), v₃)) ∧
    (∀ n, i + n ≤ length.toNat →
      Run (touch p sz r) (fun _ t => ∀ k < n, t.Spares ((MMAPBASE + addr) % 2 ^ 64 + i + k)) v₁ ts v₂ →
      Stocked v₂.kmem.mem v₂.kmem.freelist (3 * pagesIn ((MMAPBASE + addr) % 2 ^ 64 + i) n) →
      ∃ v₃, (copyin p sz r ((MMAPBASE + addr) % 2 ^ 64 + i) n) v₂ =
        .ok (some ((List.range n).map fun k => v.sourceByte ofile flags fd offset (i + k)), v₃)) ∧
    u32 (offset + (i / PGSIZE * PGSIZE : Nat)) = offset.toNat + i / PGSIZE * PGSIZE ∧
    offset.toNat + i / PGSIZE * PGSIZE + PGSIZE < 2 ^ 32 := by
  obtain ⟨hpos, hspace, hview⟩ := (wp_ok (h.wp_kmmap sz ofile hlen hoff hlow hhigh hfree) hmap).resolve_left hstart
  obtain ⟨hspace₂, hsame⟩ := hspace.spared_run hrun
  rw [hview i hi] at hsame
  obtain ⟨hload, hcopy⟩ := hspace₂.read_view hsame
  have hrange : ∀ n, i + n ≤ length.toNat →
      Run (touch p sz r) (fun _ t => ∀ k < n, t.Spares ((MMAPBASE + addr) % 2 ^ 64 + i + k)) v₁ ts v₂ →
      ∀ k < n, v₂.viewByte p sz r ((MMAPBASE + addr) % 2 ^ 64 + i + k) =
        some (v.sourceByte ofile flags fd offset (i + k)) := by
    intro n hn hrun' k hk
    have hk' := (hspace.spared_run (hrun'.mono fun _ _ ht => ht k hk)).2
    rw [hk', Nat.add_assoc]
    exact hview (i + k) (by omega)
  have hmax : (MMAPBASE + addr) % 2 ^ 64 + i < 2 ^ 64 :=
    Nat.lt_of_lt_of_le (by omega) (Nat.le_trans hhigh (by decide))
  have hpage : i / PGSIZE * PGSIZE + PGSIZE ≤ 2 ^ 31 := by
    show i / 4096 * 4096 + 4096 ≤ 2 ^ 31
    omega
  generalize i / PGSIZE * PGSIZE = n at *
  have hfit : offset.toNat + n + PGSIZE < 2 ^ 32 := by omega
  refine ⟨fun c v₃ hc => hload c v₃ hmax hc, hcopy, hspace₂.load_view hmax hsame, ?_, ?_, hfit⟩
  · intro n' hn hrun' hfree'
    exact hspace₂.copyin_view hmax (hrange n' hn hrun') hfree'
  unfold u32
  rw [Int.emod_eq_of_lt (by omega) (by omega)]
  omega

end

/-! ### A file on a small machine -/

/-- `fiveVm` with an open file of three bytes. -/
def fileVm : Vm :=
  { fiveVm with
    file := fun _ => { type := .inode, ref := 1, readable := true }
    inode := fun _ => ⟨3, fun b => [10, 20, 30].getD b 0⟩ }

/-- A mapping of one page of the file, from its second byte on. -/
def fileMmap (v : Vm) : Except Panic (Nat × Vm) :=
  @kmmap fivePages ⟨0, by decide⟩ fiveRoot (fun _ => some ⟨0, by decide⟩) 0 4096 PROT_READ 0 0 1 v

theorem free_file (p : Fin NPROC) (lo hi : Nat) : fileVm.Free p fiveRoot lo hi :=
  ⟨fun _ h => (by cases h), fun va _ _ => empty_five.pte (pageOf va)⟩

theorem space_file (p : Fin NPROC) : @Space fivePages 0 0 {fiveRoot} fileVm p fiveRoot := by
  let _ := fivePages
  obtain ⟨hinv, hroot, -⟩ := space_five p
  exact ⟨hinv, hroot, fun _ h => by cases h⟩

/-- The call returns `MMAPBASE`, and there is memory for a page. -/
def mapsWithMemory : Except Panic (Nat × Vm) → Bool
  | .ok (a, v) => decide (a = MMAPBASE ∧ Stocked v.kmem.mem v.kmem.freelist 3)
  | .error _ => false

/-- The second byte of the mapping is the third of the file. -/
theorem mapping_contents_file : ∃ v₁ v₃, fileMmap fileVm = .ok (MMAPBASE, v₁) ∧
    (@loadByte fivePages ⟨0, by decide⟩ 0 fiveRoot (MMAPBASE + 1)) v₁ = .ok (some 30, v₃) := by
  have hmaps : mapsWithMemory (fileMmap fileVm) = true := by decide +kernel
  cases hmap : fileMmap fileVm with
  | error e =>
    rw [hmap] at hmaps
    cases hmaps
  | ok y =>
    obtain ⟨a, v₁⟩ := y
    rw [hmap] at hmaps
    obtain ⟨rfl, hfree⟩ := of_decide_eq_true hmaps
    obtain ⟨-, -, hload, -⟩ := @mapping_contents fivePages _ _ _ _ _ _ (space_file _) 0 _ 0 _ 4096
      _ _ _ _ _ _ [] (by decide) (by decide) (by decide) (by decide) (free_file _ _ _) hmap (by decide)
      1 (by decide) (.nil v₁)
    obtain ⟨v₃, hv₃⟩ := hload hfree
    exact ⟨v₁, v₃, rfl, hv₃⟩

/-- An anonymous area of one page at `MMAPBASE`. -/
def overlapVm : Vm :=
  { fileVm with
    area := fun i => if i.1 = 0 then
      { addr := MMAPBASE, length := 4096, prot := PROT_READ, flags := 1, p := some ⟨0, by decide⟩ } else {} }

/-- The start of the mapping and the first byte that is read there. -/
def overlapLoad : Option (Nat × Option UInt8) :=
  match fileMmap overlapVm with
  | .error _ => none
  | .ok (s, v) =>
    match (@loadByte fivePages ⟨0, by decide⟩ 0 fiveRoot MMAPBASE) v with
    | .error _ => none
    | .ok (c, _) => some (s, c)

/-- **A mapping over an older one**: it is accepted, and the pages of the older one are read. -/
theorem overlap_reads_older : overlapLoad = some (MMAPBASE, some 0) ∧
    overlapVm.AreasIn ⟨0, by decide⟩ ∧
    overlapVm.sourceByte (fun _ => some ⟨0, by decide⟩) 0 0 1 0 = 20 := by
  refine ⟨by decide +kernel, fun i hi => ?_, by decide⟩
  by_cases h0 : i.1 = 0
  · have harea : overlapVm.area i = overlapVm.area ⟨0, by decide⟩ := congrArg overlapVm.area (Fin.ext h0)
    rw [harea]
    decide
  · have harea : overlapVm.area i = {} := if_neg h0
    rw [harea] at hi
    cases hi

end Xv6
