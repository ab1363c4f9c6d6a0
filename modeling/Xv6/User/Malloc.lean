import Xv6.Lib.Linked
import Xv6.Param
import Mathlib.Algebra.Order.BigOperators.Group.List
import Mathlib.Algebra.Order.Ring.Nat

/-!
# The heap of a user program

`malloc`, `free` and `morecore` of `user/umalloc.c`, over the part of `sbrk` that they see: the size of the
process, and whether the kernel found the pages.  A header is 16 bytes; its two fields are maps from the
address of the header.

The free blocks are a circular list in the order of their addresses, from `base`, which has size zero and
lies below the heap.
-/

namespace Xv6.Umalloc

open Xv6.Lib

structure Heap where
  ptr : Nat → Nat
  size : Nat → Nat
  /-- Null before the first `malloc`. -/
  freep : Nat
  /-- The size of the process. -/
  brk : Nat
  /-- What `morecore` got: the address and the number of units of each piece.  Nothing reads it. -/
  core : List (Nat × Nat)

/-! ### The kernel's side -/

/-- A 64-bit value as an `int`. -/
def toInt (x : Nat) : Int :=
  if x % 2 ^ 32 < 2 ^ 31 then (x % 2 ^ 32 : Nat) else (x % 2 ^ 32 : Nat) - 2 ^ 32

/-- `growproc`, on the size of the process; `found` says whether `uvmalloc` found the pages. -/
def growproc (sz : Nat) (n : Int) (found : Bool) : Option Nat :=
  let newsz := u64 (sz + n)
  if 0 < n then
    if newsz < sz ∨ MMAPBASE < newsz then none
    else if found then some newsz else none
  else if n < 0 then
    -- `uvmdealloc` does nothing when the new size is not below the old one
    some (if sz ≤ newsz then sz else newsz)
  else some sz

/-- `sbrk`: the old break and the heap, `none` for `SBRK_ERROR`. -/
def sbrk (h : Heap) (n : Int) (found : Bool) : Option (Nat × Heap) :=
  (growproc h.brk n found).map fun sz => (h.brk, { h with brk := sz })

/-! ### The allocator -/

/-- The loop of `free`: the block after which `bp` goes. -/
def findGap (h : Heap) (bp : Nat) : Nat → Nat → Option Nat
  | 0, _ => none
  | fuel + 1, p =>
    if p < bp ∧ bp < h.ptr p then some p
    else if h.ptr p ≤ p ∧ (p < bp ∨ bp < h.ptr p) then some p
    else findGap h bp fuel (h.ptr p)

/-- The two `if`s of `free`, which differ in the blocks only: `x` comes right before `y`, as one block with
it if they touch. -/
def link (h : Heap) (x y : Nat) : Heap :=
  if x + 16 * h.size x = y then
    { h with size := upd h.size x ((h.size x + h.size y) % 2 ^ 32), ptr := upd h.ptr x (h.ptr y) }
  else { h with ptr := upd h.ptr x y }

def free (fuel : Nat) (h : Heap) (ap : Nat) : Option Heap := do
  let bp := ap - 16
  let p ← findGap h bp fuel h.freep
  pure { link (link h bp (h.ptr p)) p bp with freep := p }

/-- The units that `morecore` asks for. -/
def coreUnits (nu : Nat) : Nat := if nu < 4096 then 4096 else nu

/-- `morecore`: the new `freep`, or 0. -/
def morecore (fuel : Nat) (h : Heap) (nu : Nat) (found : Bool) : Option (Heap × Nat) :=
  let nu := coreUnits nu
  match sbrk h (toInt (nu * 16)) found with
  | none => some (h, 0)
  | some (p, h) => do
    let h := { h with size := upd h.size p nu, core := (p, nu) :: h.core }
    let h ← free fuel h (p + 16)
    pure (h, h.freep)

/-- `malloc` takes `nunits` units from the end of the block `p`, which follows `prevp`. -/
def take (nunits : Nat) (h : Heap) (prevp p : Nat) : Heap × Nat :=
  if h.size p = nunits then ({ h with ptr := upd h.ptr prevp (h.ptr p), freep := prevp }, p + 16)
  else
    let rest := h.size p - nunits
    ({ h with size := upd (upd h.size p rest) (p + 16 * rest) nunits, freep := prevp }, p + 16 * rest + 16)

/-- The loop of `malloc`.  It calls `sbrk` at most once, so `found` is one answer. -/
def mallocLoop (nunits : Nat) (found : Bool) : Nat → Heap → Nat → Nat → Option (Heap × Nat)
  | 0, _, _, _ => none
  | fuel + 1, h, prevp, p =>
    if nunits ≤ h.size p then some (take nunits h prevp p)
    else if p = h.freep then
      (morecore fuel h nunits found).bind fun r =>
        if r.2 = 0 then some (r.1, 0) else mallocLoop nunits found fuel r.1 r.2 (r.1.ptr r.2)
    else mallocLoop nunits found fuel h p (h.ptr p)

/-- `nunits` of `malloc`. -/
def unitsOf (nbytes : Nat) : Nat := ((nbytes + 16 - 1) / 16 + 1) % 2 ^ 32

/-- The first lines of `malloc`: an empty list. -/
def ready (base : Nat) (h : Heap) : Heap :=
  if h.freep = 0 then { h with ptr := upd h.ptr base base, freep := base, size := upd h.size base 0 } else h

/-- `malloc`: the heap and the pointer returned. -/
def malloc (base fuel nbytes : Nat) (found : Bool) (h : Heap) : Option (Heap × Nat) :=
  let h := ready base h
  mallocLoop (unitsOf nbytes) found fuel h h.freep (h.ptr h.freep)

/-! ### Blocks and their bytes -/

/-- Whether the byte `x` belongs to the `n` units at `a`. -/
def unit (a n x : Nat) : Nat := if a ≤ x ∧ x < a + 16 * n then 1 else 0

/-- The number of the blocks that the byte `x` belongs to. -/
def cover (size : Nat → Nat) (as : List Nat) (x : Nat) : Nat := (as.map fun a => unit a (size a) x).sum

/-- The number of the pieces that the byte `x` belongs to. -/
def pieces (core : List (Nat × Nat)) (x : Nat) : Nat := (core.map fun r => unit r.1 r.2 x).sum

variable {size : Nat → Nat} {as as' live : List Nat} {base lo a b x n fuel : Nat} {h : Heap} {found : Bool}

theorem unit_add {m : Nat} (hb : b = a + 16 * n) : unit a (n + m) x = unit a n x + unit b m x := by
  unfold unit
  split_ifs <;> omega

@[simp] theorem cover_cons : cover size (a :: as) x = unit a (size a) x + cover size as x := by
  rw [cover, List.map_cons, List.sum_cons]
  rfl

@[simp] theorem cover_append : cover size (as ++ as') x = cover size as x + cover size as' x := by
  simp only [cover, List.map_append, List.sum_append]

@[simp] theorem pieces_cons {core : List (Nat × Nat)} : pieces ((a, n) :: core) x = unit a n x + pieces core x := by
  rw [pieces, List.map_cons, List.sum_cons]
  rfl

theorem cover_perm (h : as.Perm as') : cover size as x = cover size as' x := (h.map _).sum_eq

theorem cover_upd (ha : a ∉ as) : cover (upd size a n) as x = cover size as x := by
  unfold cover
  congr 1
  refine List.map_congr_left fun b hb => ?_
  rw [upd_other _ _ (ne_of_mem_of_not_mem hb ha)]

theorem cover_pos (ha : a ∈ as) (h1 : a ≤ x) (h2 : x < a + 16 * size a) : 0 < cover size as x := by
  rw [cover_perm (List.perm_cons_erase ha), cover_cons, unit, if_pos ⟨h1, h2⟩]
  omega

theorem unit_le_cover (ha : a ∈ as) : unit a (size a) x ≤ cover size as x := by
  rw [cover_perm (List.perm_cons_erase ha), cover_cons]
  omega

/-- Two blocks without a common byte. -/
theorem apart_of_unit {m : Nat} (hn : 0 < n) (hm : 0 < m) (h : ∀ x, unit a n x + unit b m x ≤ 1) :
    a + 16 * n ≤ b ∨ b + 16 * m ≤ a := by
  have ha := h a
  have hb := h b
  unfold unit at ha hb
  split_ifs at ha hb <;> omega

theorem exists_of_pieces {core : List (Nat × Nat)} (h : 0 < pieces core x) :
    ∃ r ∈ core, r.1 ≤ x ∧ x < r.1 + 16 * r.2 := by
  by_contra hno
  have : pieces core x = 0 := by
    refine List.sum_eq_zero_iff.2 fun y hy => ?_
    obtain ⟨r, hr, rfl⟩ := List.mem_map.1 hy
    rw [unit, if_neg fun hx => hno ⟨r, hr, hx⟩]
  omega

/-! ### The invariant -/

/-- The free list: circular, in the order of the addresses, no block touching the next. -/
structure FreeList (base : Nat) (h : Heap) (as : List Nat) : Prop where
  head : as.head? = some base
  circular : Linked h.ptr (as ++ [base])
  sorted : as.Pairwise fun a b => a + 16 * h.size a < b
  base_size : h.size base = 0
  pos : ∀ a ∈ as, a ≠ base → 0 < h.size a
  freep_mem : h.freep ∈ as

/-- The heap from `lo` on, with the free blocks `as` and the live blocks `live`: every byte that `morecore` got is in
exactly one of them, and they have no other. -/
structure HeapInv (base lo : Nat) (h : Heap) (as live : List Nat) : Prop where
  list : FreeList base h as
  live_pos : ∀ a ∈ live, 0 < h.size a
  exact : ∀ x, cover h.size as x + cover h.size live x = pieces h.core x
  once : ∀ x, pieces h.core x ≤ 1
  within : ∀ r ∈ h.core, lo ≤ r.1 ∧ r.1 + 16 * r.2 ≤ h.brk
  base_pos : 0 < base
  base_lt : base < lo
  lo_le : lo ≤ h.brk
  brk_le : h.brk ≤ MMAPBASE

variable {p : Nat} {pre post : List Nat}

theorem FreeList.tour (L : FreeList base h as) (ha : a ∈ as) :
    ∃ l, Linked h.ptr (a :: l ++ [a]) ∧ (a :: l).Perm as := by
  have hhead := L.head
  have hcirc := L.circular
  cases as with
  | nil => cases hhead
  | cons b as =>
    obtain rfl : b = base := Option.some.inj hhead
    exact exists_tour hcirc ha

namespace HeapInv

theorem block_pos (I : HeapInv base lo h as live) (ha : (a ∈ as ∧ a ≠ base) ∨ a ∈ live) : 0 < h.size a :=
  ha.elim (fun h => I.list.pos a h.1 h.2) (I.live_pos a)

/-- The bytes of a block are bytes that `morecore` got. -/
theorem block_core (I : HeapInv base lo h as live) (ha : a ∈ as ∨ a ∈ live) (h1 : a ≤ x)
    (h2 : x < a + 16 * h.size a) : 0 < pieces h.core x := by
  rw [← I.exact]
  rcases ha with ha | ha
  · have := cover_pos ha h1 h2
    omega
  · have := cover_pos ha h1 h2
    omega

theorem block_within (I : HeapInv base lo h as live) (ha : (a ∈ as ∧ a ≠ base) ∨ a ∈ live) :
    lo ≤ a ∧ a + 16 * h.size a ≤ h.brk := by
  have hpos := I.block_pos ha
  have ha' : a ∈ as ∨ a ∈ live := ha.imp_left And.left
  obtain ⟨r, hr, hr1, _⟩ := exists_of_pieces (I.block_core ha' (Nat.le_refl a) (by omega))
  obtain ⟨r', hr', _, hr2⟩ := exists_of_pieces (I.block_core ha' (x := a + 16 * h.size a - 1) (by omega) (by omega))
  have h1 := (I.within r hr).1
  have h2 := (I.within r' hr').2
  omega

theorem free_live (I : HeapInv base lo h as live) (ha : a ∈ as) (hb : b ∈ live) :
    a + 16 * h.size a ≤ b ∨ b + 16 * h.size b ≤ a := by
  by_cases hab : a = base
  · have h1 := I.base_lt
    have h2 := (I.block_within (Or.inr hb)).1
    rw [hab, I.list.base_size]
    omega
  · refine apart_of_unit (I.list.pos a ha hab) (I.live_pos b hb) fun x => ?_
    have h1 : unit a (h.size a) x ≤ cover h.size as x := unit_le_cover ha
    have h2 : unit b (h.size b) x ≤ cover h.size live x := unit_le_cover hb
    have hone := I.once x
    rw [← I.exact] at hone
    omega

theorem freep_pos (I : HeapInv base lo h as live) : 0 < h.freep := by
  have hpos := I.base_pos
  have hlt := I.base_lt
  by_cases hb : h.freep = base
  · omega
  · have := (I.block_within (Or.inl ⟨I.list.freep_mem, hb⟩)).1
    omega

end HeapInv

/-! ### The place of a block -/

theorem exists_gap {c : Nat} (hs : (c :: as).Pairwise (· < ·)) (hc : c < b) (hb : b ∉ as) :
    ∃ pre p post, c :: as = pre ++ p :: post ∧ p < b ∧ ∀ a ∈ post, b < a := by
  induction as generalizing c with
  | nil => exact ⟨[], c, [], rfl, hc, fun a ha => by cases ha⟩
  | cons d as ih =>
    rw [List.mem_cons, not_or] at hb
    have hs' := (List.pairwise_cons.1 hs).2
    by_cases hd : d < b
    · obtain ⟨pre, p, post, heq, hp⟩ := ih hs' hd hb.2
      exact ⟨c :: pre, p, post, by rw [heq, List.cons_append], hp⟩
    · refine ⟨[], c, d :: as, rfl, hc, fun a ha => ?_⟩
      rcases List.mem_cons.1 ha with rfl | ha
      · omega
      · have := (List.pairwise_cons.1 hs').1 a ha
        omega

/-- The two tests of the loop of `free`. -/
def Stops (h : Heap) (b a : Nat) : Prop :=
  (a < b ∧ b < h.ptr a) ∨ (h.ptr a ≤ a ∧ (a < b ∨ b < h.ptr a))

theorem findGap_stop (hs : Stops h b a) : findGap h b (fuel + 1) a = some a := by
  rw [findGap]
  rcases hs with hs | hs
  · rw [if_pos hs]
  · rw [if_pos hs, ite_self]

/-- The loop of `free` goes along the list up to the first block that it stops at. -/
theorem findGap_walk {l : List Nat} (hl : Linked h.ptr (a :: l)) (hp : p ∈ a :: l) (hs : Stops h b p)
    (hf : l.length < fuel) : ∃ p' ∈ a :: l, Stops h b p' ∧ findGap h b fuel a = some p' := by
  induction l generalizing a fuel with
  | nil =>
    obtain ⟨fuel, rfl⟩ : ∃ k, fuel = k + 1 := ⟨fuel - 1, by omega⟩
    obtain rfl := List.mem_singleton.1 hp
    exact ⟨p, hp, hs, findGap_stop hs⟩
  | cons d l ih =>
    obtain ⟨fuel, rfl⟩ : ∃ k, fuel = k + 1 := ⟨fuel - 1, by omega⟩
    by_cases ha : Stops h b a
    · exact ⟨a, List.mem_cons_self, ha, findGap_stop ha⟩
    · obtain ⟨had, hl⟩ := linked_cons_cons.1 hl
      have hp : p ∈ d :: l := (List.mem_cons.1 hp).resolve_left (by rintro rfl; exact ha hs)
      obtain ⟨p', hp', hs', heq⟩ := ih hl hp (Nat.lt_of_succ_lt_succ hf)
      rw [findGap, if_neg (not_or.1 ha).1, if_neg (not_or.1 ha).2, had]
      exact ⟨p', List.mem_cons_of_mem a hp', hs', heq⟩

namespace FreeList

theorem lt_sorted (L : FreeList base h as) : as.Pairwise (· < ·) :=
  L.sorted.imp (by intro a b hab; omega)

theorem nodup (L : FreeList base h as) : as.Nodup := L.lt_sorted.imp fun h => Nat.ne_of_lt h

theorem apart {d : Nat} (L : FreeList base h as) (ha : a ∈ as) (hd : d ∈ as) (had : a ≠ d) :
    a + 16 * h.size a < d ∨ d + 16 * h.size d < a :=
  @List.Pairwise.forall _ (fun a d => a + 16 * h.size a < d ∨ d + 16 * h.size d < a) as ⟨fun _ _ => Or.symm⟩
    (L.sorted.imp Or.inl) a ha d hd had

theorem base_le (L : FreeList base h as) (ha : a ∈ as) : base ≤ a := by
  have hhead := L.head
  have hlt := L.lt_sorted
  cases as with
  | nil => cases ha
  | cons d as =>
    obtain rfl := Option.some.inj hhead
    rcases List.mem_cons.1 ha with rfl | ha
    · exact Nat.le_refl a
    · exact Nat.le_of_lt ((List.pairwise_cons.1 hlt).1 a ha)

/-- The link of the last block leads to `base`, any other one to the next block above. -/
theorem next_cases (L : FreeList base h as) (ha : a ∈ as) :
    (h.ptr a = base ∧ ∀ d ∈ as, d ≤ a) ∨
      (h.ptr a ∈ as ∧ a < h.ptr a ∧ ∀ d ∈ as, d ≤ a ∨ h.ptr a ≤ d) := by
  have hlt := L.lt_sorted
  have hcirc := L.circular
  obtain ⟨l₁, l₂, rfl⟩ := List.append_of_mem ha
  obtain ⟨_, hlt₂, hlt₁⟩ := List.pairwise_append.1 hlt
  have hlow : ∀ d ∈ l₁, d ≤ a := fun d hd => Nat.le_of_lt (hlt₁ d hd a List.mem_cons_self)
  rw [List.append_assoc] at hcirc
  have hnext := (linked_split.1 hcirc).2
  cases l₂ with
  | nil =>
    refine Or.inl ⟨(linked_cons_cons.1 hnext).1, fun d hd => ?_⟩
    rcases List.mem_append.1 hd with hd | hd
    · exact hlow d hd
    · exact (List.mem_singleton.1 hd).le
  | cons q l₂ =>
    obtain ⟨haq, hlt₂⟩ := List.pairwise_cons.1 hlt₂
    rw [(linked_cons_cons.1 hnext).1]
    refine Or.inr ⟨by simp, haq q List.mem_cons_self, fun d hd => ?_⟩
    simp only [List.mem_append, List.mem_cons] at hd
    rcases hd with hd | rfl | rfl | hd
    · exact Or.inl (hlow d hd)
    · exact Or.inl (Nat.le_refl d)
    · exact Or.inr (Nat.le_refl d)
    · exact Or.inr (Nat.le_of_lt ((List.pairwise_cons.1 hlt₂).1 d hd))

theorem exists_next {u : Nat} (L : FreeList base h as) (hu : u ∈ as) (hpos : 0 < h.size (h.ptr u)) :
    ∃ pre v post, h.ptr u = v ∧ as = pre ++ u :: v :: post := by
  have hbase := L.base_size
  obtain ⟨pre, post, rfl⟩ := List.append_of_mem hu
  have hcut : Linked h.ptr (pre ++ u :: (post ++ [base])) := by simpa using L.circular
  have hpost := (linked_split.1 hcut).2
  cases post with
  | nil =>
    rw [(linked_cons_cons.1 hpost).1] at hpos
    omega
  | cons v post => exact ⟨pre, v, post, (linked_cons_cons.1 hpost).1, rfl⟩

theorem stops_iff (L : FreeList base h as) (hb : base < b) (ha : a ∈ as) :
    Stops h b a ↔ a < b ∧ ∀ d ∈ as, d ≤ a ∨ b < d := by
  have hba := L.base_le ha
  rcases L.next_cases ha with ⟨hp, hlast⟩ | ⟨hmem, hlt, hnext⟩
  · rw [Stops, hp]
    exact ⟨fun hs => ⟨by omega, fun d hd => Or.inl (hlast d hd)⟩, fun hs => Or.inr ⟨hba, Or.inl hs.1⟩⟩
  · constructor
    · intro hs
      have hab : a < b ∧ b < h.ptr a := hs.resolve_right (by omega)
      exact ⟨hab.1, fun d hd => (hnext d hd).imp_right (Nat.lt_of_lt_of_le hab.2)⟩
    · intro hs
      exact Or.inl ⟨hs.1, (hs.2 _ hmem).resolve_left (by omega)⟩

/-- **The loop of `free`** ends at the last block below `b`, wherever it starts. -/
theorem findGap_eq (L : FreeList base h as) (hb : base < b) (hmem : b ∉ as) (hf : as.length < fuel) :
    ∃ pre p post, as = pre ++ p :: post ∧ findGap h b fuel h.freep = some p ∧ p < b ∧ ∀ a ∈ post, b < a := by
  have hlt := L.lt_sorted
  obtain ⟨p, hp, hstop⟩ : ∃ p ∈ as, Stops h b p := by
    have hhead := L.head
    cases as with
    | nil => cases hhead
    | cons d as =>
      obtain rfl := Option.some.inj hhead
      obtain ⟨pre, p, post, heq, hpb, hpost⟩ := exists_gap hlt hb fun hm => hmem (List.mem_cons_of_mem d hm)
      have hp : p ∈ d :: as := by rw [heq]; simp
      refine ⟨p, hp, (L.stops_iff hb hp).2 ⟨hpb, fun a ha => ?_⟩⟩
      rw [heq] at ha hlt
      simp only [List.mem_append, List.mem_cons] at ha
      rcases ha with ha | rfl | ha
      · exact Or.inl (Nat.le_of_lt ((List.pairwise_append.1 hlt).2.2 a ha p (by simp)))
      · exact Or.inl (Nat.le_refl a)
      · exact Or.inr (hpost a ha)
  obtain ⟨l, hl, hperm⟩ := L.tour L.freep_mem
  have hlen : l.length + 1 = as.length := hperm.length_eq
  obtain ⟨p', hp', hs', heq⟩ := findGap_walk (List.IsChain.left_of_append hl) (hperm.symm.subset hp) hstop
    (show l.length < fuel by omega)
  have hp' := hperm.subset hp'
  obtain ⟨hpb, hrest⟩ := (L.stops_iff hb hp').1 hs'
  obtain ⟨pre, post, rfl⟩ := List.append_of_mem hp'
  refine ⟨pre, p', post, rfl, heq, hpb, fun a ha => (hrest a (by simp [ha])).resolve_left ?_⟩
  have := (List.pairwise_cons.1 (List.pairwise_append.1 hlt).2.1).1 a ha
  omega

end FreeList

/-! ### Joining blocks -/

theorem head_append {l : List Nat} : (pre ++ p :: l).head? = (pre ++ [p]).head? := by
  cases pre <;> rfl

/-- A block whose size is set outside of a sorted list does not unsort it. -/
theorem sorted_upd (hs : as.Pairwise fun a b => a + 16 * size a < b) (ha : a ∉ as) :
    as.Pairwise fun d e => d + 16 * upd size a n d < e :=
  hs.imp_of_mem fun {d e} hd _ hde => by rwa [upd_other _ _ (ne_of_mem_of_not_mem hd ha)]

/-- What a link of `x` to the first one of the blocks `l` leaves: `x`, and those of the blocks that it has
not swallowed. -/
structure Joined (base : Nat) (h h' : Heap) (x : Nat) (l l' : List Nat) : Prop where
  linked : Linked h'.ptr (x :: (l' ++ [base]))
  sorted : (x :: l').Pairwise fun a b => a + 16 * h'.size a < b
  sub : l' ⊆ l
  fit : ∀ a ∈ l, a ∈ l' ∨ h.size a ≤ h'.size x
  cover : ∀ z, cover h'.size (x :: l') z = cover h.size (x :: l) z
  grow : h.size x ≤ h'.size x
  bound : x + 16 * h'.size x ≤ MMAPBASE
  other : ∀ a, a ≠ x → h'.size a = h.size a
  ptr : ∃ y, h'.ptr = upd h.ptr x y
  core : h'.core = h.core
  brk : h'.brk = h.brk

theorem link_joined {l : List Nat} {y : Nat} (hl : Linked h.ptr (l ++ [base])) (hy : (l ++ [base]).head? = some y)
    (hs : l.Pairwise fun a b => a + 16 * h.size a < b) (hle : ∀ a ∈ l, x + 16 * h.size x ≤ a) (hx : x ∉ l)
    (hbase : l = [] → x + 16 * h.size x ≠ base) (hbound : ∀ a ∈ x :: l, a + 16 * h.size a ≤ MMAPBASE) :
    ∃ l', Joined base h (link h x y) x l l' := by
  unfold link
  cases l with
  | nil =>
    obtain rfl := Option.some.inj hy
    rw [if_neg (hbase rfl)]
    exact ⟨[], by simp, by simp, List.Subset.refl _, fun a ha => Or.inl ha, fun z => rfl,
      Nat.le_refl _, hbound x List.mem_cons_self, fun a _ => rfl, ⟨_, rfl⟩, rfl, rfl⟩
  | cons q l =>
    obtain rfl := Option.some.inj hy
    obtain ⟨hql, hs'⟩ := List.pairwise_cons.1 hs
    rw [List.mem_cons, not_or] at hx
    have hxq := hle q List.mem_cons_self
    by_cases hj : x + 16 * h.size x = q
    · rw [if_pos hj]
      have hqb := hbound q (by simp)
      have hM : MMAPBASE = 2 ^ 30 := rfl
      have hsum : (h.size x + h.size q) % 2 ^ 32 = h.size x + h.size q := Nat.mod_eq_of_lt (by omega)
      refine ⟨l, Linked.redirect hl hx.2, ?_, List.subset_cons_self q l, ?_, ?_, ?_, ?_, fun a ha => upd_other _ _ ha,
        ⟨_, rfl⟩, rfl, rfl⟩ <;> dsimp only
      · refine List.pairwise_cons.2 ⟨fun a ha => ?_, sorted_upd hs' hx.2⟩
        have := hql a ha
        rw [upd_same, hsum]
        omega
      · intro a ha
        rw [upd_same, hsum]
        exact (List.mem_cons.1 ha).symm.imp_right fun haq => by rw [haq]; omega
      · intro z
        rw [cover_cons, upd_same, hsum, unit_add hj.symm, cover_upd hx.2, cover_cons, cover_cons, Nat.add_assoc]
      · rw [upd_same, hsum]
        omega
      · rw [upd_same, hsum]
        omega
    · rw [if_neg hj]
      have hlt : x + 16 * h.size x < q := Nat.lt_of_le_of_ne hxq hj
      refine ⟨q :: l, ?_, List.pairwise_cons.2 ⟨fun a ha => ?_, hs⟩, List.Subset.refl _,
        fun a ha => Or.inl ha, fun z => rfl, Nat.le_refl _, hbound x List.mem_cons_self,
        fun a _ => rfl, ⟨_, rfl⟩, rfl, rfl⟩
      · exact linked_cons_cons.2 ⟨upd_same _ _ _, linked_upd (l := q :: l) hl (by simp [hx])⟩
      · rcases List.mem_cons.1 ha with rfl | ha
        · exact hlt
        · have := hql a ha
          dsimp only
          omega

/-! ### The functions -/

theorem cover_congr {size' : Nat → Nat} (h : ∀ a ∈ as, size' a = size a) : cover size' as x = cover size as x := by
  unfold cover
  rw [List.map_congr_left fun a ha => by rw [h a ha]]

namespace HeapInv

theorem free_not_live (I : HeapInv base lo h as live) (ha : a ∈ as) : a ∉ live := by
  intro hm
  have h1 := I.free_live ha hm
  have h2 := I.live_pos a hm
  omega

/-- No other live block has its header at `b`. -/
theorem live_once (I : HeapInv base lo h as live) (hb : b ∈ live) : b ∉ live.erase b := by
  intro hm
  have hpos := I.live_pos b hb
  have hone := I.once b
  have h1 := cover_pos hm (x := b) (Nat.le_refl b) (show b < b + 16 * h.size b by omega)
  rw [← I.exact b, cover_perm (List.perm_cons_erase hb), cover_cons, unit, if_pos (by omega)] at hone
  omega

section

-- the place of the live block `b` is after `p`
variable {l₁ l₂ : List Nat} {h₁ h₂ : Heap} (I : HeapInv base lo h (pre ++ p :: post) live) (hb : b ∈ live)
  (hp : p < b) (hpost : ∀ a ∈ post, b < a)

include I hb hp hpost

/-- What the two `if`s of `free` do. -/
theorem joined : ∃ l₁ l₂, Joined base h (link h b (h.ptr p)) b post l₁ ∧
    Joined base (link h b (h.ptr p)) (link (link h b (h.ptr p)) p b) p (b :: l₁) l₂ := by
  obtain ⟨hlo, hbrk⟩ := I.block_within (Or.inr hb)
  have hbase := Nat.lt_of_lt_of_le I.base_lt hlo
  have hM := I.brk_le
  have hapart : ∀ a ∈ pre ++ p :: post, a + 16 * h.size a ≤ b ∨ b + 16 * h.size b ≤ a := fun a ha => I.free_live ha hb
  have hspost := (List.pairwise_cons.1 (List.pairwise_append.1 I.list.sorted).2.1).2
  have hcut : Linked h.ptr (pre ++ p :: (post ++ [base])) := by simpa using I.list.circular
  have hlpost := (linked_split.1 hcut).2
  have hpb := (hapart p (by simp)).resolve_right (by omega)
  have hup : ∀ a ∈ post, b + 16 * h.size b ≤ a := fun a ha =>
    (hapart a (by simp [ha])).resolve_left (by have := hpost a ha; omega)
  have hbounds : ∀ a ∈ post, a + 16 * h.size a ≤ MMAPBASE := by
    intro a ha
    have hab := hpost a ha
    exact (I.block_within (a := a) (Or.inl ⟨by simp [ha], by omega⟩)).2.trans hM
  obtain ⟨l₁, J⟩ := link_joined (x := b) (y := h.ptr p) (l := post) (List.IsChain.tail hlpost)
    (by cases post <;> exact congrArg some (linked_cons_cons.1 hlpost).1.symm) hspost hup
    (fun hm => by have := hpost b hm; omega) (fun _ => by omega) (by
      intro a ha
      rcases List.mem_cons.1 ha with rfl | ha
      · omega
      · exact hbounds a ha)
  have hsize := J.other
  obtain ⟨l₂, K⟩ := link_joined (x := p) (y := b) (l := b :: l₁) J.linked rfl J.sorted
    (by
      intro a ha
      rw [hsize p (Nat.ne_of_lt hp)]
      rcases List.mem_cons.1 ha with rfl | ha
      · exact hpb
      · have := hpost a (J.sub ha)
        omega)
    (by
      intro hm
      rcases List.mem_cons.1 hm with rfl | hm
      · omega
      · have := hpost p (J.sub hm)
        omega)
    (fun h => by cases h)
    (by
      intro a ha
      simp only [List.mem_cons] at ha
      rcases ha with rfl | rfl | ha
      · rw [hsize a (Nat.ne_of_lt hp)]
        omega
      · exact J.bound
      · have hab := hpost a (J.sub ha)
        rw [hsize a (by omega)]
        exact hbounds a (J.sub ha))
  exact ⟨l₁, l₂, J, K⟩

variable (J : Joined base h h₁ b post l₁) (K : Joined base h₁ h₂ p (b :: l₁) l₂)

include J K

omit hp hpost in
theorem joined_live : ∀ a ∈ live.erase b, h₂.size a = h.size a := by
  intro a ha
  have hap := ne_of_mem_of_not_mem (List.mem_of_mem_erase ha) (I.free_not_live (by simp : p ∈ _))
  rw [K.other a hap, J.other a (ne_of_mem_of_not_mem ha (I.live_once hb))]

theorem joined_list (hbase₂ : p = base → h₂.size p = h₁.size p) :
    FreeList base { h₂ with freep := p } (pre ++ p :: l₂) := by
  have L := I.list
  have hbase := Nat.lt_of_lt_of_le I.base_lt (I.block_within (Or.inr hb)).1
  obtain ⟨hspre, _, hpres⟩ := List.pairwise_append.1 L.sorted
  have hpre : ∀ a ∈ pre, a + 16 * h.size a < p := fun a ha => hpres a ha p List.mem_cons_self
  have hcut : Linked h.ptr (pre ++ p :: (post ++ [base])) := by simpa using L.circular
  have hsize : ∀ a, a ≠ p → a ≠ b → h₂.size a = h.size a := fun a hap hab => (K.other a hap).trans (J.other a hab)
  have hkeep : ∀ a ∈ pre, h₂.size a = h.size a := fun a ha => by
    have := hpre a ha
    exact hsize a (by omega) (by omega)
  have hl₂ : ∀ a ∈ l₂, a = b ∨ a ∈ post := fun a ha => (List.mem_cons.1 (K.sub ha)).imp_right fun h => J.sub h
  refine ⟨head_append.trans (head_append.symm.trans L.head), ?_, ?_, ?_, ?_, by simp⟩ <;> dsimp only
  · obtain ⟨y, hy⟩ := J.ptr
    obtain ⟨z, hz⟩ := K.ptr
    have hb' : b ∉ pre := fun hm => by have := hpre b hm; omega
    have hp' : p ∉ pre := fun hm => by have := hpre p hm; omega
    have hpre' : Linked h₂.ptr (pre ++ [p]) := by
      rw [hz, hy]
      exact linked_upd (linked_upd (linked_split.1 hcut).1 hb') hp'
    simpa using linked_split.2 ⟨hpre', K.linked⟩
  · refine List.pairwise_append.2 ⟨hspre.imp_of_mem fun {a d} ha _ had => by rwa [hkeep a ha], K.sorted, ?_⟩
    intro a ha d hd
    have hap := hpre a ha
    rw [hkeep a ha]
    rcases List.mem_cons.1 hd with rfl | hd
    · exact hap
    · rcases hl₂ d hd with rfl | hd
      · omega
      · have := hpost d hd
        omega
  · by_cases hpbase : p = base
    · rw [← hpbase, hbase₂ hpbase, J.other p (Nat.ne_of_lt hp), hpbase]
      exact L.base_size
    · rw [hsize base (Ne.symm hpbase) (by omega)]
      exact L.base_size
  · intro a ha hab
    rcases List.mem_append.1 ha with ha | ha
    · rw [hkeep a ha]
      exact L.pos a (by simp [ha]) hab
    · rcases List.mem_cons.1 ha with rfl | ha
      · have h1 := L.pos a (by simp) hab
        have h2 := J.other a (Nat.ne_of_lt hp)
        have h3 := K.grow
        omega
      · rcases hl₂ a ha with rfl | ha
        · have h1 := K.other a (Nat.ne_of_gt hp)
          have h2 := J.grow
          have h3 := I.live_pos a hb
          omega
        · have hba := hpost a ha
          rw [hsize a (by omega) (by omega)]
          exact L.pos a (by simp [ha]) hab

theorem of_joined (hbase₂ : p = base → h₂.size p = h₁.size p) :
    HeapInv base lo { h₂ with freep := p } (pre ++ p :: l₂) (live.erase b) := by
  have hkeep := I.joined_live hb J K
  refine ⟨I.joined_list hb hp hpost J K hbase₂, ?_, ?_, ?_, ?_, I.base_pos, I.base_lt, ?_, ?_⟩ <;>
    simp only [K.core, J.core, K.brk, J.brk]
  · intro a ha
    rw [hkeep a ha]
    exact I.live_pos a (List.mem_of_mem_erase ha)
  · intro z
    have hpre : ∀ a ∈ pre, h₂.size a = h.size a := by
      intro a ha
      have := (List.pairwise_append.1 I.list.sorted).2.2 a ha p List.mem_cons_self
      rw [K.other a (by omega), J.other a (by omega)]
    have h1 := I.exact z
    have h2 := K.cover z
    have h3 := J.cover z
    rw [cover_perm (List.perm_cons_erase hb)] at h1
    simp only [cover_append, cover_cons, J.other p (Nat.ne_of_lt hp)] at h1 h2 h3 ⊢
    rw [cover_congr hpre, cover_congr hkeep]
    omega
  · exact I.once
  · exact I.within
  · exact I.lo_le
  · exact I.brk_le

end

/-- **A live block goes back to the list.** -/
theorem free_eq (I : HeapInv base lo h as live) (hb : b ∈ live) (hf : as.length < fuel) :
    ∃ h' as', free fuel h (b + 16) = some h' ∧ HeapInv base lo h' as' (live.erase b) ∧ h'.brk = h.brk ∧
      h'.core = h.core ∧ (∀ a ∈ live.erase b, h'.size a = h.size a) ∧ ∃ a ∈ as', h.size b ≤ h'.size a := by
  have hbase := Nat.lt_of_lt_of_le I.base_lt (I.block_within (Or.inr hb)).1
  obtain ⟨pre, p, post, rfl, hfind, hp, hpost⟩ :=
    I.list.findGap_eq hbase (fun hm => I.free_not_live hm hb) hf
  obtain ⟨l₁, l₂, J, K⟩ := I.joined hb hp hpost
  have hfree : free fuel h (b + 16) = some { link (link h b (h.ptr p)) p b with freep := p } := by
    rw [free, Nat.add_sub_cancel, hfind]
    rfl
  generalize link h b (h.ptr p) = h₁ at J K hfree
  -- `base` has no units, so nothing joins it
  have hbase₂ : p = base → (link h₁ p b).size p = h₁.size p := by
    intro hpbase
    have := I.list.base_size
    rw [link, if_neg (by rw [J.other p (Nat.ne_of_lt hp), hpbase]; omega)]
  have hkeep := I.joined_live hb J K
  refine ⟨_, pre ++ p :: l₂, hfree, I.of_joined hb hp hpost J K hbase₂, K.brk.trans J.brk, K.core.trans J.core,
    hkeep, ?_⟩
  rcases K.fit b List.mem_cons_self with hm | hle
  · refine ⟨b, by simp [hm], ?_⟩
    dsimp only
    rw [K.other b (Nat.ne_of_gt hp)]
    exact J.grow
  · exact ⟨p, by simp, J.grow.trans hle⟩

/-- `malloc` takes a whole block off the list. -/
theorem take_whole {u v : Nat} (I : HeapInv base lo h (pre ++ u :: v :: post) live) (hv : 0 < h.size v) :
    HeapInv base lo { h with ptr := upd h.ptr u (h.ptr v), freep := u } (pre ++ u :: post) (v :: live) := by
  have L := I.list
  have hcut : Linked h.ptr (pre ++ u :: (v :: post ++ [base])) := by simpa using L.circular
  obtain ⟨hpre, hpost⟩ := linked_split.1 hcut
  have hlt := List.pairwise_append.1 L.lt_sorted
  have hupre : u ∉ pre := fun hm => Nat.lt_irrefl u (hlt.2.2 u hm u List.mem_cons_self)
  have hupost : u ∉ post := fun hm =>
    Nat.lt_irrefl u ((List.pairwise_cons.1 hlt.2.1).1 u (List.mem_cons_of_mem v hm))
  have hsub : (pre ++ u :: post).Sublist (pre ++ u :: v :: post) :=
    ((List.sublist_cons_self v post).cons_cons u).append_left pre
  refine ⟨⟨head_append.trans (head_append.symm.trans L.head), ?_, L.sorted.sublist hsub, L.base_size,
    fun a ha => L.pos a (hsub.subset ha), by simp⟩, ?_, ?_, I.once, I.within, I.base_pos, I.base_lt, I.lo_le,
    I.brk_le⟩
  · simpa using linked_split.2 ⟨linked_upd hpre hupre, (linked_cons_cons.1 hpost).2.redirect hupost⟩
  · intro a ha
    rcases List.mem_cons.1 ha with rfl | ha
    · exact hv
    · exact I.live_pos a ha
  · intro x
    have := I.exact x
    simp only [cover_append, cover_cons] at this ⊢
    omega

/-- `malloc` takes the end of a block. -/
theorem take_end {u v w : Nat} (I : HeapInv base lo h as live) (hu : u ∈ as) (hv : v ∈ as) (hn : 0 < n)
    (hlt : n < h.size v) (hw : w = v + 16 * (h.size v - n)) :
    HeapInv base lo { h with size := upd (upd h.size v (h.size v - n)) w n, freep := u } as (w :: live) ∧
      ∀ a ∈ live, upd (upd h.size v (h.size v - n)) w n a = h.size a := by
  have L := I.list
  have hvb : v ≠ base := by
    have := L.base_size
    rintro rfl
    omega
  have hbv := Nat.lt_of_lt_of_le I.base_lt (I.block_within (a := v) (Or.inl ⟨hv, hvb⟩)).1
  have hwas : w ∉ as := by
    intro hm
    have := L.apart hv hm (by omega)
    omega
  have hvlive := I.free_not_live hv
  have hwlive : w ∉ live := by
    intro hm
    have h1 := I.free_live hv hm
    have h2 := I.live_pos w hm
    omega
  have hsize : ∀ a, a ≠ v → a ≠ w → upd (upd h.size v (h.size v - n)) w n a = h.size a := by
    intro a hav haw
    rw [upd_other _ _ haw, upd_other _ _ hav]
  have hsizev : upd (upd h.size v (h.size v - n)) w n v = h.size v - n := by
    rw [upd_other _ _ (by omega), upd_same]
  have hlive : ∀ a ∈ live, upd (upd h.size v (h.size v - n)) w n a = h.size a := fun a ha =>
    hsize a (ne_of_mem_of_not_mem ha hvlive) (ne_of_mem_of_not_mem ha hwlive)
  refine ⟨⟨⟨L.head, L.circular, ?_, ?_, ?_, hu⟩, ?_, ?_, I.once, I.within, I.base_pos, I.base_lt, I.lo_le, I.brk_le⟩,
    hlive⟩ <;> dsimp only
  · -- a block that gets shorter does not touch the next one either
    refine L.sorted.imp_of_mem fun {d e} hd _ hde => ?_
    by_cases hdv : d = v
    · rw [hdv, hsizev]
      rw [hdv] at hde
      omega
    · rwa [hsize d hdv (ne_of_mem_of_not_mem hd hwas)]
  · rw [hsize base (Ne.symm hvb) (by omega)]
    exact L.base_size
  · intro a ha hab
    by_cases hav : a = v
    · rw [hav, hsizev]
      omega
    · rw [hsize a hav (ne_of_mem_of_not_mem ha hwas)]
      exact L.pos a ha hab
  · intro a ha
    rcases List.mem_cons.1 ha with rfl | ha
    · rwa [upd_same]
    · rw [hlive a ha]
      exact I.live_pos a ha
  · intro x
    have hperm := List.perm_cons_erase hv
    have hverase : v ∉ as.erase v := (List.nodup_cons.1 (hperm.nodup_iff.1 L.nodup)).1
    have h1 := I.exact x
    have h2 : unit v (h.size v) x = unit v (h.size v - n) x + unit w n x := by
      rw [← unit_add hw]
      congr 1
      omega
    rw [cover_cons, upd_same, cover_upd hwas, cover_upd hwlive, cover_upd hvlive]
    simp only [cover_perm hperm, cover_cons, upd_same, cover_upd hverase] at h1 ⊢
    omega

theorem take_eq (I : HeapInv base lo h as live) {u : Nat} (hu : u ∈ as) (hn : 0 < n)
    (hle : n ≤ h.size (h.ptr u)) :
    ∃ as' w, (take n h u (h.ptr u)).2 = w + 16 ∧ (take n h u (h.ptr u)).1.size w = n ∧
      HeapInv base lo (take n h u (h.ptr u)).1 as' (w :: live) ∧
      (take n h u (h.ptr u)).1.brk = h.brk ∧ (take n h u (h.ptr u)).1.core = h.core ∧
      ∀ a ∈ live, (take n h u (h.ptr u)).1.size a = h.size a := by
  obtain ⟨pre, v, post, rfl, rfl⟩ := I.list.exists_next hu (by omega)
  unfold take
  by_cases heq : h.size (h.ptr u) = n
  · rw [if_pos heq]
    exact ⟨pre ++ u :: post, h.ptr u, rfl, heq, I.take_whole (by omega), rfl, rfl, fun a _ => rfl⟩
  · rw [if_neg heq]
    obtain ⟨I', hlive⟩ := I.take_end (v := h.ptr u) hu (by simp) hn (by omega) rfl
    exact ⟨_, _, rfl, upd_same _ _ _, I', rfl, rfl, hlive⟩

end HeapInv

/-- The loop of `malloc` from `freep`: a large enough block is taken, or there is none and `morecore` is
called. -/
theorem mallocLoop_scan {l : List Nat} {u : Nat} (hl : Linked h.ptr (u :: l ++ [h.freep])) (hnot : h.freep ∉ l) :
    (∃ u' ∈ u :: l, n ≤ h.size (h.ptr u') ∧
      mallocLoop n found (l.length + 1 + fuel) h u (h.ptr u) = some (take n h u' (h.ptr u'))) ∨
    ((∀ a ∈ l ++ [h.freep], h.size a < n) ∧
      mallocLoop n found (l.length + 1 + fuel) h u (h.ptr u) = (morecore fuel h n found).bind fun r =>
        if r.2 = 0 then some (r.1, 0) else mallocLoop n found fuel r.1 r.2 (r.1.ptr r.2)) := by
  induction l generalizing u with
  | nil =>
    have hu := (linked_cons_cons.1 hl).1
    rw [List.length_nil, Nat.zero_add, Nat.add_comm, mallocLoop]
    by_cases hn : n ≤ h.size (h.ptr u)
    · exact Or.inl ⟨u, List.mem_cons_self, hn, if_pos hn⟩
    · rw [if_neg hn, if_pos hu]
      refine Or.inr ⟨fun a ha => ?_, rfl⟩
      rw [List.mem_singleton.1 ha, ← hu]
      omega
  | cons v l ih =>
    obtain ⟨huv, hl⟩ := linked_cons_cons.1 hl
    rw [List.mem_cons, not_or] at hnot
    rw [List.length_cons, Nat.add_right_comm, mallocLoop]
    by_cases hn : n ≤ h.size (h.ptr u)
    · exact Or.inl ⟨u, List.mem_cons_self, hn, if_pos hn⟩
    · rw [if_neg hn, if_neg (by rw [huv]; exact Ne.symm hnot.1), huv]
      rcases ih hl hnot.2 with ⟨u', hu', hle, heq⟩ | ⟨hall, heq⟩
      · exact Or.inl ⟨u', List.mem_cons_of_mem u hu', hle, heq⟩
      · refine Or.inr ⟨fun a ha => ?_, heq⟩
        rcases List.mem_cons.1 ha with rfl | ha
        · rw [huv] at hn
          omega
        · exact hall a ha

theorem HeapInv.scan (I : HeapInv base lo h as live) (n fuel : Nat) (found : Bool) :
    (∃ u ∈ as, n ≤ h.size (h.ptr u) ∧
      mallocLoop n found (as.length + fuel) h h.freep (h.ptr h.freep) = some (take n h u (h.ptr u))) ∨
    ((∀ a ∈ as, h.size a < n) ∧
      mallocLoop n found (as.length + fuel) h h.freep (h.ptr h.freep) = (morecore fuel h n found).bind fun r =>
        if r.2 = 0 then some (r.1, 0) else mallocLoop n found fuel r.1 r.2 (r.1.ptr r.2)) := by
  obtain ⟨l, hl, hperm⟩ := I.list.tour I.list.freep_mem
  have hnd : (h.freep :: l).Nodup := hperm.nodup_iff.2 I.list.nodup
  have hlen : as.length = l.length + 1 := hperm.length_eq.symm
  rw [hlen]
  rcases mallocLoop_scan (n := n) hl (List.nodup_cons.1 hnd).1 with ⟨u, hu, h1⟩ | ⟨hall, h1⟩
  · exact Or.inl ⟨u, hperm.subset hu, h1⟩
  · refine Or.inr ⟨fun a ha => hall a ?_, h1⟩
    have := hperm.symm.subset ha
    simp only [List.mem_append, List.mem_cons, List.not_mem_nil, or_false] at this ⊢
    exact this.symm

theorem toInt_units {nu : Nat} (h : 16 * nu < 2 ^ 31) : toInt (nu * 16) = (16 * nu : Nat) := by
  unfold toInt
  rw [Nat.mod_eq_of_lt (by omega), if_pos (by omega), Nat.mul_comm]

theorem growproc_pos {sz m : Nat} (hm : 0 < m) (hsz : sz ≤ MMAPBASE) (hlt : m < 2 ^ 31) :
    growproc sz (m : Nat) found = if MMAPBASE < sz + m ∨ found = false then none else some (sz + m) := by
  have hM : MMAPBASE = 2 ^ 30 := rfl
  have hsum : u64 (sz + (m : Nat)) = sz + m := by
    unfold u64
    omega
  unfold growproc
  dsimp only
  rw [if_pos (by omega), hsum]
  by_cases hover : MMAPBASE < sz + m
  · rw [if_pos (Or.inr hover), if_pos (Or.inl hover)]
  · rw [if_neg (by omega)]
    cases found with
    | false => rw [if_neg Bool.false_ne_true, if_pos (Or.inr rfl)]
    | true => rw [if_pos rfl, if_neg (by simp [hover])]

/-- The new block starts at the old break, above every other one. -/
theorem HeapInv.brk_fresh (I : HeapInv base lo h as live) : h.brk ∉ as ∧ h.brk ∉ live := by
  have hbrk : base < h.brk := Nat.lt_of_lt_of_le I.base_lt I.lo_le
  have hne : ∀ a, (a ∈ as ∧ a ≠ base) ∨ a ∈ live → a ≠ h.brk := by
    intro a ha
    have h1 := I.block_within ha
    have h2 := I.block_pos ha
    omega
  exact ⟨fun hm => hne _ (Or.inl ⟨hm, Nat.ne_of_gt hbrk⟩) rfl, fun hm => hne _ (Or.inr hm) rfl⟩

/-- `morecore` has a new piece, which is a live block before it is freed. -/
theorem HeapInv.grow {m : Nat} (I : HeapInv base lo h as live) (hm : 0 < m) (hM : h.brk + 16 * m ≤ MMAPBASE) :
    HeapInv base lo
      { h with brk := h.brk + 16 * m, size := upd h.size h.brk m, core := (h.brk, m) :: h.core } as
      (h.brk :: live) := by
  have L := I.list
  have hbrk : base < h.brk := Nat.lt_of_lt_of_le I.base_lt I.lo_le
  obtain ⟨has, hlive⟩ := I.brk_fresh
  refine ⟨⟨L.head, L.circular, sorted_upd L.sorted has, ?_, ?_, L.freep_mem⟩, ?_, ?_, ?_, ?_, I.base_pos,
    I.base_lt, ?_, hM⟩ <;> dsimp only
  · rw [upd_other _ _ (Nat.ne_of_lt hbrk)]
    exact L.base_size
  · intro a ha hab
    rw [upd_other _ _ (ne_of_mem_of_not_mem ha has)]
    exact L.pos a ha hab
  · intro a ha
    rcases List.mem_cons.1 ha with rfl | ha
    · rwa [upd_same]
    · rw [upd_other _ _ (ne_of_mem_of_not_mem ha hlive)]
      exact I.live_pos a ha
  · intro x
    have := I.exact x
    rw [cover_upd has, cover_cons, cover_upd hlive, upd_same, pieces_cons]
    omega
  · intro x
    rw [pieces_cons]
    have hone := I.once x
    -- a byte of an old piece is below the old break
    by_cases hx : 0 < pieces h.core x
    · obtain ⟨r, hr, _, hxr⟩ := exists_of_pieces hx
      have := (I.within r hr).2
      rw [unit, if_neg (by omega)]
      omega
    · unfold unit
      split <;> omega
  · intro r hr
    rcases List.mem_cons.1 hr with rfl | hr
    · exact ⟨I.lo_le, Nat.le_refl _⟩
    · have := I.within r hr
      omega
  · have := I.lo_le
    omega

theorem HeapInv.morecore_eq (I : HeapInv base lo h as live) (found : Bool) (hn : 0 < n)
    (hlt : n < 2 ^ 27) (hf : as.length < fuel) :
    (morecore fuel h n found = some (h, 0) ∧ sbrk h (toInt (coreUnits n * 16)) found = none) ∨
    ∃ h' as', morecore fuel h n found = some (h', h'.freep) ∧ h'.freep ≠ 0 ∧ HeapInv base lo h' as' live ∧
      h'.brk = h.brk + 16 * coreUnits n ∧ h'.core = (h.brk, coreUnits n) :: h.core ∧
      (∀ a ∈ live, h'.size a = h.size a) ∧ ∃ a ∈ as', n ≤ h'.size a := by
  have hnu : n ≤ coreUnits n ∧ coreUnits n < 2 ^ 27 := by
    unfold coreUnits
    split <;> omega
  have hsbrk : sbrk h (toInt (coreUnits n * 16)) found =
      if MMAPBASE < h.brk + 16 * coreUnits n ∨ found = false then none
      else some (h.brk, { h with brk := h.brk + 16 * coreUnits n }) := by
    rw [sbrk, toInt_units (by omega), growproc_pos (by omega) I.brk_le (by omega)]
    split <;> rfl
  unfold morecore
  dsimp only
  rw [hsbrk]
  by_cases hfail : MMAPBASE < h.brk + 16 * coreUnits n ∨ found = false
  · rw [if_pos hfail]
    exact Or.inl ⟨rfl, rfl⟩
  · rw [if_neg hfail]
    rw [not_or, Nat.not_lt] at hfail
    have I' := I.grow (show 0 < coreUnits n by omega) hfail.1
    obtain ⟨h', as', hfree, I'', hbrk, hcore, hkeep, a, ha, hle⟩ := I'.free_eq List.mem_cons_self hf
    rw [List.erase_cons_head] at I'' hkeep
    refine Or.inr ⟨h', as', ?_, Nat.ne_of_gt I''.freep_pos, I'', hbrk, hcore, fun a ha => ?_, a, ha, ?_⟩
    · dsimp only
      rw [hfree]
      rfl
    · rw [hkeep a ha]
      exact upd_other _ _ (ne_of_mem_of_not_mem ha I.brk_fresh.2)
    · dsimp only at hle
      rw [upd_same] at hle
      omega

/-! ### Enough steps -/

/-- More steps than a list below `MMAPBASE` needs. -/
@[irreducible] def STEPS : Nat := 2 ^ 32

theorem STEPS_eq : STEPS = 2 ^ 32 := by
  unfold STEPS
  rfl

theorem HeapInv.length_le (I : HeapInv base lo h as live) : as.length ≤ MMAPBASE := by
  have hsub : as ⊆ List.range MMAPBASE := by
    intro a ha
    have hle := I.brk_le
    rw [List.mem_range]
    by_cases hab : a = base
    · have := Nat.lt_of_lt_of_le I.base_lt I.lo_le
      omega
    · have h1 := I.block_within (Or.inl ⟨ha, hab⟩)
      have h2 := I.block_pos (Or.inl ⟨ha, hab⟩)
      omega
  have := (List.subperm_of_subset I.list.nodup hsub).length_le
  rwa [List.length_range] at this

theorem HeapInv.length_lt (I : HeapInv base lo h as live) : as.length < STEPS := by
  rw [STEPS_eq]
  exact Nat.lt_of_le_of_lt I.length_le (by decide)

/-- `malloc` of a heap with a list: no memory, or a new live block of `n` units. -/
theorem HeapInv.malloc_eq (I : HeapInv base lo h as live) (found : Bool) (hn : 0 < n) (hlt : n < 2 ^ 27) :
    ∃ h' as' r, mallocLoop n found STEPS h h.freep (h.ptr h.freep) = some (h', r) ∧ h.brk ≤ h'.brk ∧
      (∀ a ∈ live, h'.size a = h.size a) ∧
      ((r = 0 ∧ sbrk h (toInt (coreUnits n * 16)) found = none ∧ HeapInv base lo h' as' live) ∨
        ∃ w, r = w + 16 ∧ h'.size w = n ∧ HeapInv base lo h' as' (w :: live)) := by
  have hlen := I.length_le
  have hM : MMAPBASE = 2 ^ 30 := rfl
  have hS := STEPS_eq
  obtain ⟨fuel, hfuel⟩ : ∃ k, STEPS = as.length + k := ⟨STEPS - as.length, by omega⟩
  rw [hfuel]
  have htake : ∀ {h as}, HeapInv base lo h as live → ∀ u ∈ as, n ≤ h.size (h.ptr u) →
      ∃ h' as' w, take n h u (h.ptr u) = (h', w + 16) ∧ h.brk ≤ h'.brk ∧ (∀ a ∈ live, h'.size a = h.size a) ∧
        h'.size w = n ∧ HeapInv base lo h' as' (w :: live) := by
    intro h as I u hu hle
    obtain ⟨as', w, h2, hsize, I', hbrk, _, hkeep⟩ := I.take_eq hu hn hle
    exact ⟨_, as', w, Prod.ext rfl h2, hbrk.ge, hkeep, hsize, I'⟩
  rcases I.scan n fuel found with ⟨u, hu, hle, heq⟩ | ⟨_, heq⟩
  · obtain ⟨h', as', w, htk, hbrk, hkeep, hsize, I'⟩ := htake I u hu hle
    exact ⟨h', as', w + 16, by rw [heq, htk], hbrk, hkeep, Or.inr ⟨w, rfl, hsize, I'⟩⟩
  · rw [heq]
    rcases I.morecore_eq found hn hlt (show as.length < fuel by omega) with
      ⟨hmore, hfail⟩ | ⟨h', as', hmore, hfp, I', hbrk, _, hkeep, a, ha, hle⟩
    · rw [hmore]
      exact ⟨h, as, 0, rfl, Nat.le_refl _, fun a _ => rfl, Or.inl ⟨rfl, hfail, I⟩⟩
    · -- the second round finds a block, at the latest the new one
      rw [hmore, Option.bind_some, if_neg hfp]
      have hlen' := I'.length_le
      obtain ⟨fuel', hfuel'⟩ : ∃ k, fuel = as'.length + k := ⟨fuel - as'.length, by omega⟩
      rw [hfuel']
      rcases I'.scan n fuel' found with ⟨u, hu, hle', heq'⟩ | ⟨hall, _⟩
      · obtain ⟨h'', as'', w, htk, hbrk', hkeep', hsize, I''⟩ := htake I' u hu hle'
        exact ⟨h'', as'', w + 16, by rw [heq', htk], by omega, fun a ha => (hkeep' a ha).trans (hkeep a ha),
          Or.inr ⟨w, rfl, hsize, I''⟩⟩
      · have := hall a ha
        omega

end Xv6.Umalloc
