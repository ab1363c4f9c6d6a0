import Xv6.Kernel
import Xv6.Lib.Run
import Xv6.User.Malloc

/-!
# Runs of the allocator

The calls of a program on its heap: `malloc`, `free` of a live block, and the calls of `sbrk` by others
that make the process larger.
-/

namespace Xv6.Umalloc

open Xv6.Lib

/-! ### The size of the process -/

section

variable [Image] {oldsz newsz : Nat} {m : Kmem} {s : Kernel} {i : Fin NPROC} {n : Int}

theorem wp_uvmalloc_size (h : ¬ newsz < oldsz) (pagetable xperm : Nat) :
    wp (uvmalloc pagetable oldsz newsz xperm) m (fun r _ => r = 0 ∨ r = newsz) fun _ => True := by
  unfold uvmalloc
  rw [if_neg h, wp_bind]
  refine wp_any fun ok _ => ?_
  cases ok with
  | false => exact wp_pure.2 (.inl rfl)
  | true => exact wp_pure.2 (.inr rfl)

theorem wp_uvmdealloc_size (pagetable : Nat) : wp (uvmdealloc pagetable oldsz newsz) m
    (fun r _ => r = if oldsz ≤ newsz then oldsz else newsz) fun _ => True := by
  unfold uvmdealloc
  split
  · exact wp_pure.2 rfl
  · split
    · rw [wp_bind]
      exact wp_any fun _ _ => wp_pure.2 rfl
    · exact wp_pure.2 rfl

/-- The kernel's `growproc` does to the size of the process what the one above says. -/
theorem wp_growproc : wp (Xv6.growproc i n) s (fun ok t => ∃ found, growproc (s.proc i).sz n found =
    if ok then some (t.proc i).sz else none) fun _ => True := by
  unfold Xv6.growproc growproc
  simp only [wp_bind, wp_getProc]
  split
  · split
    · exact wp_pure.2 ⟨true, rfl⟩
    · rename_i hover
      rw [wp_bind, wp_onVm, onKmem, wp_zoom]
      refine wp_conseq (wp_uvmalloc_size (not_or.1 hover).1 _ _) fun r v hr => ?_
      split
      · exact wp_pure.2 ⟨false, rfl⟩
      · rw [wp_bind, wp_setProc, wp_pure]
        refine ⟨true, ?_⟩
        rw [Kernel.setProc_proc_same, hr.resolve_left ‹_›]
  · split
    · rw [wp_bind, wp_onVm, onKmem, wp_zoom]
      refine wp_conseq (wp_uvmdealloc_size _) fun r v hr => ?_
      rw [wp_bind, wp_setProc, wp_pure]
      refine ⟨true, ?_⟩
      rw [Kernel.setProc_proc_same, hr]
      rfl
    · exact wp_pure.2 ⟨true, rfl⟩

end

/-! ### Runs -/

structure Program where
  heap : Heap
  /-- The headers of the blocks that `malloc` returned and `free` has not taken back. -/
  live : List Nat

inductive Call where
  | malloc (nbytes : Nat) (found : Bool)
  | free (ap : Nat)
  | sbrk (n : Nat) (found : Bool)

/-- One call; an error is a call that does not return. -/
def step (base : Nat) (s : Program) : Call → Except Unit Program
  | .malloc nbytes found =>
    match malloc base STEPS nbytes found s.heap with
    | none => .error ()
    | some (h, r) => .ok { heap := h, live := if r = 0 then s.live else (r - 16) :: s.live }
  | .free ap =>
    match free STEPS s.heap ap with
    | none => .error ()
    | some h => .ok { heap := h, live := s.live.erase (ap - 16) }
  | .sbrk n found =>
    match sbrk s.heap n found with
    | none => .ok s
    | some (_, h) => .ok { s with heap := h }

/-- Requests up to `limit` bytes, live blocks to `free`, and an `int` to `sbrk`. -/
def Allowed (limit : Nat) (s : Program) : Call → Prop
  | .malloc nbytes _ => nbytes ≤ limit
  | .free ap => ∃ b ∈ s.live, ap = b + 16
  | .sbrk n _ => n < 2 ^ 31

instance (limit : Nat) (s : Program) (c : Call) : Decidable (Allowed limit s c) := by
  cases c <;> unfold Allowed <;> infer_instance

/-- Before the first call: a heap of any content, no free list, the break not below `lo`, and `base` below
it. -/
structure Fresh (base lo : Nat) (s : Program) : Prop where
  freep : s.heap.freep = 0
  core : s.heap.core = []
  live : s.live = []
  base_pos : 0 < base
  base_lt : base < lo
  lo_le : lo ≤ s.heap.brk
  brk_le : s.heap.brk ≤ MMAPBASE

/-- The free list is there with the first call of `malloc`. -/
def Good (base lo : Nat) (s : Program) : Prop := Fresh base lo s ∨ ∃ as, HeapInv base lo s.heap as s.live

variable {base lo limit nbytes : Nat} {found : Bool} {s t : Program} {h : Heap} {as live : List Nat}

theorem Fresh.heapInv (F : Fresh base lo s) : HeapInv base lo (ready base s.heap) [base] s.live := by
  rw [ready, if_pos F.freep, F.live]
  refine ⟨⟨rfl, ?_, List.pairwise_singleton _ _, upd_same _ _ _, ?_, List.mem_singleton_self base⟩, ?_, ?_, ?_, ?_,
    F.base_pos, F.base_lt, F.lo_le, F.brk_le⟩ <;> dsimp only
  · simp
  · intro a ha hab
    exact absurd (List.mem_singleton.1 ha) hab
  · intro a ha
    cases ha
  · intro x
    rw [F.core, cover_cons, upd_same, unit, if_neg (by omega)]
    rfl
  · intro x
    rw [F.core]
    exact Nat.zero_le 1
  · intro r hr
    rw [F.core] at hr
    cases hr

theorem Good.ready_inv (G : Good base lo s) :
    ∃ as, HeapInv base lo (ready base s.heap) as s.live ∧ (ready base s.heap).brk = s.heap.brk ∧
      ∀ a ∈ s.live, (ready base s.heap).size a = s.heap.size a := by
  rcases G with F | ⟨as, I⟩
  · refine ⟨[base], F.heapInv, by rw [ready, if_pos F.freep], fun a ha => ?_⟩
    rw [F.live] at ha
    cases ha
  · have hr : ready base s.heap = s.heap := if_neg (Nat.ne_of_gt I.freep_pos)
    rw [hr]
    exact ⟨as, I, rfl, fun a _ => rfl⟩

theorem unitsOf_eq (hn : nbytes ≤ 2 ^ 31 - 32) :
    0 < unitsOf nbytes ∧ unitsOf nbytes < 2 ^ 27 ∧ nbytes + 16 ≤ 16 * unitsOf nbytes := by
  unfold unitsOf
  rw [Nat.mod_eq_of_lt (by omega)]
  omega

/-- `malloc` returns: 0 when `sbrk` failed, and otherwise a new live block for the bytes. -/
theorem Good.malloc_eq (G : Good base lo s) (hn : nbytes ≤ 2 ^ 31 - 32) (found : Bool) :
    ∃ h as r, malloc base STEPS nbytes found s.heap = some (h, r) ∧ s.heap.brk ≤ h.brk ∧
      (∀ a ∈ s.live, h.size a = s.heap.size a) ∧
      ((r = 0 ∧ sbrk (ready base s.heap) (toInt (coreUnits (unitsOf nbytes) * 16)) found = none ∧
          HeapInv base lo h as s.live) ∨
        ∃ w, r = w + 16 ∧ nbytes + 16 ≤ 16 * h.size w ∧ HeapInv base lo h as (w :: s.live)) := by
  obtain ⟨as, I, hbrk, hsize⟩ := G.ready_inv
  obtain ⟨hpos, hlt, hbytes⟩ := unitsOf_eq hn
  obtain ⟨h, as', r, heq, hle, hkeep, hres⟩ := I.malloc_eq found hpos hlt
  refine ⟨h, as', r, heq, by omega, fun a ha => (hkeep a ha).trans (hsize a ha), ?_⟩
  rcases hres with hfail | ⟨w, hr, hw, I'⟩
  · exact Or.inl hfail
  · exact Or.inr ⟨w, hr, by omega, I'⟩

theorem Good.sbrk_ok (G : Good base lo s) {n : Nat} (hn : n < 2 ^ 31) {r : Nat × Heap}
    (hs : sbrk s.heap n found = some r) : Good base lo { s with heap := r.2 } ∧ s.heap.brk ≤ r.2.brk := by
  obtain ⟨sz, hsz, rfl⟩ := Option.map_eq_some_iff.1 hs
  have hle : s.heap.brk ≤ MMAPBASE := by
    rcases G with F | ⟨as, I⟩
    · exact F.brk_le
    · exact I.brk_le
  have hsz' : s.heap.brk ≤ sz ∧ sz ≤ MMAPBASE := by
    by_cases h0 : 0 < n
    · rw [growproc_pos h0 hle hn] at hsz
      split at hsz
      · cases hsz
      · obtain rfl := Option.some.inj hsz
        omega
    · obtain rfl : n = 0 := by omega
      obtain rfl : s.heap.brk = sz := Option.some.inj hsz
      exact ⟨Nat.le_refl _, hle⟩
  refine ⟨?_, hsz'.1⟩
  rcases G with F | ⟨as, I⟩
  · exact Or.inl ⟨F.freep, F.core, F.live, F.base_pos, F.base_lt, F.lo_le.trans hsz'.1, hsz'.2⟩
  · refine Or.inr ⟨as, ⟨⟨I.list.head, I.list.circular, I.list.sorted, I.list.base_size, I.list.pos, I.list.freep_mem⟩,
      I.live_pos, I.exact, I.once, fun r hr => ?_, I.base_pos, I.base_lt, I.lo_le.trans hsz'.1, hsz'.2⟩⟩
    have := I.within r hr
    dsimp only
    omega

theorem Good.step_ok (G : Good base lo s) (hlim : limit ≤ 2 ^ 31 - 32) {c : Call} (ha : Allowed limit s c) :
    ∃ t, step base s c = .ok t ∧ Good base lo t ∧ s.heap.brk ≤ t.heap.brk := by
  cases c with
  | malloc nbytes found =>
    have hn : nbytes ≤ limit := ha
    obtain ⟨h, as, r, heq, hle, _, hres⟩ := G.malloc_eq (hn.trans hlim) found
    rw [step, heq]
    refine ⟨_, rfl, Or.inr ⟨as, ?_⟩, hle⟩
    rcases hres with ⟨rfl, _, I⟩ | ⟨w, rfl, _, I⟩
    · exact I
    · dsimp only
      rw [if_neg (by omega), Nat.add_sub_cancel]
      exact I
  | free ap =>
    obtain ⟨b, hb, rfl⟩ := ha
    rcases G with F | ⟨as, I⟩
    · rw [F.live] at hb
      cases hb
    · obtain ⟨h', as', hfree, I', hbrk, _⟩ := I.free_eq hb I.length_lt
      rw [step, hfree, Nat.add_sub_cancel]
      exact ⟨_, rfl, Or.inr ⟨as', I'⟩, hbrk.ge⟩
  | sbrk n found =>
    rw [step]
    cases hs : sbrk s.heap n found with
    | none => exact ⟨s, rfl, G, Nat.le_refl _⟩
    | some r => exact ⟨_, rfl, G.sbrk_ok ha hs⟩

theorem good_of_run (hlim : limit ≤ 2 ^ 31 - 32) {cs : List Call} (F : Fresh base lo s)
    (r : Run (step base) (Allowed limit) s cs t) : Good base lo t ∧ s.heap.brk ≤ t.heap.brk := by
  refine r.invariant (I := fun t => Good base lo t ∧ s.heap.brk ≤ t.heap.brk) ⟨Or.inl F, Nat.le_refl _⟩ ?_
  rintro u c v ⟨G, hle⟩ ha hs
  obtain ⟨t', hs', G', hle'⟩ := G.step_ok hlim ha
  rw [hs] at hs'
  obtain rfl := Except.ok.inj hs'
  exact ⟨G', hle.trans hle'⟩

theorem HeapInv.live_apart {w b : Nat} (I : HeapInv base lo h as (w :: live)) (hb : b ∈ live) :
    w + 16 * h.size w ≤ b ∨ b + 16 * h.size b ≤ w := by
  refine apart_of_unit (I.live_pos w List.mem_cons_self) (I.live_pos b (List.mem_cons_of_mem w hb)) fun x => ?_
  have hle : unit b (h.size b) x ≤ cover h.size live x := unit_le_cover hb
  have hone := I.once x
  rw [← I.exact, cover_cons] at hone
  omega

/-- **The heap.**  After every run of calls the free list is circular, in the order of the addresses, with
no two blocks touching, and every byte that `morecore` got is in exactly one block, free or live.  The next
`malloc` returns 0 only when `sbrk` fails, and otherwise a block that is large enough and apart from the
live ones.  The next `free` returns, and gives exactly the bytes of its block to the list. -/
theorem heap_of_run {base lo : Nat} {s t : Program} {cs : List Call} (F : Fresh base lo s)
    (r : Run (step base) (Allowed (2 ^ 31 - 65)) s cs t) :
    (Fresh base lo t ∨ ∃ as, HeapInv base lo t.heap as t.live) ∧
    (∀ nbytes found, nbytes < 2 ^ 31 - 64 → ∃ h p, malloc base STEPS nbytes found t.heap = some (h, p) ∧
      ((p = 0 ∧ sbrk (ready base t.heap) (toInt (coreUnits (unitsOf nbytes) * 16)) found = none) ∨
        ∃ w, p = w + 16 ∧ nbytes + 16 ≤ 16 * h.size w ∧
          ∀ b ∈ t.live, w + 16 * h.size w ≤ b ∨ b + 16 * t.heap.size b ≤ w)) ∧
    ∀ b ∈ t.live, ∀ as, HeapInv base lo t.heap as t.live →
      ∃ h as', free STEPS t.heap (b + 16) = some h ∧ HeapInv base lo h as' (t.live.erase b) ∧
        ∀ x, cover h.size as' x = cover t.heap.size as x + unit b (t.heap.size b) x := by
  have G := (good_of_run (by decide) F r).1
  refine ⟨G, fun nbytes found hn => ?_, fun b hb as I => ?_⟩
  · obtain ⟨h, as, p, heq, _, hkeep, hres⟩ := G.malloc_eq (show nbytes ≤ 2 ^ 31 - 32 by omega) found
    refine ⟨h, p, heq, ?_⟩
    rcases hres with ⟨hp, hfail, _⟩ | ⟨w, hp, hw, I⟩
    · exact Or.inl ⟨hp, hfail⟩
    · refine Or.inr ⟨w, hp, hw, fun b hb => ?_⟩
      rw [← hkeep b hb]
      exact I.live_apart hb
  · obtain ⟨h, as', hfree, I', _, hcore, hkeep, _⟩ := I.free_eq hb I.length_lt
    refine ⟨h, as', hfree, I', fun x => ?_⟩
    have h1 := I.exact x
    have h2 := I'.exact x
    rw [cover_perm (List.perm_cons_erase hb), cover_cons] at h1
    rw [hcore, cover_congr hkeep] at h2
    omega

/-- A process of eight pages whose `base` is at 4096. -/
def eightPages : Program := { heap := { ptr := id, size := id, freep := 0, brk := 32768, core := [] }, live := [] }

/-- Two blocks are taken, and the first is given back. -/
def threeCalls : List Call := [.malloc 100 true, .malloc 200 true, .free 98192]

theorem run_threeCalls : ∃ t, Run (step 4096) (Allowed 200) eightPages threeCalls t ∧ t.live = [97952] ∧
    (malloc 4096 STEPS 50 true t.heap).all (fun r => decide (r.2 ≠ 0)) = true := by
  obtain ⟨t, hr, ht⟩ := exists_run (step 4096) (fun s c => decide (Allowed 200 s c))
    (fun t : Program => decide (t.live = [97952]) &&
      (malloc 4096 STEPS 50 true t.heap).all fun r : Heap × Nat => decide (r.2 ≠ 0))
    eightPages threeCalls (by decide +kernel)
  obtain ⟨hlive, hmalloc⟩ := Bool.and_eq_true_iff.1 ht
  exact ⟨t, hr.mono fun _ _ h => of_decide_eq_true h, of_decide_eq_true hlive, hmalloc⟩

theorem fresh_eightPages : Fresh 4096 32768 eightPages :=
  ⟨rfl, rfl, rfl, by decide, by decide, by decide, by decide⟩

theorem Allowed.mono {limit' : Nat} (hle : limit ≤ limit') {c : Call} (h : Allowed limit s c) :
    Allowed limit' s c := by
  cases c with
  | malloc nbytes found => exact Nat.le_trans h hle
  | free ap | sbrk n found => exact h

/-- The next call returns. -/
theorem heap_of_run_three : ∃ t, Run (step 4096) (Allowed 200) eightPages threeCalls t ∧ t.live = [97952] ∧
    ∃ h p, malloc 4096 STEPS 50 true t.heap = some (h, p) := by
  obtain ⟨t, r, hlive, _⟩ := run_threeCalls
  obtain ⟨h, p, heq, _⟩ :=
    (heap_of_run fresh_eightPages (r.mono fun _ _ => Allowed.mono (by decide))).2.1 50 true (by decide)
  exact ⟨t, r, hlive, h, p, heq⟩

/-- **The size of a request.**  The increment that `sbrk` gets is the number of bytes that `morecore` wants,
and after every run of calls with such requests `malloc` returns, the process does not get smaller, what is
registered lies in the memory that was added to it, and so do the bytes that `malloc` returns: precisely for
requests up to 2147483616 bytes. -/
theorem malloc_sizes (nbytes : Nat) (hn : nbytes < 2 ^ 32) :
    ((0 < toInt (coreUnits (unitsOf nbytes) * 16) ∧
        toInt (coreUnits (unitsOf nbytes) * 16) = (coreUnits (unitsOf nbytes) * 16 : Nat)) ∧
      ∀ (base : Nat) (s t : Program) (cs : List Call) (found : Bool), Fresh base s.heap.brk s →
        Run (step base) (Allowed (2 ^ 31 - 32)) s cs t →
        ∃ h p, malloc base STEPS nbytes found t.heap = some (h, p) ∧ t.heap.brk ≤ h.brk ∧
          (∀ r ∈ h.core, s.heap.brk ≤ r.1 ∧ r.1 + 16 * r.2 ≤ h.brk) ∧
          (p = 0 ∨ ∀ x, p ≤ x → x < p + nbytes → ∃ r ∈ h.core, r.1 ≤ x ∧ x < r.1 + 16 * r.2)) ↔
      nbytes ≤ 2 ^ 31 - 32 := by
  constructor
  · rintro ⟨⟨_, hinc⟩, _⟩
    by_contra hbig
    have hunits : unitsOf nbytes = (nbytes + 15) / 16 + 1 := by
      unfold unitsOf
      omega
    have hcore : coreUnits (unitsOf nbytes) = unitsOf nbytes := if_neg (by omega)
    rw [hcore, toInt] at hinc
    split at hinc <;> omega
  · intro hle
    obtain ⟨hpos, hlt, hbytes⟩ := unitsOf_eq hle
    have hcore : 0 < coreUnits (unitsOf nbytes) ∧ coreUnits (unitsOf nbytes) < 2 ^ 27 := by
      unfold coreUnits
      split <;> omega
    refine ⟨?_, fun base s t cs found F r => ?_⟩
    · rw [toInt_units (by omega), Nat.mul_comm]
      omega
    · obtain ⟨h, as, p, heq, hbrk, _, hres⟩ := (good_of_run (Nat.le_refl _) F r).1.malloc_eq hle found
      rcases hres with ⟨hp, _, I⟩ | ⟨w, rfl, hw, I⟩
      · exact ⟨h, p, heq, hbrk, I.within, Or.inl hp⟩
      · refine ⟨h, _, heq, hbrk, I.within, Or.inr fun x h1 h2 => ?_⟩
        exact exists_of_pieces (I.block_core (a := w) (Or.inr List.mem_cons_self) (by omega) (by omega))

/-- After the three calls the next one returns 50 bytes of what was added to the process. -/
theorem malloc_sizes_fifty : ∃ t h p, Run (step 4096) (Allowed 200) eightPages threeCalls t ∧
    malloc 4096 STEPS 50 true t.heap = some (h, p) ∧ p ≠ 0 ∧
    ∀ x, p ≤ x → x < p + 50 → ∃ r ∈ h.core, r.1 ≤ x ∧ x < r.1 + 16 * r.2 := by
  obtain ⟨t, r, _, hmalloc⟩ := run_threeCalls
  obtain ⟨h, p, heq, _, _, hp⟩ := ((malloc_sizes 50 (by decide)).2 (by decide)).2 4096 eightPages t threeCalls true
    fresh_eightPages (r.mono fun _ _ => Allowed.mono (by decide))
  rw [heq] at hmalloc
  have hne : p ≠ 0 := of_decide_eq_true hmalloc
  exact ⟨t, h, p, r, heq, hne, hp.resolve_left hne⟩

/-- The largest request grows the heap by one header only, and registers 4 GiB. -/
theorem malloc_beyond_break : (malloc 4096 STEPS (2 ^ 32 - 1) true eightPages.heap).any
    (fun r => decide (r.2 = 32784 ∧ r.1.brk = 32784 ∧ r.1.core = [(32768, 2 ^ 28 + 1)])) = true := by
  decide +kernel

end Xv6.Umalloc
