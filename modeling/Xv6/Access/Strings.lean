import Xv6.Access.Mapping
import Mathlib.Data.List.TakeWhile

/-!
# Strings and words of the user

`copyinstr` copies up to a terminator.  It goes page by page, with a loop over the bytes of each page,
and what it copies is what the process would read with one load after the other: `Loads`.  A load past
the first of a page finds the page there and changes nothing, so one fault for a page is enough.

`fetchaddr` has a bounds test of its own in front of `copyin`, which knows of the heap only.
-/

namespace Xv6

open Xv6.Lib

/-! ### `copyinstr` and `fetchstr` -/

/-- `strlen` in a buffer, `none` when there is no terminator in it. -/
def strlen : List UInt8 → Option Nat
  | [] => none
  | c :: cs => if c = 0 then some 0 else (strlen cs).map (· + 1)

section

variable [Image]

/-- `fetchstr` into `buf`: the result and the buffer afterwards; there is no result when `strlen`
leaves the buffer. -/
def fetchstr (p : Fin NPROC) (sz pagetable addr : Nat) (buf : List UInt8) (max : Nat) :
    VmM (Option Int × List UInt8) := do
  let (ok, dst) ← copyinstrDst p sz pagetable addr max
  let buf := dst ++ buf.drop dst.length
  if ok then pure ((strlen buf).map Int.ofNat, buf) else pure (some (-1), buf)

end

theorem strLoop_eq (g : Page) (n o : Nat) (dst : List UInt8) :
    strLoop g n o dst =
      if (((List.range n).map fun k => byteAt g (o + k)).takeWhile (· != 0)).length < n then
        (true, dst ++ ((List.range n).map fun k => byteAt g (o + k)).takeWhile (· != 0) ++ [0])
      else (false, dst ++ ((List.range n).map fun k => byteAt g (o + k)).takeWhile (· != 0)) := by
  induction n generalizing o dst with
  | zero => simp [strLoop]
  | succ n ih =>
    have hshift : (List.range (n + 1)).map (fun k => byteAt g (o + k)) =
        byteAt g o :: (List.range n).map fun k => byteAt g (o + 1 + k) := by
      rw [List.range_succ_eq_map, List.map_cons, List.map_map, Nat.add_zero]
      congr 1
      refine List.map_congr_left fun k _ => ?_
      rw [Function.comp_apply, Nat.add_assoc, Nat.add_comm 1 k]
    rw [strLoop, ih, hshift]
    by_cases h0 : byteAt g o = 0
    · rw [if_pos h0, List.takeWhile_cons_of_neg (by simp [h0])]
      simp
    · rw [if_neg h0, List.takeWhile_cons_of_pos (by simp [h0]), List.length_cons]
      simp only [List.append_assoc, List.singleton_append, Nat.add_lt_add_iff_right]

theorem take_terminator {l : List UInt8} (h : (l.takeWhile (· != 0)).length < l.length) :
    l.take ((l.takeWhile (· != 0)).length + 1) = l.takeWhile (· != 0) ++ [0] := by
  induction l with
  | nil => exact absurd h (Nat.lt_irrefl 0)
  | cons c l ih =>
    by_cases h0 : c = 0
    · rw [List.takeWhile_cons_of_neg (by simp [h0]), h0]
      rfl
    · rw [List.takeWhile_cons_of_pos (by simp [h0])] at h ⊢
      rw [List.length_cons, List.take_succ_cons, ih (by simpa using h)]
      rfl

theorem terminator_unique {s t u : List UInt8} (hs : 0 ∉ s) (ht : 0 ∉ t)
    (h : s ++ [0] = t ++ [0] ++ u) : s = t ∧ u = [] := by
  induction s generalizing t with
  | nil =>
    cases t with
    | nil => exact ⟨rfl, by simpa using h.symm⟩
    | cons c t =>
      have hc : 0 = c := (List.cons.inj h).1
      exact absurd (by simp [hc]) ht
  | cons c s ih =>
    rw [List.mem_cons, not_or] at hs
    cases t with
    | nil => exact absurd (List.cons.inj h).1.symm hs.1
    | cons d t =>
      obtain ⟨rfl, hrest⟩ := List.cons.inj h
      rw [List.mem_cons, not_or] at ht
      obtain ⟨rfl, rfl⟩ := ih hs.2 ht.2 hrest
      exact ⟨rfl, rfl⟩

theorem strlen_append {s : List UInt8} (hs : 0 ∉ s) (rest : List UInt8) :
    strlen (s ++ 0 :: rest) = some s.length := by
  induction s with
  | nil => rfl
  | cons c s ih =>
    rw [List.mem_cons, not_or] at hs
    rw [List.cons_append, strlen, if_neg (Ne.symm hs.1), ih hs.2]
    rfl

section

variable [Image] {K T : Nat → Nat} {R : Finset Nat} {v v' v₁ v₂ : Vm} {p : Fin NPROC} {sz r va w : Nat}
  {E : Panic → Prop}

/-! ### One load after the other -/

/-- **The process reads the bytes `s` from `va` on**: each of them is there or its fault is
resolved. -/
inductive Loads (p : Fin NPROC) (sz r : Nat) : Nat → List UInt8 → Vm → Vm → Prop
  | nil (va : Nat) (v : Vm) : Loads p sz r va [] v v
  | cons {va : Nat} {c : UInt8} {s : List UInt8} {v v₁ v₂ : Vm}
      (head : (loadByte p sz r va) v = .ok (some c, v₁)) (tail : Loads p sz r (va + 1) s v₁ v₂) :
      Loads p sz r va (c :: s) v v₂

theorem Loads.append {s t : List UInt8} (h : Loads p sz r va s v v₁)
    (h' : Loads p sz r (va + s.length) t v₁ v₂) : Loads p sz r va (s ++ t) v v₂ := by
  induction h with
  | nil va v => exact h'
  | cons head tail ih =>
    refine .cons head (ih ?_)
    rw [List.length_cons, Nat.add_comm _ 1, ← Nat.add_assoc] at h'
    exact h'

/-- Of two readings from one address one goes on where the other ends. -/
theorem Loads.compare {s t : List UInt8} (h : Loads p sz r va s v v₁) (h' : Loads p sz r va t v v₂) :
    (∃ u, t = s ++ u ∧ Loads p sz r (va + s.length) u v₁ v₂) ∨
      ∃ u, s = t ++ u ∧ Loads p sz r (va + t.length) u v₂ v₁ := by
  induction h generalizing t with
  | nil va v => exact .inl ⟨t, rfl, h'⟩
  | @cons va c s v v₁ v₂ head tail ih =>
    have hidx : ∀ k, va + (k + 1) = va + 1 + k := fun k => by omega
    cases h' with
    | nil => exact .inr ⟨_, rfl, .cons head tail⟩
    | cons head' tail' =>
      rw [head] at head'
      cases head'
      rcases ih tail' with ⟨u, rfl, hu⟩ | ⟨u, rfl, hu⟩
      · refine .inl ⟨u, rfl, ?_⟩
        rw [List.length_cons, hidx]
        exact hu
      · refine .inr ⟨u, rfl, ?_⟩
        rw [List.length_cons, hidx]
        exact hu

theorem Space.permits_read (h : Space K T R v p r) {n : Nat} (hw : v.kmem.pte r n = some w)
    (hu : pteU w = true) : permits true w = true := by
  unfold permits
  rw [hu, (h.user hw hu).2.2.1]
  rfl

theorem Space.loadByte_present (h : Space K T R v p r) (sz : Nat) (hva : va < MAXVA)
    (hw : v.kmem.pte r (pageOf va) = some w) (hu : pteU w = true) :
    (loadByte p sz r va) v = .ok (some (byteAt (v.kmem.mem (pte2pa w)) (va % PGSIZE)), v) := by
  refine loadByte_some (userAccess_hit ?_)
  rw [Kmem.hwFrame_eq hva hw, h.permits_read hw hu, if_pos rfl]

theorem Space.below (h : Space K T R v p r) (hw : v.kmem.pte r (pageOf va) = some w) (hu : pteU w = true) :
    va < MAXVA := by
  have hlow : va / 4096 < 67108864 := (h.user hw hu).2.1
  show va < 274877906944
  omega

theorem Space.loads_present (h : Space K T R v p r) (sz : Nat) (hw : v.kmem.pte r (pageOf va) = some w)
    (hu : pteU w = true) {n : Nat} (hn : va % PGSIZE + n ≤ PGSIZE) :
    Loads p sz r va ((List.range n).map fun k => byteAt (v.kmem.mem (pte2pa w)) (va % PGSIZE + k)) v v := by
  induction n with
  | zero => exact .nil va v
  | succ n ih =>
    have hn' : va % 4096 + (n + 1) ≤ 4096 := hn
    rw [List.range_succ, List.map_append]
    refine (ih (Nat.le_trans (by omega) hn)).append (.cons ?_ (.nil _ _))
    rw [List.length_map, List.length_range]
    have hpage : pageOf (va + n) = pageOf va := pageOf_round hn (Nat.lt_succ_self n)
    have hmod : (va + n) % PGSIZE = va % PGSIZE + n := by
      show (va + n) % 4096 = va % 4096 + n
      omega
    have hw' : v.kmem.pte r (pageOf (va + n)) = some w := by rw [hpage, hw]
    have hload := h.loadByte_present sz (h.below hw' hu) hw' hu
    rw [hmod] at hload
    exact hload

/-- What is there is read without a fault. -/
theorem Space.loads_resident (h : Space K T R v p r) {n : Nat} {c : Nat → UInt8} (hres : Resident v r va n)
    (hview : ∀ k < n, v.viewByte p sz r (va + k) = some (c k)) :
    Loads p sz r va ((List.range n).map c) v v := by
  induction n with
  | zero => exact .nil va v
  | succ n ih =>
    rw [List.range_succ, List.map_append]
    refine (ih (fun k hk => hres k (by omega)) fun k hk => hview k (by omega)).append (.cons ?_ (.nil _ _))
    rw [List.length_map, List.length_range]
    obtain ⟨w, hw, hu⟩ := hres n (Nat.lt_succ_self n)
    have hbyte := hview n (Nat.lt_succ_self n)
    unfold Vm.viewByte at hbyte
    rw [Vm.viewPage_some hw, hu, if_pos rfl] at hbyte
    rw [h.loadByte_present sz (h.below hw hu) hw hu, ← hbyte]
    rfl

theorem Written.loads {src : Nat → UInt8} {n : Nat} (h : Written K T R p sz r va src n v v')
    (hres : Resident v' r va n) :
    Space K T R v' p r ∧ Loads p sz r va ((List.range n).map src) v' v' := by
  refine ⟨h.space, h.space.loads_resident hres fun k hk => ?_⟩
  rw [h.view, if_pos (by omega), Nat.add_sub_cancel_left]

/-- **The page behind an address**, found by `copyinstr` and by a load. -/
theorem Space.wp_userPage_load (h : Space K T R v p r) (sz : Nat) (hmax : va < 2 ^ 64) :
    wp (userPage p sz r (pgrounddown va) true) v (fun pa v' => Space K T R v' p r ∧
      ((pa ≠ 0 ∧ va < MAXVA ∧ ∃ w, v'.kmem.pte r (pageOf va) = some w ∧ pteU w = true ∧ pte2pa w = pa ∧
        (loadByte p sz r va) v = .ok (some (byteAt (v'.kmem.mem pa) (va % PGSIZE)), v')) ∨
      (pa = 0 ∧ (loadByte p sz r va) v = .ok (none, v')))) E := by
  by_cases hva : va < MAXVA
  · refine wp_conseq (h.userPage_access sz hva true) fun pa v' hpa => ?_
    obtain ⟨hspace, ⟨hne, w, hw, hu, rfl, haccess⟩ | ⟨rfl, haccess⟩⟩ := hpa
    · rw [hspace.permits_read hw hu, if_pos rfl] at haccess
      exact ⟨hspace, .inl ⟨hne, hva, w, hw, hu, rfl, loadByte_some haccess⟩⟩
    · exact ⟨hspace, .inr ⟨rfl, loadByte_none haccess⟩⟩
  · have hge : MAXVA ≤ va := Nat.le_of_not_lt hva
    refine wp_conseq (wp_run (h.wp_userPage sz hmax true)) fun pa v' hpa => ?_
    obtain ⟨-, htouch, -, -, ⟨-, hlt, -⟩ | ⟨rfl, -, hfault⟩⟩ := hpa
    · exact absurd hlt hva
    · refine ⟨htouch.space, .inr ⟨rfl, ?_⟩⟩
      -- above `MAXVA` the fault changes nothing
      have hsame := run_of_wp (h.vmfault_high hge sz true)
      rw [hsame] at hfault
      cases hfault
      exact loadByte_none (h.userAccess_high hge hmax true)

/-! ### The loops -/

/-- What `copyinstr` leaves: a string with its terminator, or the bytes before the end of the room or
before a page that cannot be read. -/
def StrPost (K T : Nat → Nat) (R : Finset Nat) (p : Fin NPROC) (sz r srcva max : Nat) (v : Vm)
    (b : Bool) (dst : List UInt8) (v' : Vm) : Prop :=
  Space K T R v' p r ∧ ∃ s, 0 ∉ s ∧
    ((b = true ∧ dst = s ++ [0] ∧ s.length < max ∧ Loads p sz r srcva (s ++ [0]) v v') ∨
    (b = false ∧ dst = s ∧ ∃ v₁, Loads p sz r srcva s v v₁ ∧
      (s.length = max ∧ v' = v₁ ∨
        s.length < max ∧ (loadByte p sz r (srcva + s.length)) v₁ = .ok (none, v'))))

theorem StrPost.cons {srcva srcva' max j : Nat} {b : Bool} {s dst : List UInt8} (hs : 0 ∉ s)
    (hj : s.length = j) (hload : Loads p sz r srcva s v v₁)
    (h : StrPost K T R p sz r srcva' (max - j) v₁ b dst v') (hle : j ≤ max)
    (hnext : max - j = 0 ∨ srcva' = srcva + j) :
    StrPost K T R p sz r srcva max v b (s ++ dst) v' := by
  obtain ⟨hspace, t, ht, hcase⟩ := h
  have hst : 0 ∉ s ++ t := by
    rw [List.mem_append, not_or]
    exact ⟨hs, ht⟩
  refine ⟨hspace, s ++ t, hst, ?_⟩
  rw [List.length_append, hj]
  rcases hcase with ⟨hb, rfl, hlen, hrest⟩ | ⟨hb, rfl, v₂, hrest, hend⟩
  · obtain rfl := hnext.resolve_left (by omega)
    refine .inl ⟨hb, (List.append_assoc _ _ _).symm, by omega, ?_⟩
    rw [List.append_assoc]
    rw [← hj] at hrest
    exact hload.append hrest
  · refine .inr ⟨hb, rfl, v₂, ?_, ?_⟩
    · rcases hnext with h0 | rfl
      · -- there is no room left, so nothing more is read
        have ht0 : dst = [] := List.eq_nil_of_length_eq_zero (by omega)
        subst ht0
        cases hrest
        rw [List.append_nil]
        exact hload
      · rw [← hj] at hrest
        exact hload.append hrest
    · rcases hend with ⟨hlen, rfl⟩ | ⟨hlen, hnone⟩
      · exact .inl ⟨by omega, rfl⟩
      · obtain rfl := hnext.resolve_left (by omega)
        rw [Nat.add_assoc] at hnone
        exact .inr ⟨by omega, hnone⟩

/-- **The loop of `copyinstr`.** -/
theorem Space.wp_copyinstrDstLoop (sz fuel : Nat) {v : Vm} (h : Space K T R v p r) {srcva max : Nat}
    (dst : List UInt8) (hmax : srcva < 2 ^ 64)
    (hfuel : (srcva % PGSIZE + max + PGSIZE - 1) / PGSIZE < fuel) :
    wp (copyinstrDstLoop p sz r fuel srcva max dst) v (fun y v' => ∃ t, y.2 = dst ++ t ∧
      StrPost K T R p sz r srcva max v y.1 t v') E := by
  induction fuel generalizing v srcva max dst with
  | zero => exact absurd hfuel (Nat.not_lt_zero _)
  | succ fuel ih =>
    unfold copyinstrDstLoop
    by_cases hroom : max = 0
    · subst hroom
      rw [if_pos rfl]
      refine wp_pure.2 ⟨[], (List.append_nil dst).symm, h, [], List.not_mem_nil, .inr ⟨rfl, rfl, v, ?_⟩⟩
      exact ⟨.nil srcva v, .inl ⟨rfl, rfl⟩⟩
    rw [if_neg hroom]
    dsimp only
    refine wp_seq (h.wp_userPage_load sz hmax) fun pa v₁ hpa => ?_
    obtain ⟨hspace, ⟨hne, hva, w, hw, hu, rfl, hload⟩ | ⟨rfl, hload⟩⟩ := hpa
    · obtain ⟨hin, hpos, hnext⟩ := round_bounds srcva max hroom
      have hround := round_fuel hroom hfuel
      rw [if_neg hne, wp_bind, wp_get, sub_pgrounddown, strLoop_eq]
      rw [sub_pgrounddown] at hin hpos hnext hround
      generalize hj : min (PGSIZE - srcva % PGSIZE) max = j at *
      have hmax' : pgrounddown srcva + PGSIZE < 2 ^ 64 := by
        have hlt : srcva < 274877906944 := hva
        have := pgrounddown_le srcva
        show pgrounddown srcva + 4096 < 2 ^ 64
        omega
      -- the bytes of the page, with the fault at the first
      have hpage : ∀ n, 0 < n → n ≤ j → Loads p sz r srcva
          ((List.range n).map fun k => byteAt (v₁.kmem.mem (pte2pa w)) (srcva % PGSIZE + k)) v v₁ := by
        intro n hn hnj
        have hall := hspace.loads_present sz hw hu (n := n) (Nat.le_trans (by omega) hin)
        obtain ⟨k, rfl⟩ : ∃ k, n = k + 1 := ⟨n - 1, by omega⟩
        rw [List.range_succ_eq_map, List.map_cons] at hall ⊢
        cases hall with
        | cons head tail =>
          have hsame := hspace.loadByte_present sz hva hw hu
          rw [hsame] at head
          cases head
          exact .cons hload tail
      generalize hbytes : (List.range j).map
        (fun k => byteAt (v₁.kmem.mem (pte2pa w)) (srcva % PGSIZE + k)) = bytes at *
      have hlen : bytes.length = j := by rw [← hbytes, List.length_map, List.length_range]
      have hzero : (0 : UInt8) ∉ bytes.takeWhile (· != 0) := by
        intro hmem
        have := List.mem_takeWhile_imp hmem
        simp at this
      by_cases hstop : (bytes.takeWhile (· != 0)).length < j
      · rw [if_pos hstop]
        refine wp_pure.2 ⟨bytes.takeWhile (· != 0) ++ [0], List.append_assoc _ _ _, hspace, _, hzero,
          .inl ⟨rfl, rfl, by omega, ?_⟩⟩
        have htake : (List.range ((bytes.takeWhile (· != 0)).length + 1)).map
            (fun k => byteAt (v₁.kmem.mem (pte2pa w)) (srcva % PGSIZE + k)) =
            bytes.takeWhile (· != 0) ++ [0] := by
          rw [← take_terminator (l := bytes) (by omega), ← hbytes, ← List.map_take, List.take_range, hbytes,
            Nat.min_eq_left (by omega)]
        rw [← htake]
        exact hpage _ (Nat.succ_pos _) hstop
      · have hfull : bytes.takeWhile (· != 0) = bytes := by
          refine List.IsPrefix.eq_of_length_le (List.takeWhile_prefix _) ?_
          omega
        rw [if_neg hstop, hfull]
        dsimp only
        rw [Nat.mod_eq_of_lt hmax']
        refine wp_conseq (ih hspace _ hmax' hround) fun y v' hy => ?_
        obtain ⟨t, hdst, hpost⟩ := hy
        rw [hfull] at hzero
        refine ⟨bytes ++ t, by rw [hdst, List.append_assoc], StrPost.cons hzero hlen ?_ hpost (by omega)
          (hnext.imp_right And.left)⟩
        rw [← hbytes]
        exact hpage j hpos (Nat.le_refl j)
    · rw [if_pos rfl]
      refine wp_pure.2 ⟨[], (List.append_nil dst).symm, hspace, [], List.not_mem_nil,
        .inr ⟨rfl, rfl, v, .nil srcva v, .inr ⟨by simpa using Nat.pos_of_ne_zero hroom, ?_⟩⟩⟩
      exact hload

/-- **`copyinstr`.** -/
theorem Space.wp_copyinstrDst (h : Space K T R v p r) (sz : Nat) {srcva : Nat} (hmax : srcva < 2 ^ 64)
    (max : Nat) :
    wp (copyinstrDst p sz r srcva max) v
      (fun y v' => StrPost K T R p sz r srcva max v y.1 y.2 v') E := by
  refine wp_conseq (h.wp_copyinstrDstLoop sz (max / PGSIZE + 3) [] hmax ?_) fun y v' hy => ?_
  · show (srcva % 4096 + max + 4096 - 1) / 4096 < max / 4096 + 3
    omega
  · obtain ⟨t, hdst, hpost⟩ := hy
    rw [hdst]
    exact hpost

theorem StrPost.length_le {srcva max : Nat} {b : Bool} {dst : List UInt8}
    (h : StrPost K T R p sz r srcva max v b dst v') : dst.length ≤ max := by
  obtain ⟨-, s, -, ⟨-, rfl, hlen, -⟩ | ⟨-, rfl, v₁, -, hend⟩⟩ := h
  · rw [List.length_append, List.length_singleton]
    omega
  · rcases hend with ⟨hlen, -⟩ | ⟨hlen, -⟩
    · omega
    · omega

/-- **A string that can be read is copied**, and ends the copy. -/
theorem StrPost.of_loads {srcva max : Nat} {b : Bool} {dst s : List UInt8} {v₂ : Vm}
    (h : StrPost K T R p sz r srcva max v b dst v') (hs : 0 ∉ s) (hlen : s.length < max)
    (hloads : Loads p sz r srcva (s ++ [0]) v v₂) : b = true ∧ dst = s ++ [0] ∧ v' = v₂ := by
  obtain ⟨-, t, ht, ⟨rfl, rfl, -, hread⟩ | ⟨-, rfl, v₁, hread, hend⟩⟩ := h
  · rcases hread.compare hloads with ⟨u, hu, hrest⟩ | ⟨u, hu, hrest⟩
    · obtain ⟨rfl, rfl⟩ := terminator_unique hs ht hu
      cases hrest
      exact ⟨rfl, rfl, rfl⟩
    · obtain ⟨rfl, rfl⟩ := terminator_unique ht hs hu
      cases hrest
      exact ⟨rfl, rfl, rfl⟩
  · exfalso
    rcases hread.compare hloads with ⟨u, hu, hrest⟩ | ⟨u, hu, -⟩
    · cases hrest with
      | nil =>
        -- the terminator would be among the bytes read
        rw [List.append_nil] at hu
        exact ht (by rw [← hu]; simp)
      | cons head tail =>
        rcases hend with ⟨hfull, -⟩ | ⟨-, hnone⟩
        · have hlength := congrArg List.length hu
          simp only [List.length_append, List.length_cons, List.length_nil] at hlength
          omega
        · rw [head] at hnone
          cases hnone
    · exact ht (by rw [hu]; simp)

/-- **`copyinstr` and `fetchstr` are correct**, at every address and for every room.  The call returns
`0` exactly when the process could read a terminated string there that fits, and then that string is
what has been written; it never writes more than the room, and `fetchstr` stays in its buffer. -/
theorem copyinstr_correct (h : Space K T R v p r) (sz : Nat) {srcva : Nat} (hmax : srcva < 2 ^ 64)
    (max : Nat) :
    ∃ b dst v', (copyinstrDst p sz r srcva max) v = .ok ((b, dst), v') ∧ Space K T R v' p r ∧
      (copyinstr p sz r srcva max) v = .ok (if b then some dst.dropLast else none, v') ∧
      dst.length ≤ max ∧
      (b = true ↔ ∃ s v₂, s.length < max ∧ 0 ∉ s ∧ Loads p sz r srcva (s ++ [0]) v v₂) ∧
      (∀ s v₂, s.length < max → 0 ∉ s → Loads p sz r srcva (s ++ [0]) v v₂ →
        dst = s ++ [0] ∧ v' = v₂) ∧
      ∀ buf : List UInt8, max ≤ buf.length →
        (fetchstr p sz r srcva buf max) v =
          .ok ((some (if b then (dst.length - 1 : Nat) else -1), dst ++ buf.drop dst.length), v') := by
  obtain ⟨⟨b, dst⟩, v', hrun, hpost⟩ := wp_total (h.wp_copyinstrDst sz hmax max)
  have hcall : (copyinstr p sz r srcva max) v = .ok (if b then some dst.dropLast else none, v') := by
    refine run_of_wp ?_
    rw [copyinstr, wp_bind]
    exact wp_of_run hrun (wp_pure.2 ⟨rfl, rfl⟩)
  refine ⟨b, dst, v', hrun, hpost.1, hcall, hpost.length_le, ⟨fun hb => ?_, ?_⟩, ?_, fun buf hbuf => ?_⟩
  · obtain ⟨-, s, hs, ⟨-, -, hlen, hloads⟩ | ⟨hfalse, -⟩⟩ := hpost
    · exact ⟨s, v', hlen, hs, hloads⟩
    · rw [hb] at hfalse
      cases hfalse
  · rintro ⟨s, v₂, hlen, hs, hloads⟩
    exact (hpost.of_loads hs hlen hloads).1
  · intro s v₂ hlen hs hloads
    exact (hpost.of_loads hs hlen hloads).2
  · refine run_of_wp ?_
    rw [fetchstr, wp_bind]
    refine wp_of_run hrun ?_
    dsimp only
    cases b with
    | false => exact wp_pure.2 ⟨rfl, rfl⟩
    | true =>
      obtain ⟨-, s, hs, ⟨-, hdst, -⟩ | ⟨hfalse, -⟩⟩ := hpost
      · have hdst' : dst = s ++ [0] := hdst
        subst hdst'
        have hstr : strlen (s ++ [0] ++ buf.drop (s ++ [0]).length) = some s.length := by
          rw [List.append_assoc]
          exact strlen_append hs _
        rw [if_pos rfl, hstr, List.length_append, List.length_singleton, Nat.add_sub_cancel]
        exact wp_pure.2 ⟨rfl, rfl⟩
      · cases hfalse

/-! ### `fetchaddr` -/

theorem fetchaddr_heap {addr : Nat} (hsz : sz < 2 ^ 64) (hheap : addr + 8 ≤ sz) {o : Option (List UInt8)}
    (hcopy : (copyin p sz r addr 8) v = .ok (o, v')) :
    (fetchaddr p sz r addr) v = .ok (o.map fun bytes => leField (listBytes bytes) 0 8, v') := by
  have hmod : (addr + 8) % 2 ^ 64 = addr + 8 := Nat.mod_eq_of_lt (by omega)
  refine run_of_wp ?_
  unfold fetchaddr
  rw [hmod, if_neg (by omega), wp_bind]
  refine wp_of_run hcopy ?_
  cases o with
  | none | some bytes => exact wp_pure.2 ⟨rfl, rfl⟩

theorem fetchaddr_high {addr : Nat} (hmax : addr + 8 < 2 ^ 64) (hhigh : ¬ addr + 8 ≤ sz) :
    (fetchaddr p sz r addr) v = .ok (none, v) := by
  have hmod : (addr + 8) % 2 ^ 64 = addr + 8 := Nat.mod_eq_of_lt hmax
  unfold fetchaddr
  rw [hmod, if_pos (by omega)]
  rfl

/-- **`fetchaddr` and `copyin`** on eight bytes of the heap or of an area: they agree on the heap, and
elsewhere `fetchaddr` fails, while `copyin` reads what the process sees there when there is memory for
the pages. -/
theorem fetchaddr_agrees (h : Space K T R v p r) {addr : Nat} (hsz : sz < 2 ^ 64)
    (hin : addr + 8 ≤ sz ∨ ∃ i, (v.area i).p = some p ∧ (v.area i).addr ≤ addr ∧
      addr + 8 ≤ (v.area i).stop) :
    (addr + 8 ≤ sz → ((∃ x v', (fetchaddr p sz r addr) v = .ok (some x, v')) ↔
      ∃ bs v', (copyin p sz r addr 8) v = .ok (some bs, v'))) ∧
    (¬ addr + 8 ≤ sz → (fetchaddr p sz r addr) v = .ok (none, v) ∧
      ((∀ k < 8, (v.viewByte p sz r (addr + k)).isSome = true) →
        Stocked v.kmem.mem v.kmem.freelist (3 * pagesIn addr 8) →
        ∃ bs v', (copyin p sz r addr 8) v = .ok (some bs, v'))) := by
  refine ⟨fun hheap => ?_, fun hheap => ?_⟩
  · obtain ⟨o, v₁, hcopy, -⟩ := wp_total (h.wp_copyin sz (show addr < 2 ^ 64 by omega) 8)
    have hfetch := fetchaddr_heap hsz hheap hcopy
    rw [hfetch, hcopy]
    cases o with
    | none => exact ⟨fun ⟨_, _, he⟩ => (by cases he), fun ⟨_, _, he⟩ => (by cases he)⟩
    | some bytes => exact ⟨fun _ => ⟨bytes, v₁, rfl⟩, fun _ => ⟨_, v₁, rfl⟩⟩
  · obtain ⟨i, hp, -, hstop⟩ := hin.resolve_left hheap
    have hmax : addr + 8 < 2 ^ 64 := by
      obtain ⟨-, hend⟩ := h.areas i hp
      have hle : (v.area i).stop ≤ (v.area i).addr + u64 (v.area i).length := Nat.mod_le _ _
      have hlt : TRAPFRAME < 2 ^ 64 := by decide
      omega
    refine ⟨fetchaddr_high hmax hheap, fun hseen hfree => ?_⟩
    have hbytes : ∀ k < 8, v.viewByte p sz r (addr + k) = some ((v.viewByte p sz r (addr + k)).getD 0) := by
      intro k hk
      obtain ⟨d, hd⟩ := Option.isSome_iff_exists.1 (hseen k hk)
      simp only [hd, Option.getD_some]
    obtain ⟨v', hcopy⟩ := h.copyin_view (show addr < 2 ^ 64 by omega) hbytes hfree
    exact ⟨_, v', hcopy⟩

end

/-- The string `sh`, over the boundary of two pages of a small process. -/
theorem copyinstr_correct_five : ∃ v,
    (@copyout fivePages ⟨0, by decide⟩ 8192 fiveRoot 4095 (listBytes [115, 104, 0]) 3) fiveVm = .ok (true, v) ∧
    (@copyinstr fivePages ⟨0, by decide⟩ 8192 fiveRoot 4095 16) v = .ok (some [115, 104], v) ∧
    (@fetchstr fivePages ⟨0, by decide⟩ 8192 fiveRoot 4095 (List.replicate 4 1) 4) v =
      .ok ((some 2, [115, 104, 0, 1]), v) := by
  obtain ⟨b, v, hout, htrue, -⟩ := wp_total (@Space.wp_copyout fivePages _ _ _ _ ⟨0, by decide⟩ _ (fun _ => False)
    (space_five _) 8192 4095 (by decide) (listBytes [115, 104, 0]) 3)
  have hb : (Except.toOption ((@copyout fivePages ⟨0, by decide⟩ 8192 fiveRoot 4095
      (listBytes [115, 104, 0]) 3) fiveVm)).map Prod.fst = some true := by decide +kernel
  rw [hout] at hb
  cases Option.some.inj hb
  obtain ⟨hwritten, hres⟩ := htrue rfl
  obtain ⟨hspace, hloads⟩ := @Written.loads fivePages _ _ _ _ _ _ _ _ _ _ _ hwritten hres
  refine ⟨v, hout, ?_, ?_⟩
  · obtain ⟨b, dst, v', -, -, hcall, -, hiff, hstr, -⟩ :=
      @copyinstr_correct fivePages _ _ _ _ ⟨0, by decide⟩ _ hspace 8192 4095 (by decide) 16
    obtain ⟨rfl, rfl⟩ := hstr [115, 104] v (by decide) (by decide) hloads
    rw [hiff.2 ⟨[115, 104], _, by decide, by decide, hloads⟩] at hcall
    exact hcall
  · obtain ⟨b, dst, v', -, -, -, -, hiff, hstr, hfetch⟩ :=
      @copyinstr_correct fivePages _ _ _ _ ⟨0, by decide⟩ _ hspace 8192 4095 (by decide) 4
    have hbuf := hfetch (List.replicate 4 1) (by decide)
    obtain ⟨rfl, rfl⟩ := hstr [115, 104] v (by decide) (by decide) hloads
    rw [hiff.2 ⟨[115, 104], _, by decide, by decide, hloads⟩] at hbuf
    exact hbuf

/-- Eight bytes of the heap of a small process. -/
theorem fetchaddr_agrees_five :
    ∃ x v', (@fetchaddr fivePages ⟨0, by decide⟩ 4096 fiveRoot 8) fiveVm = .ok (some x, v') := by
  obtain ⟨o, v', hcopy, -⟩ := wp_total (@Space.wp_copyin fivePages _ _ _ _ ⟨0, by decide⟩ _ (fun _ => False)
    (space_five _) 4096 8 (by decide) 8)
  have ho : (Except.toOption ((@copyin fivePages ⟨0, by decide⟩ 4096 fiveRoot 8 8) fiveVm)).map Prod.fst =
      some (some [0, 0, 0, 0, 0, 0, 0, 0]) := by decide +kernel
  rw [hcopy] at ho
  cases Option.some.inj ho
  exact ((@fetchaddr_agrees fivePages _ _ _ _ ⟨0, by decide⟩ _ _ (space_five _) 8 (by decide)
    (.inl (by decide))).1 (by decide)).2 ⟨_, v', hcopy⟩

/-- **Eight bytes of an area**: `copyin` reads them, and `fetchaddr` fails. -/
theorem fetchaddr_refuses_area :
    ((@copyin fivePages ⟨0, by decide⟩ 0 fiveRoot MMAPBASE 8) overlapVm).toOption.map Prod.fst =
      some (some [0, 0, 0, 0, 0, 0, 0, 0]) ∧
    ((@fetchaddr fivePages ⟨0, by decide⟩ 0 fiveRoot MMAPBASE) overlapVm).toOption.map Prod.fst =
      some none ∧
    (overlapVm.area ⟨0, by decide⟩).p = some ⟨0, by decide⟩ ∧
    (overlapVm.area ⟨0, by decide⟩).addr = MMAPBASE ∧
    MMAPBASE + 8 ≤ (overlapVm.area ⟨0, by decide⟩).stop := by
  refine ⟨by decide +kernel, by decide +kernel, rfl, rfl, by decide⟩

end Xv6
