import Xv6.Inode.Model
import Xv6.Lib.Ends
import Mathlib.Data.List.Perm.Basic
import Mathlib.Data.List.FinRange

/-!
# The in-memory inode table

`inode_table`: in every run, an inode has at most one entry in use, the reference count of an
entry is the number of pointers to it, who holds its lock has one of them, and so the
`acquiresleep` of `iput` finds the lock free.  Who has locked an inode sees the allocation that is
on disk: `iput` has marked the entry not valid before it releases the lock, and the disk inode is
not free as long as the entry is valid and not about to be.
-/

namespace Xv6.Inode

open Xv6.Lib

variable {P : Type} [DecidableEq P] {s t : Sys P} {p q : P} {e f : Fin NINODE} {key : Key}

/-- The number of pointers to an entry. -/
def Sys.pointers (s : Sys P) (e : Fin NINODE) : Nat := (s.ptrs.map Prod.snd).count e

/-- What a process inside `ilock` or `iput` has. -/
def Sys.Stands (s : Sys P) (p : P) : Pc → Prop
  | .fill e => (s.entry e).lock = some p
  | .trunc e | .update e | .inval e => (s.entry e).lock = some p ∧ (s.entry e).valid = true
  | .drop e => (p, e) ∈ s.ptrs ∧ (s.entry e).lock ≠ some p
  | .user | .alloced _ => True

/-- What is known of an entry in use, with `d` on disk and `k` where the holder of its lock stands: it is
the allocation that is on disk, until that is freed there. -/
structure Known (e : Fin NINODE) (x : Entry P) (d : Dinode) (k : Option Pc) : Prop where
  valid : x.lock ≠ none → k ≠ some (.fill e) → x.valid = true
  fresh : x.valid = true → k ≠ some (.inval e) → x.copy.gen = d.gen ∧ d.type ≠ 0
  typed : x.valid = true → k ≠ some (.inval e) → k ≠ some (.update e) → x.copy.type ≠ 0

/-- Where the holder of the lock of `e` stands. -/
def Sys.at (s : Sys P) (e : Fin NINODE) : Option Pc := (s.entry e).lock.map s.pc

structure Inv (s : Sys P) : Prop where
  refs : ∀ e, (s.entry e).ref = s.pointers e
  uniq : ∀ e f, 0 < (s.entry e).ref → 0 < (s.entry f).ref → (s.entry e).key = (s.entry f).key →
    e = f
  lockPtr : ∀ e p, (s.entry e).lock = some p → (p, e) ∈ s.ptrs
  stands : ∀ p, s.Stands p (s.pc p)
  known : ∀ e, 0 < (s.entry e).ref → Known e (s.entry e) (s.disk (s.entry e).key) (s.at e)

/-- A place that says nothing about the entry. -/
def Off (e : Fin NINODE) (c : Pc) : Prop := c ≠ .fill e ∧ c ≠ .inval e ∧ c ≠ .update e

omit [DecidableEq P] in
/-- What is known of an entry stays: only its count changes, and the holder of its lock may go from one
place that says nothing about it to another. -/
theorem Known.mono {x : Entry P} {d : Dinode} {n : Nat} (h : Known e x d (x.lock.map s.pc))
    (hx : t.entry e = { x with ref := n }) (hd : d.type ≠ 0 → t.disk x.key = d)
    (hpc : ∀ q, t.pc q = s.pc q ∨ Off e (s.pc q)) :
    Known e (t.entry e) (t.disk (t.entry e).key) (t.at e) := by
  have hne : ∀ c, ¬ Off e c → x.lock.map t.pc ≠ some c → x.lock.map s.pc ≠ some c := by
    intro c hc hk hs
    obtain ⟨q, hq, rfl⟩ := Option.map_eq_some_iff.1 hs
    rcases hpc q with he | hoff
    · exact hk (by rw [hq, ← he]; rfl)
    · exact hc hoff
  unfold Sys.at
  rw [hx]
  refine ⟨fun hl hk => h.valid hl (hne _ (fun ho => ho.1 rfl) hk), fun hv hk => ?_, fun hv hk hk' =>
    h.typed hv (hne _ (fun ho => ho.2.1 rfl) hk) (hne _ (fun ho => ho.2.2 rfl) hk')⟩
  have hf := h.fresh hv (hne _ (fun ho => ho.2.1 rfl) hk)
  show _ = (t.disk x.key).gen ∧ _
  rw [hd hf.2]
  exact hf

omit [DecidableEq P] in
/-- A process stands where it stood if the locks it holds, and the pointer it is about to drop, stay. -/
theorem Sys.Stands.mono {c : Pc} (h : s.Stands q c)
    (hlock : ∀ f, (s.entry f).lock = some q →
      (t.entry f).lock = some q ∧ (t.entry f).valid = (s.entry f).valid)
    (hdrop : ∀ f, c = .drop f → (q, f) ∈ s.ptrs → (s.entry f).lock ≠ some q →
      (q, f) ∈ t.ptrs ∧ (t.entry f).lock ≠ some q) : t.Stands q c := by
  have hheld : ∀ f, (s.entry f).lock = some q ∧ (s.entry f).valid = true →
      (t.entry f).lock = some q ∧ (t.entry f).valid = true := by
    rintro f ⟨hl, hv⟩
    obtain ⟨hl', hv'⟩ := hlock f hl
    exact ⟨hl', hv'.trans hv⟩
  cases c with
  | user | alloced k => trivial
  | fill f => exact (hlock f h).1
  | trunc f | update f | inval f => exact hheld f h
  | drop f => exact hdrop f rfl h.1 h.2

/-! ### Pointers -/

omit [DecidableEq P] in
theorem pointers_cons : (Sys.pointers { s with ptrs := (p, e) :: s.ptrs } f) =
    s.pointers f + if e = f then 1 else 0 := by
  show ((((p, e) :: s.ptrs).map Prod.snd).count f) = _
  rw [List.map_cons, List.count_cons]
  simp only [beq_iff_eq]
  rfl

omit [DecidableEq P] in
theorem pointers_pos (h : (p, e) ∈ s.ptrs) : 0 < s.pointers e :=
  List.count_pos_iff.2 (List.mem_map_of_mem h)

theorem mem_ptrs_erase (h : (q, f) ∈ s.ptrs) (hne : q ≠ p ∨ f ≠ e) : (q, f) ∈ s.ptrs.erase (p, e) := by
  refine (List.mem_erase_of_ne ?_).2 h
  intro he
  rcases hne with hn | hn
  · exact hn (Prod.mk.inj he).1
  · exact hn (Prod.mk.inj he).2

theorem pointers_erase (h : (p, e) ∈ s.ptrs) :
    (Sys.pointers { s with ptrs := s.ptrs.erase (p, e) } f) + (if e = f then 1 else 0) =
      s.pointers f := by
  have hp := ((List.perm_cons_erase h).map Prod.snd).count_eq f
  rw [List.map_cons, List.count_cons] at hp
  simp only [beq_iff_eq] at hp
  exact hp.symm

theorem eq_of_pointers_one (h1 : s.pointers e = 1) (hp : (p, e) ∈ s.ptrs) (hq : (q, e) ∈ s.ptrs) :
    p = q := by
  by_contra hne
  have hq' : (q, e) ∈ s.ptrs.erase (p, e) :=
    (List.mem_erase_of_ne fun he => hne (Prod.mk.inj he).1.symm).2 hq
  have h2 := pointers_erase (f := e) hp
  rw [if_pos rfl, h1] at h2
  have h3 : 0 < Sys.pointers { s with ptrs := s.ptrs.erase (p, e) } e :=
    List.count_pos_iff.2 (List.mem_map_of_mem hq')
  omega

omit [DecidableEq P] in
/-- The count of one entry changes. -/
theorem entry_count {n : Nat} (hn : 0 < n → 0 < (s.entry e).ref) (f : Fin NINODE) :
    ∃ m, (s.set e { s.entry e with ref := n }).entry f = { s.entry f with ref := m } ∧
      (0 < m → 0 < (s.entry f).ref) := by
  by_cases hf : f = e
  · subst hf
    exact ⟨n, upd_same .., hn⟩
  · exact ⟨(s.entry f).ref, upd_other _ _ hf, fun hr => hr⟩

namespace Inv

variable (h : Inv s)

include h

omit [DecidableEq P] in
theorem ref_pos (hp : (p, e) ∈ s.ptrs) : 0 < (s.entry e).ref := by
  rw [h.refs]
  exact pointers_pos hp

omit [DecidableEq P] in
theorem unused (he : (s.entry e).ref = 0) :
    (∀ p, (p, e) ∉ s.ptrs) ∧ (s.entry e).lock = none := by
  have hno : ∀ p, (p, e) ∉ s.ptrs := by
    intro p hp
    have := h.ref_pos hp
    omega
  refine ⟨hno, ?_⟩
  cases hl : (s.entry e).lock with
  | none => rfl
  | some p => exact absurd (h.lockPtr e p hl) (hno p)

/-- Who holds a lock still has a pointer when a process has given up one that it could spare. -/
theorem ptr_erase (hsp : s.Spare p e) (hl : (s.entry f).lock = some q) :
    (q, f) ∈ s.ptrs.erase (p, e) := by
  by_cases hqf : (q, f) = (p, e)
  · cases hqf
    rw [← List.count_pos_iff, List.count_erase_self]
    have := hsp hl
    omega
  · exact (List.mem_erase_of_ne hqf).2 (h.lockPtr f q hl)

/-- The last pointer to an entry is not one to spare for who has locked it. -/
theorem lock_ne (hsp : s.Spare p e) (h1 : (s.entry e).ref = 1) : (s.entry e).lock ≠ some p := by
  intro hl
  have h2 := hsp hl
  have h3 : s.ptrs.count (p, e) ≤ s.pointers e := List.count_le_count_map (f := Prod.snd)
  rw [← h.refs e, h1] at h3
  omega

omit [DecidableEq P] in
/-- **The counting rule**: only pointers and their counts change, and a process may be done with
`iput`. -/
theorem recount (hdisk : t.disk = s.disk)
    (hent : ∀ f, ∃ n, t.entry f = { s.entry f with ref := n } ∧ (0 < n → 0 < (s.entry f).ref))
    (hrefs : ∀ f, (t.entry f).ref = t.pointers f)
    (hlock : ∀ f q, (s.entry f).lock = some q → (q, f) ∈ t.ptrs)
    (hpc : ∀ q, t.pc q = s.pc q ∨ t.pc q = .user ∧ ∃ f, s.pc q = .drop f)
    (hdrop : ∀ q f, t.pc q = .drop f → (q, f) ∈ s.ptrs → (q, f) ∈ t.ptrs) : Inv t := by
  have hlocks : ∀ f, (t.entry f).lock = (s.entry f).lock := by
    intro f
    obtain ⟨n, hf, -⟩ := hent f
    rw [hf]
  refine ⟨hrefs, ?_, fun f q hl => hlock f q ((hlocks f).symm.trans hl), ?_, ?_⟩
  · intro f g hr hr' hk
    obtain ⟨n, hf, hn⟩ := hent f
    obtain ⟨m, hg, hm⟩ := hent g
    rw [hf] at hr hk
    rw [hg] at hr' hk
    exact h.uniq f g (hn hr) (hm hr') hk
  · intro q
    rcases hpc q with hq | ⟨hq, -⟩
    · rw [hq]
      refine (h.stands q).mono (fun f hl => ⟨(hlocks f).trans hl, ?_⟩)
        fun f hf hp hl => ⟨hdrop q f (hq.trans hf) hp, ?_⟩
      · obtain ⟨n, hf, -⟩ := hent f
        rw [hf]
      · rw [hlocks f]
        exact hl
    · rw [hq]
      trivial
  · intro f hr
    obtain ⟨n, hf, hn⟩ := hent f
    rw [hf] at hr
    refine (h.known f (hn hr)).mono hf (fun _ => by rw [hdisk]) fun q => (hpc q).imp id ?_
    rintro ⟨-, g, hq⟩
    rw [hq]
    exact ⟨nofun, nofun, nofun⟩

omit [DecidableEq P] in
theorem ref (he : 0 < (s.entry e).ref) : Inv (s.ref p e) := by
  refine h.recount rfl (entry_count fun _ => he) ?_
    (fun f q hl => List.mem_cons_of_mem _ (h.lockPtr f q hl)) (fun q => .inl rfl)
    fun q f _ hp => List.mem_cons_of_mem _ hp
  intro f
  rw [show (s.ref p e).pointers f = s.pointers f + if e = f then 1 else 0 from pointers_cons,
    ← h.refs]
  by_cases hf : f = e
  · subst hf
    rw [if_pos rfl]
    exact congrArg Entry.ref (upd_same s.entry f _)
  · rw [if_neg fun he => hf he.symm]
    exact congrArg Entry.ref (upd_other s.entry _ hf)

/-- A process gives up a pointer, in `iput` or at its end. -/
theorem unref (hmem : (p, e) ∈ s.ptrs) (hsp : s.Spare p e)
    (ho : s.pc p = .user ∨ ∃ f, s.pc p = .drop f) : Inv ((s.unref p e).goTo p .user) := by
  refine h.recount rfl (entry_count fun _ => h.ref_pos hmem) ?_ (fun f q hl => h.ptr_erase hsp hl)
    ?_ ?_
  · intro f
    have hp := pointers_erase (f := f) hmem
    have hr := h.refs f
    show ((s.unref p e).entry f).ref = Sys.pointers { s with ptrs := s.ptrs.erase (p, e) } f
    by_cases hf : f = e
    · subst hf
      have hx : ((s.unref p f).entry f).ref = (s.entry f).ref - 1 :=
        congrArg Entry.ref (upd_same s.entry f _)
      rw [if_pos rfl] at hp
      omega
    · have hx : ((s.unref p e).entry f).ref = (s.entry f).ref :=
        congrArg Entry.ref (upd_other s.entry _ hf)
      rw [if_neg fun he => hf he.symm] at hp
      omega
  · intro q
    by_cases hq : q = p
    · subst hq
      have hpc : ((s.unref q e).goTo q .user).pc q = .user := upd_same ..
      rcases ho with ho | ho
      · exact Or.inl (hpc.trans ho.symm)
      · exact Or.inr ⟨hpc, ho⟩
    · exact Or.inl (upd_other _ _ hq)
  · intro q f hpc hp
    refine mem_ptrs_erase hp (Or.inl ?_)
    rintro rfl
    rw [show ((s.unref q e).goTo q .user).pc q = .user from upd_same ..] at hpc
    cases hpc

theorem give (hmem : (p, e) ∈ s.ptrs) (hsp : s.Spare p e) (ho : s.pc p = .user) :
    Inv { s with ptrs := (q, e) :: s.ptrs.erase (p, e) } := by
  refine h.recount rfl (fun f => ⟨(s.entry f).ref, rfl, fun hr => hr⟩) ?_
    (fun f r hl => List.mem_cons_of_mem _ (h.ptr_erase hsp hl)) (fun r => .inl rfl) ?_
  · intro f
    have h1 := pointers_erase (f := f) hmem
    have h2 := pointers_cons (s := { s with ptrs := s.ptrs.erase (p, e) }) (p := q) (e := e) (f := f)
    rw [h1] at h2
    exact (h.refs f).trans h2.symm
  · intro r f hpc hp
    refine List.mem_cons_of_mem _ (mem_ptrs_erase hp (Or.inl ?_))
    rintro rfl
    cases ho.symm.trans hpc

end Inv

/-- A process that is outside, or at work on this entry. -/
def About (e : Fin NINODE) : Pc → Prop
  | .user | .alloced _ => True
  | .fill f | .trunc f | .update f | .inval f | .drop f => f = e

theorem About.off {c : Pc} (h : About e c) (hf : f ≠ e) : Off f c := by
  refine ⟨?_, ?_, ?_⟩ <;>
  · intro hc
    rw [hc] at h
    exact hf h

/-- **The work rule**: a process that alone has to do with the lock of an entry changes the entry,
its inode on disk, and where it stands. -/
theorem Inv.work {x : Entry P} {c : Pc} {k : Option Pc} (h : Inv s) (hmem : (p, e) ∈ s.ptrs)
    (hent : t.entry = upd s.entry e x) (hptrs : t.ptrs = s.ptrs) (hpcp : t.pc p = c)
    (hpcq : ∀ q, q ≠ p → t.pc q = s.pc q)
    (hdisk : ∀ k, k ≠ (s.entry e).key → t.disk k = s.disk k)
    (hkey : x.key = (s.entry e).key) (href : x.ref = (s.entry e).ref)
    (hold : (s.entry e).lock = none ∨ (s.entry e).lock = some p)
    (hnew : x.lock = none ∧ k = none ∨ x.lock = some p ∧ k = some c) (ho : About e (s.pc p))
    (hstands : t.Stands p c) (hknown : Known e x (t.disk x.key) k) : Inv t := by
  have hsame : t.entry e = x := by rw [hent, upd_same]
  have hother : ∀ f, f ≠ e → t.entry f = s.entry f := fun f hf => by rw [hent, upd_other _ _ hf]
  have hkeys : ∀ f, (t.entry f).key = (s.entry f).key ∧ (t.entry f).ref = (s.entry f).ref := by
    intro f
    by_cases hf : f = e
    · rw [hf, hsame]
      exact ⟨hkey, href⟩
    · rw [hother f hf]
      exact ⟨rfl, rfl⟩
  have hlock : ∀ q, x.lock = some q → q = p := by
    intro q hl
    rcases hnew with hn | hn
    · rw [hn.1] at hl
      cases hl
    · rw [hn.1] at hl
      exact (Option.some.inj hl).symm
  refine ⟨?_, ?_, ?_, ?_, ?_⟩
  · intro f
    rw [(hkeys f).2, h.refs, Sys.pointers, Sys.pointers, hptrs]
  · intro f g hf hg hk
    rw [(hkeys f).2] at hf
    rw [(hkeys g).2] at hg
    rw [(hkeys f).1, (hkeys g).1] at hk
    exact h.uniq f g hf hg hk
  · intro f q hl
    rw [hptrs]
    by_cases hf : f = e
    · rw [hf, hsame] at hl
      rw [hf, hlock q hl]
      exact hmem
    · rw [hother f hf] at hl
      exact h.lockPtr f q hl
  · intro q
    by_cases hq : q = p
    · rw [hq, hpcp]
      exact hstands
    · rw [hpcq q hq]
      -- another process does not have the lock of this entry
      have hno : (s.entry e).lock ≠ some q := by
        intro hl
        rcases hold with ho | ho
        · rw [ho] at hl
          cases hl
        · rw [ho] at hl
          exact hq (Option.some.inj hl).symm
      refine (h.stands q).mono (fun f hl => ?_) fun f _ hp hl => ⟨by rw [hptrs]; exact hp, ?_⟩
      · rw [hother f fun he => hno (he ▸ hl)]
        exact ⟨hl, rfl⟩
      · by_cases hf : f = e
        · rw [hf, hsame]
          exact fun hl => hq (hlock q hl)
        · rw [hother f hf]
          exact hl
  · intro f hr
    rw [(hkeys f).2] at hr
    by_cases hf : f = e
    · subst hf
      have hat : t.at f = k := by
        rw [Sys.at, hsame]
        rcases hnew with ⟨hl, rfl⟩ | ⟨hl, rfl⟩
        · rw [hl]
          rfl
        · rw [hl, ← hpcp]
          rfl
      rw [hat, hsame]
      exact hknown
    · -- the other entries in use are of other inodes
      refine (h.known f hr).mono (hother f hf) (fun _ => hdisk _ fun hk =>
        hf (h.uniq f e hr (h.ref_pos hmem) hk)) fun q => ?_
      by_cases hq : q = p
      · rw [hq]
        exact .inr (ho.off hf)
      · exact .inl (hpcq q hq)

omit [DecidableEq P] in
theorem Inv.recycle (h : Inv s) (he : (s.entry e).ref = 0)
    (hno : ∀ f, ¬(0 < (s.entry f).ref ∧ (s.entry f).key = key)) :
    Inv { s.set e { s.entry e with key := key, ref := 1, valid := false } with
      ptrs := (p, e) :: s.ptrs } := by
  obtain ⟨hptr, hlock⟩ := h.unused he
  generalize ht : ({ s.set e { s.entry e with key := key, ref := 1, valid := false } with
    ptrs := (p, e) :: s.ptrs } : Sys P) = t
  have hent : t.entry = upd s.entry e { s.entry e with key := key, ref := 1, valid := false } := by
    rw [← ht]
    rfl
  have hsame : t.entry e = { s.entry e with key := key, ref := 1, valid := false } := by
    rw [hent, upd_same]
  have hother : ∀ f, f ≠ e → t.entry f = s.entry f := fun f hf => by rw [hent, upd_other _ _ hf]
  have hptrs : t.ptrs = (p, e) :: s.ptrs := by rw [← ht]
  have hpc : t.pc = s.pc := by
    rw [← ht]
    rfl
  have hdisk : t.disk = s.disk := by
    rw [← ht]
    rfl
  have hlocks : ∀ f, (t.entry f).lock = (s.entry f).lock := by
    intro f
    by_cases hf : f = e
    · rw [hf, hsame]
    · rw [hother f hf]
  have hnolock : ∀ f q, (s.entry f).lock = some q → f ≠ e := by
    intro f q hl hf
    rw [hf, hlock] at hl
    cases hl
  refine ⟨?_, ?_, ?_, ?_, ?_⟩
  · intro f
    have hp : t.pointers f = s.pointers f + if e = f then 1 else 0 := by
      rw [Sys.pointers, hptrs]
      exact pointers_cons
    rw [hp]
    by_cases hf : f = e
    · subst hf
      rw [hsame, if_pos rfl, ← h.refs, he]
    · rw [hother f hf, if_neg fun h => hf h.symm]
      exact h.refs f
  · intro f g hf hg hk
    by_cases hfe : f = e
    · by_cases hge : g = e
      · rw [hfe, hge]
      · rw [hother g hge] at hg hk
        rw [hfe, hsame] at hk
        exact absurd ⟨hg, hk.symm⟩ (hno g)
    · rw [hother f hfe] at hf hk
      by_cases hge : g = e
      · rw [hge, hsame] at hk
        exact absurd ⟨hf, hk⟩ (hno f)
      · rw [hother g hge] at hg hk
        exact h.uniq f g hf hg hk
  · intro f q hl
    rw [hlocks] at hl
    rw [hptrs]
    exact List.mem_cons_of_mem _ (h.lockPtr f q hl)
  · intro q
    rw [hpc]
    refine (h.stands q).mono (fun f hl => ⟨(hlocks f).trans hl, by rw [hother f (hnolock f q hl)]⟩)
      fun f _ hp hl => ⟨by rw [hptrs]; exact List.mem_cons_of_mem _ hp, ?_⟩
    rw [hlocks]
    exact hl
  · intro f hr
    by_cases hf : f = e
    · -- nobody has locked the entry, and it is not valid
      subst hf
      rw [hsame]
      exact ⟨fun hl => absurd hlock hl, nofun, nofun⟩
    · rw [hother f hf] at hr
      exact (h.known f hr).mono (hother f hf) (fun _ => by rw [hdisk]) fun q => .inl (by rw [hpc])

omit [DecidableEq P] in
theorem Inv.iget (h : Inv s) (p : P) (key : Key) :
    Ends (s.iget p key) (fun t => Inv t ∧ t.pc = s.pc) (· ≠ .sleeping) := by
  unfold Sys.iget Sys.find
  split
  case h_1 e _ hf =>
    have he := List.find?_some (Prod.mk.inj hf).1
    exact ⟨h.ref (of_decide_eq_true he).1, rfl⟩
  case h_2 e hf =>
    obtain ⟨hnone, hsome⟩ := Prod.mk.inj hf
    have he := List.find?_some hsome
    refine ⟨h.recycle (of_decide_eq_true he) ?_, rfl⟩
    intro f hfk
    exact List.find?_eq_none.1 hnone f (List.mem_finRange f) (decide_eq_true hfk)
  case h_3 => exact nofun

/-- A process that is not at work on an entry. -/
def Loose (c : Pc) : Prop := c = .user ∨ ∃ key, c = .alloced key

theorem Loose.off {c : Pc} (h : Loose c) : Off e c := by
  rcases h with rfl | ⟨key, rfl⟩
  · exact ⟨nofun, nofun, nofun⟩
  · exact ⟨nofun, nofun, nofun⟩

/-- Such a process goes elsewhere; the disk changes at most where it holds a free inode. -/
theorem Inv.loose {c : Pc} {disk : Key → Dinode} (h : Inv s) (ho : Loose (s.pc p)) (hc : Loose c)
    (hdisk : ∀ k, (s.disk k).type ≠ 0 → disk k = s.disk k) :
    Inv ({ s with disk := disk }.goTo p c) := by
  have hpcp : ({ s with disk := disk }.goTo p c).pc p = c := upd_same ..
  have hpcq : ∀ q, q ≠ p → ({ s with disk := disk }.goTo p c).pc q = s.pc q := fun q hq =>
    upd_other _ _ hq
  refine ⟨h.refs, h.uniq, h.lockPtr, fun q => ?_, fun e hr =>
    (h.known e hr).mono rfl (hdisk _) fun q => ?_⟩
  · by_cases hq : q = p
    · rw [hq, hpcp]
      rcases hc with rfl | ⟨key, rfl⟩
      · trivial
      · trivial
    · rw [hpcq q hq]
      exact h.stands q
  · by_cases hq : q = p
    · rw [hq]
      exact .inr ho.off
    · exact .inl (hpcq q hq)

/-! ### Steps -/

section Steps

variable (h : Inv s)

include h

theorem Inv.lock_free (hmem : (p, e) ∈ s.ptrs) (hsp : s.Spare p e)
    (h1 : (s.entry e).ref = 1) : (s.entry e).lock = none := by
  have hne := h.lock_ne hsp h1
  cases hl : (s.entry e).lock with
  | none => rfl
  | some q =>
    have hpq := eq_of_pointers_one ((h.refs e).symm.trans h1) hmem (h.lockPtr e q hl)
    rw [hpq] at hne
    exact absurd hl hne

omit [DecidableEq P] in
/-- What the holder of a lock knows of the entry. -/
theorem Inv.known_held (hl : (s.entry e).lock = some p) :
    Known e (s.entry e) (s.disk (s.entry e).key) (some (s.pc p)) := by
  have hk := h.known e (h.ref_pos (h.lockPtr e p hl))
  rwa [Sys.at, hl] at hk

omit [DecidableEq P] in
/-- The holder of a lock who is back from `ilock` sees what is on disk. -/
theorem Inv.sees (hl : (s.entry e).lock = some p) (hpc : s.pc p = .user) :
    (s.entry e).valid = true ∧ (s.entry e).copy.gen = (s.disk (s.entry e).key).gen ∧
      (s.disk (s.entry e).key).type ≠ 0 ∧ (s.entry e).copy.type ≠ 0 := by
  have hk := h.known_held hl
  rw [hpc] at hk
  have hv := hk.valid (by rw [hl]; nofun) nofun
  exact ⟨hv, (hk.fresh hv nofun).1, (hk.fresh hv nofun).2, hk.typed hv nofun nofun⟩

/-- **A process goes on** inside `ilock`, `iput` or `ialloc`. -/
theorem Inv.go (p : P) : Ends (Inode.step s (.go p)) Inv (· ≠ .sleeping) := by
  have hst := h.stands p
  have hother : ∀ c q, q ≠ p → upd s.pc p c q = s.pc q := fun c q hq => upd_other _ _ hq
  rw [Inode.step]
  cases hpc : s.pc p with
  | user => exact nofun
  | fill e =>
    rw [hpc] at hst
    have hl : (s.entry e).lock = some p := hst
    refine .ite (fun _ => nofun) fun hty => ?_
    exact h.work (h.lockPtr e p hl) rfl rfl (upd_same ..) (hother _) (fun _ _ => rfl) rfl rfl (.inr hl)
      (.inr ⟨hl, rfl⟩) (by rw [hpc]; rfl) trivial ⟨fun _ _ => rfl, fun _ _ => ⟨rfl, hty⟩, fun _ _ _ => hty⟩
  | trunc e =>
    rw [hpc] at hst
    obtain ⟨hl, hv⟩ := hst
    have hk := h.known_held hl
    rw [hpc] at hk
    refine h.work (h.lockPtr e p hl) rfl rfl (upd_same ..) (hother _) (fun _ _ => rfl) rfl rfl (.inr hl)
      (.inr ⟨hl, rfl⟩) (by rw [hpc]; rfl) ?_
      ⟨fun _ _ => hv, fun _ _ => hk.fresh hv nofun, fun _ _ hne => absurd rfl hne⟩
    show (upd s.entry e _ e).lock = some p ∧ (upd s.entry e _ e).valid = true
    rw [upd_same]
    exact ⟨hl, hv⟩
  | update e =>
    rw [hpc] at hst
    obtain ⟨hl, hv⟩ := hst
    exact h.work (h.lockPtr e p hl) (upd_self s.entry e).symm rfl (upd_same ..) (hother _)
      (fun k hk => upd_other _ _ hk) rfl rfl (.inr hl) (.inr ⟨hl, rfl⟩) (by rw [hpc]; rfl) ⟨hl, hv⟩
      ⟨fun _ _ => hv, fun _ hne => absurd rfl hne, fun _ hne => absurd rfl hne⟩
  | inval e =>
    rw [hpc] at hst
    have hl := hst.1
    refine h.work (h.lockPtr e p hl) rfl rfl (upd_same ..) (hother _) (fun _ _ => rfl) rfl rfl (.inr hl)
      (.inl ⟨rfl, rfl⟩) (by rw [hpc]; rfl) ⟨h.lockPtr e p hl, ?_⟩ ⟨fun hn => absurd rfl hn, nofun, nofun⟩
    show (upd s.entry e _ e).lock ≠ some p
    rw [upd_same]
    nofun
  | drop e =>
    rw [hpc] at hst
    exact h.unref hst.1 (fun hl => absurd hl hst.2) (Or.inr ⟨e, hpc⟩)
  | alloced key =>
    refine (h.iget p key).bind fun u hu => ?_
    refine @Inv.loose _ _ u p .user u.disk hu.1 ?_ (Or.inl rfl) fun _ _ => rfl
    rw [hu.2, hpc]
    exact Or.inr ⟨key, rfl⟩

/-- **Each step keeps the invariant**, and none has to wait for a sleep lock with `itable.lock` held. -/
theorem Inv.step (a : Act P) : Ends (Inode.step s a) Inv (· ≠ .sleeping) := by
  cases a with
  | iget p key => exact .ite (fun _ => (h.iget p key).conseq fun _ ht => ht.1) fun _ => nofun
  | idup p e => exact .ite (fun hg => h.ref (h.ref_pos hg.2)) fun _ => nofun
  | ilock p e =>
    refine .ite (fun hg => .ite (fun _ => nofun) fun _ => .ite (fun hl => ?_) fun _ => nofun) fun _ => nofun
    have hk := h.known e (h.ref_pos hg.2)
    rw [Sys.at, hl] at hk
    show Inv (if (s.entry e).valid = true then _ else _)
    split
    case isTrue hv =>
      exact h.work hg.2 rfl rfl hg.1 (fun _ _ => rfl) (fun _ _ => rfl) rfl rfl (.inl hl) (.inr ⟨rfl, rfl⟩)
        (by rw [hg.1]; trivial) trivial
        ⟨fun _ _ => hv, fun _ _ => hk.fresh hv nofun, fun _ _ _ => hk.typed hv nofun nofun⟩
    case isFalse hv =>
      refine h.work hg.2 rfl rfl (upd_same ..) (fun q hq => upd_other _ _ hq) (fun _ _ => rfl) rfl rfl (.inl hl)
        (.inr ⟨rfl, rfl⟩) (by rw [hg.1]; trivial) ?_
        ⟨fun _ hne => absurd rfl hne, fun hv' => absurd hv' hv, fun hv' => absurd hv' hv⟩
      show (upd s.entry e _ e).lock = some p
      rw [upd_same]
  | iunlock p e =>
    refine .ite (fun hg => .ite (fun _ => nofun) fun _ => ?_) fun _ => nofun
    obtain ⟨-, h2, h3, h4⟩ := h.sees hg.2 hg.1
    exact h.work (h.lockPtr e p hg.2) rfl rfl hg.1 (fun _ _ => rfl) (fun _ _ => rfl) rfl rfl (.inr hg.2)
      (.inl ⟨rfl, rfl⟩) (by rw [hg.1]; trivial) trivial
      ⟨fun hn => absurd rfl hn, fun _ _ => ⟨h2, h3⟩, fun _ _ _ => h4⟩
  | change p e nlink rest =>
    refine .ite (fun hg => ?_) fun _ => nofun
    obtain ⟨h1, h2, h3, h4⟩ := h.sees hg.2 hg.1
    exact h.work (h.lockPtr e p hg.2) rfl rfl hg.1 (fun _ _ => rfl) (fun _ _ => rfl) rfl rfl (.inr hg.2)
      (.inr ⟨hg.2, rfl⟩) (by rw [hg.1]; trivial) trivial
      ⟨fun _ _ => h1, fun _ _ => ⟨h2, h3⟩, fun _ _ _ => h4⟩
  | iupdate p e =>
    refine .ite (fun hg => ?_) fun _ => nofun
    obtain ⟨h1, h2, h3, h4⟩ := h.sees hg.2 hg.1
    have hd : (s.iupdate e).disk (s.entry e).key = (s.entry e).copy := upd_same ..
    refine h.work (h.lockPtr e p hg.2) (upd_self s.entry e).symm rfl hg.1 (fun _ _ => rfl)
      (fun k hk => upd_other _ _ hk) rfl rfl (.inr hg.2) (.inr ⟨hg.2, rfl⟩) (by rw [hg.1]; trivial) trivial
      ⟨fun _ _ => h1, fun _ _ => ?_, fun _ _ _ => h4⟩
    rw [hd]
    exact ⟨rfl, h4⟩
  | iput p e =>
    refine .ite (fun hg => ?_) fun _ => nofun
    obtain ⟨hpc, hmem, hsp⟩ := hg
    refine .ite (fun hfree => ?_) fun _ => ?_
    · have hl := h.lock_free hmem hsp hfree.1
      have hk := h.known e (h.ref_pos hmem)
      rw [Sys.at, hl] at hk
      rw [if_pos hl]
      refine h.work hmem rfl rfl (upd_same ..) (fun q hq => upd_other _ _ hq) (fun _ _ => rfl) rfl rfl (.inl hl)
        (.inr ⟨rfl, rfl⟩) (by rw [hpc]; trivial) ?_
        ⟨fun _ _ => hfree.2.1, fun hv _ => hk.fresh hv nofun, fun hv _ _ => hk.typed hv nofun nofun⟩
      show (upd s.entry e _ e).lock = some p ∧ (upd s.entry e _ e).valid = true
      rw [upd_same]
      exact ⟨rfl, hfree.2.1⟩
    · have hgo : s.unref p e = (s.unref p e).goTo p .user := by
        rw [Sys.goTo, ← hpc]
        exact congrArg (fun f => { s.unref p e with pc := f }) (upd_self s.pc p).symm
      show Inv (s.unref p e)
      rw [hgo]
      exact h.unref hmem hsp (Or.inl hpc)
  | ialloc p key type =>
    refine .ite (fun hg => h.loose (Or.inl hg.1) (Or.inr ⟨key, rfl⟩) fun k hk => ?_) fun _ => nofun
    refine upd_other _ _ ?_
    rintro rfl
    exact hk hg.2.1
  | go p => exact h.go p
  | give p q e => exact .ite (fun hg => h.give hg.2.1 hg.2.2 hg.1) fun _ => nofun

end Steps

omit [DecidableEq P] in
theorem inv_boot (disk : Key → Dinode) : Inv (boot disk : Sys P) where
  refs _ := rfl
  uniq _ _ h := absurd h (Nat.lt_irrefl 0)
  lockPtr _ p h := absurd h.symm (Option.some_ne_none p)
  stands _ := trivial
  known _ h := absurd h (Nat.lt_irrefl 0)

/-- **The in-memory inode table**, in every run. -/
theorem inode_table {disk : Key → Dinode} {as : List (Act P)}
    (hrun : Run step (fun _ _ => True) (boot disk) as s) :
    (∀ e f, 0 < (s.entry e).ref → 0 < (s.entry f).ref → (s.entry e).key = (s.entry f).key →
      e = f) ∧
    (∀ e, (s.entry e).ref = s.pointers e) ∧
    (∀ e p, (s.entry e).lock = some p → (p, e) ∈ s.ptrs) ∧
    (∀ p e, step s (.iput p e) ≠ .error .sleeping) ∧
    ∀ e p, (s.entry e).lock = some p → s.pc p = .user →
      (s.entry e).valid = true ∧ (s.entry e).copy.gen = (s.disk (s.entry e).key).gen ∧
        (s.disk (s.entry e).key).type ≠ 0 ∧ (s.entry e).copy.type ≠ 0 := by
  have h : Inv s := hrun.invariant (inv_boot disk) fun _ a _ hs _ hstep => (hs.step a).of_ok hstep
  refine ⟨h.uniq, h.refs, h.lockPtr, fun p e hput => ?_, fun e p hl hpc => h.sees hl hpc⟩
  have hend := h.step (.iput p e)
  rw [hput] at hend
  exact hend rfl

/-- While the process 0 is freeing an inode, the process 1 allocates it again and gets the same
entry.  With the lock in its hands it takes a second pointer and drops it again. -/
def reuse : List (Act (Fin 2)) :=
  [.ialloc 0 (1, 7) 2, .go 0, .ilock 0 0, .go 0, .iunlock 0 0, .iput 0 0, .go 0, .go 0,
    .ialloc 1 (1, 7) 3, .go 1, .go 0, .ilock 1 0, .go 0, .go 1, .iget 1 (1, 7), .iput 1 0]

theorem inode_table_reuse : ∃ s, Run step (fun _ _ => True) (boot fun _ => ⟨0, 0, 0, 0⟩) reuse s ∧
    (s.entry 0).lock = some 1 ∧ (s.entry 0).key = (1, 7) ∧ (s.entry 0).copy.gen = 2 ∧
      (s.entry 0).copy.gen = (s.disk (s.entry 0).key).gen := by
  obtain ⟨s, hr, hs⟩ := exists_run step (fun _ _ => true)
    (fun s => decide ((s.entry 0).lock = some 1 ∧ s.pc 1 = .user ∧ (s.entry 0).key = (1, 7) ∧
      (s.entry 0).copy.gen = 2)) (boot fun _ => ⟨0, 0, 0, 0⟩) reuse (by decide +kernel)
  obtain ⟨h1, h2, h3, h4⟩ := of_decide_eq_true hs
  have hr' : Run step (fun _ _ => True) _ _ _ := hr.mono fun _ _ _ => trivial
  exact ⟨s, hr', h1, h3, h4, ((inode_table hr').2.2.2.2 0 1 h1 h2).2.1⟩

end Xv6.Inode
