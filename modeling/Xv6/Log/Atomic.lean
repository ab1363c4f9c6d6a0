import Mathlib.Data.List.Nodup
import Xv6.Lib.Redo
import Xv6.Log.Step

/-!
# Crash atomicity of the log

Whatever the operations do and wherever the machine stops, the disk together with its log
holds the effect of whole groups of operations: `Fs.image`, the disk with the logged blocks
put in place, agrees outside the log with the changes of the groups whose header has been
written, in order.  `Phase` says what else holds at each point of `commit` and of
`recover_from_log`; `inv_step` keeps both, and `crash_atomicity` reads the result off at
the end of a recovery.
-/

namespace Xv6.Log

open Xv6.Lib

/-! ### Histories -/

section History

variable {es : List Event} {d : Nat → Block} {l : List Nat}

theorem replay_append (es fs : List Event) (d : Nat → Block) :
    replay (es ++ fs) d = replay fs (replay es d) := by
  simp [replay, List.foldl_append]

@[simp] theorem replay_began (o : Nat) : replay (es ++ [.began o]) d = replay es d := by
  rw [replay_append]; rfl

@[simp] theorem replay_ended (o : Nat) : replay (es ++ [.ended o]) d = replay es d := by
  rw [replay_append]; rfl

@[simp] theorem replay_wrote (o b : Nat) (g : Block) :
    replay (es ++ [.wrote o b g]) d = upd (replay es d) b g := by
  rw [replay_append]; rfl

theorem running_append (h : running es = some l) (e : Event) :
    running (es ++ [e]) = e.running l := by
  unfold running at *
  rw [List.foldlM_append, h]
  simp

end History

/-! ### The header -/

theorem header_setHeader (g : Block) (l : List Nat) : header (setHeader g l) = l := by
  unfold header setHeader
  apply List.ext_getElem
  · simp
  · intro i h1 h2
    simp only [List.getElem_map, List.getElem_range]
    rw [if_neg (by omega), if_pos (by omega), Nat.add_sub_cancel, List.getD_eq_getElem _ _ h2]

/-! ### The invariant -/

/-- The `i`-th block of the log. -/
def Fs.logged (s : Fs) (i : Nat) : Block := s.disk (s.start + i + 1)

/-- The blocks that the header on the disk names. -/
def Fs.listed (s : Fs) : List Nat := header (s.disk s.start)

/-- What recovery makes of the disk. -/
def Fs.image (s : Fs) : Nat → Block := overlay s.listed s.logged s.disk

/-- Blocks that the log can record. -/
structure Fs.Loggable (s : Fs) (l : List Nat) : Prop where
  nodup : l.Nodup
  home : ∀ b ∈ l, s.home b
  length : l.length ≤ LOGBLOCKS

theorem Fs.Loggable.nil (s : Fs) : s.Loggable [] :=
  ⟨List.nodup_nil, fun _ h => absurd h List.not_mem_nil, Nat.zero_le _⟩

/-- Nobody is inside an operation. -/
structure Quiet (x : Traced) : Prop where
  ops : x.ops = []
  dirty : ∀ o b, b ∉ x.dirty o
  cur : x.cur = []
  outstanding : x.fs.outstanding = 0

/-- A commit is going on. -/
structure Committing (x : Traced) : Prop extends Quiet x where
  committing : x.fs.committing = true
  returned : x.returned < x.groups.length

/-- `recover_from_log` is running, alone. -/
structure Recovering (x : Traced) : Prop extends Quiet x where
  committing : x.fs.committing = false
  durable : x.durable = x.groups.length
  unlocked : x.fs.Unlocked

/-- The operations see the changes of all operations before them. -/
def Sees (d : Nat → Block) (x : Traced) (c : Nat → Block) : Prop :=
  ∀ b, x.fs.home b → c b = replay (x.groups.flatten ++ x.cur) d b

/-- What holds at each point of `recover_from_log` and `commit`, with the contents `c` of
the cache. -/
inductive Phase (d : Nat → Block) (x : Traced) (c : Nat → Block) : Pc → Prop
  | readHead (r : Recovering x) (lh : x.fs.lh = []) : Phase d x c .readHead
  | recover {tail : Nat} (r : Recovering x) (lh : x.fs.lh = x.fs.listed)
      (done : ∀ i (hi : i < x.fs.lh.length), i < tail → x.fs.disk x.fs.lh[i] = x.fs.logged i) :
      Phase d x c (.recover tail)
  | recoverEnd (r : Recovering x) (lh : x.fs.lh = [])
      (done : ∀ b, x.fs.home b → x.fs.disk b = replay x.groups.flatten d b) :
      Phase d x c .recoverEnd
  | idle (listed : x.fs.listed = []) (lh : x.fs.Loggable x.fs.lh)
      (running : running x.cur = some x.ops) (outstanding : x.fs.outstanding = x.ops.length)
      (dirty : ∀ o, o ∉ x.ops → x.dirty o = []) (committing : x.fs.committing = false)
      (durable : x.durable = x.groups.length) (sees : Sees d x c) : Phase d x c .idle
  | writeLog {tail : Nat} (r : Committing x) (listed : x.fs.listed = [])
      (lh : x.fs.Loggable x.fs.lh) (durable : x.durable + 1 = x.groups.length) (sees : Sees d x c)
      (done : ∀ i (hi : i < x.fs.lh.length), i < tail → x.fs.logged i = c x.fs.lh[i]) :
      Phase d x c (.writeLog tail)
  | writeHead (r : Committing x) (listed : x.fs.listed = []) (lh : x.fs.Loggable x.fs.lh)
      (durable : x.durable + 1 = x.groups.length) (sees : Sees d x c)
      (done : ∀ i (hi : i < x.fs.lh.length), x.fs.logged i = c x.fs.lh[i]) :
      Phase d x c .writeHead
  | install {tail : Nat} (r : Committing x) (lh : x.fs.lh = x.fs.listed)
      (durable : x.durable = x.groups.length) (sees : Sees d x c)
      (done : ∀ i (hi : i < x.fs.lh.length), x.fs.logged i = c x.fs.lh[i]) :
      Phase d x c (.install tail)
  | clear (r : Committing x) (lh : x.fs.lh = []) (durable : x.durable = x.groups.length)
      (sees : Sees d x c) : Phase d x c .clear
  | finish (r : Committing x) (listed : x.fs.listed = []) (lh : x.fs.lh = [])
      (durable : x.durable = x.groups.length) (sees : Sees d x c) : Phase d x c .finish

/-- Between two groups of operations. -/
theorem Phase.resting {d : Nat → Block} {x : Traced} {c : Nat → Block} (q : Quiet x)
    (listed : x.fs.listed = []) (lh : x.fs.lh = []) (committing : x.fs.committing = false)
    (durable : x.durable = x.groups.length) (sees : Sees d x c) : Phase d x c .idle := by
  refine .idle listed (by rw [lh]; exact .nil _) ?_ ?_ (fun o _ => ?_) committing durable sees
  · rw [q.cur, q.ops]
    rfl
  · rw [q.outstanding, q.ops]
    rfl
  · exact List.eq_nil_iff_forall_not_mem.2 (q.dirty o)

/-- **The invariant.** -/
structure LogInv (d : Nat → Block) (x : Traced) : Prop where
  returned : x.returned ≤ x.durable
  durable : x.durable ≤ x.groups.length
  complete : ∀ g ∈ x.groups, Complete g
  loggable : x.fs.Loggable x.fs.listed
  /-- The disk and its log hold the changes of the groups that are durable. -/
  stable : ∀ b, x.fs.home b → x.fs.image b = replay (x.groups.take x.durable).flatten d b
  phase : ∃ c, CacheInv x.fs c x.fs.pins x.dirty ∧ Phase d x c x.fs.pc

section Steps

variable {d : Nat → Block} {x y : Traced} {o : Nat}

theorem LogInv.quiet (h : LogInv d x) (hpc : x.fs.pc ≠ .idle) : Quiet x := by
  obtain ⟨c, -, hp⟩ := h.phase
  generalize x.fs.pc = pc at hp hpc
  cases hp with
  | idle => exact absurd rfl hpc
  | readHead r | recover r | recoverEnd r | writeLog r | writeHead r | install r | clear r | finish r =>
    exact r.toQuiet

theorem LogInv.idle_of_op (h : LogInv d x) (ho : o ∈ x.ops) : x.fs.pc = .idle := by
  by_contra hpc
  rw [(h.quiet hpc).ops] at ho
  cases ho

theorem Fs.pins_idle {s : Fs} (h : s.pc = .idle) : s.pins = s.lh := by simp [Fs.pins, h]

/-! ### Threads -/

theorem LogInv.reader (h : LogInv d x) (hup : x.fs.pc.up = true) {B : Fin NBUF → Buf}
    (hB : ∀ c P, CacheInv x.fs c P x.dirty → CacheInv { x.fs with buf := B } c P x.dirty) :
    LogInv d (x.setBufs B) := by
  have hcom : Committing x → Committing (x.setBufs B) :=
    fun ⟨⟨h1, h2, h3, h4⟩, h5, h6⟩ => ⟨⟨h1, h2, h3, h4⟩, h5, h6⟩
  have hlog : ∀ l, x.fs.Loggable l → (x.setBufs B).fs.Loggable l :=
    fun l ⟨h1, h2, h3⟩ => ⟨h1, h2, h3⟩
  obtain ⟨c, hc, hp⟩ := h.phase
  refine ⟨h.returned, h.durable, h.complete, hlog _ h.loggable, h.stable, c, hB _ _ hc, ?_⟩
  show Phase d _ c x.fs.pc
  generalize x.fs.pc = pc at hp hup ⊢
  cases hp with
  | readHead | recover | recoverEnd => cases hup
  | idle h1 h2 h3 h4 h5 h6 h7 h8 => exact .idle h1 (hlog _ h2) h3 h4 h5 h6 h7 h8
  | writeLog h1 h2 h3 h4 h5 h6 => exact .writeLog (hcom h1) h2 (hlog _ h3) h4 h5 h6
  | writeHead h1 h2 h3 h4 h5 h6 => exact .writeHead (hcom h1) h2 (hlog _ h3) h4 h5 h6
  | install h1 h2 h3 h4 h5 => exact .install (hcom h1) h2 h3 h4 h5
  | clear h1 h2 h3 h4 => exact .clear (hcom h1) h2 h3 h4
  | finish h1 h2 h3 h4 h5 => exact .finish (hcom h1) h2 h3 h4 h5

theorem inv_beginOp (h : LogInv d x) (hs : step x (.beginOp o) = .ok y) : LogInv d y := by
  obtain ⟨hup, ho, hcom, rfl⟩ := beginOp_step hs
  obtain ⟨c, hc, hp⟩ := h.phase
  have hlog : x.fs.Loggable x.fs.listed := h.loggable
  refine ⟨h.returned, h.durable, h.complete, ⟨hlog.nodup, hlog.home, hlog.length⟩, h.stable, c,
    hc.congr rfl rfl, ?_⟩
  have hno : Committing x → False := by
    intro r
    rw [r.committing] at hcom
    cases hcom
  show Phase d _ c x.fs.pc
  generalize x.fs.pc = pc at hp hup ⊢
  cases hp with
  | readHead | recover | recoverEnd => cases hup
  | idle h1 h2 h3 h4 h5 h6 h7 h8 =>
    refine .idle h1 ⟨h2.nodup, h2.home, h2.length⟩ ?_ ?_ ?_ h6 h7 ?_
    · rw [running_append h3]
      exact if_neg ho
    · show _ + 1 = _
      rw [h4, List.length_cons]
    · intro o' ho'
      exact h5 o' fun hmem => ho' (List.mem_cons_of_mem _ hmem)
    · intro b hb
      rw [h8 b hb, ← List.append_assoc, replay_began]
  | writeLog h1 | writeHead h1 | install h1 | clear h1 | finish h1 => exact (hno h1).elim

theorem inv_setData (h : LogInv d x) {i : Fin NBUF} {g : Block}
    (hs : step x (.setData o i g) = .ok y) : LogInv d y := by
  obtain ⟨ho, B, rfl, hB⟩ := setData_step hs
  have hidle := h.idle_of_op ho
  obtain ⟨c, hc, hp⟩ := h.phase
  have hlog : x.fs.Loggable x.fs.listed := h.loggable
  refine ⟨h.returned, h.durable, h.complete, ⟨hlog.nodup, hlog.home, hlog.length⟩, h.stable, _,
    hB _ _ hc, ?_⟩
  show Phase d _ _ x.fs.pc
  rw [hidle] at hp ⊢
  cases hp with
  | idle h1 h2 h3 h4 h5 h6 h7 h8 =>
    refine .idle h1 ⟨h2.nodup, h2.home, h2.length⟩ ?_ h4 ?_ h6 h7 ?_
    · rw [running_append h3]
      exact if_pos ho
    · intro o' ho'
      have hne : o' ≠ o := by rintro rfl; exact ho' ho
      show upd x.dirty o _ o' = []
      rw [upd_other _ _ hne]
      exact h5 o' ho'
    · intro b hb
      rw [← List.append_assoc, replay_wrote]
      by_cases hbi : b = (x.fs.buf i).blockno
      · subst hbi; simp
      · rw [upd_other _ _ hbi, upd_other _ _ hbi]
        exact h8 b hb

theorem inv_logWrite (h : LogInv d x) {i : Fin NBUF} (hhome : x.fs.home (x.fs.buf i).blockno)
    (hs : step x (.logWrite o i) = .ok y) : LogInv d y := by
  obtain ⟨ho, hlen, B, l, rfl, hl, hB⟩ := logWrite_step hs
  have hidle := h.idle_of_op ho
  obtain ⟨c, hc, hp⟩ := h.phase
  rw [Fs.pins_idle hidle] at hc
  have hlog : x.fs.Loggable x.fs.listed := h.loggable
  refine ⟨h.returned, h.durable, h.complete, ⟨hlog.nodup, hlog.home, hlog.length⟩, h.stable, c, ?_, ?_⟩
  · rw [Fs.pins_idle (by exact hidle)]
    exact hB c hc
  show Phase d _ c x.fs.pc
  rw [hidle] at hp ⊢
  cases hp with
  | idle h1 h2 h3 h4 h5 h6 h7 h8 =>
    refine .idle h1 ?_ h3 h4 ?_ h6 h7 h8
    · rcases hl with rfl | ⟨rfl, hmem⟩
      · exact ⟨h2.nodup, h2.home, h2.length⟩
      · refine ⟨?_, ?_, ?_⟩
        · exact nodup_concat h2.nodup hmem
        · intro b hb
          rw [List.mem_append, List.mem_singleton] at hb
          rcases hb with hb | rfl
          · exact h2.home b hb
          · exact hhome
        · rw [List.length_append, List.length_singleton]
          exact hlen
    · intro o' ho'
      have hne : o' ≠ o := by rintro rfl; exact ho' ho
      show upd x.dirty o _ o' = []
      rw [upd_other _ _ hne]
      exact h5 o' ho'

theorem inv_endOp (h : LogInv d x) (hclean : x.dirty o = []) (hs : step x (.endOp o) = .ok y) :
    LogInv d y := by
  obtain ⟨ho, hcom, hcase⟩ := endOp_step hs
  have hidle := h.idle_of_op ho
  obtain ⟨c, hc, hp⟩ := h.phase
  rw [Fs.pins_idle hidle] at hc
  rw [hidle] at hp
  have hlog : x.fs.Loggable x.fs.listed := h.loggable
  cases hp with
  | idle h1 h2 h3 h4 h5 h6 h7 h8 =>
    -- once the thread has left, nobody outside has changes to record
    have hdirty : ∀ o', o' ∉ x.ops.erase o → x.dirty o' = [] := by
      intro o' ho'
      by_cases hoo : o' = o
      · rw [hoo]; exact hclean
      · exact h5 o' fun hmem => ho' ((List.mem_erase_of_ne hoo).2 hmem)
    have hrun : running (x.cur ++ [.ended o]) = some (x.ops.erase o) := by
      rw [running_append h3]
      exact if_pos ho
    have herase := List.length_erase_of_mem ho
    rcases hcase with ⟨hout, pc, n, hpc, rfl⟩ | ⟨hout, rfl⟩
    · have hnil : x.ops.erase o = [] := by
        rw [← List.length_eq_zero_iff]
        omega
      have hnow : ∀ b, x.fs.home b →
          c b = replay ((x.groups ++ [x.cur ++ [Event.ended o]]).flatten ++ []) d b := by
        intro b hb
        rw [h8 b hb]
        simp only [List.flatten_append, List.flatten_cons, List.flatten_nil, List.append_nil]
        rw [← List.append_assoc, replay_ended]
      have hquiet : ∀ o' b, b ∉ x.dirty o' := by
        intro o' b hb
        rw [hdirty o' (by rw [hnil]; exact List.not_mem_nil)] at hb
        cases hb
      have hcomplete : ∀ g ∈ x.groups ++ [x.cur ++ [.ended o]], Complete g := by
        intro g hg
        rw [List.mem_append, List.mem_singleton] at hg
        rcases hg with hg | rfl
        · exact h.complete g hg
        · unfold Complete
          rw [hrun, hnil]
      have hret := h.returned
      have hdur := h.durable
      have hlen : (x.groups ++ [x.cur ++ [Event.ended o]]).length = x.groups.length + 1 := by
        rw [List.length_append, List.length_singleton]
      have hcommitting : Committing { x with
          fs := { x.fs with outstanding := 0, committing := true, worker := o, pc := pc }
          ops := x.ops.erase o, cur := [], groups := x.groups ++ [x.cur ++ [Event.ended o]]
          durable := n } := by
        refine ⟨⟨hnil, hquiet, rfl, rfl⟩, rfl, ?_⟩
        rw [hlen]
        exact Nat.lt_succ_of_le (hret.trans hdur)
      rcases hpc with ⟨hlh, rfl, rfl⟩ | ⟨hlh, rfl, rfl⟩
      · rw [hlh] at hc
        refine ⟨Nat.le_succ_of_le hret, ?_, hcomplete, ⟨hlog.nodup, hlog.home, hlog.length⟩, ?_,
          c, ?_, .finish hcommitting h1 hlh ?_ hnow⟩
        · rw [hlen]
          exact Nat.succ_le_succ hdur
        · -- the group has changed nothing: what is on the disk is what the operations see
          intro b hb
          show x.fs.image b = replay ((x.groups ++ [_]).take (x.durable + 1)).flatten d b
          rw [List.take_of_length_le (by rw [hlen]; omega), ← List.append_nil (List.flatten _),
            ← hnow b hb, Fs.image, h1, overlay_nil]
          exact hc.disk b List.not_mem_nil fun o' => hquiet o' b
        · show CacheInv _ c x.fs.lh x.dirty
          rw [hlh]
          exact hc.congr rfl rfl
        · rw [hlen, h7]
      · refine ⟨hret, ?_, hcomplete, ⟨hlog.nodup, hlog.home, hlog.length⟩, ?_, c,
          hc.congr rfl rfl, .writeLog hcommitting h1 ⟨h2.nodup, h2.home, h2.length⟩ ?_ hnow
            (fun i _ hi => absurd hi (Nat.not_lt_zero i))⟩
        · rw [hlen]
          exact Nat.le_succ_of_le hdur
        · intro b hb
          show x.fs.image b = replay ((x.groups ++ [_]).take x.durable).flatten d b
          rw [List.take_append_of_le_length hdur]
          exact h.stable b hb
        · rw [hlen, h7]
    · refine ⟨h.returned, h.durable, h.complete, ⟨hlog.nodup, hlog.home, hlog.length⟩, h.stable, c, ?_, ?_⟩
      · rw [Fs.pins_idle (by exact hidle)]
        exact hc.congr rfl rfl
      show Phase d _ c x.fs.pc
      rw [hidle]
      refine .idle h1 ⟨h2.nodup, h2.home, h2.length⟩ hrun ?_ hdirty h6 h7 ?_
      · show x.fs.outstanding - 1 = (x.ops.erase o).length
        omega
      · intro b hb
        rw [h8 b hb, ← List.append_assoc, replay_ended]

/-! ### `commit` and `recover_from_log` -/

theorem Fs.home_ne {s : Fs} {b : Nat} (h : s.home b) :
    b ≠ s.start ∧ ∀ i < LOGBLOCKS, b ≠ s.start + i + 1 := by
  unfold Fs.home at h
  refine ⟨by omega, fun i hi => by omega⟩

theorem getD_of_lt {l : List Nat} {i : Nat} (h : i < l.length) : l.getD i 0 = l[i] :=
  List.getD_eq_getElem _ _ h

theorem LogInv.installed (h : LogInv d x) {B : Fin NBUF → Buf} {b : Nat} (hb : b ∈ x.fs.listed)
    (g : Block) (pc : Pc) :
    ({ x.fs with buf := B, disk := upd x.fs.disk b g, pc := pc } : Fs).listed = x.fs.listed ∧
    ({ x.fs with buf := B, disk := upd x.fs.disk b g, pc := pc } : Fs).image = x.fs.image ∧
    ∀ i < LOGBLOCKS,
      ({ x.fs with buf := B, disk := upd x.fs.disk b g, pc := pc } : Fs).logged i = x.fs.logged i := by
  obtain ⟨h1, h2⟩ := Fs.home_ne (h.loggable.home b hb)
  have hlisted : ({ x.fs with buf := B, disk := upd x.fs.disk b g, pc := pc } : Fs).listed =
      x.fs.listed := by
    show header (upd x.fs.disk b g x.fs.start) = _
    rw [upd_other _ _ h1.symm]
    rfl
  have hlogged : ∀ i < LOGBLOCKS,
      ({ x.fs with buf := B, disk := upd x.fs.disk b g, pc := pc } : Fs).logged i =
        x.fs.logged i := by
    intro i hi
    show upd x.fs.disk b g (x.fs.start + i + 1) = _
    rw [upd_other _ _ (h2 i hi).symm]
    rfl
  refine ⟨hlisted, ?_, hlogged⟩
  funext a
  unfold Fs.image
  rw [hlisted]
  calc _ = overlay x.fs.listed x.fs.logged (upd x.fs.disk b g) a :=
        overlay_congr (fun i hi => hlogged i (hi.trans_le h.loggable.length)) (fun _ => rfl)
    _ = _ := congrFun (overlay_upd_mem hb g) a

theorem Fs.headed {s : Fs} {B : Fin NBUF → Buf} (g : Block) (l : List Nat) (pc : Pc) :
    ({ s with buf := B, disk := upd s.disk s.start (setHeader g l), pc := pc } : Fs).listed = l ∧
    ∀ i, ({ s with buf := B, disk := upd s.disk s.start (setHeader g l), pc := pc } : Fs).logged i =
      s.logged i := by
  constructor
  · show header (upd s.disk s.start (setHeader g l) s.start) = l
    rw [upd_same, header_setHeader]
  · intro i
    show upd s.disk s.start (setHeader g l) (s.start + i + 1) = _
    rw [upd_other _ _ (by omega)]
    rfl

/-- The state after a step of the log. -/
abbrev Traced.after (x : Traced) (t : Fs) (n m : Nat) : Traced :=
  { x with fs := t, durable := n, returned := m }

theorem Recovering.after (r : Recovering x) {t : Fs} (h1 : t.outstanding = x.fs.outstanding)
    (h2 : t.committing = x.fs.committing) (h3 : x.fs.Unlocked → t.Unlocked) :
    Recovering (x.after t x.durable x.returned) :=
  ⟨⟨r.ops, r.dirty, r.cur, h1.trans r.outstanding⟩, h2.trans r.committing, r.durable,
    h3 r.unlocked⟩

theorem Committing.after (r : Committing x) {t : Fs} {n : Nat}
    (h1 : t.outstanding = x.fs.outstanding) (h2 : t.committing = x.fs.committing) :
    Committing (x.after t n x.returned) :=
  ⟨⟨r.ops, r.dirty, r.cur, h1.trans r.outstanding⟩, h2.trans r.committing, r.returned⟩

theorem LogInv.image_eq (h : LogInv d x) (hd : x.durable = x.groups.length) {b : Nat}
    (hb : x.fs.home b) : x.fs.image b = replay x.groups.flatten d b := by
  rw [h.stable b hb, hd, List.take_length]

theorem inv_recover (h : LogInv d x) {t : Fs} {c c' : Nat → Block} (hup : x.fs.pc.up = false)
    (hc : CacheInv x.fs c x.fs.pins x.dirty) (hp : Phase d x c x.fs.pc) (hw : Worked x.fs c t c')
    (hc' : CacheInv t c' t.pins x.dirty) (hu : x.fs.Unlocked → t.Unlocked) :
    LogInv d (x.after t x.durable x.returned) := by
  have hlog := h.loggable
  -- nothing is pinned: the cache agrees with the disk
  have hdisk : Quiet x → x.fs.pins = [] → ∀ b, c b = x.fs.disk b := by
    intro q hpins b
    exact (hc.disk b (by rw [hpins]; exact List.not_mem_nil) fun o => q.dirty o b).symm
  cases hw with
  | readHead hpc =>
    rw [hpc] at hp
    cases hp with
    | readHead r hlh =>
      have hcd := hdisk r.toQuiet (by simp [Fs.pins, hpc])
      refine ⟨h.returned, h.durable, h.complete, ⟨hlog.nodup, hlog.home, hlog.length⟩, h.stable, c,
        hc', .recover (r.after rfl rfl hu) ?_ fun i _ hi => absurd hi (Nat.not_lt_zero i)⟩
      show header (c x.fs.start) = header (x.fs.disk x.fs.start)
      rw [hcd]
  | @recover B tail hpc ht =>
    rw [hpc] at hp
    cases hp with
    | recover r hlh hdone =>
      have hcd := hdisk r.toQuiet (by simp [Fs.pins, hpc])
      have hmem : x.fs.lh.getD tail 0 ∈ x.fs.listed := by
        rw [← hlh, getD_of_lt ht]
        exact List.getElem_mem ht
      have hlen : x.fs.lh.length ≤ LOGBLOCKS := by rw [hlh]; exact hlog.length
      obtain ⟨hlisted, himage, hlogged⟩ := h.installed (B := B) hmem (c (x.fs.start + tail + 1))
        (.recover (tail + 1))
      refine ⟨h.returned, h.durable, h.complete, ?_, ?_, _, hc', .recover (r.after rfl rfl hu) ?_ ?_⟩
      · rw [hlisted]
        exact ⟨hlog.nodup, hlog.home, hlog.length⟩
      · intro b hb
        rw [himage]
        exact h.stable b hb
      · rw [hlisted]
        exact hlh
      · intro i hi hit
        rw [hlogged i (hi.trans_le hlen)]
        show upd x.fs.disk (x.fs.lh.getD tail 0) (c (x.fs.start + tail + 1)) x.fs.lh[i] = _
        by_cases hit' : i = tail
        · subst hit'
          rw [getD_of_lt ht, upd_same, hcd]
          rfl
        · have hne : x.fs.lh[i] ≠ x.fs.lh.getD tail 0 := by
            rw [getD_of_lt ht]
            intro he
            rw [← hlh] at hlog
            exact hit' ((List.Nodup.getElem_inj_iff hlog.nodup).1 he)
          rw [upd_other _ _ hne]
          exact hdone i hi (by omega)
  | recovered hpc ht =>
    rw [hpc] at hp
    cases hp with
    | recover r hlh hdone =>
      refine ⟨h.returned, h.durable, h.complete, ⟨hlog.nodup, hlog.home, hlog.length⟩, h.stable, c,
        hc', .recoverEnd (r.after rfl rfl hu) rfl ?_⟩
      intro b hb
      rw [← h.image_eq r.durable hb, Fs.image, ← hlh,
        overlay_of_installed fun i hi => hdone i hi (by omega)]
  | @recoverEnd B hpc =>
    rw [hpc] at hp
    cases hp with
    | recoverEnd r hlh hdone =>
      have hcd := hdisk r.toQuiet (by simp [Fs.pins, hpc])
      obtain ⟨hlisted, -⟩ := Fs.headed (s := x.fs) (B := B) (c x.fs.start) x.fs.lh .idle
      replace hlisted := hlisted.trans hlh
      have hhome : ∀ b, x.fs.home b → upd x.fs.disk x.fs.start (setHeader (c x.fs.start) x.fs.lh) b =
          replay x.groups.flatten d b := by
        intro b hb
        rw [upd_other _ _ (Fs.home_ne hb).1]
        exact hdone b hb
      refine ⟨h.returned, h.durable, h.complete, ?_, ?_, _, hc', .resting ⟨r.ops, r.dirty, r.cur, r.outstanding⟩
        hlisted hlh r.committing r.durable ?_⟩
      · rw [hlisted]
        exact .nil _
      · intro b hb
        rw [Fs.image, hlisted, overlay_nil, r.durable, List.take_length]
        exact hhome b hb
      · intro b hb
        show upd c x.fs.start _ b = replay (x.groups.flatten ++ x.cur) d b
        rw [r.cur, List.append_nil, ← hhome b hb, upd_other _ _ (Fs.home_ne hb).1,
          upd_other _ _ (Fs.home_ne hb).1, hcd]
  | writeLog hpc | written hpc | writeHead hpc | install hpc | installed hpc | clear hpc | finish hpc =>
    rw [hpc] at hup; cases hup

theorem inv_commit (h : LogInv d x) {t : Fs} {c c' : Nat → Block} (hup : x.fs.pc.up = true)
    (hc : CacheInv x.fs c x.fs.pins x.dirty) (hp : Phase d x c x.fs.pc) (hw : Worked x.fs c t c')
    (hc' : CacheInv t c' t.pins x.dirty) :
    LogInv d (x.after t (if x.fs.pc = .writeHead then x.durable + 1 else x.durable)
      (if x.fs.pc = .finish then x.returned + 1 else x.returned)) := by
  have hlog := h.loggable
  have hpin : Quiet x → ∀ b, b ∉ x.fs.pins → x.fs.disk b = c b :=
    fun q b hb => hc.disk b hb fun o => q.dirty o b
  cases hw with
  | @writeLog B tail hpc ht =>
    simp only [hpc, reduceCtorEq, if_false] at hp ⊢
    cases hp with
    | writeLog r hlisted hlh hdur hsees hdone =>
      have htl : tail < LOGBLOCKS := ht.trans_le hlh.length
      have hhome : ∀ b, x.fs.home b → ∀ f : Nat → Block,
          upd f (x.fs.start + tail + 1) (c (x.fs.lh.getD tail 0)) b = f b :=
        fun b hb f => upd_other _ _ ((Fs.home_ne hb).2 tail htl)
      have hlisted' : ({ x.fs with
          buf := B, disk := upd x.fs.disk (x.fs.start + tail + 1) (c (x.fs.lh.getD tail 0))
          pc := .writeLog (tail + 1) } : Fs).listed = [] := by
        rw [← hlisted]
        show header (upd x.fs.disk _ _ x.fs.start) = header (x.fs.disk x.fs.start)
        rw [upd_other _ _ (by omega)]
      refine ⟨h.returned, h.durable, h.complete, ?_, ?_, _, hc', .writeLog (r.after rfl rfl) hlisted'
        ⟨hlh.nodup, hlh.home, hlh.length⟩ hdur ?_ ?_⟩
      · rw [hlisted']
        exact .nil _
      · intro b hb
        rw [← h.stable b hb, Fs.image, Fs.image, hlisted, hlisted', overlay_nil, overlay_nil]
        exact hhome b hb _
      · intro b hb
        rw [hhome b hb]
        exact hsees b hb
      · intro i hi hit
        have hih : x.fs.home x.fs.lh[i] := hlh.home _ (List.getElem_mem hi)
        show upd x.fs.disk _ _ (x.fs.start + i + 1) = upd c _ _ x.fs.lh[i]
        rw [hhome _ hih]
        by_cases hit' : i = tail
        · subst hit'
          rw [upd_same, getD_of_lt ht]
        · rw [upd_other _ _ (by omega)]
          exact hdone i hi (by omega)
  | @written tail hpc ht =>
    simp only [hpc, reduceCtorEq, if_false] at hp ⊢
    cases hp with
    | writeLog r hlisted hlh hdur hsees hdone =>
      exact ⟨h.returned, h.durable, h.complete, ⟨hlog.nodup, hlog.home, hlog.length⟩, h.stable, c, hc',
        .writeHead (r.after rfl rfl) hlisted ⟨hlh.nodup, hlh.home, hlh.length⟩ hdur hsees
          fun i hi => hdone i hi (hi.trans_le ht)⟩
  | @writeHead B hpc =>
    simp only [hpc, reduceCtorEq, if_false, if_true] at hp ⊢
    cases hp with
    | writeHead r hlisted hlh hdur hsees hdone =>
      obtain ⟨hlisted', hlogged'⟩ := Fs.headed (s := x.fs) (B := B) (c x.fs.start) x.fs.lh (.install 0)
      have hpins : x.fs.pins = x.fs.lh := by simp [Fs.pins, hpc]
      refine ⟨Nat.le_succ_of_le h.returned, hdur.le, h.complete, ?_, ?_, _, hc',
        .install (r.after rfl rfl) hlisted'.symm hdur ?_ ?_⟩
      · rw [hlisted']
        exact ⟨hlh.nodup, hlh.home, hlh.length⟩
      · -- the header makes the group durable: its blocks are in the log, the others at home
        intro b hb
        have hb' : x.fs.home b := hb
        rw [hdur, List.take_length, Fs.image, hlisted']
        have hsees' := hsees b hb'
        rw [r.cur, List.append_nil] at hsees'
        rw [← hsees']
        refine overlay_eq (fun i hi => (hlogged' i).trans (hdone i hi)) fun hnot => ?_
        show upd x.fs.disk x.fs.start _ b = c b
        rw [upd_other _ _ (Fs.home_ne hb').1]
        exact hpin r.toQuiet b (by rw [hpins]; exact hnot)
      · intro b hb
        rw [upd_other _ _ (Fs.home_ne hb).1]
        exact hsees b hb
      · intro i hi
        have hih : x.fs.home x.fs.lh[i] := hlh.home _ (List.getElem_mem hi)
        rw [hlogged' i, upd_other _ _ (Fs.home_ne hih).1]
        exact hdone i hi
  | @install B tail hpc ht =>
    simp only [hpc, reduceCtorEq, if_false] at hp ⊢
    cases hp with
    | install r hlh hdur hsees hdone =>
      have hpins : x.fs.pins = x.fs.lh.drop tail := by simp [Fs.pins, hpc]
      have hlen : x.fs.lh.length ≤ LOGBLOCKS := by rw [hlh]; exact hlog.length
      have hmem : x.fs.lh.getD tail 0 ∈ x.fs.listed := by
        rw [← hlh, getD_of_lt ht]
        exact List.getElem_mem ht
      -- the block of the log is not pinned, so the cache has what `write_log` wrote
      have hsrc : c (x.fs.start + tail + 1) = c (x.fs.lh.getD tail 0) := by
        rw [getD_of_lt ht, ← hdone tail ht]
        refine (hpin r.toQuiet _ fun hmem' => ?_).symm
        rw [hpins, hlh] at hmem'
        exact (Fs.home_ne (hlog.home _ (List.mem_of_mem_drop hmem'))).2 tail (ht.trans_le hlen) rfl
      have hsame : upd c (x.fs.lh.getD tail 0) (c (x.fs.start + tail + 1)) = c := by
        rw [hsrc, upd_self]
      obtain ⟨hlisted, himage, hlogged⟩ := h.installed (B := B) hmem (c (x.fs.start + tail + 1))
        (.install (tail + 1))
      rw [hsame] at hc'
      refine ⟨h.returned, h.durable, h.complete, ?_, ?_, _, hc', .install (r.after rfl rfl) ?_ hdur
        hsees ?_⟩
      · rw [hlisted]
        exact ⟨hlog.nodup, hlog.home, hlog.length⟩
      · intro b hb
        rw [himage]
        exact h.stable b hb
      · rw [hlisted]
        exact hlh
      · intro i hi
        rw [hlogged i (hi.trans_le hlen)]
        exact hdone i hi
  | @installed tail hpc ht =>
    simp only [hpc, reduceCtorEq, if_false] at hp ⊢
    cases hp with
    | install r hlh hdur hsees hdone =>
      exact ⟨h.returned, h.durable, h.complete, ⟨hlog.nodup, hlog.home, hlog.length⟩, h.stable, c, hc',
        .clear (r.after rfl rfl) rfl hdur hsees⟩
  | @clear B hpc =>
    simp only [hpc, reduceCtorEq, if_false] at hp ⊢
    cases hp with
    | clear r hlh hdur hsees =>
      obtain ⟨hlisted', -⟩ := Fs.headed (s := x.fs) (B := B) (c x.fs.start) x.fs.lh .finish
      have hpins : x.fs.pins = [] := by simp [Fs.pins, hpc, hlh]
      replace hlisted' := hlisted'.trans hlh
      refine ⟨h.returned, h.durable, h.complete, ?_, ?_, _, hc',
        .finish (r.after rfl rfl) hlisted' hlh hdur ?_⟩
      · rw [hlisted']
        exact .nil _
      · intro b hb
        have hb' : x.fs.home b := hb
        have hsees' := hsees b hb'
        rw [r.cur, List.append_nil] at hsees'
        rw [Fs.image, hlisted', overlay_nil, hdur, List.take_length, ← hsees']
        show upd x.fs.disk x.fs.start _ b = c b
        rw [upd_other _ _ (Fs.home_ne hb').1]
        exact hpin r.toQuiet b (by rw [hpins]; exact List.not_mem_nil)
      · intro b hb
        rw [upd_other _ _ (Fs.home_ne hb).1]
        exact hsees b hb
  | finish hpc =>
    simp only [hpc, reduceCtorEq, if_false, if_true] at hp ⊢
    cases hp with
    | finish r hlisted hlh hdur hsees =>
      refine ⟨?_, h.durable, h.complete, ⟨hlog.nodup, hlog.home, hlog.length⟩, h.stable, c, hc',
        .resting ⟨r.ops, r.dirty, r.cur, r.outstanding⟩ hlisted hlh rfl hdur hsees⟩
      show x.returned + 1 ≤ x.durable
      rw [hdur]
      exact r.returned
  | readHead hpc | recover hpc | recovered hpc | recoverEnd hpc => rw [hpc] at hup; cases hup

theorem LogInv.lh (h : LogInv d x) : x.fs.Loggable x.fs.lh := by
  obtain ⟨c, -, hp⟩ := h.phase
  generalize x.fs.pc = pc at hp
  cases hp with
  | idle _ hlh => exact hlh
  | readHead _ hlh => rw [hlh]; exact .nil _
  | recover _ hlh => rw [hlh]; exact h.loggable
  | recoverEnd _ hlh => rw [hlh]; exact .nil _
  | writeLog _ _ hlh | writeHead _ _ hlh => exact hlh
  | install _ hlh => rw [hlh]; exact h.loggable
  | clear _ hlh | finish _ _ hlh => rw [hlh]; exact .nil _

theorem LogInv.lh_recoverEnd (h : LogInv d x) (hpc : x.fs.pc = .recoverEnd) : x.fs.lh = [] := by
  obtain ⟨c, -, hp⟩ := h.phase
  rw [hpc] at hp
  cases hp with
  | recoverEnd _ hlh => exact hlh

theorem LogInv.worked (h : LogInv d x) {v w : Fin NBUF} (hs : step x (.work v w) = .ok y) :
    ∃ c c' t, CacheInv x.fs c x.fs.pins x.dirty ∧ Phase d x c x.fs.pc ∧ Worked x.fs c t c' ∧
      CacheInv t c' t.pins x.dirty ∧ (x.fs.Unlocked → t.Unlocked) ∧
      y = x.after t (if x.fs.pc = .writeHead then x.durable + 1 else x.durable)
        (if x.fs.pc = .finish then x.returned + 1 else x.returned) := by
  rw [step] at hs
  obtain ⟨u, t, hcode, rfl⟩ := Traced.run_ok hs
  obtain ⟨c, hc, hp⟩ := h.phase
  obtain ⟨c', hw, hc', hu⟩ := wp_ok (wp_work (E := fun _ => True) hc (fun hpc => (h.quiet hpc).dirty)
    (fun _ => h.lh.nodup) h.lh_recoverEnd v w (.inr fun _ => trivial)) hcode
  exact ⟨c, c', t, hc, hp, hw, hc', hu, rfl⟩

theorem inv_work (h : LogInv d x) {v w : Fin NBUF} (hs : step x (.work v w) = .ok y) :
    LogInv d y := by
  obtain ⟨c, c', t, hc, hp, hw, hc', hu, rfl⟩ := h.worked hs
  cases hup : x.fs.pc.up with
  | false =>
    rw [if_neg (by rintro hpc; rw [hpc] at hup; cases hup),
      if_neg (by rintro hpc; rw [hpc] at hup; cases hup)]
    exact inv_recover h hup hc hp hw hc' hu
  | true => exact inv_commit h hup hc hp hw hc'

theorem inv_crash (h : LogInv d x) (hs : step x .crash = .ok y) : LogInv d y := by
  rw [step] at hs
  cases hs
  have hlog := h.loggable
  have hlen : (x.groups.take x.durable).length = x.durable := by
    rw [List.length_take]
    exact Nat.min_eq_left h.durable
  refine ⟨h.returned, hlen.ge, fun g hg => h.complete g (List.mem_of_mem_take hg),
    ⟨hlog.nodup, hlog.home, hlog.length⟩, ?_, _, cacheInv_reboot _ _,
    .readHead ⟨⟨rfl, fun _ _ => List.not_mem_nil, rfl, rfl⟩, rfl, hlen.symm, fun _ => rfl⟩ rfl⟩
  intro b hb
  show x.fs.image b = replay ((x.groups.take x.durable).take x.durable).flatten d b
  rw [List.take_take, Nat.min_self]
  exact h.stable b hb

/-- **The invariant is kept by every step.** -/
theorem inv_step {a : Act} (h : LogInv d x) (hok : Disciplined x a) (hs : step x a = .ok y) :
    LogInv d y := by
  obtain ⟨hrec, hhome⟩ := hok
  cases a with
  | beginOp o => exact inv_beginOp h hs
  | bread o v b =>
    obtain ⟨hup, B, rfl, hB⟩ := bread_step hs
    exact h.reader hup hB
  | setData o i g => exact inv_setData h hs
  | logWrite o i => exact inv_logWrite h hhome hs
  | brelse o i =>
    obtain ⟨hup, B, rfl, hB⟩ := brelse_step hs hrec
    exact h.reader hup hB
  | endOp o => exact inv_endOp h hrec hs
  | work v w => exact inv_work h hs
  | crash => exact inv_crash h hs

theorem start_step {a : Act} (h : LogInv d x) (hok : Disciplined x a) (hs : step x a = .ok y) :
    y.fs.start = x.fs.start := by
  obtain ⟨hrec, -⟩ := hok
  cases a with
  | beginOp o =>
    obtain ⟨-, -, -, rfl⟩ := beginOp_step hs
    rfl
  | bread o v b =>
    obtain ⟨-, B, rfl, -⟩ := bread_step hs
    rfl
  | setData o i g =>
    obtain ⟨-, B, rfl, -⟩ := setData_step hs
    rfl
  | logWrite o i =>
    obtain ⟨-, -, B, l, rfl, -⟩ := logWrite_step hs
    rfl
  | brelse o i =>
    obtain ⟨-, B, rfl, -⟩ := brelse_step hs hrec
    rfl
  | endOp o =>
    obtain ⟨-, -, ⟨-, pc, n, -, rfl⟩ | ⟨-, rfl⟩⟩ := endOp_step hs
    · rfl
    · rfl
  | work v w =>
    obtain ⟨c, c', t, -, -, hw, -, -, rfl⟩ := h.worked hs
    cases hw <;> rfl
  | crash =>
    cases hs
    rfl

theorem inv_boot {start : Nat} (hd : header (d start) = []) : LogInv d (boot start d) := by
  have hlisted : (boot start d).fs.listed = [] := hd
  refine ⟨le_rfl, le_rfl, fun g hg => absurd hg List.not_mem_nil, ?_, ?_, _, cacheInv_reboot _ _,
    .readHead ⟨⟨rfl, fun _ _ => List.not_mem_nil, rfl, rfl⟩, rfl, rfl, fun _ => rfl⟩ rfl⟩
  · rw [hlisted]
    exact .nil _
  · intro b _
    rw [Fs.image, hlisted, overlay_nil]
    rfl

end Steps

/-! ### Recovery -/

section Recovery

variable {d : Nat → Block} {x y : Traced}

theorem LogInv.recover_step (h : LogInv d x) (hup : x.fs.pc.up = false) (v w : Fin NBUF) :
    ∃ y, step x (.work v w) = .ok y := by
  obtain ⟨c, hc, hp⟩ := h.phase
  have hunlocked : x.fs.Unlocked := by
    generalize x.fs.pc = pc at hp hup
    cases hp with
    | readHead r | recover r | recoverEnd r => exact r.unlocked
    | idle | writeLog | writeHead | install | clear | finish => cases hup
  have hne : ∀ tail < x.fs.lh.length, x.fs.start + tail + 1 ≠ x.fs.lh.getD tail 0 := by
    intro tail ht
    rw [getD_of_lt ht]
    exact ((Fs.home_ne (h.lh.home _ (List.getElem_mem ht))).2 tail (ht.trans_le h.lh.length)).symm
  obtain ⟨u, t, hcode, -⟩ := wp_total (wp_work hc (fun hpc => (h.quiet hpc).dirty)
    (fun _ => h.lh.nodup) h.lh_recoverEnd v w (.inl ⟨hup, hunlocked, hne⟩))
  rw [step]
  unfold Traced.run
  rw [hcode]
  exact ⟨_, rfl⟩

/-- How many steps recovery still has to make, at most. -/
def toRecover (s : Fs) : Nat :=
  match s.pc with
  | .readHead => LOGBLOCKS + 3
  | .recover tail => s.lh.length - tail + 2
  | .recoverEnd => 1
  | _ => 0

theorem LogInv.toRecover_lt (h : LogInv d x) (hup : x.fs.pc.up = false) {v w : Fin NBUF}
    (hs : step x (.work v w) = .ok y) :
    toRecover y.fs < toRecover x.fs ∧ (y.fs.pc.up = false ∨ y.fs.pc = .idle) := by
  have hy := inv_work h hs
  obtain ⟨c, c', t, -, -, hw, -, -, rfl⟩ := h.worked hs
  have hlen := hy.lh.length
  cases hw with
  | readHead hpc =>
    refine ⟨?_, .inl rfl⟩
    simp only [toRecover, hpc]
    simp only at hlen
    omega
  | recover hpc ht | recovered hpc =>
    refine ⟨?_, .inl rfl⟩
    simp only [toRecover, hpc]
    omega
  | recoverEnd hpc =>
    refine ⟨?_, .inr rfl⟩
    simp only [toRecover, hpc]
    omega
  | writeLog hpc | written hpc | writeHead hpc | install hpc | installed hpc | clear hpc | finish hpc =>
    rw [hpc] at hup; cases hup

/-- **Recovery returns.** -/
theorem LogInv.recovers (h : LogInv d x) (hup : x.fs.pc.up = false) :
    ∃ ws y, Run step (fun _ a => ∃ v w, a = .work v w) x ws y ∧ y.fs.pc = .idle := by
  induction hn : toRecover x.fs using Nat.strong_induction_on generalizing x with
  | _ n ih =>
    obtain ⟨y, hy⟩ := h.recover_step hup 0 1
    obtain ⟨hlt, hcase⟩ := h.toRecover_lt hup hy
    rcases hcase with hup' | hidle
    · obtain ⟨ws, z, hrun, hz⟩ := ih _ (hn ▸ hlt) (inv_work h hy) hup' rfl
      exact ⟨_, z, .cons ⟨0, 1, rfl⟩ hy hrun, hz⟩
    · exact ⟨_, y, .cons ⟨0, 1, rfl⟩ hy (.nil _), hidle⟩

/-- What `x` is after a crash and some steps of recovery: its history is that of `g`. -/
structure Restarted (d : Nat → Block) (start : Nat) (g : List (List Event)) (x : Traced) : Prop where
  inv : LogInv d x
  start : x.fs.start = start
  pc : x.fs.pc.up = false ∨ x.fs.pc = .idle
  groups : x.groups = g
  durable : x.durable = g.length

theorem restarted_crash (h : LogInv d x) (hs : step x .crash = .ok y) :
    Restarted d x.fs.start (x.groups.take x.durable) y := by
  refine ⟨inv_crash h hs, ?_, ?_, ?_, ?_⟩
  · cases hs; rfl
  · cases hs; exact .inl rfl
  · cases hs; rfl
  · cases hs
    rw [List.length_take]
    exact (Nat.min_eq_left h.durable).symm

/-- Recovery adds nothing to the history, however often it is interrupted. -/
theorem Restarted.step {start : Nat} {g : List (List Event)} (h : Restarted d start g x) {a : Act}
    (hok : a.Recovers) (hs : step x a = .ok y) : Restarted d start g y := by
  cases a with
  | crash =>
    have h' := restarted_crash h.inv hs
    rw [h.start, h.groups, h.durable, List.take_length] at h'
    exact h'
  | work v w =>
    rcases h.pc with hup | hidle
    · have hy := inv_work h.inv hs
      obtain ⟨-, hpc⟩ := h.inv.toRecover_lt hup hs
      obtain ⟨c, c', t, -, -, hw, -, -, rfl⟩ := h.inv.worked hs
      have hpc' : x.fs.pc ≠ .writeHead := by
        intro he
        rw [he] at hup
        cases hup
      rw [if_neg hpc'] at hy hpc ⊢
      refine ⟨hy, ?_, hpc, h.groups, h.durable⟩
      rw [← h.start]
      cases hw <;> rfl
    · obtain ⟨c, c', t, -, -, hw, -⟩ := h.inv.worked hs
      exact (not_worked_idle hidle hw).elim
  | beginOp | bread | setData | logWrite | brelse | endOp => exact hok.elim

/-- **Crash atomicity.**  Wherever the machine stops, the operations that were committed
form groups of whole operations, recovery returns, and, however often it is interrupted,
it leaves outside the log the changes of a first part of these groups that has in it
every group whose `commit` has returned. -/
structure CrashAtomic (d : Nat → Block) (x : Traced) : Prop where
  complete : ∀ g ∈ x.groups, Complete g
  returns : ∀ y, step x .crash = .ok y →
    ∃ ws z, Run step (fun _ a => ∃ v w, a = .work v w) y ws z ∧ z.fs.pc = .idle
  applied : ∀ rs y, Run step (fun _ a => a.Recovers) x (.crash :: rs) y → y.fs.pc = .idle →
    ∃ k, x.returned ≤ k ∧ k ≤ x.groups.length ∧
      ∀ b, x.fs.home b → y.fs.disk b = replay (x.groups.take k).flatten d b

theorem LogInv.crashAtomic (h : LogInv d x) : CrashAtomic d x where
  complete := h.complete
  returns y hs := by
    have hup : y.fs.pc.up = false := by cases hs; rfl
    exact (inv_crash h hs).recovers hup
  applied rs y hrun hidle := by
    refine ⟨x.durable, h.returned, h.durable, fun b hb => ?_⟩
    cases hrun with
    | cons _ hs hrun =>
      have hr := hrun.invariant (restarted_crash h hs) fun _ _ _ hr hok hs => hr.step hok hs
      have hb' : y.fs.home b := by
        unfold Fs.home at hb ⊢
        rw [hr.start]
        exact hb
      have himage := hr.inv.stable b hb'
      obtain ⟨c, -, hp⟩ := hr.inv.phase
      rw [hidle] at hp
      cases hp with
      | idle hlisted =>
        rw [Fs.image, hlisted, overlay_nil, hr.groups, hr.durable, List.take_length] at himage
        exact himage

/-- **In every run of the file system from a disk with an empty log, the log is crash
atomic at every moment.** -/
theorem crash_atomicity {start : Nat} {as : List Act} (hd : header (d start) = [])
    (hrun : Run step Disciplined (boot start d) as x) :
    x.fs.start = start ∧ CrashAtomic d x := by
  have hinv : LogInv d x ∧ x.fs.start = start := by
    refine hrun.invariant (I := fun x => LogInv d x ∧ x.fs.start = start) ⟨inv_boot hd, rfl⟩ ?_
    rintro s a t ⟨h, hstart⟩ hok hs
    exact ⟨inv_step h hok hs, (start_step h hok hs).trans hstart⟩
  exact ⟨hinv.2, hinv.1.crashAtomic⟩

/-- A commit that stops after `write_head`, with its block still to be installed. -/
theorem crash_atomicity_write_head : ∃ x,
    Run step Disciplined (boot 2 fun _ _ => 0)
      [.work 0 0, .work 0 0, .work 0 0, .beginOp 7, .bread 7 1 50, .setData 7 1 (fun _ => 9),
        .logWrite 7 1, .brelse 7 1, .endOp 7, .work 0 0, .work 0 0, .work 0 0] x ∧
    (x.durable = 1 ∧ x.returned = 0 ∧ x.fs.disk 50 0 = 0) ∧
    x.fs.start = 2 ∧ CrashAtomic (fun _ _ => 0) x := by
  obtain ⟨x, hrun, hx⟩ := exists_run step (fun x a => decide (Disciplined x a))
    (fun x => decide (x.durable = 1 ∧ x.returned = 0 ∧ x.fs.disk 50 0 = 0)) (boot 2 fun _ _ => 0)
    [.work 0 0, .work 0 0, .work 0 0, .beginOp 7, .bread 7 1 50, .setData 7 1 (fun _ => 9),
      .logWrite 7 1, .brelse 7 1, .endOp 7, .work 0 0, .work 0 0, .work 0 0] (by decide +kernel)
  have hrun' := hrun.mono fun _ _ h => of_decide_eq_true h
  exact ⟨x, hrun', of_decide_eq_true hx, crash_atomicity rfl hrun'⟩

end Recovery

end Xv6.Log
