import Mathlib

/-!
# The ticket lock

The ticket lock of the benchmarks. A thread that wants the lock increments `turn` and gets the new
value as its ticket; it may go in when `ticket` has that value, and it increments `ticket` when it
leaves. Both counters have 32 bits and wrap around. A step is one access to the memory that the
threads share, and the increment of `ticket` takes two. The threads that have got tickets and have
not left are at most `2 ^ 32 - 1`, so that their tickets are different, and the one that has got its
ticket first has the ticket that comes next.
-/

namespace Ticket

/-- Where a thread is: outside of the lock, in the loop of `ticket_lock` with the ticket `mine`, in
the critical section, or in `ticket_unlock` with the value of `ticket` that it has read. -/
inductive Stage where
  | idle
  | spinning (mine : BitVec 32)
  | critical
  | unlocking (ticket : BitVec 32)
  deriving DecidableEq

/-- The lock and the threads, with the orders in which the threads have incremented `turn` and have
come into the critical section. -/
structure State (T : Type) where
  ticket : BitVec 32
  turn : BitVec 32
  stage : T → Stage
  increments : List T
  entries : List T

variable {T : Type} [DecidableEq T]

/-- `INIT_LOCK` -/
def State.start : State T where
  ticket := 1
  turn := 0
  stage _ := .idle
  increments := []
  entries := []

def State.go (s : State T) (p : T) (stage : Stage) : State T :=
  { s with stage := Function.update s.stage p stage }

/-- `IAF_U32(&(lock->turn))` -/
def State.increment (s : State T) (p : T) : State T :=
  { s.go p (.spinning (s.turn + 1)) with turn := s.turn + 1, increments := s.increments ++ [p] }

/-- The thread is in the critical section from now on. -/
def State.enter (s : State T) (p : T) : State T :=
  { s.go p .critical with entries := s.entries ++ [p] }

def State.setTicket (s : State T) (v : BitVec 32) : State T := { s with ticket := v }

/-- A step of a thread. -/
inductive State.Step (s : State T) : State T → Prop where
  | increment (p : T) (hstage : s.stage p = .idle) : Step s (s.increment p)
  | wait (p : T) (mine : BitVec 32) (hstage : s.stage p = .spinning mine) (hticket : s.ticket ≠ mine) :
      Step s s
  | enter (p : T) (mine : BitVec 32) (hstage : s.stage p = .spinning mine) (hticket : s.ticket = mine) :
      Step s (s.enter p)
  | load (p : T) (hstage : s.stage p = .critical) : Step s (s.go p (.unlocking s.ticket))
  | store (p : T) (v : BitVec 32) (hstage : s.stage p = .unlocking v) :
      Step s ((s.setTicket (v + 1)).go p .idle)

/-- The threads that have the lock: in the critical section or on the way out of it. -/
def Stage.Holds : Stage → Prop
  | .critical => True
  | .unlocking _ => True
  | _ => False

/-- The threads that compete for the lock. -/
def State.competing (s : State T) : Set T := { p | s.stage p ≠ .idle }

/-- The states that are reached when fewer than `2 ^ 32` threads compete for the lock at any time,
out of any number of threads. -/
inductive Reachable : State T → Prop where
  | start : Reachable State.start
  | step {s s' : State T} (h : Reachable s) (hstep : s.Step s') (hfew : s'.competing.ncard < 2 ^ 32) :
      Reachable s'

/-! ### The queue -/

/-- The threads that have left the lock have done so `m` times. Those behind them in the order of
the increments compete for it, and the first of them has the ticket that `ticket` shows, or has
come in already. -/
structure State.Inv (s : State T) (m : Nat) : Prop where
  turn : s.turn = BitVec.ofNat 32 s.increments.length
  ticket : s.ticket = BitVec.ofNat 32 (m + 1)
  le : m ≤ s.increments.length
  nodup : (s.increments.drop m).Nodup
  few : (s.increments.drop m).length < 2 ^ 32
  competing : ∀ p, s.stage p ≠ .idle ↔ p ∈ s.increments.drop m
  placed : ∀ i p, (s.increments.drop m)[i]? = some p →
    s.stage p = .spinning (BitVec.ofNat 32 (m + i + 1)) ∨ i = 0 ∧ (s.stage p).Holds
  loaded : ∀ p v, s.stage p = .unlocking v → v = s.ticket
  entered : (∀ p, ¬(s.stage p).Holds) ∧ s.entries = s.increments.take m ∨
    ∃ p, (s.stage p).Holds ∧ s.increments[m]? = some p ∧ s.entries = s.increments.take (m + 1)

section Inv

variable {s s' : State T} {m : Nat} {p p' : T}

omit [DecidableEq T] in
/-- The thread that has the lock is the first one. -/
theorem State.Inv.head_of_holds (h : s.Inv m) (hp : (s.stage p).Holds) :
  (s.increments.drop m)[0]? = some p
  := by
  have hmem : p ∈ s.increments.drop m := by
    rw [← h.competing]
    intro hidle
    rw [hidle] at hp
    exact hp
  obtain ⟨i, hi⟩ := List.mem_iff_getElem?.mp hmem
  obtain hspinning | ⟨rfl, -⟩ := h.placed i p hi
  · rw [hspinning] at hp
    exact hp.elim
  · exact hi

omit [DecidableEq T] in
theorem State.Inv.unique (h : s.Inv m) (hp : (s.stage p).Holds) (hp' : (s.stage p').Holds) :
  p = p'
  := Option.some.inj ((h.head_of_holds hp).symm.trans (h.head_of_holds hp'))

/-- Tickets of threads that compete for the lock are different. -/
theorem ofNat_add_inj {i j : Nat} (hi : i < 2 ^ 32) (hj : j < 2 ^ 32)
    (h : BitVec.ofNat 32 (m + i + 1) = BitVec.ofNat 32 (m + j + 1)) :
  i = j
  := by
  have htoNat := congrArg BitVec.toNat h
  rw [BitVec.toNat_ofNat, BitVec.toNat_ofNat] at htoNat
  omega

omit [DecidableEq T] in
/-- The thread whose ticket is shown is the first one, and nobody has the lock. -/
theorem State.Inv.head_of_ticket (h : s.Inv m) (hstage : s.stage p = .spinning s.ticket) :
  (s.increments.drop m)[0]? = some p
  := by
  have hmem : p ∈ s.increments.drop m := by
    rw [← h.competing, hstage]
    exact Stage.noConfusion
  obtain ⟨i, hi⟩ := List.mem_iff_getElem?.mp hmem
  obtain hspinning | ⟨rfl, -⟩ := h.placed i p hi
  · have hlt := (List.getElem?_eq_some_iff.mp hi).1
    rw [hstage, h.ticket] at hspinning
    have hsame := Stage.spinning.inj hspinning
    obtain rfl := ofNat_add_inj (m := m) (i := 0) (by decide) (lt_trans hlt h.few) hsame
    exact hi
  · exact hi

omit [DecidableEq T] in
theorem State.inv_start : (State.start : State T).Inv 0 where
  turn := rfl
  ticket := rfl
  le := le_rfl
  nodup := List.nodup_nil
  few := Nat.two_pow_pos 32
  competing _ := iff_of_false (fun h => h rfl) List.not_mem_nil
  placed _ _ hi := nomatch hi
  loaded _ _ hstage := nomatch hstage
  entered := .inl ⟨fun _ hp => hp, rfl⟩

@[simp] theorem State.go_self (s : State T) (p : T) (stage : Stage) :
  (s.go p stage).stage p = stage
  := Function.update_self _ _ _

theorem State.go_of_ne (s : State T) {p p' : T} (h : p' ≠ p) (stage : Stage) :
  (s.go p stage).stage p' = s.stage p'
  := Function.update_of_ne h _ _

@[simp] theorem State.increment_self (s : State T) (p : T) :
  (s.increment p).stage p = .spinning (s.turn + 1)
  := s.go_self p _

@[simp] theorem State.enter_self (s : State T) (p : T) :
  (s.enter p).stage p = .critical
  := s.go_self p _

omit [DecidableEq T] in
theorem ncard_mem {l : List T} (hnodup : l.Nodup) : { p | p ∈ l }.ncard = l.length := by
  classical
  have hset : { p | p ∈ l } = (l.toFinset : Set T) := by
    ext p
    simp
  rw [hset, Set.ncard_coe_finset, List.toFinset_card_of_nodup hnodup]

theorem ofNat_succ (n : Nat) : BitVec.ofNat 32 n + 1 = BitVec.ofNat 32 (n + 1) := by
  rw [BitVec.ofNat_add]
  rfl

/-- A thread gets a ticket. -/
theorem State.Inv.increment
    (h : s.Inv m) (hstage : s.stage p = .idle)
    (hfew : (s.increment p).competing.ncard < 2 ^ 32) :
  (s.increment p).Inv m
  := by
  have hturn : s.turn + 1 = BitVec.ofNat 32 (s.increments.length + 1) := by
    rw [h.turn, ofNat_succ]
  have hdrop : (s.increment p).increments.drop m = s.increments.drop m ++ [p] :=
    List.drop_append_of_le_length h.le
  have hnew : p ∉ s.increments.drop m := by
    rw [← h.competing, not_not]
    exact hstage
  have hnodup : (s.increments.drop m ++ [p]).Nodup :=
    List.nodup_append.mpr ⟨h.nodup, List.nodup_singleton p, by
      rintro x hx y hy rfl
      rw [List.mem_singleton.mp hy] at hx
      exact hnew hx⟩
  have hself := s.increment_self p
  have hother : ∀ p', p' ≠ p → (s.increment p).stage p' = s.stage p' :=
    fun p' hp' => s.go_of_ne hp' _
  have hcompeting : ∀ p', (s.increment p).stage p' ≠ .idle ↔ p' ∈ s.increments.drop m ++ [p] := by
    intro p'
    rw [List.mem_append, List.mem_singleton]
    by_cases hp' : p' = p
    · subst hp'
      rw [hself]
      exact iff_of_true Stage.noConfusion (.inr rfl)
    · rw [hother p' hp', h.competing, or_iff_left hp']
  have hlength : (s.increment p).increments.length = s.increments.length + 1 := List.length_append
  constructor
  · rw [hlength]
    exact hturn
  · exact h.ticket
  · rw [hlength]
    exact h.le.trans (Nat.le_succ _)
  · rw [hdrop]
    exact hnodup
  · rw [hdrop, ← ncard_mem hnodup]
    simp only [State.competing, hcompeting] at hfew
    exact hfew
  · rw [hdrop]
    exact hcompeting
  · intro i p' hi
    rw [hdrop] at hi
    obtain hi' | ⟨hi', hlast⟩ : (s.increments.drop m)[i]? = some p' ∨
        i = (s.increments.drop m).length ∧ p' = p := by
      obtain hlt | hle := lt_or_ge i (s.increments.drop m).length
      · rw [List.getElem?_append_left hlt] at hi
        exact .inl hi
      · rw [List.getElem?_append_right hle, List.getElem?_singleton] at hi
        split at hi
        · exact .inr ⟨by omega, (Option.some.inj hi).symm⟩
        · cases hi
    · have hne : p' ≠ p := by
        rintro rfl
        exact hnew (List.mem_of_getElem? hi')
      rw [hother p' hne]
      exact h.placed i p' hi'
    · left
      rw [hlast, hself, hturn, hi', List.length_drop, Nat.add_sub_cancel' h.le]
  · intro p' v hv
    have hne : p' ≠ p := by
      rintro rfl
      rw [hself] at hv
      cases hv
    rw [hother p' hne] at hv
    exact h.loaded p' v hv
  · obtain ⟨hfree, hentries⟩ | ⟨p₀, hholds, hhead, hentries⟩ := h.entered
    · left
      constructor
      · intro p'
        by_cases hp' : p' = p
        · subst hp'
          rw [hself]
          exact id
        · rw [hother p' hp']
          exact hfree p'
      · exact hentries.trans (List.take_append_of_le_length h.le).symm
    · right
      have hlt := (List.getElem?_eq_some_iff.mp hhead).1
      have hne : p₀ ≠ p := by
        rintro rfl
        rw [hstage] at hholds
        exact hholds
      use p₀
      rw [hother p₀ hne]
      exact ⟨hholds, (List.getElem?_append_left hlt).trans hhead,
        hentries.trans (List.take_append_of_le_length hlt).symm⟩

omit [DecidableEq T] in
theorem getElem?_of_head {l : List T} (h : (l.drop m)[0]? = some p) : l[m]? = some p := by
  rw [List.getElem?_drop] at h
  exact h

/-- The first thread goes on, in the critical section or on the way out of it. -/
theorem State.Inv.goHead
    (h : s.Inv m) (hhead : (s.increments.drop m)[0]? = some p) (stage : Stage) (hholds : stage.Holds)
    (hloaded : ∀ v, stage = .unlocking v → v = s.ticket)
    (hentries : s'.entries = s.increments.take (m + 1))
    (hs' : s' = { s.go p stage with entries := s'.entries }) :
  s'.Inv m
  := by
  have hself : s'.stage p = stage := by
    rw [hs']
    exact s.go_self p stage
  have hother : ∀ p', p' ≠ p → s'.stage p' = s.stage p' := by
    intro p' hp'
    rw [hs']
    exact s.go_of_ne hp' stage
  have hturn : s'.turn = s.turn := by rw [hs']; rfl
  have hticket : s'.ticket = s.ticket := by rw [hs']; rfl
  have hincrements : s'.increments = s.increments := by rw [hs']; rfl
  have hunique : ∀ i, (s.increments.drop m)[i]? = some p → i = 0 := by
    intro i hi
    exact (List.getElem?_inj (List.getElem?_eq_some_iff.mp hi).1 h.nodup).mp (hi.trans hhead.symm)
  rw [← hincrements] at hhead hentries
  constructor
  · rw [hturn, hincrements, h.turn]
  · rw [hticket, h.ticket]
  · rw [hincrements]
    exact h.le
  · rw [hincrements]
    exact h.nodup
  · rw [hincrements]
    exact h.few
  · intro p'
    rw [hincrements, ← h.competing]
    by_cases hp' : p' = p
    · subst hp'
      rw [hself, h.competing, ← hincrements]
      apply iff_of_true
      · rintro rfl
        exact hholds
      · exact List.mem_of_getElem? hhead
    · rw [hother p' hp']
  · intro i p' hi
    rw [hincrements] at hi
    by_cases hp' : p' = p
    · subst hp'
      rw [hself]
      exact .inr ⟨hunique i hi, hholds⟩
    · rw [hother p' hp']
      exact h.placed i p' hi
  · intro p' v hv
    rw [hticket]
    by_cases hp' : p' = p
    · subst hp'
      rw [hself] at hv
      exact hloaded v hv
    · rw [hother p' hp'] at hv
      exact h.loaded p' v hv
  · right
    use p
    rw [hself]
    exact ⟨hholds, getElem?_of_head hhead, hentries⟩

/-- A thread comes in. -/
theorem State.Inv.enter (h : s.Inv m) (hstage : s.stage p = .spinning s.ticket) :
  (s.enter p).Inv m
  := by
  have hhead := h.head_of_ticket hstage
  apply h.goHead hhead .critical trivial nofun _ rfl
  obtain ⟨-, hentries⟩ | ⟨p₀, hholds, -⟩ := h.entered
  · have hget := getElem?_of_head hhead
    show s.entries ++ [p] = _
    rw [List.take_add_one, hget, hentries]
    rfl
  · have hsame := (h.head_of_holds hholds).symm.trans hhead
    obtain rfl := Option.some.inj hsame
    rw [hstage] at hholds
    exact hholds.elim

/-- A thread that has the lock reads `ticket`. -/
theorem State.Inv.load (h : s.Inv m) (hstage : s.stage p = .critical) :
  (s.go p (.unlocking s.ticket)).Inv m
  := by
  have hp : (s.stage p).Holds := by
    rw [hstage]
    trivial
  apply h.goHead (h.head_of_holds hp) (.unlocking s.ticket) trivial _ _ rfl
  · intro v hv
    exact (Stage.unlocking.inj hv).symm
  · obtain ⟨hfree, -⟩ | ⟨-, -, -, hentries⟩ := h.entered
    · exact absurd hp (hfree p)
    · exact hentries

/-- A thread leaves. -/
theorem State.Inv.store {v : BitVec 32} (h : s.Inv m) (hstage : s.stage p = .unlocking v) :
  ((s.setTicket (v + 1)).go p .idle).Inv (m + 1)
  := by
  have hp : (s.stage p).Holds := by
    rw [hstage]
    trivial
  have hhead := h.head_of_holds hp
  have hget := getElem?_of_head hhead
  obtain ⟨hlt, hgetElem⟩ := List.getElem?_eq_some_iff.mp hget
  have hdrop : s.increments.drop m = p :: s.increments.drop (m + 1) := by
    rw [List.drop_eq_getElem_cons hlt, hgetElem]
  have hnodup := h.nodup
  have hfew := h.few
  rw [hdrop, List.nodup_cons] at hnodup
  rw [hdrop, List.length_cons] at hfew
  have hother : ∀ p', p' ≠ p → ((s.setTicket (v + 1)).go p .idle).stage p' = s.stage p' :=
    fun p' hp' => State.go_of_ne _ hp' _
  have hself : ((s.setTicket (v + 1)).go p .idle).stage p = .idle := State.go_self _ _ _
  constructor
  · exact h.turn
  · show v + 1 = _
    rw [h.loaded p v hstage, h.ticket, ofNat_succ]
  · exact hlt
  · exact hnodup.2
  · exact lt_trans (Nat.lt_succ_self _) hfew
  · intro p'
    by_cases hp' : p' = p
    · subst hp'
      rw [hself]
      exact iff_of_false (fun hne => hne rfl) hnodup.1
    · rw [hother p' hp', h.competing, hdrop, List.mem_cons, or_iff_right hp']
      rfl
  · intro i p' hi
    have hi' : (s.increments.drop m)[i + 1]? = some p' := by
      rw [hdrop]
      exact hi
    have hne : p' ≠ p := by
      rintro rfl
      exact hnodup.1 (List.mem_of_getElem? hi)
    rw [hother p' hne]
    obtain hspinning | ⟨hzero, -⟩ := h.placed (i + 1) p' hi'
    · left
      rw [hspinning, show m + (i + 1) + 1 = m + 1 + i + 1 by omega]
    · exact absurd hzero (Nat.succ_ne_zero i)
  · intro p' w hw
    by_cases hp' : p' = p
    · subst hp'
      rw [hself] at hw
      cases hw
    · rw [hother p' hp'] at hw
      have hp'' : (s.stage p').Holds := by
        rw [hw]
        trivial
      exact absurd (h.unique hp'' hp) hp'
  · left
    constructor
    · intro p' hp'
      by_cases hne : p' = p
      · subst hne
        rw [hself] at hp'
        exact hp'
      · rw [hother p' hne] at hp'
        exact hne (h.unique hp' hp)
    · obtain ⟨hfree, -⟩ | ⟨-, -, -, hentries⟩ := h.entered
      · exact absurd hp (hfree p)
      · exact hentries

/-- What a step keeps. -/
theorem State.Inv.step (h : s.Inv m) (hstep : s.Step s') (hfew : s'.competing.ncard < 2 ^ 32) :
  ∃ m', s'.Inv m'
  := by
  cases hstep with
  | increment p hstage => exact ⟨m, h.increment hstage hfew⟩
  | wait p mine hstage hticket => exact ⟨m, h⟩
  | enter p mine hstage hticket =>
      subst hticket
      exact ⟨m, h.enter hstage⟩
  | load p hstage => exact ⟨m, h.load hstage⟩
  | store p v hstage => exact ⟨m + 1, h.store hstage⟩

/-- At most one thread has the lock, and the threads come into the critical section in the order in
which they have incremented `turn`. -/
theorem ticket_exclusive_fifo (h : Reachable s) :
  (∀ p p', (s.stage p).Holds → (s.stage p').Holds → p = p') ∧ s.entries <+: s.increments
  := by
  have hinv : ∃ m, s.Inv m := by
    induction h with
    | start => exact ⟨0, State.inv_start⟩
    | step _ hstep hfew ih =>
        obtain ⟨m, hm⟩ := ih
        exact hm.step hstep hfew
  obtain ⟨m, hm⟩ := hinv
  constructor
  · exact fun p p' hp hp' => hm.unique hp hp'
  · obtain ⟨-, hentries⟩ | ⟨-, -, -, hentries⟩ := hm.entered
    · rw [hentries]
      exact List.take_prefix m _
    · rw [hentries]
      exact List.take_prefix (m + 1) _

/-- Two threads are fewer than `2 ^ 32`. -/
theorem ncard_competing_bool (s : State Bool) : s.competing.ncard < 2 ^ 32 := by
  have hle := Set.ncard_le_ncard (Set.subset_univ s.competing)
  rw [Set.ncard_univ, Nat.card_eq_fintype_card, Fintype.card_bool] at hle
  omega

/-- One thread takes the lock and leaves it, `n` times. -/
theorem reachable_rounds (n : Nat) :
  ∃ s : State Bool, Reachable s ∧ (∀ p, s.stage p = .idle) ∧ s.ticket = BitVec.ofNat 32 (n + 1) ∧
    s.turn = BitVec.ofNat 32 n
  := by
  induction n with
  | zero => exact ⟨State.start, .start, fun _ => rfl, rfl, rfl⟩
  | succ n ih =>
      obtain ⟨s, h, hidle, hticket, hturn⟩ := ih
      have hmine : s.ticket = s.turn + 1 := by
        rw [hticket, hturn, ofNat_succ]
      have h₁ := h.step (.increment true (hidle true)) (ncard_competing_bool _)
      have h₂ := h₁.step (.enter true _ (State.increment_self _ _) hmine) (ncard_competing_bool _)
      have h₃ := h₂.step (.load true (State.enter_self _ _)) (ncard_competing_bool _)
      have h₄ := h₃.step (.store true _ (State.go_self _ _ _)) (ncard_competing_bool _)
      refine ⟨_, h₄, ?_, ?_, ?_⟩
      · intro p
        cases p with
        | false => exact hidle false
        | true => exact State.go_self _ _ _
      · show s.ticket + 1 = _
        rw [hticket, ofNat_succ]
      · show s.turn + 1 = _
        rw [hturn, ofNat_succ]

/-- The counters wrap around while one thread is in the critical section and another waits. -/
theorem ticket_exclusive_fifo_wrapped :
  ∃ s : State Bool, s.turn = 0 ∧ s.stage true = .critical ∧ s.stage false = .spinning 0 ∧
    (∀ p p', (s.stage p).Holds → (s.stage p').Holds → p = p') ∧ s.entries <+: s.increments
  := by
  obtain ⟨s, h, hidle, hticket, hturn⟩ := reachable_rounds (2 ^ 32 - 2)
  have hmine : s.ticket = s.turn + 1 := by
    rw [hticket, hturn, ofNat_succ]
  have hzero : s.turn + 1 + 1 = 0 := by
    rw [hturn, ofNat_succ, ofNat_succ]
    decide
  have h₁ := h.step (.increment true (hidle true)) (ncard_competing_bool _)
  have h₂ := h₁.step (.enter true _ (State.increment_self _ _) hmine) (ncard_competing_bool _)
  have h₃ := h₂.step (.increment false (hidle false)) (ncard_competing_bool _)
  refine ⟨_, hzero, rfl, ?_, ticket_exclusive_fifo h₃⟩
  show Stage.spinning (s.turn + 1 + 1) = _
  rw [hzero]

end Inv

end Ticket
