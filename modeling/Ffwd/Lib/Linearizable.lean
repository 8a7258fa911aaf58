import Mathlib.Logic.Function.Basic
import Mathlib.Tactic.Cases

/-!
# Linearizable objects

Systems whose steps may be seen, simulations between them, and objects that are called by several
threads. A history of calls and returns is linearizable if every operation takes effect at one moment
between its call and its return, and returns what the object returns at that moment. To show that the
histories of a system are linearizable one relates it to the object itself, on which operations take
effect in one step.
-/

namespace Concurrent

/-! ### Systems -/

/-- A system: the steps that it takes, and what is seen of them. -/
structure System (S L E : Type) where
  step : S → L → Option S
  event : S → L → Option E

section

variable {S T L M E : Type} {C : System S L E} {A : System T M E}

/-- The state after a sequence of steps, and what has been seen. -/
def System.run (C : System S L E) : S → List L → Option (S × List E)
  | s, [] => some (s, [])
  | s, l :: ls =>
      match C.step s l with
      | none => none
      | some s' => (C.run s' ls).map fun r => (r.1, (C.event s l).toList ++ r.2)

theorem System.run_cons_eq_some {s s' : S} {l : L} {ls : List L} {es : List E} :
  C.run s (l :: ls) = some (s', es) ↔
    ∃ s₁ es₁, C.step s l = some s₁ ∧ C.run s₁ ls = some (s', es₁) ∧ es = (C.event s l).toList ++ es₁
  := by
  rw [System.run]
  cases hstep : C.step s l with
  | none => simp
  | some s₁ =>
      simp only [Option.map_eq_some_iff, Option.some.injEq, Prod.mk.injEq]
      constructor
      · rintro ⟨⟨s₂, es₁⟩, hrun, rfl, rfl⟩
        exact ⟨s₁, es₁, rfl, hrun, rfl⟩
      · rintro ⟨s₂, es₁, rfl, hrun, rfl⟩
        exact ⟨(s', es₁), hrun, rfl, rfl⟩

theorem System.run_append {s s₁ s' : S} {ls ls' : List L} {es es' : List E}
    (h : C.run s ls = some (s₁, es)) (h' : C.run s₁ ls' = some (s', es')) :
  C.run s (ls ++ ls') = some (s', es ++ es')
  := by
  induction ls generalizing s es with
  | nil =>
      obtain ⟨rfl, rfl⟩ := Prod.mk.inj (Option.some.inj h)
      exact h'
  | cons l ls ih =>
      obtain ⟨s₂, es₂, hstep, hrun, rfl⟩ := System.run_cons_eq_some.mp h
      apply System.run_cons_eq_some.mpr
      exact ⟨s₂, es₂ ++ es', hstep, ih hrun, List.append_assoc _ _ _⟩

/-- A property of the states that every step keeps. -/
def System.Keeps (C : System S L E) (I : S → Prop) : Prop :=
  ∀ s l s', I s → C.step s l = some s' → I s'

theorem System.Keeps.run
    {I : S → Prop} (h : C.Keeps I) {s s' : S} {ls : List L} {es : List E} (hs : I s)
    (hrun : C.run s ls = some (s', es)) :
  I s'
  := by
  induction ls generalizing s es with
  | nil =>
      obtain ⟨rfl, -⟩ := Prod.mk.inj (Option.some.inj hrun)
      exact hs
  | cons l ls ih =>
      obtain ⟨s₁, es₁, hstep, hrun₁, -⟩ := System.run_cons_eq_some.mp hrun
      exact ih (h s l s₁ hs hstep) hrun₁

/-! ### Simulations -/

/-- Every step of `C` from a related state is matched by steps of `A` of which the same is seen. -/
def Simulates (C : System S L E) (A : System T M E) (R : S → T → Prop) : Prop :=
  ∀ s t l s', R s t → C.step s l = some s' →
    ∃ ms t', A.run t ms = some (t', (C.event s l).toList) ∧ R s' t'

theorem Simulates.run
    {R : S → T → Prop} (h : Simulates C A R) {s s' : S} {t : T} {ls : List L} {es : List E} (hR : R s t)
    (hrun : C.run s ls = some (s', es)) :
  ∃ ms t', A.run t ms = some (t', es) ∧ R s' t'
  := by
  induction ls generalizing s t es with
  | nil =>
      obtain ⟨rfl, rfl⟩ := Prod.mk.inj (Option.some.inj hrun)
      exact ⟨[], t, rfl, hR⟩
  | cons l ls ih =>
      obtain ⟨s₁, es₁, hstep, hrun₁, rfl⟩ := System.run_cons_eq_some.mp hrun
      obtain ⟨ms, t₁, hms, hR₁⟩ := h s t l s₁ hR hstep
      obtain ⟨ms', t', hms', hR'⟩ := ih hR₁ hrun₁
      exact ⟨ms ++ ms', t', System.run_append hms hms', hR'⟩

/-- The same backwards, for a relation whose choice of a state of `A` depends on what comes later:
every state that is related to the end of a step of `C` is reached from one that is related to its
start. `I` is an invariant of `C`. -/
def BackSimulates (C : System S L E) (A : System T M E) (I : S → Prop) (R : S → T → Prop) : Prop :=
  ∀ s l s' t', I s → C.step s l = some s' → R s' t' →
    ∃ ms t, A.run t ms = some (t', (C.event s l).toList) ∧ R s t

theorem BackSimulates.run
    {I : S → Prop} {R : S → T → Prop} (h : BackSimulates C A I R) (hI : C.Keeps I) {s s' : S} {t' : T}
    {ls : List L} {es : List E} (hs : I s) (hrun : C.run s ls = some (s', es)) (hR : R s' t') :
  ∃ ms t, A.run t ms = some (t', es) ∧ R s t
  := by
  induction ls generalizing s es with
  | nil =>
      obtain ⟨rfl, rfl⟩ := Prod.mk.inj (Option.some.inj hrun)
      exact ⟨[], t', rfl, hR⟩
  | cons l ls ih =>
      obtain ⟨s₁, es₁, hstep, hrun₁, rfl⟩ := System.run_cons_eq_some.mp hrun
      obtain ⟨ms', t₁, hms', hR₁⟩ := ih (hI s l s₁ hs hstep) hrun₁
      obtain ⟨ms, t, hms, hR₀⟩ := h s l s₁ t₁ hs hstep hR₁
      exact ⟨ms ++ ms', t, System.run_append hms hms', hR₀⟩

end

/-! ### Objects -/

/-- A sequential object: an operation changes its state and returns a value. -/
structure Object (Op Ret σ : Type) where
  apply : Op → σ → σ × Ret

/-- What is seen: a thread calls an operation, and the operation returns. -/
inductive Event (ι Op Ret : Type) where
  | call (i : ι) (op : Op)
  | ret (i : ι) (r : Ret)
  deriving DecidableEq

/-- A thread has called nothing, or its operation has not taken effect, or it has. -/
inductive Status (Op Ret : Type) where
  | idle
  | pending (op : Op)
  | done (r : Ret)
  deriving DecidableEq

/-- The operations under other names. -/
def Status.map {Op Op' Ret : Type} (f : Op → Op') : Status Op Ret → Status Op' Ret
  | .idle => .idle
  | .pending op => .pending (f op)
  | .done r => .done r

section

variable {Op Op' Ret : Type} {f : Op → Op'} {status : Status Op Ret}

theorem Status.eq_idle_of_map (h : status.map f = .idle) :
  status = .idle
  := by
  cases status with
  | idle => rfl
  | pending op => cases h
  | done r => cases h

theorem Status.eq_pending_of_map {op' : Op'} (h : status.map f = .pending op') :
  ∃ op, status = .pending op ∧ f op = op'
  := by
  cases status with
  | idle => cases h
  | pending op => exact ⟨op, rfl, Status.pending.inj h⟩
  | done r => cases h

theorem Status.eq_done_of_map {r : Ret} (h : status.map f = .done r) :
  status = .done r
  := by
  cases status with
  | idle => cases h
  | pending op => cases h
  | done r' => exact congrArg Status.done (Status.done.inj h)

end

/-- The object and the threads that call it. -/
structure Atomic (ι Op Ret σ : Type) where
  state : σ
  status : ι → Status Op Ret

/-- An operation is called, takes effect, and returns. -/
inductive Action (ι Op : Type) where
  | call (i : ι) (op : Op)
  | effect (i : ι)
  | ret (i : ι)

section

variable {ι Op Ret σ τ : Type} [DecidableEq ι]

/-- The thread is somewhere else. -/
def Atomic.goto (v : Atomic ι Op Ret σ) (i : ι) (status : Status Op Ret) : Atomic ι Op Ret σ :=
  { v with status := Function.update v.status i status }

/-- The object as a system, on which an operation takes effect in one step. -/
def Object.atomic (O : Object Op Ret σ) : System (Atomic ι Op Ret σ) (Action ι Op) (Event ι Op Ret) where
  step v
    | .call i op =>
        match v.status i with
        | .idle => some (v.goto i (.pending op))
        | _ => none
    | .effect i =>
        match v.status i with
        | .pending op => some { v.goto i (.done (O.apply op v.state).2) with state := (O.apply op v.state).1 }
        | _ => none
    | .ret i =>
        match v.status i with
        | .done _ => some (v.goto i .idle)
        | _ => none
  event v
    | .call i op => some (.call i op)
    | .effect _ => none
    | .ret i =>
        match v.status i with
        | .done r => some (.ret i r)
        | _ => none

/-- The object, which no thread has called yet. -/
def Atomic.start (s : σ) : Atomic ι Op Ret σ := ⟨s, fun _ => .idle⟩

/-- The history is one of the object that starts in `s`, on which every operation takes effect at one
moment between its call and its return. -/
def Object.Linearizable (O : Object Op Ret σ) (s : σ) (h : List (Event ι Op Ret)) : Prop :=
  ∃ acts v, O.atomic.run (Atomic.start s) acts = some (v, h)

variable {O : Object Op Ret σ} {v : Atomic ι Op Ret σ} {i : ι} {op : Op} {r : Ret}

theorem atomic_call (h : v.status i = .idle) (op : Op) :
  O.atomic.run v [.call i op] = some (v.goto i (.pending op), [.call i op])
  := by
  simp [System.run, Object.atomic, h]

theorem atomic_effect (h : v.status i = .pending op) :
  O.atomic.run v [.effect i]
    = some ({ v.goto i (.done (O.apply op v.state).2) with state := (O.apply op v.state).1 }, [])
  := by
  simp [System.run, Object.atomic, h]

theorem atomic_ret (h : v.status i = .done r) :
  O.atomic.run v [.ret i] = some (v.goto i .idle, [.ret i r])
  := by
  simp [System.run, Object.atomic, h]

theorem atomic_event_ret (h : v.status i = .done r) :
  O.atomic.event v (.ret i) = some (.ret i r)
  := by
  simp [Object.atomic, h]

/-- What a step of thread `i` is to the object: it is silent, or the operation of the thread is called, takes
effect, or returns. -/
inductive Object.Change (O : Object Op Ret σ) (i : ι) :
    Status Op Ret × σ → Option (Event ι Op Ret) → Status Op Ret × σ → Prop
  | silent (x : Status Op Ret) (s : σ) : O.Change i (x, s) none (x, s)
  | call (op : Op) (s : σ) : O.Change i (.idle, s) (some (.call i op)) (.pending op, s)
  | effect (op : Op) (s : σ) : O.Change i (.pending op, s) none (.done (O.apply op s).2, (O.apply op s).1)
  | ret (r : Ret) (s : σ) : O.Change i (.done r, s) (some (.ret i r)) (.idle, s)

/-- The object at the end of the step comes from the object at its start. -/
theorem Object.Change.run {x : Status Op Ret} {s : σ} {e : Option (Event ι Op Ret)}
    (h : O.Change i (x, s) e (v.status i, v.state)) :
  ∃ acts, O.atomic.run { v.goto i x with state := s } acts = some (v, e.toList)
  := by
  obtain ⟨state, status⟩ := v
  generalize hx' : (status i, state) = y at h
  cases h with
  | silent =>
      cases hx'
      refine ⟨[], ?_⟩
      simp only [Atomic.goto, Function.update_eq_self]
      rfl
  | call op =>
      obtain ⟨hi, rfl⟩ := Prod.mk.inj hx'
      refine ⟨[.call i op], ?_⟩
      rw [atomic_call (Function.update_self _ _ _)]
      simp only [Atomic.goto, Function.update_idem, ← hi, Function.update_eq_self]
      rfl
  | effect op =>
      obtain ⟨hi, rfl⟩ := Prod.mk.inj hx'
      refine ⟨[.effect i], ?_⟩
      rw [atomic_effect (Function.update_self _ _ _)]
      simp only [Atomic.goto, Function.update_idem, ← hi, Function.update_eq_self]
      rfl
  | ret r =>
      obtain ⟨hi, rfl⟩ := Prod.mk.inj hx'
      refine ⟨[.ret i], ?_⟩
      rw [atomic_ret (Function.update_self _ _ _)]
      simp only [Atomic.goto, Function.update_idem, ← hi, Function.update_eq_self]
      rfl

/-- A system that simulates the object has linearizable histories. -/
theorem Simulates.linearizable
    {S L : Type} {C : System S L (Event ι Op Ret)} {R : S → Atomic ι Op Ret σ → Prop}
    (h : Simulates C O.atomic R) {s₀ s : S} {s₁ : σ} {ls : List L} {es : List (Event ι Op Ret)}
    (hR : R s₀ (Atomic.start s₁)) (hrun : C.run s₀ ls = some (s, es)) :
  O.Linearizable s₁ es
  := by
  obtain ⟨acts, v, hacts, -⟩ := h.run hR hrun
  exact ⟨acts, v, hacts⟩

/-- The same backwards. Every state has to be related to one of the object, and the first only to the
object that no thread has called. -/
theorem BackSimulates.linearizable
    {S L : Type} {C : System S L (Event ι Op Ret)} {I : S → Prop} {R : S → Atomic ι Op Ret σ → Prop}
    (h : BackSimulates C O.atomic I R) (hI : C.Keeps I) (htotal : ∀ s, I s → ∃ v, R s v) {s₀ s : S}
    {s₁ : σ} {ls : List L} {es : List (Event ι Op Ret)} (hs : I s₀)
    (hR : ∀ v, R s₀ v → v = Atomic.start s₁) (hrun : C.run s₀ ls = some (s, es)) :
  O.Linearizable s₁ es
  := by
  obtain ⟨v, hv⟩ := htotal s (hI.run hs hrun)
  obtain ⟨acts, v₀, hacts, hv₀⟩ := h.run hI hs hrun hv
  obtain rfl := hR v₀ hv₀
  exact ⟨acts, v, hacts⟩

/-! ### Refinement -/

/-- The object `O` does what `P` does, as far as its states are related to those of `P`. -/
def Object.Refines (O : Object Op Ret σ) (P : Object Op Ret τ) (R : σ → τ → Prop) : Prop :=
  ∀ op s t, R s t → (O.apply op s).2 = (P.apply op t).2 ∧ R (O.apply op s).1 (P.apply op t).1

/-- What is linearizable for an object is linearizable for an object that it refines. -/
theorem Object.Linearizable.refine
    {P : Object Op Ret τ} {R : σ → τ → Prop} {s : σ} {t : τ} {es : List (Event ι Op Ret)}
    (h : O.Linearizable s es) (hR : O.Refines P R) (hst : R s t) :
  P.Linearizable t es
  := by
  have hsim : Simulates (O.atomic (ι := ι)) P.atomic
      fun v w => R v.state w.state ∧ v.status = w.status := by
    rintro v w act v' ⟨hstate, hstatus⟩ hstep
    cases act with
    | call i op =>
        simp only [Object.atomic] at hstep
        split at hstep
        · next hidle =>
          obtain rfl := Option.some.inj hstep
          rw [hstatus] at hidle
          refine ⟨_, _, atomic_call hidle op, hstate, ?_⟩
          simp only [Atomic.goto, hstatus]
        · cases hstep
    | effect i =>
        simp only [Object.atomic] at hstep
        split at hstep
        · next op hpending =>
          obtain rfl := Option.some.inj hstep
          rw [hstatus] at hpending
          obtain ⟨hret, hnext⟩ := hR op _ _ hstate
          refine ⟨_, _, atomic_effect hpending, hnext, ?_⟩
          simp only [Atomic.goto, hstatus, hret]
        · cases hstep
    | ret i =>
        simp only [Object.atomic] at hstep
        split at hstep
        · next r hdone =>
          obtain rfl := Option.some.inj hstep
          rw [atomic_event_ret hdone]
          rw [hstatus] at hdone
          refine ⟨_, _, atomic_ret hdone, hstate, ?_⟩
          simp only [Atomic.goto, hstatus]
        · cases hstep
  obtain ⟨acts, v, hacts⟩ := h
  exact hsim.linearizable ⟨hst, rfl⟩ hacts

end

end Concurrent
