/-!
# Runs of a system

A system that takes one step after another: the state after a run, conditions on every step of a run,
and the induction over a run.
-/

namespace Runs

variable {σ ε : Type} (exec : σ → ε → σ)

/-- Every step of a run meets the condition `C`, in the state in which it is taken. -/
def Always (C : σ → ε → Prop) (s : σ) : List ε → Prop
  | [] => True
  | e :: es => C s e ∧ Always C (exec s e) es

instance Always.decidable (C : σ → ε → Prop) [∀ s e, Decidable (C s e)] :
    (s : σ) → (es : List ε) → Decidable (Always exec C s es)
  | _, [] => isTrue trivial
  | s, e :: es =>
      have := Always.decidable C (exec s e) es
      inferInstanceAs (Decidable (C s e ∧ Always exec C (exec s e) es))

variable {exec} {C D : σ → ε → Prop} {s : σ} {es es' : List ε}

theorem Always.mono (h : Always exec C s es) (hD : ∀ s e, C s e → D s e) :
  Always exec D s es
  := by
  induction es generalizing s with
  | nil => trivial
  | cons e es ih => exact ⟨hD s e h.1, ih h.2⟩

theorem always_append :
  Always exec C s (es ++ es') ↔ Always exec C s es ∧ Always exec C (es.foldl exec s) es'
  := by
  induction es generalizing s with
  | nil => exact (and_iff_right trivial).symm
  | cons e es ih =>
      rw [List.cons_append, Always, Always, ih, and_assoc]
      rfl

/-- What holds at the start and is kept by every step holds after a run. -/
theorem Always.invariant
    {I : σ → Prop} (h : Always exec C s es) (hstep : ∀ s e, I s → C s e → I (exec s e)) (hs : I s) :
  I (es.foldl exec s)
  := by
  induction es generalizing s with
  | nil => exact hs
  | cons e es ih => exact ih h.2 (hstep s e hs h.1)

/-- A step in the middle of a run. -/
theorem Always.at_step {e : ε} (h : Always exec C s (es ++ e :: es')) :
  Always exec C s es ∧ C (es.foldl exec s) e ∧ Always exec C (exec (es.foldl exec s) e) es'
  := by
  obtain ⟨hbefore, hstep, hafter⟩ := always_append.mp h
  exact ⟨hbefore, hstep, hafter⟩

end Runs
