import Ffwd.Lib.Runs

/-!
# Maps that lose entries

A cache is a map from which entries may get lost at any time. What is found under a key has been written
under it, and has not been replaced since.
-/

namespace LossyMap

open Runs

variable {κ α : Type}

/-- What is left when entries are lost. -/
def Lost (m m' : κ → Option α) : Prop := ∀ k, m' k = m k ∨ m' k = none

/-- What a step may do. -/
inductive Access (κ α : Type) where
  | write (k : κ) (x : α)
  | erase (k : κ)
  | found (k : κ) (x : α)
  | missed (k : κ)
  | other

/-- The map after the step. -/
def Access.Allows (m : κ → Option α) : Access κ α → (κ → Option α) → Prop
  | write k x, m' => m' k = some x ∧ ∀ k', k' ≠ k → m' k' = m k' ∨ m' k' = none
  | erase k, m' => m' k = none ∧ Lost m m'
  | found k x, m' => m k = some x ∧ Lost m m'
  | missed k, m' => m' k = none ∧ Lost m m'
  | other, m' => Lost m m'

def Access.Modifies (k : κ) : Access κ α → Prop
  | write k' _ => k' = k
  | erase k' => k' = k
  | _ => False

/-- What is under a key after a step was there before, or it has been written. -/
theorem Access.Allows.eq_some
    {m m' : κ → Option α} {a : Access κ α} {k : κ} {x : α} (h : a.Allows m m') (hx : m' k = some x) :
  a = .write k x ∨ ¬a.Modifies k ∧ m k = some x
  := by
  have hlost : Lost m m' → m k = some x := by
    intro hlost
    obtain hsame | hnone := hlost k
    · rw [← hsame]
      exact hx
    · rw [hnone] at hx
      cases hx
  cases a with
  | write k' y =>
      obtain ⟨hwritten, hothers⟩ := h
      by_cases hk : k = k'
      · subst hk
        rw [hwritten] at hx
        left
        rw [Option.some.inj hx]
      · refine .inr ⟨Ne.symm hk, ?_⟩
        obtain hsame | hnone := hothers k hk
        · rw [← hsame]
          exact hx
        · rw [hnone] at hx
          cases hx
  | erase k' =>
      obtain ⟨herased, hl⟩ := h
      refine .inr ⟨?_, hlost hl⟩
      rintro rfl
      rw [herased] at hx
      cases hx
  | found k' y => exact .inr ⟨id, hlost h.2⟩
  | missed k' => exact .inr ⟨id, hlost h.2⟩
  | other => exact .inr ⟨id, hlost h⟩

section

variable {σ ε : Type} (exec : σ → ε → σ) (view : σ → κ → Option α) (accesses : σ → ε → Access κ α → Prop)

/-- Every step of a run is an access to the map. -/
def Refines (s : σ) (es : List ε) : Prop :=
  Always exec (fun s e => ∃ a, accesses s e a ∧ a.Allows (view s) (view (exec s e))) s es

/-- No step of a run modifies what is under the key. -/
def Untouched (k : κ) (s : σ) (es : List ε) : Prop :=
  Always exec (fun s e => ∃ a, accesses s e a ∧ ¬a.Modifies k) s es

variable {exec view accesses} {s : σ} {es : List ε} {k : κ} {x : α}

/-- What is under a key at the end of a run was there at its start, or it has been written in between, and
nothing has modified it since. -/
theorem Refines.origin
    (h : Refines exec view accesses s es) (hx : view (es.foldl exec s) k = some x) :
  Untouched exec accesses k s es ∧ view s k = some x ∨
    ∃ before e after, es = before ++ e :: after ∧ accesses (before.foldl exec s) e (.write k x) ∧
      Untouched exec accesses k (exec (before.foldl exec s) e) after
  := by
  induction es generalizing s with
  | nil => exact .inl ⟨trivial, hx⟩
  | cons e es ih =>
      obtain ⟨⟨a, ha, hallows⟩, hrest⟩ := h
      obtain ⟨huntouched, hx'⟩ | ⟨before, e', after, rfl, hwrite, huntouched⟩ := ih hrest hx
      · obtain rfl | ⟨hmodifies, hx''⟩ := hallows.eq_some hx'
        · exact .inr ⟨[], e, es, rfl, ha, huntouched⟩
        · exact .inl ⟨⟨⟨a, ha, hmodifies⟩, huntouched⟩, hx''⟩
      · exact .inr ⟨e :: before, e', after, rfl, hwrite, huntouched⟩

end

end LossyMap
