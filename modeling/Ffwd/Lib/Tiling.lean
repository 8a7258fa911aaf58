import Mathlib

/-!
# Tilings of a range of addresses

A list of pieces, each with a first address and a length, tiles the range from `b` to `e` if every
piece starts where the one before it ends. The pieces of a tiling are in the order of their
addresses and do not overlap, and any of them may be replaced by others that tile the same range.
-/

namespace Tiling

variable {β : Type} {start len : β → Nat} {b c d e : Nat} {k k' : β} {l l' l₁ l₂ : List β}

/-- The pieces of the list lie side by side from `b` to `e`. -/
def Tiles (start len : β → Nat) : Nat → List β → Nat → Prop
  | b, [], e => b = e
  | b, k :: l, e => start k = b ∧ Tiles start len (b + len k) l e

theorem Tiles.le (h : Tiles start len b l e) :
  b ≤ e
  := by
  induction l generalizing b with
  | nil => exact Nat.le_of_eq h
  | cons k l ih => exact Nat.le_of_add_right_le (ih h.2)

theorem Tiles.append_iff :
  Tiles start len b (l₁ ++ l₂) e ↔ ∃ c, Tiles start len b l₁ c ∧ Tiles start len c l₂ e
  := by
  induction l₁ generalizing b with
  | nil =>
      constructor
      · intro h
        exact ⟨b, rfl, h⟩
      · rintro ⟨c, rfl, h⟩
        exact h
  | cons k l₁ ih =>
      rw [List.cons_append, Tiles, ih]
      constructor
      · rintro ⟨hk, c, h₁, h₂⟩
        exact ⟨c, ⟨hk, h₁⟩, h₂⟩
      · rintro ⟨c, ⟨hk, h₁⟩, h₂⟩
        exact ⟨hk, c, h₁, h₂⟩

/-- The pieces before and behind a piece. -/
theorem Tiles.split (h : Tiles start len b (l₁ ++ k :: l₂) e) :
  Tiles start len b l₁ (start k) ∧ Tiles start len (start k + len k) l₂ e
  := by
  obtain ⟨c, h₁, rfl, h₂⟩ := Tiles.append_iff.mp h
  exact ⟨h₁, h₂⟩

theorem Tiles.mem (h : Tiles start len b l e) (hk : k ∈ l) :
  b ≤ start k ∧ start k + len k ≤ e
  := by
  obtain ⟨l₁, l₂, rfl⟩ := List.append_of_mem hk
  obtain ⟨h₁, h₂⟩ := h.split
  exact ⟨h₁.le, h₂.le⟩

theorem Tiles.pairwise (h : Tiles start len b l e) :
  l.Pairwise (fun k k' => start k + len k ≤ start k')
  := by
  induction l generalizing b with
  | nil => exact .nil
  | cons k l ih =>
      apply List.Pairwise.cons _ (ih h.2)
      intro k' hk'
      rw [h.1]
      exact (h.2.mem hk').1

/-- Two pieces of a tiling are the same, or one of them lies before the other. -/
theorem Tiles.eq_or_apart (h : Tiles start len b l e) (hk : k ∈ l) (hk' : k' ∈ l) :
  k = k' ∨ start k + len k ≤ start k' ∨ start k' + len k' ≤ start k
  := by
  obtain ⟨l₁, l₂, rfl⟩ := List.append_of_mem hk
  obtain ⟨h₁, h₂⟩ := h.split
  rcases List.mem_append.mp hk' with hk' | hk'
  · exact .inr (.inr (h₁.mem hk').2)
  · rcases List.mem_cons.mp hk' with rfl | hk'
    · exact .inl rfl
    · exact .inr (.inl (h₂.mem hk').1)

/-- The pieces of a part are replaced by others that tile the same range. -/
theorem Tiles.replace
    (h : Tiles start len b (l₁ ++ (l ++ l₂)) e)
    (hl : ∀ c d, Tiles start len c l d → Tiles start len c l' d) :
  Tiles start len b (l₁ ++ (l' ++ l₂)) e
  := by
  obtain ⟨c, h₁, h⟩ := Tiles.append_iff.mp h
  obtain ⟨d, h, h₂⟩ := Tiles.append_iff.mp h
  exact Tiles.append_iff.mpr ⟨c, h₁, Tiles.append_iff.mpr ⟨d, hl c d h, h₂⟩⟩

end Tiling
