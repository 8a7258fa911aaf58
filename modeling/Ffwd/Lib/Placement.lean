import Mathlib

/-!
# Objects in places

A collection of objects, each of which is in one list of a family of lists. `Placed` says so,
`Placed.move` that it stays so when some of the objects of one place are moved to another, and
`Placed.add` that it does when there is a new object.
-/

namespace Placement

variable {ι α : Type} {L : ι → List α} {objects : α → Prop}

/-- Every object is in exactly one of the lists, once, and there is nothing else in them. -/
structure Placed (L : ι → List α) (objects : α → Prop) : Prop where
  nodup : ∀ i, (L i).Nodup
  disjoint : ∀ i j a, a ∈ L i → a ∈ L j → i = j
  mem_iff : ∀ a, objects a ↔ ∃ i, a ∈ L i

theorem Placed.notMem {i j : ι} {a : α} (h : Placed L objects) (ha : a ∈ L i) (hij : i ≠ j) :
  a ∉ L j
  := by
  intro hj
  exact hij (h.disjoint i j a ha hj)

/-- Some objects are moved from the place `i` to the place `j`. -/
theorem Placed.move
    [DecidableEq ι] {i j : ι} {moved rest new : List α} (h : Placed L objects) (hij : i ≠ j)
    (hi : (L i).Perm (moved ++ rest)) (hj : new.Perm (moved ++ L j)) :
  Placed (Function.update (Function.update L i rest) j new) objects
  := by
  have hnodup := h.nodup i
  rw [hi.nodup_iff, List.nodup_append] at hnodup
  obtain ⟨hmoved, hrest, hdisjoint⟩ := hnodup
  have hmem_i : ∀ a, a ∈ L i ↔ a ∈ moved ∨ a ∈ rest := by
    intro a
    rw [hi.mem_iff, List.mem_append]
  have hmem_j : ∀ a, a ∈ new ↔ a ∈ moved ∨ a ∈ L j := by
    intro a
    rw [hj.mem_iff, List.mem_append]
  have hL : ∀ k a, a ∈ Function.update (Function.update L i rest) j new k ↔
      (k = j ∧ (a ∈ moved ∨ a ∈ L j)) ∨ (k ≠ j ∧ k = i ∧ a ∈ rest) ∨
        (k ≠ j ∧ k ≠ i ∧ a ∈ L k) := by
    intro k a
    by_cases hkj : k = j
    · subst hkj
      rw [Function.update_self, hmem_j]
      simp
    · rw [Function.update_of_ne hkj]
      by_cases hki : k = i
      · subst hki
        rw [Function.update_self]
        simp [hkj]
      · rw [Function.update_of_ne hki]
        simp [hkj, hki]
  constructor
  · intro k
    by_cases hkj : k = j
    · subst hkj
      rw [Function.update_self, hj.nodup_iff, List.nodup_append]
      refine ⟨hmoved, h.nodup k, ?_⟩
      rintro a ha b hb rfl
      exact hij (h.disjoint i k a ((hmem_i a).mpr (.inl ha)) hb)
    · rw [Function.update_of_ne hkj]
      by_cases hki : k = i
      · subst hki
        rw [Function.update_self]
        exact hrest
      · rw [Function.update_of_ne hki]
        exact h.nodup k
  · intro k k' a hk hk'
    rw [hL] at hk hk'
    have hdisj := h.disjoint
    have hmoved_rest : a ∈ moved → a ∈ rest → False := fun hm hr => hdisjoint a hm a hr rfl
    grind
  · intro a
    rw [h.mem_iff]
    simp only [hL]
    constructor
    · rintro ⟨k, hk⟩
      by_cases hki : k = i
      · subst hki
        rcases (hmem_i a).mp hk with hk | hk
        · exact ⟨j, .inl ⟨rfl, .inl hk⟩⟩
        · exact ⟨k, .inr (.inl ⟨hij, rfl, hk⟩)⟩
      · by_cases hkj : k = j
        · subst hkj
          exact ⟨k, .inl ⟨rfl, .inr hk⟩⟩
        · exact ⟨k, .inr (.inr ⟨hkj, hki, hk⟩)⟩
    · rintro ⟨k, ⟨rfl, hk | hk⟩ | ⟨-, rfl, hk⟩ | ⟨-, -, hk⟩⟩
      · exact ⟨i, (hmem_i a).mpr (.inl hk)⟩
      · exact ⟨k, hk⟩
      · exact ⟨k, (hmem_i a).mpr (.inr hk)⟩
      · exact ⟨k, hk⟩

/-- There is one more object, and it is put into the place `j`. -/
theorem Placed.add
    [DecidableEq ι] {j : ι} {a : α} {new : List α} {objects' : α → Prop} (h : Placed L objects)
    (ha : ¬objects a) (hobjects : ∀ b, objects' b ↔ b = a ∨ objects b)
    (hj : new.Perm (a :: L j)) :
  Placed (Function.update L j new) objects'
  := by
  have hnot : ∀ i, a ∉ L i := by
    intro i hi
    exact ha ((h.mem_iff a).mpr ⟨i, hi⟩)
  have hmem_j : ∀ b, b ∈ new ↔ b = a ∨ b ∈ L j := by
    intro b
    rw [hj.mem_iff, List.mem_cons]
  have hL : ∀ k b, b ∈ Function.update L j new k ↔ (k = j ∧ b = a) ∨ b ∈ L k := by
    intro k b
    by_cases hkj : k = j
    · subst hkj
      rw [Function.update_self, hmem_j]
      simp
    · rw [Function.update_of_ne hkj]
      simp [hkj]
  constructor
  · intro k
    by_cases hkj : k = j
    · subst hkj
      rw [Function.update_self, hj.nodup_iff, List.nodup_cons]
      exact ⟨hnot k, h.nodup k⟩
    · rw [Function.update_of_ne hkj]
      exact h.nodup k
  · intro k k' b hk hk'
    rw [hL] at hk hk'
    rcases hk with ⟨rfl, rfl⟩ | hk
    · rcases hk' with ⟨rfl, -⟩ | hk'
      · rfl
      · exact absurd hk' (hnot k')
    · rcases hk' with ⟨rfl, rfl⟩ | hk'
      · exact absurd hk (hnot k)
      · exact h.disjoint k k' b hk hk'
  · intro b
    rw [hobjects, h.mem_iff]
    simp only [hL]
    constructor
    · rintro (rfl | ⟨i, hi⟩)
      · exact ⟨j, .inl ⟨rfl, rfl⟩⟩
      · exact ⟨i, .inr hi⟩
    · rintro ⟨i, ⟨-, rfl⟩ | hi⟩
      · exact .inl rfl
      · exact .inr ⟨i, hi⟩

end Placement
