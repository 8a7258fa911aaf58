import Ffwd.Lib.Path

/-!
# Sorted paths

A path between two sentinels along which the values increase, the way a sorted linked list is kept
in memory. A value is put in, or taken out, behind the last element with a smaller value.
-/

namespace Linked

variable {α β : Type} [LinearOrder β] {val val' : α → β} {next next' : α → α}
  {a b e p : α} {l l₁ l₂ : List α} {v : β}

/-- The pointers lead from `b` through the elements of the list to `e`, with increasing values. -/
structure SortedPath (val : α → β) (next : α → α) (b : α) (l : List α) (e : α) : Prop where
  path : Path next b l e
  increasing : (b :: (l ++ [e])).Pairwise (val · < val ·)

theorem SortedPath.nodup (h : SortedPath val next b l e) :
  (b :: (l ++ [e])).Nodup
  := by
  apply h.increasing.imp
  rintro c d hcd rfl
  exact lt_irrefl _ hcd

theorem SortedPath.nodup_left (h : SortedPath val next b l e) :
  (b :: l).Nodup
  := by
  have hnodup := h.nodup
  rw [← List.cons_append] at hnodup
  exact (List.nodup_append.mp hnodup).1

/-- Other pointers and values, but not on the path. -/
theorem SortedPath.congr
    (h : SortedPath val next b l e) (hval : ∀ c ∈ b :: (l ++ [e]), val' c = val c)
    (hnext : ∀ c ∈ b :: l, next' c = next c) :
  SortedPath val' next' b l e
  := by
  constructor
  · apply h.path.congr (hnext b List.mem_cons_self)
    intro c hc
    exact hnext c (List.mem_cons_of_mem b hc)
  · apply h.increasing.imp_of_mem
    intro c d hc hd hcd
    rw [hval c hc, hval d hd]
    exact hcd

/-- The values on both sides of an element and of the next. -/
theorem SortedPath.sides (h : SortedPath val next b (l₁ ++ l₂) e) :
  (∀ c ∈ b :: l₁, val c ≤ val (last b l₁)) ∧ ∀ c ∈ l₂ ++ [e], val (l₂.head?.getD e) ≤ val c
  := by
  have hincreasing := h.increasing
  rw [List.append_assoc, ← List.cons_append] at hincreasing
  obtain ⟨hincreasing₁, hincreasing₂, -⟩ := List.pairwise_append.mp hincreasing
  constructor
  · intro c hc
    rcases rel_last hincreasing₁ hc with rfl | hlast
    · exact le_refl _
    · exact le_of_lt hlast
  · intro c hc
    cases l₂ with
    | nil =>
        rw [List.mem_singleton.mp hc]
        exact le_refl _
    | cons d l₂ =>
        rcases List.mem_cons.mp hc with rfl | hc
        · exact le_refl _
        · exact le_of_lt ((List.pairwise_cons.mp hincreasing₂).1 c hc)

/-- A value is on the path if and only if it is that of the element behind the last with a smaller
one. -/
theorem SortedPath.mem_iff
    (h : SortedPath val next b (l₁ ++ l₂) e) (hlt : val (last b l₁) < v)
    (hle : v ≤ val (l₂.head?.getD e)) (he : v < val e) :
  (∃ c ∈ l₁ ++ l₂, val c = v) ↔ val (l₂.head?.getD e) = v
  := by
  obtain ⟨hbefore, hafter⟩ := h.sides
  constructor
  · rintro ⟨c, hc, rfl⟩
    rcases List.mem_append.mp hc with hc | hc
    · have := hbefore c (List.mem_cons_of_mem b hc)
      exact absurd (lt_of_le_of_lt this hlt) (lt_irrefl _)
    · apply le_antisymm _ hle
      exact hafter c (List.mem_append_left _ hc)
  · intro heq
    cases l₂ with
    | nil =>
        rw [List.head?_nil, Option.getD_none] at heq
        rw [heq] at he
        exact absurd he (lt_irrefl _)
    | cons c l₂ => exact ⟨c, by simp, heq⟩

/-- The walk through the elements with smaller values ends at the last of them. -/
theorem SortedPath.walk_eq_some
    {n : Nat} (h : SortedPath val next b l e) (hn : l.length ≤ n) (hb : val b < v) (he : v ≤ val e) :
  ∃ p ∈ b :: l, walk next (fun c => val c < v) n b = some p ∧ val p < v ∧ ¬val (next p) < v
  := by
  obtain ⟨hpath, hincreasing⟩ := h
  induction l generalizing b n with
  | nil =>
      have hnext : next b = e := hpath
      have hge : ¬val (next b) < v := by
        rw [hnext, not_lt]
        exact he
      refine ⟨b, List.mem_cons_self, ?_, hb, hge⟩
      unfold walk
      rw [decide_eq_false hge]
  | cons a l ih =>
      have hnext : next b = a := hpath.1
      by_cases ha : val a < v
      · obtain ⟨n, rfl⟩ : ∃ n', n = n' + 1 := ⟨n - 1, by simp at hn; omega⟩
        obtain ⟨p, hp, hwalk, hlt, hge⟩ :=
          ih (Nat.le_of_succ_le_succ hn) ha hpath.2 (List.pairwise_cons.mp hincreasing).2
        refine ⟨p, List.mem_cons_of_mem b hp, ?_, hlt, hge⟩
        unfold walk
        rw [hnext, decide_eq_true ha]
        exact hwalk
      · refine ⟨b, List.mem_cons_self, ?_, hb, by rw [hnext]; exact ha⟩
        unfold walk
        rw [hnext, decide_eq_false ha]

/-- The values of the elements but one. -/
theorem SortedPath.values_remove (h : SortedPath val next b (l₁ ++ a :: l₂) e) :
  ((l₁ ++ l₂).map val).toFinset = ((l₁ ++ a :: l₂).map val).toFinset.erase (val a)
  := by
  have hsub : (l₁ ++ a :: l₂).Sublist (b :: (l₁ ++ a :: l₂ ++ [e])) :=
    (List.sublist_append_left _ _).trans (List.sublist_cons_self _ _)
  obtain ⟨-, ha, hbefore⟩ := List.pairwise_append.mp (h.increasing.sublist hsub)
  have hbehind := (List.pairwise_cons.mp ha).1
  ext v
  simp only [List.mem_toFinset, List.mem_map, List.mem_append, List.mem_cons, Finset.mem_erase]
  constructor
  · rintro ⟨c, hc | hc, rfl⟩
    · exact ⟨ne_of_lt (hbefore c hc a List.mem_cons_self), c, .inl hc, rfl⟩
    · exact ⟨(ne_of_lt (hbehind c hc)).symm, c, .inr (.inr hc), rfl⟩
  · rintro ⟨hv, c, hc | rfl | hc, rfl⟩
    · exact ⟨c, .inl hc, rfl⟩
    · exact absurd rfl hv
    · exact ⟨c, .inr hc, rfl⟩

section Update

variable [DecidableEq α]

/-- An element with a value of its own put into a sorted path. -/
theorem SortedPath.insert
    (h : SortedPath val next b (l₁ ++ l₂) e) (ha : a ∉ b :: (l₁ ++ l₂ ++ [e]))
    (hlt : val (last b l₁) < v) (hgt : v < val (l₂.head?.getD e)) :
  SortedPath (Function.update val a v)
    (Function.update (Function.update next a (l₂.head?.getD e)) (last b l₁) a) b (l₁ ++ a :: l₂) e
  := by
  obtain ⟨hbefore, hafter⟩ := h.sides
  have hval : ∀ c ∈ b :: (l₁ ++ l₂ ++ [e]), Function.update val a v c = val c := by
    intro c hc
    apply Function.update_of_ne
    rintro rfl
    exact ha hc
  constructor
  · have hnext := (Path.append_iff.mp h.path).1.next_last
    rw [← hnext]
    apply h.path.insert h.nodup_left
    intro hmem
    apply ha
    rw [← List.cons_append]
    exact List.mem_append_left _ hmem
  · have hincreasing := h.increasing
    have hval₁ : ∀ c ∈ b :: l₁, Function.update val a v c = val c := by
      intro c hc
      apply hval
      rw [List.append_assoc, ← List.cons_append]
      exact List.mem_append_left _ hc
    have hval₂ : ∀ c ∈ l₂ ++ [e], Function.update val a v c = val c := by
      intro c hc
      apply hval
      rw [List.append_assoc, ← List.cons_append]
      exact List.mem_append_right _ hc
    rw [List.append_assoc, ← List.cons_append] at hincreasing
    obtain ⟨hincreasing₁, hincreasing₂, hcross⟩ := List.pairwise_append.mp hincreasing
    rw [List.append_assoc, List.cons_append, ← List.cons_append, List.pairwise_append]
    refine ⟨?_, List.pairwise_cons.mpr ⟨?_, ?_⟩, ?_⟩
    · apply hincreasing₁.imp_of_mem
      intro c d hc hd hcd
      rw [hval₁ c hc, hval₁ d hd]
      exact hcd
    · intro c hc
      rw [Function.update_self, hval₂ c hc]
      exact lt_of_lt_of_le hgt (hafter c hc)
    · apply hincreasing₂.imp_of_mem
      intro c d hc hd hcd
      rw [hval₂ c hc, hval₂ d hd]
      exact hcd
    · intro c hc d hd
      rw [hval₁ c hc]
      rcases List.mem_cons.mp hd with rfl | hd
      · rw [Function.update_self]
        exact lt_of_le_of_lt (hbefore c hc) hlt
      · rw [hval₂ d hd]
        exact hcross c hc d hd

/-- An element taken out of a sorted path. -/
theorem SortedPath.remove (h : SortedPath val next b (l₁ ++ a :: l₂) e) :
  SortedPath val (Function.update next (last b l₁) (next a)) b (l₁ ++ l₂) e
  := by
  constructor
  · exact h.path.remove h.nodup_left
  · refine List.Pairwise.sublist ?_ h.increasing
    apply List.Sublist.cons_cons
    apply List.Sublist.append_right
    apply List.Sublist.append_left
    exact List.sublist_cons_self _ _

end Update

end Linked
