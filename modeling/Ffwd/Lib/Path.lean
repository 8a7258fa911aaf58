import Mathlib

/-!
# Linked paths

Lists threaded through memory by pointers that are never null. `Path next b l e` says that the
pointers lead from the element `b` through the elements of `l` to the element `e`; with `b` and
`e` the same it is a ring. `walk` goes along a path as a loop of a program does, with a bound
on the number of its rounds.
-/

namespace Linked

variable {α : Type} {next next' : α → α} {a b e : α} {l l₁ l₂ : List α}

/-- The pointers lead from `b` through the elements of the list to `e`. -/
def Path (next : α → α) : α → List α → α → Prop
  | b, [], e => next b = e
  | b, a :: l, e => next b = a ∧ Path next a l e

/-- The last element of a list that starts with `b`. -/
def last (b : α) (l : List α) : α := l.getLast?.getD b

@[simp]
theorem last_nil :
  last b [] = b
  := rfl

@[simp]
theorem last_cons :
  last b (a :: l) = last a l
  := by
  rw [last, last, List.getLast?_cons, Option.getD_some]

@[simp]
theorem last_concat :
  last b (l ++ [a]) = a
  := by
  rw [last, List.getLast?_concat, Option.getD_some]

theorem last_mem :
  last b l ∈ b :: l
  := by
  induction l generalizing b with
  | nil => exact List.mem_cons_self
  | cons a l ih =>
      rw [last_cons]
      exact List.mem_cons_of_mem b ih

/-- The list up to one of its elements. -/
theorem exists_last_eq (ha : a ∈ b :: l) :
  ∃ l₁ l₂, l = l₁ ++ l₂ ∧ last b l₁ = a
  := by
  induction l generalizing b with
  | nil =>
      obtain rfl := List.mem_singleton.mp ha
      exact ⟨[], [], rfl, rfl⟩
  | cons c l ih =>
      rcases List.mem_cons.mp ha with rfl | ha
      · exact ⟨[], c :: l, rfl, rfl⟩
      · obtain ⟨l₁, l₂, rfl, hlast⟩ := ih ha
        refine ⟨c :: l₁, l₂, rfl, ?_⟩
        rw [last_cons]
        exact hlast

theorem rel_last {r : α → α → Prop} (h : (b :: l).Pairwise r) (ha : a ∈ b :: l) :
  a = last b l ∨ r a (last b l)
  := by
  induction l generalizing b with
  | nil => exact .inl (List.mem_singleton.mp ha)
  | cons c l ih =>
      obtain ⟨hb, h⟩ := List.pairwise_cons.mp h
      rw [last_cons]
      rcases List.mem_cons.mp ha with rfl | ha
      · exact .inr (hb _ last_mem)
      · exact ih h ha

theorem Path.next_last (h : Path next b l e) :
  next (last b l) = e
  := by
  induction l generalizing b with
  | nil => exact h
  | cons a l ih =>
      rw [last_cons]
      exact ih h.2

theorem Path.append_iff :
  Path next b (l₁ ++ l₂) e
    ↔ Path next b l₁ (l₂.head?.getD e) ∧ Path next (last b l₁) l₂ e
  := by
  induction l₁ generalizing b with
  | nil =>
      cases l₂ with
      | nil => exact (and_self_iff).symm
      | cons a l₂ => exact ⟨fun h => ⟨h.1, h⟩, fun h => h.2⟩
  | cons a l₁ ih =>
      rw [List.cons_append, Path, ih, last_cons, Path, and_assoc]

/-- A path from another element that points to its first element. -/
theorem Path.congr
    {b' : α} (h : Path next b l e) (hb : next' b' = next b) (hl : ∀ a ∈ l, next' a = next a) :
  Path next' b' l e
  := by
  induction l generalizing b b' with
  | nil => exact hb.trans h
  | cons a l ih =>
      refine ⟨hb.trans h.1, ih h.2 (hl a List.mem_cons_self) ?_⟩
      intro c hc
      exact hl c (List.mem_cons_of_mem a hc)

theorem Path.congr_of_mem (h : Path next b l e) (hl : ∀ a ∈ b :: l, next' a = next a) :
  Path next' b l e
  := by
  apply h.congr (hl b List.mem_cons_self)
  intro a ha
  exact hl a (List.mem_cons_of_mem b ha)

/-- A path from the same element ends no earlier than at the first pointer to where its end points
to. -/
theorem Path.mem_of_path
    {e' : α} {l' : List α} (h : Path next b l e) (h' : Path next b l' e')
    (hne : ∀ a ∈ l ++ [e], a ≠ next e') :
  ∀ a ∈ l, a ∈ l'
  := by
  induction l generalizing b l' with
  | nil => simp
  | cons c l ih =>
      obtain ⟨hc, h⟩ := h
      cases l' with
      | nil =>
          have he' : next b = e' := h'
          have hnext : next c = (l ++ [e]).head (by simp) := by
            cases l with
            | nil => exact h
            | cons d l => exact h.1
          apply absurd (hnext.symm.trans (congrArg next (hc.symm.trans he')))
          apply hne
          exact List.mem_cons_of_mem c (List.head_mem _)
      | cons d l' =>
          obtain ⟨hd, h'⟩ := h'
          obtain rfl := hc.symm.trans hd
          intro a ha
          rcases List.mem_cons.mp ha with rfl | ha
          · exact List.mem_cons_self
          · apply List.mem_cons_of_mem
            apply ih h h' _ a ha
            intro a ha
            exact hne a (List.mem_cons_of_mem c ha)

theorem Path.next_mem (h : Path next b l e) (ha : a ∈ b :: l) :
  next a ∈ l ++ [e]
  := by
  obtain ⟨l₁, l₂, rfl, rfl⟩ := exists_last_eq ha
  rw [(Path.append_iff.mp h).1.next_last]
  cases l₂ with
  | nil => simp
  | cons c l₂ => simp

/-- The elements of a closed path are those that can be reached on it. -/
theorem Path.mem_iff_reachable (h : Path next b l b) :
  a ∈ b :: l ↔ Relation.ReflTransGen (fun c d => next c = d) b a
  := by
  constructor
  · intro ha
    have hreach : ∀ {c e : α} {l : List α}, Path next c l e → a ∈ c :: l →
        Relation.ReflTransGen (fun c d => next c = d) c a := by
      intro c e l
      induction l generalizing c with
      | nil =>
          intro _ ha
          obtain rfl := List.mem_singleton.mp ha
          exact .refl
      | cons d l ih =>
          rintro ⟨hd, h⟩ ha
          rcases List.mem_cons.mp ha with rfl | ha
          · exact .refl
          · exact .head hd (ih h ha)
    exact hreach h ha
  · intro hreach
    induction hreach with
    | refl => exact List.mem_cons_self
    | tail _ hnext ih =>
        have hmem := h.next_mem ih
        rw [hnext] at hmem
        simp only [List.mem_append, List.mem_cons, List.not_mem_nil, or_false] at hmem ⊢
        exact hmem.symm

/-- A ring is empty if its element points to itself. -/
theorem Path.eq_nil_iff (h : Path next b l b) (hb : b ∉ l) :
  l = [] ↔ next b = b
  := by
  cases l with
  | nil => exact ⟨fun _ => h, fun _ => rfl⟩
  | cons a l =>
      refine ⟨nofun, fun hnext => ?_⟩
      rw [h.1] at hnext
      rw [hnext] at hb
      exact absurd List.mem_cons_self hb

section Update

variable [DecidableEq α]

/-- The last element of a path is given another successor. -/
theorem Path.setLast (h : Path next b l e) (hnodup : (b :: l).Nodup) (e' : α) :
  Path (Function.update next (last b l) e') b l e'
  := by
  induction l generalizing b with
  | nil => exact Function.update_self b e' next
  | cons a l ih =>
      obtain ⟨hb, hnodup⟩ := List.nodup_cons.mp hnodup
      rw [last_cons]
      refine ⟨?_, ih h.2 hnodup⟩
      rw [Function.update_of_ne, h.1]
      intro hlast
      rw [hlast] at hb
      exact hb last_mem

/-- An element put into a path. -/
theorem Path.insert
    (h : Path next b (l₁ ++ l₂) e) (hnodup : (b :: (l₁ ++ l₂)).Nodup)
    (ha : a ∉ b :: (l₁ ++ l₂)) :
  Path (Function.update (Function.update next a (next (last b l₁))) (last b l₁) a) b
    (l₁ ++ a :: l₂) e
  := by
  obtain ⟨h₁, h₂⟩ := Path.append_iff.mp h
  rw [← List.cons_append] at hnodup ha
  obtain ⟨hnodup₁, -, hdisjoint⟩ := List.nodup_append.mp hnodup
  have hlast : last b l₁ ∈ b :: l₁ := last_mem
  have hne : ∀ c ∈ b :: l₁ ++ l₂, c ≠ a := by
    rintro c hc rfl
    exact ha hc
  have ha_last : a ≠ last b l₁ := (hne _ (List.mem_append_left _ hlast)).symm
  rw [Path.append_iff]
  refine ⟨?_, Function.update_self _ _ _, ?_⟩
  · refine Path.setLast (e := l₂.head?.getD e) (h₁.congr ?_ ?_) hnodup₁ a
    · exact Function.update_of_ne (hne b (by simp)) _ _
    · intro c hc
      exact Function.update_of_ne (hne c (by simp [hc])) _ _
  · apply h₂.congr
    · rw [Function.update_of_ne ha_last, Function.update_self]
    · intro c hc
      rw [Function.update_of_ne (hdisjoint _ hlast c hc).symm,
        Function.update_of_ne (hne c (by simp [hc]))]

/-- An element taken out of a path. -/
theorem Path.remove
    (h : Path next b (l₁ ++ a :: l₂) e) (hnodup : (b :: (l₁ ++ a :: l₂)).Nodup) :
  Path (Function.update next (last b l₁) (next a)) b (l₁ ++ l₂) e
  := by
  obtain ⟨h₁, -, h₂⟩ := Path.append_iff.mp h
  rw [← List.cons_append] at hnodup
  obtain ⟨hnodup₁, -, hdisjoint⟩ := List.nodup_append.mp hnodup
  have hlast : last b l₁ ∈ b :: l₁ := last_mem
  have hnext : next a = l₂.head?.getD e := by
    cases l₂ with
    | nil => exact h₂
    | cons c l₂ => exact h₂.1
  rw [Path.append_iff]
  refine ⟨?_, ?_⟩
  · rw [hnext]
    exact h₁.setLast hnodup₁ _
  · apply h₂.congr
    · exact Function.update_self _ _ _
    · intro c hc
      exact Function.update_of_ne (hdisjoint _ hlast c (List.mem_cons_of_mem a hc)).symm _ _

end Update

/-- The loop that goes on while the next element passes the test, for `n` rounds at most. -/
def walk (next : α → α) (test : α → Bool) (n : Nat) (a : α) : Option α :=
  match test (next a), n with
  | false, _ => some a
  | true, 0 => none
  | true, n + 1 => walk next test n (next a)

theorem walk_eq
    {test : α → Bool} {n : Nat} (h : Path next b (l₁ ++ l₂) e) (hn : l₁.length ≤ n)
    (hl₁ : ∀ a ∈ l₁, test a = true) (hl₂ : test (l₂.head?.getD e) = false) :
  walk next test n b = some (last b l₁)
  := by
  induction l₁ generalizing b n with
  | nil =>
      have hnext : next b = l₂.head?.getD e := by
        cases l₂ with
        | nil => exact h
        | cons a l₂ => exact h.1
      unfold walk
      rw [hnext, hl₂, last_nil]
  | cons a l₁ ih =>
      obtain ⟨n, rfl⟩ : ∃ n', n = n' + 1 := ⟨n - 1, by simp at hn; omega⟩
      unfold walk
      rw [h.1, hl₁ a List.mem_cons_self, last_cons]
      apply ih h.2 (Nat.le_of_succ_le_succ hn)
      intro c hc
      exact hl₁ c (List.mem_cons_of_mem a hc)

/-- What holds of the elements a walk passes holds of the one where it ends. -/
theorem walk_inv
    {test : α → Bool} {n : Nat} {p : α} (inv : α → Prop) (h : walk next test n a = some p)
    (ha : inv a) (hstep : ∀ c, inv c → test (next c) = true → inv (next c)) :
  inv p ∧ test (next p) = false
  := by
  induction n generalizing a with
  | zero =>
      unfold walk at h
      cases htest : test (next a) with
      | false =>
          rw [htest] at h
          obtain rfl := Option.some.inj h
          exact ⟨ha, htest⟩
      | true =>
          rw [htest] at h
          exact absurd h nofun
  | succ n ih =>
      unfold walk at h
      cases htest : test (next a) with
      | false =>
          rw [htest] at h
          obtain rfl := Option.some.inj h
          exact ⟨ha, htest⟩
      | true =>
          rw [htest] at h
          exact ih h (hstep a ha htest)

/-- The walk may start anywhere on the part of the path that passes the test. -/
theorem walk_eq_of_mem
    {test : α → Bool} {n : Nat} {x : α} (h : Path next b (l₁ ++ l₂) e) (hx : x ∈ b :: l₁)
    (hn : l₁.length ≤ n) (hl₁ : ∀ a ∈ l₁, test a = true) (hl₂ : test (l₂.head?.getD e) = false) :
  walk next test n x = some (last b l₁)
  := by
  induction l₁ generalizing b with
  | nil =>
      obtain rfl := List.mem_singleton.mp hx
      exact walk_eq h hn hl₁ hl₂
  | cons a l₁ ih =>
      rcases List.mem_cons.mp hx with rfl | hx
      · exact walk_eq h hn hl₁ hl₂
      · rw [last_cons]
        apply ih h.2 hx (Nat.le_of_succ_le hn)
        intro c hc
        exact hl₁ c (List.mem_cons_of_mem a hc)

end Linked
