import Mathlib

/-!
# Linked binary trees

Binary trees threaded through memory by two pointers in each node, `none` being the null
pointer. `InOrder child p l` says that the pointer `p` leads to a tree whose nodes, read in
order, are the list `l`. `Hole child p d q e l₁ l₂` says that the link `e` of the node `q` is
reached from the link `d` of the node `p`, with the nodes `l₁` in order before it and `l₂`
behind it: the links of a program that walks down a tree. A tree put into a hole is a tree
again, whatever the link of the hole was.
-/

namespace Linked

variable {α : Type} {child : α → Bool → Option α} {p q : α} {d e : Bool} {l l₁ l₂ : List α}

/-- The pointer leads to a tree, whose nodes are those of the list in order. -/
inductive InOrder (child : α → Bool → Option α) : Option α → List α → Prop where
  | nil : InOrder child none []
  | node {a : α} {l r : List α} (left : InOrder child (child a false) l)
      (right : InOrder child (child a true) r) : InOrder child (some a) (l ++ a :: r)

theorem InOrder.eq_nil (h : InOrder child none l) :
  l = []
  := by
  cases h
  rfl

theorem InOrder.cases_some {a : α} (h : InOrder child (some a) l) :
  ∃ m r, l = m ++ a :: r ∧ InOrder child (child a false) m ∧ InOrder child (child a true) r
  := by
  cases h with
  | node left right => exact ⟨_, _, rfl, left, right⟩

/-- The nodes in order are determined by the pointer. -/
theorem InOrder.unique {o : Option α} {l' : List α}
    (h : InOrder child o l) (h' : InOrder child o l') :
  l = l'
  := by
  induction h generalizing l' with
  | nil => exact h'.eq_nil.symm
  | node left right ihleft ihright =>
      obtain ⟨m, r, rfl, hm, hr⟩ := h'.cases_some
      rw [ihleft hm, ihright hr]

theorem InOrder.congr
    {child' : α → Bool → Option α} {o : Option α} (h : InOrder child o l)
    (hcongr : ∀ a ∈ l, child' a = child a) :
  InOrder child' o l
  := by
  induction h with
  | nil => exact .nil
  | @node a l r left right ihleft ihright =>
      have ha : child' a = child a := by
        apply hcongr
        simp
      apply InOrder.node
      · rw [ha]
        apply ihleft
        intro b hb
        apply hcongr b (List.mem_append_left _ hb)
      · rw [ha]
        apply ihright
        intro b hb
        apply hcongr b (List.mem_append_right _ (List.mem_cons_of_mem a hb))

/-- The link `e` of `q` is reached from the link `d` of `p`, with the nodes `l₁` before it and
`l₂` behind it. -/
inductive Hole (child : α → Bool → Option α) :
    α → Bool → α → Bool → List α → List α → Prop where
  | here {p : α} {d : Bool} : Hole child p d p d [] []
  | left {p a q : α} {d e : Bool} {l₁ l₂ r : List α} (link : child p d = some a)
      (right : InOrder child (child a true) r) (inner : Hole child a false q e l₁ l₂) :
      Hole child p d q e l₁ (l₂ ++ a :: r)
  | right {p a q : α} {d e : Bool} {l₁ l₂ l : List α} (link : child p d = some a)
      (left : InOrder child (child a false) l) (inner : Hole child a true q e l₁ l₂) :
      Hole child p d q e (l ++ a :: l₁) l₂

/-- The link of the hole is the link the way starts at, or that of a node passed on the way. -/
theorem Hole.eq_or_mem (h : Hole child p d q e l₁ l₂) :
  (q = p ∧ e = d) ∨ q ∈ l₁ ++ l₂
  := by
  induction h with
  | here => exact .inl ⟨rfl, rfl⟩
  | left link right inner ih =>
      right
      simp only [List.mem_append, List.mem_cons] at ih ⊢
      tauto
  | right link left inner ih =>
      right
      simp only [List.mem_append, List.mem_cons] at ih ⊢
      tauto

/-- A tree in a hole. -/
theorem Hole.fill {m : List α} (h : Hole child p d q e l₁ l₂) (hm : InOrder child (child q e) m) :
  InOrder child (child p d) (l₁ ++ m ++ l₂)
  := by
  induction h with
  | here =>
      rw [List.nil_append, List.append_nil]
      exact hm
  | left link right inner ih =>
      rw [link, ← List.append_assoc]
      apply InOrder.node (ih hm) right
  | right link left inner ih =>
      rw [link, List.append_assoc, List.append_assoc, List.cons_append, ← List.append_assoc]
      apply InOrder.node left (ih hm)

/-- The hole does not depend on its own link. -/
theorem Hole.congr
    {child' : α → Bool → Option α} (h : Hole child p d q e l₁ l₂)
    (hnodup : (p :: (l₁ ++ l₂)).Nodup)
    (hcongr : ∀ a ∈ p :: (l₁ ++ l₂), ∀ f, (a, f) ≠ (q, e) → child' a f = child a f) :
  Hole child' p d q e l₁ l₂
  := by
  induction h with
  | here => exact .here
  | @left p a q d e l₁ l₂ r link right inner ih =>
      have hq := inner.eq_or_mem
      have hinner : (a :: (l₁ ++ l₂)).Nodup := by grind
      have hlink : child' p d = some a := by
        rw [hcongr p List.mem_cons_self d (by grind), link]
      have hother : child' a true = child a true := by
        apply hcongr
        · simp
        · grind
      have hright : InOrder child' (child' a true) r := by
        rw [hother]
        apply right.congr
        intro b hb
        funext f
        apply hcongr b (by simp [hb])
        grind
      apply Hole.left hlink hright
      apply ih hinner
      intro b hb f
      apply hcongr b
      grind
  | @right p a q d e l₁ l₂ l link left inner ih =>
      have hq := inner.eq_or_mem
      have hinner : (a :: (l₁ ++ l₂)).Nodup := by grind
      have hlink : child' p d = some a := by
        rw [hcongr p List.mem_cons_self d (by grind), link]
      have hother : child' a false = child a false := by
        apply hcongr
        · simp
        · grind
      have hleft : InOrder child' (child' a false) l := by
        rw [hother]
        apply left.congr
        intro b hb
        funext f
        apply hcongr b (by simp [hb])
        grind
      apply Hole.right hlink hleft
      apply ih hinner
      intro b hb f
      apply hcongr b
      grind

/-! ### Changing a link -/

section SetChild

variable [DecidableEq α]

/-- The link `e` of the node `q` is set. -/
def setChild (child : α → Bool → Option α) (q : α) (e : Bool) (o : Option α) :
    α → Bool → Option α :=
  Function.update child q (Function.update (child q) e o)

@[simp]
theorem setChild_self (o : Option α) :
  setChild child q e o q e = o
  := by
  rw [setChild, Function.update_self, Function.update_self]

theorem setChild_of_ne {a : α} {f : Bool} {o : Option α} (h : (a, f) ≠ (q, e)) :
  setChild child q e o a f = child a f
  := by
  rw [setChild]
  by_cases ha : a = q
  · subst ha
    rw [Function.update_self, Function.update_of_ne]
    rintro rfl
    exact h rfl
  · rw [Function.update_of_ne ha]

theorem setChild_of_node_ne {a : α} {o : Option α} (h : a ≠ q) :
  setChild child q e o a = child a
  := Function.update_of_ne h _ _

end SetChild

end Linked
