import Mathlib

/-!
# Linked chains

Lists threaded through memory by pointers, `none` being the null pointer. `Chain next p l`
says that the pointer `p` leads through the elements of `l` to the null pointer; `find`
and `before` walk along a chain as a loop of a program does, with a bound on the number of
its rounds. `DSeg next prev b l e` says that the elements of `l` are linked in both
directions between their neighbours `b` and `e`.
-/

namespace Linked

variable {α : Type} {next : α → Option α} {p : Option α} {l : List α}

/-! ### Singly linked chains -/

/-- The pointer `p` leads through the elements of the list to the null pointer. -/
def Chain (next : α → Option α) : Option α → List α → Prop
  | p, [] => p = none
  | p, a :: l => p = some a ∧ Chain next (next a) l

theorem Chain.none_iff (h : Chain next p l) :
  p = none ↔ l = []
  := by
  cases l with
  | nil => exact iff_of_true h rfl
  | cons a l =>
      rw [h.1]
      exact iff_of_false (Option.some_ne_none a) (List.cons_ne_nil a l)

theorem Chain.congr
    {next' : α → Option α} (h : Chain next p l) (hcongr : ∀ a ∈ l, next' a = next a) :
  Chain next' p l
  := by
  induction l generalizing p with
  | nil => exact h
  | cons a l ih =>
      obtain ⟨hp, hl⟩ := h
      use hp
      rw [hcongr a List.mem_cons_self]
      apply ih hl
      intro b hb
      apply hcongr b (List.mem_cons_of_mem a hb)

/-- A pointer leads through one list only. -/
theorem Chain.unique {l' : List α} (h : Chain next p l) (h' : Chain next p l') :
  l = l'
  := by
  induction l generalizing p l' with
  | nil =>
      cases l' with
      | nil => rfl
      | cons a l' => exact absurd (h.symm.trans h'.1) (by simp)
  | cons a l ih =>
      cases l' with
      | nil => exact absurd (h'.symm.trans h.1) (by simp)
      | cons a' l' =>
          obtain rfl := Option.some.inj (h.1.symm.trans h'.1)
          rw [ih h.2 h'.2]

theorem Chain.exists_cons {a : α} (h : Chain next (some a) l) :
  ∃ l', l = a :: l'
  := by
  cases l with
  | nil => cases h
  | cons b l =>
      obtain ⟨⟨rfl⟩, -⟩ := h
      exact ⟨l, rfl⟩

/-- The part of a chain behind an element is a chain. -/
theorem Chain.drop {l₁ l₂ : List α} {a : α} (h : Chain next p (l₁ ++ a :: l₂)) :
  Chain next (next a) l₂
  := by
  induction l₁ generalizing p with
  | nil => exact h.2
  | cons b l₁ ih => exact ih h.2

/-- A chain does not meet itself. -/
theorem Chain.nodup (h : Chain next p l) :
  l.Nodup
  := by
  induction l generalizing p with
  | nil => exact List.nodup_nil
  | cons a l ih =>
      rw [List.nodup_cons]
      refine ⟨fun ha => ?_, ih h.2⟩
      obtain ⟨l₁, l₂, rfl⟩ := List.append_of_mem ha
      have heq : l₁ ++ a :: l₂ = l₂ := h.2.unique h.2.drop
      have := congrArg List.length heq
      simp at this
      omega

section Update

variable [DecidableEq α] {a b : α} {l₁ l₂ : List α} {q : Option α}

/-- A change at an element outside a chain does not change the chain. -/
theorem Chain.update (h : Chain next p l) (ha : a ∉ l) (q : Option α) :
  Chain (Function.update next a q) p l
  := by
  apply h.congr
  intro b hb
  apply Function.update_of_ne
  rintro rfl
  exact ha hb

/-- An element put before a chain. -/
theorem Chain.cons (h : Chain next p l) (ha : a ∉ l) :
  Chain (Function.update next a p) (some a) (a :: l)
  := by
  use rfl
  rw [Function.update_self]
  apply h.update ha

/-- The element behind `b` is taken out of a chain. -/
theorem Chain.remove (h : Chain next p (l₁ ++ b :: a :: l₂)) :
  Chain (Function.update next b (next a)) p (l₁ ++ b :: l₂)
  := by
  have hnodup := h.nodup
  have hl₁ : b ∉ l₁ := fun hb =>
    (List.nodup_append.mp hnodup).2.2 b hb b List.mem_cons_self rfl
  have hl₂ : b ∉ l₂ := fun hb =>
    (List.nodup_cons.mp (List.nodup_append.mp hnodup).2.1).1 (List.mem_cons_of_mem a hb)
  clear hnodup
  induction l₁ generalizing p with
  | nil =>
      use h.1
      rw [Function.update_self]
      apply Chain.update h.2.2 hl₂
  | cons c l₁ ih =>
      use h.1
      rw [Function.update_of_ne (fun hc => hl₁ (by rw [hc]; exact List.mem_cons_self))]
      apply ih h.2 (fun hb => hl₁ (List.mem_cons_of_mem c hb))

/-- A chain that is cut off behind an element. -/
theorem Chain.cut (h : Chain next p (l₁ ++ b :: l₂)) :
  Chain (Function.update next b none) p (l₁ ++ [b])
  := by
  have hnodup := h.nodup
  have hl₁ : b ∉ l₁ := fun hb =>
    (List.nodup_append.mp hnodup).2.2 b hb b List.mem_cons_self rfl
  clear hnodup
  induction l₁ generalizing p with
  | nil =>
      use h.1
      rw [Function.update_self]
      rfl
  | cons c l₁ ih =>
      use h.1
      rw [Function.update_of_ne (fun hc => hl₁ (by rw [hc]; exact List.mem_cons_self))]
      apply ih h.2 (fun hb => hl₁ (List.mem_cons_of_mem c hb))

/-- A chain that would end at an element, and one behind it. -/
theorem Chain.join
    (h₁ : Chain (Function.update next b none) p (l₁ ++ [b])) (h₂ : Chain next q l₂)
    (hb : b ∉ l₂) :
  Chain (Function.update next b q) p (l₁ ++ b :: l₂)
  := by
  have hnodup := h₁.nodup
  have hl₁ : b ∉ l₁ := fun hb =>
    (List.nodup_append.mp hnodup).2.2 b hb b List.mem_cons_self rfl
  clear hnodup
  induction l₁ generalizing p with
  | nil =>
      use h₁.1
      rw [Function.update_self]
      exact h₂.update hb q
  | cons c l₁ ih =>
      have hc : c ≠ b := fun hc => hl₁ (by rw [hc]; exact List.mem_cons_self)
      have hrest := h₁.2
      use h₁.1
      rw [Function.update_of_ne hc] at hrest ⊢
      apply ih hrest (fun hb => hl₁ (List.mem_cons_of_mem c hb))

/-- An element appended to a chain: the last element points to it. -/
theorem Chain.append (h : Chain next p (l ++ [b])) (ha : a ∉ l ++ [b]) :
  Chain (Function.update (Function.update next a none) b (some a)) p (l ++ [b] ++ [a])
  := by
  have hab : a ≠ b := by
    rintro rfl
    exact ha (List.mem_append_right l List.mem_cons_self)
  induction l generalizing p with
  | nil =>
      obtain ⟨rfl, -⟩ := h
      refine ⟨rfl, ?_, ?_⟩
      · rw [Function.update_self]
      · rw [Function.update_of_ne hab, Function.update_self]
        rfl
  | cons c l ih =>
      have hnodup := h.nodup
      obtain ⟨rfl, h⟩ := h
      have hcb : c ≠ b := by
        rintro rfl
        exact (List.nodup_cons.mp hnodup).1 (List.mem_append_right l List.mem_cons_self)
      have hca : c ≠ a := by
        rintro rfl
        exact ha List.mem_cons_self
      refine ⟨rfl, ?_⟩
      rw [Function.update_of_ne hcb, Function.update_of_ne hca]
      exact ih h fun hmem => ha (List.mem_cons_of_mem c hmem)

end Update

/-! ### Walks -/

/-- The elements of a chain are those that can be reached from its first. -/
theorem Chain.mem_iff_reachable {a : α} (h : Chain next (some a) (a :: l)) (b : α) :
  b ∈ a :: l ↔ Relation.ReflTransGen (fun x y => next x = some y) a b
  := by
  constructor
  · intro hb
    induction l generalizing a with
    | nil =>
        rw [List.mem_singleton.mp hb]
    | cons c l ih =>
        obtain ⟨-, hnext, h⟩ := h
        obtain rfl | hb := List.mem_cons.mp hb
        · exact .refl
        · exact .head hnext (ih ⟨rfl, h⟩ hb)
  · intro hreach
    induction hreach with
    | refl => exact List.mem_cons_self
    | tail _ hnext ih =>
        obtain ⟨l₁, l₂, hl⟩ := List.append_of_mem ih
        rw [hl] at h ⊢
        have hrest := h.drop
        rw [hnext] at hrest
        cases l₂ with
        | nil => cases hrest
        | cons d l₂ =>
            obtain ⟨⟨rfl⟩, -⟩ := hrest
            exact List.mem_append_right l₁ (List.mem_cons_of_mem _ List.mem_cons_self)

/-- The first element of a chain that passes the test, looking at `n` elements at most. -/
def find (next : α → Option α) (test : α → Bool) : Nat → Option α → Option α
  | 0, _ => none
  | _ + 1, none => none
  | n + 1, some a => if test a then some a else find next test n (next a)

/-- The element before the first one that passes the test, if it is not the first of the
chain; `c` is the element before the chain. -/
def before (next : α → Option α) (test : α → Bool) :
    Nat → Option α → Option α → Option α
  | 0, c, _ => c
  | _ + 1, c, none => c
  | n + 1, c, some a => if test a then c else before next test n (some a) (next a)

theorem find_eq {test : α → Bool} {n : Nat} (h : Chain next p l) (hn : l.length ≤ n) :
  find next test n p = l.find? test
  := by
  induction n generalizing p l with
  | zero =>
      obtain rfl := List.length_eq_zero_iff.mp (Nat.le_zero.mp hn)
      rfl
  | succ n ih =>
      cases l with
      | nil =>
          rw [show p = none from h]
          rfl
      | cons a l =>
          obtain ⟨rfl, hl⟩ := h
          rw [find, List.find?_cons]
          cases test a with
          | true => rfl
          | false => exact ih hl (Nat.le_of_succ_le_succ hn)

/-- What is found is in the chain and passes the test. -/
theorem mem_of_find_eq_some
    {test : α → Bool} {n : Nat} {a : α} (h : Chain next p l) (hfind : find next test n p = some a) :
  a ∈ l ∧ test a = true
  := by
  induction n generalizing p l with
  | zero => cases hfind
  | succ n ih =>
      cases l with
      | nil =>
          rw [show p = none from h] at hfind
          cases hfind
      | cons b l =>
          obtain ⟨rfl, hl⟩ := h
          rw [find] at hfind
          split at hfind
          · next htest =>
            obtain rfl := Option.some.inj hfind
            exact ⟨List.mem_cons_self, htest⟩
          · obtain ⟨ha, htest⟩ := ih hl hfind
            exact ⟨List.mem_cons_of_mem b ha, htest⟩

theorem before_eq
    {test : α → Bool} {n : Nat} {c : Option α} {l₁ l₂ : List α} {a : α}
    (h : Chain next p (l₁ ++ a :: l₂)) (hn : (l₁ ++ a :: l₂).length ≤ n)
    (hl₁ : ∀ b ∈ l₁, test b = false) (ha : test a = true) :
  before next test n c p = l₁.getLast?.or c
  := by
  induction l₁ generalizing p n c with
  | nil =>
      obtain ⟨rfl, hl⟩ := h
      cases n with
      | zero => simp at hn
      | succ n => simp [before, ha]
  | cons b l₁ ih =>
      obtain ⟨rfl, hl⟩ := h
      cases n with
      | zero => simp at hn
      | succ n =>
          rw [before, hl₁ b List.mem_cons_self, if_neg Bool.false_ne_true,
            ih hl (Nat.le_of_succ_le_succ hn) (fun b' hb' => hl₁ b' (List.mem_cons_of_mem b hb'))]
          cases l₁ <;> simp [List.getLast?_cons]

/-! ### Doubly linked segments -/

/-- The elements of the list are linked in both directions, between the neighbours `b`
and `e`. -/
def DSeg (next prev : α → Option α) : Option α → List α → Option α → Prop
  | _, [], _ => True
  | b, a :: l, e => prev a = b ∧ next a = l.head?.or e ∧ DSeg next prev (some a) l e

variable {prev : α → Option α} {b e : Option α}

theorem DSeg.congr
    {next' prev' : α → Option α} (h : DSeg next prev b l e) (hnext : ∀ a ∈ l, next' a = next a)
    (hprev : ∀ a ∈ l, prev' a = prev a) :
  DSeg next' prev' b l e
  := by
  induction l generalizing b with
  | nil => trivial
  | cons a l ih =>
      obtain ⟨hp, hn, hl⟩ := h
      refine ⟨?_, ?_, ?_⟩
      · rw [hprev a List.mem_cons_self, hp]
      · rw [hnext a List.mem_cons_self, hn]
      · apply ih hl
        · intro c hc
          apply hnext c (List.mem_cons_of_mem a hc)
        · intro c hc
          apply hprev c (List.mem_cons_of_mem a hc)

theorem DSeg.append_iff {l₁ l₂ : List α} :
  DSeg next prev b (l₁ ++ l₂) e
    ↔ DSeg next prev b l₁ (l₂.head?.or e) ∧ DSeg next prev (l₁.getLast?.or b) l₂ e
  := by
  induction l₁ generalizing b with
  | nil => simp [DSeg]
  | cons a l₁ ih =>
      have hhead : (l₁ ++ l₂).head?.or e = l₁.head?.or (l₂.head?.or e) := by
        cases l₁ <;> simp
      have hlast : (a :: l₁).getLast?.or b = l₁.getLast?.or (some a) := by
        cases l₁ <;> simp [List.getLast?_cons]
      simp only [List.cons_append, DSeg, ih, hhead, hlast, and_assoc]

/-- The elements of a list from the last one back. -/
theorem DSeg.chain_prev (h : DSeg next prev none l e) :
  Chain prev l.getLast? l.reverse
  := by
  induction l using List.reverseRecOn generalizing e with
  | nil => rfl
  | append_singleton l a ih =>
      obtain ⟨hl, ha, -⟩ := DSeg.append_iff.mp h
      rw [List.getLast?_concat, List.reverse_append]
      refine ⟨rfl, ?_⟩
      rw [ha, Option.or_none]
      exact ih hl

section Set

variable [DecidableEq α]

/-- The write `if (p) p->field = v`. -/
def setAt (f : α → Option α) (p : Option α) (v : Option α) : α → Option α :=
  match p with
  | none => f
  | some a => Function.update f a v

theorem setAt_of_ne {f : α → Option α} {v : Option α} {a : α} (h : p ≠ some a) :
  setAt f p v a = f a
  := by
  cases p with
  | none => rfl
  | some c =>
      apply Function.update_of_ne
      rintro rfl
      exact h rfl

/-- The last element of a segment is given another right neighbour. -/
theorem DSeg.setLast {e' : Option α} (h : DSeg next prev b l e) (hl : l.Nodup) :
  DSeg (setAt next l.getLast? e') prev b l e'
  := by
  induction l generalizing b with
  | nil => trivial
  | cons a l ih =>
      obtain ⟨hp, hn, hseg⟩ := h
      obtain ⟨ha, hl⟩ := List.nodup_cons.mp hl
      cases l with
      | nil => simp [DSeg, setAt, hp]
      | cons c l =>
          have hlast : (a :: c :: l).getLast? = (c :: l).getLast? := by
            simp [List.getLast?_cons]
          refine ⟨hp, ?_, ?_⟩
          · rw [hlast, setAt_of_ne, hn]
            · simp
            · intro hc
              exact ha (List.mem_of_getLast? hc)
          · rw [hlast]
            exact ih hseg hl

/-- The first element of a segment is given another left neighbour. -/
theorem DSeg.setHead {b' : Option α} (h : DSeg next prev b l e) (hl : l.Nodup) :
  DSeg next (setAt prev l.head? b') b' l e
  := by
  cases l with
  | nil => trivial
  | cons a l =>
      obtain ⟨hp, hn, hseg⟩ := h
      refine ⟨by simp [setAt], hn, hseg.congr (fun _ _ => rfl) ?_⟩
      intro c hc
      apply setAt_of_ne
      rintro ⟨⟩
      exact (List.nodup_cons.mp hl).1 hc

/-- An element put before a list. -/
theorem DSeg.push {a : α} (h : DSeg next prev none l none) (hl : l.Nodup) (ha : a ∉ l) :
  DSeg (Function.update next a l.head?) (setAt (Function.update prev a none) l.head? (some a))
    none (a :: l) none
  := by
  have hhead : l.head? ≠ some a := fun hc => ha (List.mem_of_head? hc)
  have hne : ∀ c ∈ l, c ≠ a := by
    rintro c hc rfl
    exact ha hc
  refine ⟨?_, ?_, ?_⟩
  · rw [setAt_of_ne hhead, Function.update_self]
  · simp
  · apply DSeg.setHead (b := none) _ hl
    apply h.congr
    · intro c hc
      apply Function.update_of_ne (hne c hc)
    · intro c hc
      apply Function.update_of_ne (hne c hc)

/-- An element taken out of a list. -/
theorem DSeg.remove
    {l₁ l₂ : List α} {a : α} (h : DSeg next prev none (l₁ ++ a :: l₂) none)
    (hl : (l₁ ++ a :: l₂).Nodup) :
  DSeg (setAt next (prev a) (next a)) (setAt prev (next a) (prev a)) none (l₁ ++ l₂) none
  := by
  obtain ⟨hl₁, hl₂', hdisj⟩ := List.nodup_append.mp hl
  obtain ⟨-, hl₂⟩ := List.nodup_cons.mp hl₂'
  obtain ⟨h₁, hp, hn, h₂⟩ := DSeg.append_iff.mp h
  simp only [Option.or_none] at hp hn
  rw [DSeg.append_iff, hp, hn, Option.or_none, Option.or_none]
  constructor
  · apply DSeg.congr (h₁.setLast hl₁)
    · exact fun _ _ => rfl
    · intro c hc
      apply setAt_of_ne
      intro hc'
      exact hdisj c hc c (List.mem_cons_of_mem a (List.mem_of_head? hc')) rfl
  · apply DSeg.congr (h₂.setHead hl₂)
    · intro c hc
      apply setAt_of_ne
      intro hc'
      exact hdisj c (List.mem_of_getLast? hc') c (List.mem_cons_of_mem a hc) rfl
    · exact fun _ _ => rfl

end Set

end Linked
