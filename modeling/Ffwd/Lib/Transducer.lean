import Mathlib.Data.List.Infix

/-!
# Transducers

A transducer reads symbols one at a time and writes words. What it has written is never taken back, and what
it has read does not depend on how the symbols come in portions.
-/

structure Transducer (σ α β : Type) where
  start : σ
  next : σ → α → σ
  out : σ → α → List β

namespace Transducer

variable {σ α β : Type}

/-- The state after a word, from any state. -/
def go (T : Transducer σ α β) (q : σ) (l : List α) : σ := l.foldl T.next q

/-- What is written for a word, from any state. -/
def write (T : Transducer σ α β) : σ → List α → List β
  | _, [] => []
  | q, a :: l => T.out q a ++ T.write (T.next q a) l

variable (T : Transducer σ α β) (q : σ)

/-- The state after a word has been read. -/
def state (l : List α) : σ := T.go T.start l

/-- What has been written when a word has been read. -/
def output (l : List α) : List β := T.write T.start l

@[simp] theorem go_nil : T.go q [] = q := rfl

@[simp] theorem go_cons (a : α) (l : List α) : T.go q (a :: l) = T.go (T.next q a) l := rfl

@[simp] theorem write_nil : T.write q [] = [] := rfl

@[simp] theorem write_cons (a : α) (l : List α) : T.write q (a :: l) = T.out q a ++ T.write (T.next q a) l := rfl

theorem go_append (l l' : List α) : T.go q (l ++ l') = T.go (T.go q l) l' := List.foldl_append

theorem write_append (l l' : List α) :
  T.write q (l ++ l') = T.write q l ++ T.write (T.go q l) l'
  := by
  induction l generalizing q with
  | nil => rfl
  | cons a l ih => rw [List.cons_append, write_cons, write_cons, go_cons, ih, List.append_assoc]

theorem state_append (l l' : List α) : T.state (l ++ l') = T.go (T.state l) l' := T.go_append _ l l'

theorem output_append (l l' : List α) : T.output (l ++ l') = T.output l ++ T.write (T.state l) l' :=
  T.write_append _ l l'

/-- What has been written stays. -/
theorem output_mono {l l' : List α} (h : l <+: l') :
  T.output l <+: T.output l'
  := by
  obtain ⟨t, rfl⟩ := h
  rw [output_append]
  exact List.prefix_append _ _

/-! ### Codes -/

section Codes

variable {σ τ α β γ : Type}

/-- A property of the states and symbols that are met in a word. -/
def Along (T : Transducer σ α β) (P : σ → α → Prop) : σ → List α → Prop
  | _, [] => True
  | q, a :: l => P q a ∧ T.Along P (T.next q a) l

/-- A transducer does with the code of a symbol what another one does with the symbol. -/
structure Codes
    (T : Transducer σ α β) (U : Transducer τ γ β) (code : γ → List α) (place : τ → σ) (P : τ → γ → Prop) :
  Prop where
  start : place U.start = T.start
  go : ∀ r c, P r c → T.go (place r) (code c) = place (U.next r c)
  write : ∀ r c, P r c → T.write (place r) (code c) = U.out r c

variable {T : Transducer σ α β} {U : Transducer τ γ β} {code : γ → List α} {place : τ → σ} {P : τ → γ → Prop}

theorem Codes.word (h : Codes T U code place P) {r : τ} {w : List γ} (hw : U.Along P r w) :
  T.go (place r) (w.flatMap code) = place (U.go r w) ∧ T.write (place r) (w.flatMap code) = U.write r w
  := by
  induction w generalizing r with
  | nil => exact ⟨rfl, rfl⟩
  | cons c w ih =>
      obtain ⟨hc, hw⟩ := hw
      obtain ⟨hgo, hwrite⟩ := ih hw
      rw [List.flatMap_cons, go_append, write_append, h.go r c hc, h.write r c hc, hgo, hwrite]
      exact ⟨rfl, rfl⟩

theorem Codes.output (h : Codes T U code place P) {w : List γ} (hw : U.Along P U.start w) :
  T.output (w.flatMap code) = U.output w
  := by
  rw [Transducer.output, ← h.start]
  exact (h.word hw).2

theorem Codes.state (h : Codes T U code place P) {w : List γ} (hw : U.Along P U.start w) :
  T.state (w.flatMap code) = place (U.state w)
  := by
  rw [Transducer.state, ← h.start]
  exact (h.word hw).1

end Codes

end Transducer
