import Mathlib

/-!
# Decimal numerals

Numerals as bytes: printing a number, and reading the digits at the beginning of a text.
Reading what was printed gives the number back, whatever follows that is not a digit.
-/

namespace Decimal

/-- The byte of a digit. -/
def digit (d : Nat) : UInt8 := UInt8.ofNat (48 + d)

def isDigit (c : UInt8) : Bool := 48 ≤ c.toNat && c.toNat ≤ 57

/-- The numeral of a natural number. -/
def print (n : Nat) : List UInt8 :=
  if n = 0 then [digit 0] else ((Nat.digits 10 n).map digit).reverse

/-- The numeral of an integer. -/
def printInt (x : Int) : List UInt8 :=
  if x < 0 then 45 :: print x.natAbs else print x.natAbs

/-- The number a sequence of digits stands for. -/
def value (l : List UInt8) : Nat := l.foldl (fun v c => 10 * v + (c.toNat - 48)) 0

/-- The digits at the beginning of a text. -/
def digits (l : List UInt8) : List UInt8 := l.takeWhile isDigit

theorem toNat_digit {d : Nat} (h : d < 10) : (digit d).toNat = 48 + d := by
  rw [digit, UInt8.toNat_ofNat']
  omega

theorem isDigit_digit {d : Nat} (h : d < 10) : isDigit (digit d) = true := by
  rw [isDigit, toNat_digit h]
  simp
  omega

theorem value_digits_reverse (l : List Nat) (h : ∀ d ∈ l, d < 10) :
  value (l.map digit).reverse = Nat.ofDigits 10 l
  := by
  induction l with
  | nil => rfl
  | cons d l ih =>
      have hd := toNat_digit (h d List.mem_cons_self)
      have ih := ih (fun d' hd' => h d' (List.mem_cons_of_mem d hd'))
      rw [value] at ih ⊢
      rw [List.map_cons, List.reverse_cons, List.foldl_append, ih, Nat.ofDigits_cons]
      simp only [List.foldl_cons, List.foldl_nil, hd]
      omega

/-- The length of the numeral of a number that has at most `d` digits. -/
theorem length_print_le {n d : Nat} (hd : d ≠ 0) (h : n < 10 ^ d) : (print n).length ≤ d := by
  rw [print]
  split
  · rw [List.length_singleton]
    omega
  · rw [List.length_reverse, List.length_map]
    exact (Nat.digits_length_le_iff (by decide) n).mpr h

theorem value_print (n : Nat) : value (print n) = n := by
  rw [print]
  split
  · next h =>
    subst h
    rfl
  · rw [value_digits_reverse _ (fun d hd => Nat.digits_lt_base (by decide) hd), Nat.ofDigits_digits]

theorem isDigit_of_mem_print {n : Nat} {c : UInt8} (h : c ∈ print n) : isDigit c = true := by
  rw [print] at h
  split at h
  · rw [List.mem_singleton.mp h]
    rfl
  · rw [List.mem_reverse, List.mem_map] at h
    obtain ⟨d, hd, rfl⟩ := h
    exact isDigit_digit (Nat.digits_lt_base (by decide) hd)

theorem print_ne_nil (n : Nat) : print n ≠ [] := by
  rw [print]
  split
  · simp
  · next h => simpa [Nat.digits_eq_nil_iff_eq_zero] using h

/-- The digits at the beginning of a numeral that something else follows. -/
theorem digits_print_append (n : Nat) {l : List UInt8} (h : ∀ c ∈ l.head?, isDigit c = false) :
  digits (print n ++ l) = print n
  := by
  rw [digits, List.takeWhile_append_of_pos (fun c hc => isDigit_of_mem_print hc)]
  cases l with
  | nil => simp
  | cons c l => simp [h c rfl]

/-! ### Reading numbers, as the C library does -/

def isSpace (c : UInt8) : Bool := c = 32 || 9 ≤ c.toNat && c.toNat ≤ 13

/-- The sign at the beginning of a text, and what follows it. -/
def sign (l : List UInt8) : Bool × List UInt8 :=
  if l.head? = some 45 then (true, l.tail)
  else if l.head? = some 43 then (false, l.tail)
  else (false, l)

/-- The number that `strtol` reads: blanks, a sign and digits, and the nearest `long` if
the number is none. -/
def strtol (l : List UInt8) : Int :=
  let (neg, l) := sign (l.dropWhile isSpace)
  let v : Int := value (digits l)
  if neg then max (-v) (-2 ^ 63) else min v (2 ^ 63 - 1)

/-- A `long` as an `int`. -/
def toInt32 (x : Int) : Int := (BitVec.ofInt 32 x).toInt

/-- The number that `strtoull` reads, unless it is out of range, and what follows it. A
number with the sign `-` is one below `2 ^ 64`. -/
def strtoull (l : List UInt8) : Option Nat × List UInt8 :=
  let (neg, t) := sign (l.dropWhile isSpace)
  let v := value (digits t)
  if digits t = [] then (some 0, l)
  else if 2 ^ 64 ≤ v then (none, t.dropWhile isDigit)
  else (some (if neg then (2 ^ 64 - v) % 2 ^ 64 else v), t.dropWhile isDigit)

theorem isSpace_eq_false_of_isDigit {c : UInt8} (h : isDigit c = true) : isSpace c = false := by
  rw [isDigit, Bool.and_eq_true, decide_eq_true_eq, decide_eq_true_eq] at h
  have hne : c ≠ 32 := by
    rintro rfl
    exact absurd h.1 (by decide)
  simp only [isSpace, hne, decide_false, Bool.false_or, Bool.and_eq_false_iff, decide_eq_false_iff_not]
  omega

/-- A numeral begins with a digit. -/
theorem print_eq_cons (n : Nat) : ∃ c l, print n = c :: l ∧ isDigit c = true := by
  obtain ⟨c, l, h⟩ := List.exists_cons_of_ne_nil (print_ne_nil n)
  refine ⟨c, l, h, ?_⟩
  apply isDigit_of_mem_print (n := n)
  rw [h]
  exact List.mem_cons_self

/-- A numeral has no sign. -/
theorem sign_print (n : Nat) (l : List UInt8) : sign (print n ++ l) = (false, print n ++ l) := by
  obtain ⟨c, l', h, hc⟩ := print_eq_cons n
  rw [h, List.cons_append]
  have h45 : c ≠ 45 := by
    rintro rfl
    exact absurd hc (by decide)
  have h43 : c ≠ 43 := by
    rintro rfl
    exact absurd hc (by decide)
  simp [sign, h45, h43]

/-- A printed integer is read back, after a blank and before anything that is not a digit. -/
theorem strtol_printInt
    {x : Int} (hx : -2 ^ 63 ≤ x ∧ x < 2 ^ 63) {l : List UInt8}
    (h : ∀ c ∈ l.head?, isDigit c = false) :
  strtol (32 :: printInt x ++ l) = x
  := by
  have hblank : ∀ l : List UInt8, (32 :: l).dropWhile isSpace = l.dropWhile isSpace := fun l => rfl
  rw [List.cons_append, strtol, hblank, printInt]
  by_cases hneg : x < 0
  · have hdrop : (45 :: print x.natAbs ++ l).dropWhile isSpace = 45 :: (print x.natAbs ++ l) := rfl
    have hsign : sign (45 :: (print x.natAbs ++ l)) = (true, print x.natAbs ++ l) := rfl
    rw [if_pos hneg, hdrop, hsign]
    simp only [digits_print_append _ h, value_print, if_true]
    omega
  · have hdrop : (print x.natAbs ++ l).dropWhile isSpace = print x.natAbs ++ l := by
      obtain ⟨c, l', hc, hdigit⟩ := print_eq_cons x.natAbs
      rw [hc, List.cons_append, List.dropWhile_cons_of_neg]
      rw [isSpace_eq_false_of_isDigit hdigit]
      exact Bool.false_ne_true
    rw [if_neg hneg, hdrop, sign_print]
    simp only [digits_print_append _ h, value_print, Bool.false_eq_true, if_false]
    omega

/-! ### Reading unsigned numbers -/

theorem takeWhile_append_of_exists
    {p : UInt8 → Bool} {l : List UInt8} (h : ∃ c ∈ l, p c = false) (t : List UInt8) :
  (l ++ t).takeWhile p = l.takeWhile p ∧ (l ++ t).dropWhile p = l.dropWhile p ++ t
  := by
  induction l with
  | nil =>
      obtain ⟨c, hc, -⟩ := h
      cases hc
  | cons x l ih =>
      by_cases hx : p x = true
      · have hl : ∃ c ∈ l, p c = false := by
          obtain ⟨c, hc, hpc⟩ := h
          obtain rfl | hc := List.mem_cons.mp hc
          · rw [hx] at hpc
            cases hpc
          · exact ⟨c, hc, hpc⟩
        obtain ⟨htake, hdrop⟩ := ih hl
        simp only [List.cons_append, List.takeWhile_cons, List.dropWhile_cons, hx, if_true, htake, hdrop,
          and_self]
      · simp only [List.cons_append, List.takeWhile_cons, List.dropWhile_cons, hx, Bool.false_eq_true,
          if_false, and_self]

/-- A sign, and the digits that follow it, up to something that is no digit. -/
theorem sign_cons (x : UInt8) {e : List UInt8} (he : ∃ c ∈ e, isDigit c = false) :
  ∃ neg u, sign (x :: e) = (neg, u) ∧ (∀ t, sign (x :: (e ++ t)) = (neg, u ++ t)) ∧
    ∃ c ∈ u, isDigit c = false
  := by
  obtain ⟨c, hc, hdigit⟩ := he
  simp only [sign, List.head?_cons, List.tail_cons, Option.some.injEq]
  by_cases h45 : x = 45
  · simp only [if_pos h45]
    exact ⟨true, e, rfl, fun t => rfl, c, hc, hdigit⟩
  · by_cases h43 : x = 43
    · simp only [if_neg h45, if_pos h43]
      exact ⟨false, e, rfl, fun t => rfl, c, hc, hdigit⟩
    · simp only [if_neg h45, if_neg h43]
      exact ⟨false, x :: e, rfl, fun t => rfl, c, List.mem_cons_of_mem x hc, hdigit⟩

/-- The number is read up to its end, whatever comes behind it. -/
theorem strtoull_append
    {b e : List UInt8} {x : UInt8} (hb : ∀ c ∈ b, isSpace c = true) (hx : isSpace x = false)
    (he : ∃ c ∈ e, isDigit c = false) (t : List UInt8) :
  strtoull (b ++ x :: e ++ t) = ((strtoull (b ++ x :: e)).1, (strtoull (b ++ x :: e)).2 ++ t)
  := by
  have hdrop : ∀ l, (b ++ x :: l).dropWhile isSpace = x :: l := by
    intro l
    rw [List.dropWhile_append_of_pos hb, List.dropWhile_cons, hx]
    rfl
  have hassoc : b ++ x :: e ++ t = b ++ x :: (e ++ t) := by simp
  obtain ⟨neg, u, hu, hut, hstop⟩ := sign_cons x he
  obtain ⟨htake, hdropDigits⟩ := takeWhile_append_of_exists hstop t
  have hdigits : digits (u ++ t) = digits u := htake
  rw [strtoull, strtoull, hassoc, hdrop, hdrop, hu, hut t]
  simp only [hdigits, hdropDigits]
  split
  · rw [← hassoc]
  · split <;> rfl

theorem dropWhile_ne_nil {p : UInt8 → Bool} {l : List UInt8} (h : ∃ c ∈ l, p c = false) :
  l.dropWhile p ≠ []
  := by
  obtain ⟨c, hc, hpc⟩ := h
  rw [Ne, List.dropWhile_eq_nil_iff]
  intro hall
  rw [hall c hc] at hpc
  cases hpc

/-- Something comes behind the number. -/
theorem strtoull_snd_ne_nil
    {b e : List UInt8} {x : UInt8} (hb : ∀ c ∈ b, isSpace c = true) (hx : isSpace x = false)
    (he : ∃ c ∈ e, isDigit c = false) :
  (strtoull (b ++ x :: e)).2 ≠ []
  := by
  have hdrop : (b ++ x :: e).dropWhile isSpace = x :: e := by
    rw [List.dropWhile_append_of_pos hb, List.dropWhile_cons, hx]
    rfl
  obtain ⟨neg, u, hu, -, hstop⟩ := sign_cons x he
  have hrest := dropWhile_ne_nil hstop
  rw [strtoull, hdrop, hu]
  simp only
  split
  · simp
  · split <;> exact hrest

/-- A numeral is read as the number it stands for. -/
theorem strtoull_numeral
    {b ds : List UInt8} {c : UInt8} (hb : ∀ c ∈ b, isSpace c = true) (hds : ∀ c ∈ ds, isDigit c = true)
    (hne : ds ≠ []) (hlt : value ds < 2 ^ 64) (hc : isDigit c = false) (t : List UInt8) :
  strtoull (b ++ ds ++ c :: t) = (some (value ds), c :: t)
  := by
  obtain ⟨x, ds', rfl⟩ := List.exists_cons_of_ne_nil hne
  have hx := hds x List.mem_cons_self
  have hdrop : (b ++ x :: ds' ++ c :: t).dropWhile isSpace = x :: ds' ++ c :: t := by
    rw [List.append_assoc, List.dropWhile_append_of_pos hb, List.cons_append, List.dropWhile_cons,
      isSpace_eq_false_of_isDigit hx]
    rfl
  have hsign : sign (x :: ds' ++ c :: t) = (false, x :: ds' ++ c :: t) := by
    have h45 : x ≠ 45 := by
      rintro rfl
      exact absurd hx (by decide)
    have h43 : x ≠ 43 := by
      rintro rfl
      exact absurd hx (by decide)
    simp [sign, h45, h43]
  have hdigits : digits (x :: ds' ++ c :: t) = x :: ds' := by
    rw [digits, List.takeWhile_append_of_pos hds, List.takeWhile_cons, hc]
    simp
  have hrest : (x :: ds' ++ c :: t).dropWhile isDigit = c :: t := by
    rw [List.dropWhile_append_of_pos hds, List.dropWhile_cons, hc]
    rfl
  rw [strtoull, hdrop, hsign]
  simp only [hdigits, hrest]
  rw [if_neg (List.cons_ne_nil x ds'), if_neg (by omega), if_neg Bool.false_ne_true]

/-- An `int` as an `int`. -/
theorem toInt32_of_int {x : Int} (h : -2 ^ 31 ≤ x ∧ x < 2 ^ 31) : toInt32 x = x := by
  rw [toInt32, BitVec.toInt_ofInt, Int.bmod_eq_of_le]
  · omega
  · omega

end Decimal
