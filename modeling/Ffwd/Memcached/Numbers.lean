import Ffwd.Lib.Decimal

/-!
# Reading numbers

The functions of `util.c` read a number from a C string. The data of an item is no C
string: it ends in `\r\n`, and what comes behind it is part of the string that a function
gets to see, up to the first zero.
-/

namespace Memcached

open Decimal

/-- The bytes of a C string: those before the first zero. -/
def cString (l : List UInt8) : List UInt8 := l.takeWhile (fun c => c ≠ 0)

/-- The number ends at `endptr`: a blank comes there, or the string ends. -/
def endsNumber (str endptr : List UInt8) : Bool :=
  isSpace (endptr.headD 0) || (endptr.headD 0 = 0 && endptr.length ≠ str.length)

/-- `safe_strtoull`, for the memory from `str` on, behind which a zero comes. A number that
is negative when it is read as a signed one is accepted unless the string contains a `-`
anywhere. -/
def safeStrtoull (str : List UInt8) : Option Nat :=
  match strtoull str with
  | (none, _) => none
  | (some ull, endptr) =>
      if endsNumber str endptr then
        if 2 ^ 63 ≤ ull ∧ 45 ∈ cString str then none else some ull
      else none

/-! ### Numerals -/

theorem cString_append_of_zero {l : List UInt8} (h : 0 ∈ l) (t : List UInt8) :
  cString (l ++ t) = cString l
  := (takeWhile_append_of_exists ⟨0, h, by decide⟩ t).1

theorem cString_append {l : List UInt8} (h : 0 ∉ l) (t : List UInt8) :
  cString (l ++ t) = l ++ cString t
  := by
  apply List.takeWhile_append_of_pos
  intro c hc
  rw [decide_eq_true_eq]
  rintro rfl
  exact h hc

theorem cString_of_zero_notMem {l : List UInt8} (h : 0 ∉ l) :
  cString l = l
  := by
  have happend := cString_append h []
  rw [List.append_nil] at happend
  rw [happend]
  exact List.append_nil l

theorem isDigit_of_isSpace {c : UInt8} (h : isSpace c = true) : isDigit c = false := by
  by_contra hdigit
  rw [Bool.not_eq_false] at hdigit
  rw [isSpace_eq_false_of_isDigit hdigit] at h
  cases h

/-- A numeral of a number below `2 ^ 64` after blanks, which a blank or a zero ends. It is
read as the number, but a large number is not if the string contains a `-`. -/
theorem safeStrtoull_numeral
    {b ds : List UInt8} {c : UInt8} (hb : ∀ c ∈ b, isSpace c = true) (hds : ∀ c ∈ ds, isDigit c = true)
    (hne : ds ≠ []) (hlt : value ds < 2 ^ 64) (hc : isSpace c = true ∨ c = 0) (t : List UInt8) :
  safeStrtoull (b ++ ds ++ c :: t)
    = if 2 ^ 63 ≤ value ds ∧ 45 ∈ cString (b ++ ds ++ c :: t) then none else some (value ds)
  := by
  have hdigit : isDigit c = false := by
    obtain hspace | rfl := hc
    · exact isDigit_of_isSpace hspace
    · rfl
  have hends : endsNumber (b ++ ds ++ c :: t) (c :: t) = true := by
    obtain hspace | rfl := hc
    · simp [endsNumber, hspace]
    · have hlength := List.length_pos_iff.mpr hne
      simp [endsNumber]
      omega
  rw [safeStrtoull, strtoull_numeral hb hds hne hlt hdigit t]
  simp only [hends, if_true]

/-! ### What lies behind the data -/

/-- The data ends in `\r\n`. -/
def EndsInCrlf (d : List UInt8) : Prop := ∃ e, d = e ++ [13, 10]

/-- The data contains something other than blanks. -/
def Nonblank (d : List UInt8) : Prop := ∃ c ∈ d, isSpace c = false

instance (d : List UInt8) : Decidable (Nonblank d) :=
  inferInstanceAs (Decidable (∃ c ∈ d, isSpace c = false))

/-- The data is accepted as a number that is negative when it is read as a signed one,
unless a `-` is found. -/
def large (d : List UInt8) : Bool :=
  match strtoull d with
  | (none, _) => false
  | (some ull, endptr) => endsNumber d endptr && 2 ^ 63 ≤ ull

/-- What `safe_strtoull` reads does not depend on what lies behind the data: the number
begins in the data, and the search for a `-`, if there is one, ends there. -/
def SelfContained (d : List UInt8) : Prop :=
  Nonblank d ∧ (large d = true → 0 ∈ d ∨ 45 ∈ d)

instance (d : List UInt8) : Decidable (SelfContained d) :=
  inferInstanceAs (Decidable (_ ∧ (_ → _)))

/-- Where a number in data that ends in `\r\n` begins. -/
theorem Nonblank.split {d : List UInt8} (h : Nonblank d) (hcrlf : EndsInCrlf d) :
  ∃ b x e, d = b ++ x :: e ∧ (∀ c ∈ b, isSpace c = true) ∧ isSpace x = false ∧
    ∃ c ∈ e, isDigit c = false
  := by
  obtain ⟨c, hc, hnonblank⟩ := h
  obtain ⟨d, rfl⟩ := hcrlf
  have hd : ∃ c ∈ d, isSpace c = false := by
    obtain hc | hc := List.mem_append.mp hc
    · exact ⟨c, hc, hnonblank⟩
    · rw [List.mem_pair] at hc
      obtain rfl | rfl := hc <;> exact absurd hnonblank (by decide)
  have hsplit := List.takeWhile_append_dropWhile (p := isSpace) (l := d)
  obtain ⟨x, e, he⟩ : ∃ x e, d.dropWhile isSpace = x :: e := by
    apply List.exists_cons_of_ne_nil
    intro hnil
    rw [List.dropWhile_eq_nil_iff] at hnil
    obtain ⟨c, hc, hnonblank⟩ := hd
    rw [hnil c hc] at hnonblank
    cases hnonblank
  refine ⟨d.takeWhile isSpace, x, e ++ [13, 10], ?_, fun c hc => List.mem_takeWhile_imp hc, ?_, ?_⟩
  · rw [← List.cons_append, ← List.append_assoc, ← he, hsplit]
  · have hne : d.dropWhile isSpace ≠ [] := by
      rw [he]
      exact List.cons_ne_nil x e
    have hhead := List.head_dropWhile_not isSpace hne
    simpa only [he, List.head_cons] using hhead
  · exact ⟨13, by simp, by decide⟩

/-- What comes behind the data decides at most about a large number. -/
theorem safeStrtoull_append {d : List UInt8} (hcrlf : EndsInCrlf d) (h : Nonblank d) (t : List UInt8) :
  safeStrtoull (d ++ t)
    = if large d = true ∧ 45 ∈ cString (d ++ t) then none
      else if endsNumber d (strtoull d).2 then (strtoull d).1 else none
  := by
  obtain ⟨b, x, e, hd, hb, hx, he⟩ := h.split hcrlf
  have happend := strtoull_append hb hx he t
  have hne := strtoull_snd_ne_nil hb hx he
  rw [← hd] at happend hne
  have hends : endsNumber (d ++ t) ((strtoull d).2 ++ t) = endsNumber d (strtoull d).2 := by
    obtain ⟨y, u, hu⟩ := List.exists_cons_of_ne_nil hne
    simp only [endsNumber, hu, List.cons_append, List.headD_cons, List.length_cons, List.length_append]
    congr 3
    rw [eq_iff_iff]
    omega
  rw [safeStrtoull, happend, large]
  rcases hread : strtoull d with ⟨ull, endptr⟩
  rw [hread] at hends
  cases ull with
  | none => simp
  | some ull =>
      simp only [hends, Bool.and_eq_true, decide_eq_true_eq]
      by_cases hend : endsNumber d endptr = true
      · simp only [hend, if_true, true_and]
      · simp only [hend, Bool.false_eq_true, false_and, if_false]

theorem SelfContained.safeStrtoull
    {d : List UInt8} (h : SelfContained d) (hcrlf : EndsInCrlf d) (t t' : List UInt8) :
  Memcached.safeStrtoull (d ++ t) = Memcached.safeStrtoull (d ++ t')
  := by
  rw [safeStrtoull_append hcrlf h.1, safeStrtoull_append hcrlf h.1]
  by_cases hlarge : large d = true
  · have hminus : 45 ∈ cString (d ++ t) ↔ 45 ∈ cString (d ++ t') := by
      by_cases hzero : 0 ∈ d
      · rw [cString_append_of_zero hzero, cString_append_of_zero hzero]
      · have h45 := (h.2 hlarge).resolve_left hzero
        rw [cString_append hzero, cString_append hzero]
        exact iff_of_true (List.mem_append_left _ h45) (List.mem_append_left _ h45)
    simp only [hminus]
  · have hnot : ∀ t, ¬(large d = true ∧ 45 ∈ cString (d ++ t)) := fun t h => hlarge h.1
    rw [if_neg (hnot t), if_neg (hnot t')]

/-- If the data is not enough, it depends on what lies behind it whether a number is read. -/
theorem exists_safeStrtoull {d : List UInt8} (h : ¬SelfContained d) (hcrlf : EndsInCrlf d) :
  ∃ t t', safeStrtoull (d ++ t) = none ∧ (safeStrtoull (d ++ t')).isSome
  := by
  by_cases hblank : Nonblank d
  · obtain ⟨hlarge, hzero, h45⟩ : large d = true ∧ 0 ∉ d ∧ 45 ∉ d := by
      by_contra hnot
      apply h
      refine ⟨hblank, ?_⟩
      intro hlarge
      by_contra hnone
      rw [not_or] at hnone
      exact hnot ⟨hlarge, hnone⟩
    refine ⟨[45], [], ?_, ?_⟩
    · rw [safeStrtoull_append hcrlf hblank, if_pos]
      refine ⟨hlarge, ?_⟩
      rw [cString_append hzero]
      exact List.mem_append_right _ (by decide)
    · rw [safeStrtoull_append hcrlf hblank, if_neg]
      · rw [large] at hlarge
        rcases hread : strtoull d with ⟨ull, endptr⟩
        rw [hread] at hlarge
        cases ull with
        | none => cases hlarge
        | some ull =>
            rw [Bool.and_eq_true] at hlarge
            rw [if_pos hlarge.1]
            rfl
      · rintro ⟨-, hminus⟩
        rw [List.append_nil, cString_of_zero_notMem hzero] at hminus
        exact h45 hminus
  · have hall : ∀ c ∈ d, isSpace c = true := by
      intro c hc
      by_contra hspace
      exact hblank ⟨c, hc, by simpa using hspace⟩
    have hdrop : ∀ t, (d ++ t).dropWhile isSpace = t.dropWhile isSpace :=
      fun t => List.dropWhile_append_of_pos hall
    refine ⟨[55, 120], [120], ?_, ?_⟩
    · have hread : strtoull (d ++ [55, 120]) = (some 7, [120]) := by
        rw [strtoull, hdrop]
        rfl
      rw [safeStrtoull, hread]
      rfl
    · have hread : strtoull (d ++ [120]) = (some 0, d ++ [120]) := by
        rw [strtoull, hdrop]
        rfl
      obtain ⟨e, rfl⟩ := hcrlf
      have hends : endsNumber (e ++ [13, 10] ++ [120]) (e ++ [13, 10] ++ [120]) = true := by
        have hhead : isSpace ((e ++ [13, 10] ++ [120]).headD 0) = true := by
          cases e with
          | nil => decide
          | cons c e => exact hall c List.mem_cons_self
        rw [endsNumber, hhead, Bool.true_or]
      rw [safeStrtoull, hread]
      simp only [hends, if_true]
      rfl

end Memcached
