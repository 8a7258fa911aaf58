import Ffwd.Synchro.HashTable
import Ffwd.Lib.Decimal

/-!
# The driver of the hash table

The program that measures the table: the options that its assertions accept, the number of buckets
that it computes from them, and the values that it draws. The operations are executed here one
after the other, with all that can go wrong: an index of no bucket, and a list whose end is passed.
-/

namespace HashTable

open Linked

/-! ### The options and the values -/

/-- The options on which the table and the values depend: `int`, `long` and `int`. -/
structure Options where
  initial : Int
  range : Int
  loadFactor : Int

/-- The assertions, with the bounds of the types. -/
structure Options.Accepted (o : Options) : Prop where
  initial : 0 ≤ o.initial
  range : 0 < o.range ∧ o.initial ≤ o.range
  loadFactor : 1 ≤ o.loadFactor
  int : o.initial < 2 ^ 31 ∧ o.loadFactor < 2 ^ 31
  long : o.range < 2 ^ 63

/-- `maxhtlength = (unsigned int) initial / load_factor` -/
def Options.maxhtlength (o : Options) : Nat :=
  (o.initial % 2 ^ 32).toNat / (o.loadFactor % 2 ^ 32).toNat

/-- `RAND_MAX` -/
def randMax : Nat := 2147483647

/-- The number of double precision that is the nearest to an integer, or the even one of two. -/
def toDouble (p : Nat) : Nat :=
  let unit := 2 ^ (p.log2 - 52)
  let q := p / unit
  let r := p % unit
  if 2 * r < unit ∨ 2 * r = unit ∧ q % 2 = 0 then q * unit else (q + 1) * unit

/-- `(long) (d * ((double) k / ((double) m + 1.0)))`. The divisor is a power of two, so that only
the product is rounded. -/
def scaled (d : Int) (k : Nat) : Int := (toDouble (d.toNat * k) / (randMax + 1) : Nat)

/-- The loop of `rand_range` and `rand_range_re`, with what `rand` or `rand_r` returns. -/
def randRange : List Nat → Int → Int → Option Int
  | [], _, _ => none
  | k :: draws, r, v =>
      let d := if randMax > r then r else randMax
      let v := v + 1 + scaled d k
      let r := r - randMax
      if r > 0 then randRange draws r v else some v

/-- The values that the driver calls the operations with: those that it fills the table with, and
those of its threads. The parameter of the operations is an `int`. -/
inductive Driven (range : Int) : Int → Prop where
  | populate (k : Nat) (hk : k ≤ randMax) : Driven range (Decimal.toInt32 (k % range + 1))
  | thread (draws : List Nat) (hdraws : ∀ k ∈ draws, k ≤ randMax) (v : Int)
      (hv : randRange draws range 0 = some v) : Driven range (Decimal.toInt32 v)

/-! ### The operations -/

inductive Fault where
  | division
  | bucket
  | null
  deriving DecidableEq

inductive Outcome (α : Type) where
  | done (a : α)
  | exit
  | fault (f : Fault)

/-- The table, and the entries of the array of buckets that have been written. -/
structure Program where
  table : Table
  written : Finset Nat

/-- The loop of `ht_new`. -/
def htNewWritten (alloc : Nat × Bool → Addr) : Nat → Option Program
  | 0 => some ⟨⟨⟨fun _ => 0, fun _ => 0, ∅⟩, fun _ => 0⟩, ∅⟩
  | i + 1 => do
      let p ← htNewWritten alloc i
      let table ← setNew p.table i (alloc (i, true)) (alloc (i, false))
      return ⟨table, insert i p.written⟩

/-- `set->buckets[i]` -/
def Program.bucket (p : Program) (i : Nat) : Option Addr :=
  if i < maxHtLength ∧ i ∈ p.written then some (p.table.head i) else none

/-- The loop that the operations on a list have in common; it must not follow the null pointer. -/
def Memory.seek (m : Memory) (val : Int) : Nat → Addr → Option Addr
  | n, prev =>
      if m.next prev = 0 then none
      else if m.val (m.next prev) < val then
        match n with
        | 0 => none
        | n + 1 => m.seek val n (m.next prev)
      else some prev

/-- `ht_contains`, `ht_add` and `ht_add_2`, and `ht_remove`; `malloc` returns an address for the
allocated ones. -/
def Program.exec (malloc : Finset Addr → Addr) (maxhtlength : Nat) (p : Program) (op : Op)
    (val : Int) : Outcome (Program × Bool) :=
  if maxhtlength = 0 then .fault .division
  else
    match p.bucket (bucketOf maxhtlength val) with
    | none => .fault .bucket
    | some head =>
        let m := p.table.mem
        match m.seek val m.used.card head with
        | none => .fault .null
        | some prev =>
            let next := m.next prev
            let new := malloc m.used
            if op = .add ∧ m.val next ≠ val ∧ new = 0 then .exit
            else
              let (mem, result) := op.finish m val prev next new
              .done ({ p with table := { p.table with mem := mem } }, result)

/-- `ht_size` -/
def Program.size (p : Program) : Nat → Outcome Nat
  | 0 => .done 0
  | i + 1 =>
      match p.size i with
      | .done size =>
          match p.bucket i with
          | none => .fault .bucket
          | some head =>
              match countNodes p.table.mem p.table.mem.used.card (p.table.mem.next head) with
              | none => .fault .null
              | some count => .done (size + count)
      | other => other

/-- Operations one after the other. -/
def Program.run (malloc : Finset Addr → Addr) (maxhtlength : Nat) :
    Program → List (Op × Int) → Outcome Program
  | p, [] => .done p
  | p, (op, val) :: calls =>
      match p.exec malloc maxhtlength op val with
      | .done (p', _) => p'.run malloc maxhtlength calls
      | .exit => .exit
      | .fault f => .fault f

/-! ### What the driver relies on -/

/-- All accesses to the array, by the loops of `ht_new` and `ht_size` and by operations on any
values, are to entries that it has and that have been written. -/
def BucketsWritten (maxhtlength : Nat) : Prop :=
  ∀ alloc, ∃ p, htNewWritten alloc maxhtlength = some p ∧ ∀ malloc calls,
    (∀ f, p.run malloc maxhtlength calls = .fault f → f = .null) ∧
      ∀ p', p.run malloc maxhtlength calls = .done p' →
        ∀ f, p'.size maxhtlength = .fault f → f = .null

/-- The sentinels stay where they are and the lists sorted, no operation passes the end of a list,
and all return what a set returns; until there is no memory left. -/
def Program.Survives (malloc : Finset Addr → Addr) (maxhtlength : Nat) (tail : Nat → Addr)
    (p : Program) (S : Finset Int) : List (Op × Int) → Prop
  | [] => ∃ l, p.table.Holds maxhtlength l tail S
  | (op, val) :: calls =>
      (∃ l, p.table.Holds maxhtlength l tail S) ∧
        match p.exec malloc maxhtlength op val with
        | .done (p', result) =>
            result = (op.spec val S).2 ∧ p'.table.head = p.table.head ∧
              p'.Survives malloc maxhtlength tail (op.spec val S).1 calls
        | .exit => True
        | .fault _ => False

/-- So it is from the table that `ht_new` makes, whatever addresses `malloc` returns. -/
def SentinelsSurvive (maxhtlength : Nat) (calls : List (Op × Int)) : Prop :=
  ∀ alloc malloc p, Function.Injective alloc → (∀ q, alloc q ≠ 0) → (∀ used, malloc used ∉ used) →
    htNewWritten alloc maxhtlength = some p →
      p.Survives malloc maxhtlength (fun b => alloc (b, true)) ∅ calls

/-! ### The buckets -/

section Buckets

variable {alloc : Nat × Bool → Addr} {malloc : Finset Addr → Addr} {n : Nat} {p p' : Program}
  {op : Op} {val : Int} {result : Bool}

/-- The loop writes the entries up to the length of the table. -/
theorem htNewWritten_eq (alloc : Nat × Bool → Addr) (n : Nat) :
  htNewWritten alloc n = (htNew alloc n).map fun t => ⟨t, Finset.range n⟩
  := by
  induction n with
  | zero => rfl
  | succ n ih =>
      rw [htNewWritten, ih, htNew]
      cases htNew alloc n with
      | none => rfl
      | some t =>
          cases hset : setNew t n (alloc (n, true)) (alloc (n, false)) with
          | none => simp [hset]
          | some t' => simp [hset, Finset.range_add_one]

theorem exists_htNewWritten (alloc : Nat × Bool → Addr) (hmax : n ≤ maxHtLength) :
  ∃ t, htNew alloc n = some t ∧ htNewWritten alloc n = some ⟨t, Finset.range n⟩
  := by
  have hsome := htNew_isSome alloc n
  rw [decide_eq_true hmax] at hsome
  obtain ⟨t, ht⟩ := Option.isSome_iff_exists.mp hsome
  refine ⟨t, ht, ?_⟩
  rw [htNewWritten_eq, ht, Option.map_some]

theorem Program.bucket_eq
    (hmax : n ≤ maxHtLength) (hwritten : p.written = Finset.range n) {i : Nat} (hi : i < n) :
  p.bucket i = some (p.table.head i)
  := by
  rw [bucket, if_pos]
  exact ⟨Nat.lt_of_lt_of_le hi hmax, hwritten ▸ Finset.mem_range.mpr hi⟩

/-- What an operation can do, when there is the bucket of its value. -/
theorem Program.exec_eq
    (hn : 1 ≤ n) (hmax : n ≤ maxHtLength) (hwritten : p.written = Finset.range n) :
  p.exec malloc n op val =
    match p.table.mem.seek val p.table.mem.used.card (p.table.head (bucketOf n val)) with
    | none => .fault .null
    | some prev =>
        let next := p.table.mem.next prev
        let new := malloc p.table.mem.used
        if op = .add ∧ p.table.mem.val next ≠ val ∧ new = 0 then .exit
        else
          let (mem, result) := op.finish p.table.mem val prev next new
          .done ({ p with table := { p.table with mem := mem } }, result)
  := by
  rw [exec, if_neg (by omega), bucket_eq hmax hwritten (bucketOf_lt hn val)]

theorem Program.written_of_exec (h : p.exec malloc n op val = .done (p', result)) :
  p'.written = p.written
  := by
  rw [exec] at h
  split at h
  · cases h
  · split at h
    · cases h
    · simp only at h
      split at h
      · cases h
      · split at h
        · cases h
        · cases h
          rfl

theorem Program.fault_of_exec
    (hn : 1 ≤ n) (hmax : n ≤ maxHtLength) (hwritten : p.written = Finset.range n) {f : Fault}
    (h : p.exec malloc n op val = .fault f) :
  f = .null
  := by
  rw [exec_eq hn hmax hwritten] at h
  split at h
  · cases h
    rfl
  · simp only at h
    split at h
    · cases h
    · cases h

theorem Program.run_written
    (hn : 1 ≤ n) (hmax : n ≤ maxHtLength) (calls : List (Op × Int))
    (hwritten : p.written = Finset.range n) :
  (∀ f, p.run malloc n calls = .fault f → f = .null) ∧
    ∀ p', p.run malloc n calls = .done p' → p'.written = Finset.range n
  := by
  induction calls generalizing p with
  | nil =>
      refine ⟨nofun, fun p' h => ?_⟩
      cases h
      exact hwritten
  | cons call calls ih =>
      obtain ⟨op, val⟩ := call
      rw [run]
      cases hexec : p.exec malloc n op val with
      | done r =>
          obtain ⟨p', result⟩ := r
          exact ih ((written_of_exec hexec).trans hwritten)
      | exit => exact ⟨nofun, nofun⟩
      | fault f =>
          refine ⟨fun f' h => ?_, nofun⟩
          cases h
          exact fault_of_exec hn hmax hwritten hexec

theorem Program.fault_of_size
    (hmax : n ≤ maxHtLength) (hwritten : p.written = Finset.range n) {i : Nat} (hi : i ≤ n)
    {f : Fault} (h : p.size i = .fault f) :
  f = .null
  := by
  induction i with
  | zero => cases h
  | succ i ih =>
      rw [size] at h
      cases hsize : p.size i with
      | done size =>
          simp only [hsize, bucket_eq hmax hwritten (Nat.lt_of_succ_le hi)] at h
          split at h
          · cases h
            rfl
          · cases h
      | exit =>
          simp only [hsize] at h
          cases h
      | fault f' =>
          simp only [hsize] at h
          cases h
          exact ih (Nat.le_of_succ_le hi) hsize

/-- The accesses are to entries that have been written if and only if the length is at least 1 and
at most that of the array. -/
theorem bucketsWritten_iff (n : Nat) :
  BucketsWritten n ↔ 1 ≤ n ∧ n ≤ maxHtLength
  := by
  constructor
  · intro h
    obtain ⟨p, hnew, hfault⟩ := h firstFree
    constructor
    · rw [Nat.one_le_iff_ne_zero]
      rintro rfl
      have hnull := (hfault (fun _ => 0) [(.contains, 0)]).1 .division rfl
      cases hnull
    · have hsome := htNew_isSome firstFree n
      rw [htNewWritten_eq] at hnew
      obtain ⟨t, ht, -⟩ := Option.map_eq_some_iff.mp hnew
      rw [ht] at hsome
      exact of_decide_eq_true hsome.symm
  · rintro ⟨hn, hmax⟩ alloc
    obtain ⟨t, -, hnew⟩ := exists_htNewWritten alloc hmax
    refine ⟨_, hnew, fun malloc calls => ?_⟩
    obtain ⟨hfault, hdone⟩ := @Program.run_written malloc n ⟨t, Finset.range n⟩ hn hmax calls rfl
    exact ⟨hfault, fun p' hp' f hf => Program.fault_of_size hmax (hdone p' hp') (le_refl n) hf⟩

end Buckets

/-- The options give a length for which all accesses are to buckets if and only if there are as
many initial values as the load factor, and fewer than fill one bucket more than the array has. -/
theorem bucket_bounds_iff (o : Options) (ho : o.Accepted) :
  ((1 ≤ o.maxhtlength ∧ o.maxhtlength ≤ maxHtLength) ∧ BucketsWritten o.maxhtlength) ↔
    o.loadFactor ≤ o.initial ∧ o.initial < 65537 * o.loadFactor
  := by
  rw [bucketsWritten_iff, and_self_iff]
  obtain ⟨hinitial, -, hload, ⟨hint, hint'⟩, -⟩ := ho
  obtain ⟨initial, range, loadFactor⟩ := o
  simp only at hinitial hload hint hint'
  obtain ⟨initial, rfl⟩ := Int.eq_ofNat_of_zero_le hinitial
  obtain ⟨loadFactor, rfl⟩ := Int.eq_ofNat_of_zero_le (Int.le_trans (by decide) hload)
  have hlength : Options.maxhtlength ⟨initial, range, loadFactor⟩ = initial / loadFactor := by
    rw [Options.maxhtlength]
    simp only
    rw [Int.emod_eq_of_lt (by omega) (by omega), Int.emod_eq_of_lt (by omega) (by omega)]
    rfl
  have hpos : 0 < loadFactor := by omega
  have hmax : initial / loadFactor ≤ 65536 ↔ initial < 65537 * loadFactor := by
    rw [← Nat.lt_succ_iff, Nat.div_lt_iff_lt_mul hpos]
  rw [hlength, Nat.le_div_iff_mul_le hpos, maxHtLength, hmax]
  simp only
  omega

/-- The default options. -/
theorem bucket_bounds_default :
  BucketsWritten (Options.maxhtlength ⟨256, 2147483647, 1⟩)
  := ((bucket_bounds_iff ⟨256, 2147483647, 1⟩ ⟨by decide, by decide, by decide, by decide,
    by decide⟩).mpr (by decide)).2

/-- The assertions accept a table without buckets, in which there is no index, and one that is
longer than the array. -/
theorem bucket_bounds_beyond :
  (Options.Accepted ⟨0, 10, 1⟩ ∧ ∃ p, htNewWritten firstFree (Options.maxhtlength ⟨0, 10, 1⟩) = some p ∧
    p.run (fun _ => 0) (Options.maxhtlength ⟨0, 10, 1⟩) [(.contains, 5)] = .fault .division) ∧
    Options.Accepted ⟨65537, 2147483647, 1⟩ ∧
    htNewWritten firstFree (Options.maxhtlength ⟨65537, 2147483647, 1⟩) = none
  := by
  refine ⟨⟨⟨by decide, by decide, by decide, by decide, by decide⟩, _, rfl, rfl⟩,
    ⟨by decide, by decide, by decide, by decide, by decide⟩, ?_⟩
  have hsome := htNew_isSome firstFree 65537
  rw [decide_eq_false (by decide), Option.isSome_eq_false_iff, Option.isNone_iff_eq_none] at hsome
  show htNewWritten firstFree 65537 = none
  rw [htNewWritten_eq, hsome]
  rfl

/-! ### The range -/

section Range

variable {d r v w range : Int} {k : Nat} {draws : List Nat}

/-- Rounding adds no more than one part in `2 ^ 53`. -/
theorem toDouble_le (p : Nat) :
  2 ^ 53 * toDouble p ≤ (2 ^ 53 + 1) * p
  := by
  rw [toDouble]
  generalize hunit : 2 ^ (p.log2 - 52) = unit
  have hdiv := Nat.div_add_mod p unit
  have hcomm : p / unit * unit = unit * (p / unit) := Nat.mul_comm _ _
  split
  · omega
  · rename_i hround
    have hpos : 0 < unit := hunit ▸ Nat.two_pow_pos _
    have hlt := Nat.mod_lt p hpos
    have hle : unit ≤ 2 * (p % unit) := by omega
    have hlog : 52 ≤ p.log2 := by
      by_contra hlt'
      rw [show p.log2 - 52 = 0 by omega] at hunit
      omega
    have hp : p ≠ 0 := by
      rintro rfl
      omega
    have hunit' : 2 ^ 52 * unit ≤ p := by
      rw [← hunit, ← pow_add, show 52 + (p.log2 - 52) = p.log2 by omega]
      exact Nat.log2_self_le hp
    have hsucc : (p / unit + 1) * unit = p / unit * unit + unit := Nat.succ_mul _ _
    omega

theorem scaled_bounds (hd : 0 < d) (hd' : d ≤ randMax) (hk : k ≤ randMax) :
  0 ≤ scaled d k ∧ scaled d k < d
  := by
  obtain ⟨d, rfl⟩ := Int.eq_ofNat_of_zero_le hd.le
  rw [scaled, Int.toNat_natCast]
  refine ⟨Int.natCast_nonneg _, ?_⟩
  apply Int.ofNat_lt.mpr
  rw [Nat.div_lt_iff_lt_mul (Nat.succ_pos _)]
  have hle := toDouble_le (d * k)
  have hmul : d * k ≤ d * randMax := Nat.mul_le_mul_left d hk
  simp only [randMax] at hmul hd' ⊢
  omega

/-- What `rand_range` returns is at least 1 and at most the range. -/
theorem randRange_bounds
    (hdraws : ∀ k ∈ draws, k ≤ randMax) (hr : 0 < r) (h : randRange draws r v = some w) :
  v + 1 ≤ w ∧ w ≤ v + r
  := by
  induction draws generalizing r v with
  | nil => cases h
  | cons k draws ih =>
      obtain ⟨hk, hdraws⟩ := List.forall_mem_cons.mp hdraws
      rw [randRange] at h
      generalize hd : (if (randMax : Int) > r then r else randMax) = d at h
      have hd' : 0 < d ∧ d ≤ randMax ∧ d ≤ r := by
        rw [← hd]
        split
        · omega
        · exact ⟨by decide, le_refl _, by omega⟩
      have hscaled := scaled_bounds hd'.1 hd'.2.1 hk
      split at h
      · rename_i hrest
        obtain ⟨hlow, hhigh⟩ := ih hdraws hrest h
        omega
      · obtain rfl := Option.some.inj h
        omega

theorem toInt32_bounds (x : Int) :
  valMin ≤ Decimal.toInt32 x ∧ Decimal.toInt32 x ≤ valMax
  := by
  rw [Decimal.toInt32]
  have hlow := (BitVec.ofInt 32 x).le_toInt
  have hhigh := (BitVec.ofInt 32 x).toInt_lt
  rw [valMin, valMax]
  constructor <;> omega

theorem Driven.bounds (h : Driven range v) :
  valMin ≤ v ∧ v ≤ valMax
  := by
  cases h with
  | populate k hk => exact toInt32_bounds _
  | thread draws hdraws v hv => exact toInt32_bounds _

/-- From a range that is smaller than the largest value, all values are between the sentinels. -/
theorem Driven.between (h : Driven range v) (hrange : 0 < range) (hmax : range < valMax) :
  valMin < v ∧ v < valMax
  := by
  rw [valMax] at hmax
  rw [valMin, valMax]
  cases h with
  | populate k hk =>
      have hlow := Int.emod_nonneg (k : Int) hrange.ne'
      have hhigh := Int.emod_lt_of_pos (k : Int) hrange
      rw [Decimal.toInt32_of_int (by omega)]
      omega
  | thread draws hdraws v hv =>
      obtain ⟨hlow, hhigh⟩ := randRange_bounds hdraws hrange hv
      rw [Decimal.toInt32_of_int (by omega)]
      omega

/-- From any other range the driver fills the table with the largest value. -/
theorem driven_valMax (hrange : valMax ≤ range) :
  Driven range valMax
  := by
  have hdriven : Driven range (Decimal.toInt32 ((2147483646 : Nat) % range + 1)) :=
    .populate 2147483646 (by decide)
  rw [valMax] at hrange
  rw [Int.emod_eq_of_lt (by decide) (by push_cast; omega)] at hdriven
  exact hdriven

end Range

/-! ### The sentinels -/

section Sentinels

variable {malloc : Finset Addr → Addr} {n : Nat} {tail : Nat → Addr} {p : Program}
  {S : Finset Int} {calls : List (Op × Int)} {op : Op} {val : Int}

theorem Memory.seek_eq_some
    {m : Memory} {k : Nat} {b e : Addr} {l : List Addr} (h : SortedPath m.val m.next b l e)
    (hk : l.length ≤ k) (hnull : ∀ a ∈ l ++ [e], a ≠ 0) (hb : m.val b < val) (he : val ≤ m.val e) :
  ∃ prev ∈ b :: l, m.seek val k b = some prev ∧ m.val prev < val ∧ ¬m.val (m.next prev) < val
  := by
  obtain ⟨hpath, hincreasing⟩ := h
  induction l generalizing b k with
  | nil =>
      have hnext : m.next b = e := hpath
      have hge : ¬m.val (m.next b) < val := by
        rw [hnext, not_lt]
        exact he
      refine ⟨b, List.mem_cons_self, ?_, hb, hge⟩
      unfold Memory.seek
      rw [if_neg (hnext ▸ hnull e List.mem_cons_self), if_neg hge]
  | cons a l ih =>
      have hnext : m.next b = a := hpath.1
      have hne : m.next b ≠ 0 := hnext ▸ hnull a List.mem_cons_self
      by_cases ha : m.val a < val
      · obtain ⟨k, rfl⟩ : ∃ k', k = k' + 1 := ⟨k - 1, by simp at hk; omega⟩
        obtain ⟨prev, hprev, hseek, hlt, hge⟩ := ih (Nat.le_of_succ_le_succ hk)
          (fun c hc => hnull c (List.mem_cons_of_mem a hc)) ha hpath.2
          (List.pairwise_cons.mp hincreasing).2
        refine ⟨prev, List.mem_cons_of_mem b hprev, ?_, hlt, hge⟩
        unfold Memory.seek
        rw [if_neg hne, if_pos (hnext ▸ ha), hnext]
        exact hseek
      · have hge : ¬m.val (m.next b) < val := by rw [hnext]; exact ha
        refine ⟨b, List.mem_cons_self, ?_, hb, hge⟩
        unfold Memory.seek
        rw [if_neg hne, if_neg hge]

variable {l : Nat → List Addr} {t : Table} {b : Nat} {v : Int}

/-- The loop ends before the end of the list, also for the largest value. -/
theorem Table.Buckets.seek_at
    (h : t.Buckets n l tail) (hb : b < n) (hmin : valMin < v) (hmax : v ≤ valMax) :
  ∃ prev, t.mem.seek v t.mem.used.card (t.head b) = some prev ∧
    t.At l b v prev (t.mem.next prev) ∧ ¬t.mem.val (t.mem.next prev) < v
  := by
  have hnull : ∀ a ∈ l b ++ [tail b], a ≠ 0 := by
    rintro a ha rfl
    exact h.zero (h.used b hb 0 (List.mem_cons_of_mem _ ha))
  obtain ⟨prev, hprev, hseek, hlt, hge⟩ := Memory.seek_eq_some (h.sorted b hb)
    (Nat.le_of_lt (h.length_lt hb)) hnull (by rw [h.val_head b hb]; exact hmin)
    (by rw [h.val_tail b hb]; exact hmax)
  exact ⟨prev, hseek, ⟨hprev, rfl, hlt⟩, hge⟩

/-- The loop does not start for the smallest value. -/
theorem Table.Buckets.seek_valMin (h : t.Buckets n l tail) (hb : b < n) :
  t.mem.seek valMin t.mem.used.card (t.head b) = some (t.head b) ∧
    valMin < t.mem.val (t.mem.next (t.head b))
  := by
  have hsorted := h.sorted b hb
  have hmem := hsorted.path.next_mem List.mem_cons_self
  have hne : t.mem.next (t.head b) ≠ 0 := by
    intro hzero
    exact h.zero (hzero ▸ h.used b hb _ (List.mem_cons_of_mem _ hmem))
  have hlt := (List.pairwise_cons.mp hsorted.increasing).1 _ hmem
  rw [h.val_head b hb] at hlt
  refine ⟨?_, hlt⟩
  unfold Memory.seek
  rw [if_neg hne, if_neg (by omega)]

/-- The elements of the set are between the values of the sentinels. -/
theorem Table.Holds.between (h : t.Holds n l tail S) (hn : 1 ≤ n) (hv : v ∈ S) :
  valMin < v ∧ v < valMax
  := by
  have hb := bucketOf_lt hn v
  have hsorted := h.buckets.sorted _ hb
  obtain ⟨a, ha, rfl⟩ := (h.mem_iff v).mp hv
  have hlow := (List.pairwise_cons.mp hsorted.increasing).1 a (List.mem_append_left _ ha)
  have hhigh := (List.pairwise_append.mp (List.pairwise_cons.mp hsorted.increasing).2).2.2 a ha _
    List.mem_cons_self
  rw [h.buckets.val_head _ hb] at hlow
  rw [h.buckets.val_tail _ hb] at hhigh
  exact ⟨hlow, hhigh⟩

/-- The largest value is found at the sentinel. -/
theorem Table.Buckets.seek_valMax (h : t.Buckets n l tail) (hb : b < n) :
  ∃ prev, t.mem.seek valMax t.mem.used.card (t.head b) = some prev ∧
    t.mem.val (t.mem.next prev) = valMax
  := by
  obtain ⟨prev, hseek, hat, hge⟩ := h.seek_at hb (by decide) (le_refl _)
  refine ⟨prev, hseek, ?_⟩
  rcases List.mem_append.mp (h.next_mem hb hat) with hmem | hmem
  · have hlt := (List.pairwise_append.mp
      (List.pairwise_cons.mp (h.sorted b hb).increasing).2).2.2 _ hmem _ List.mem_cons_self
    rw [h.val_tail b hb] at hlt
    exact absurd hlt hge
  · rw [List.mem_singleton.mp hmem, h.val_tail b hb]

/-- Without a new node it does not matter what `malloc` would return. -/
theorem Op.finish_congr
    {m : Memory} {prev next new : Addr} (h : ¬(op = .add ∧ m.val next ≠ val)) (new' : Addr) :
  op.finish m val prev next new = op.finish m val prev next new'
  := by
  cases op with
  | contains => rfl
  | add =>
      have heq : ¬m.val next ≠ val := fun hne => h ⟨rfl, hne⟩
      rw [Op.finish, Op.finish, if_neg heq, if_neg heq]
  | remove => rfl

/-- The values with which the operations leave the sentinels alone. -/
def Op.Inside (op : Op) (val : Int) : Prop := val ≠ valMax ∧ (op = .add → val ≠ valMin)

/-- An operation inside the sentinels does what the operation on the set does. -/
theorem Program.exec_inside
    (h : p.table.Holds n l tail S) (hn : 1 ≤ n) (hmax : n ≤ maxHtLength)
    (hwritten : p.written = Finset.range n) (hmalloc : ∀ used, malloc used ∉ used)
    (hval : valMin ≤ val ∧ val ≤ valMax) (hinside : op.Inside val) :
  p.exec malloc n op val = .exit ∨ ∃ p' l', p.exec malloc n op val = .done (p', (op.spec val S).2) ∧
    p'.table.Holds n l' tail (op.spec val S).1 ∧ p'.table.head = p.table.head
  := by
  have hb := bucketOf_lt hn val
  have hlt : val < valMax := lt_of_le_of_ne hval.2 hinside.1
  by_cases hmin : val = valMin
  · subst hmin
    obtain ⟨hseek, hfirst⟩ := h.buckets.seek_valMin hb
    have hne : p.table.mem.val (p.table.mem.next (p.table.head (bucketOf n valMin))) ≠ valMin :=
      ne_of_gt hfirst
    have hnotMem : valMin ∉ S := fun hmem => lt_irrefl _ (h.between hn hmem).1
    right
    refine ⟨p, l, ?_, ?_, rfl⟩
    · rw [exec_eq hn hmax hwritten, hseek]
      cases op with
      | contains => simp [Op.finish, Op.spec, hne, hnotMem]
      | add => exact absurd rfl (hinside.2 rfl)
      | remove => simp [Op.finish, Op.spec, hne, hnotMem]
    · cases op with
      | contains => exact h
      | add => exact absurd rfl (hinside.2 rfl)
      | remove =>
          rw [Op.spec, Finset.erase_eq_of_notMem hnotMem]
          exact h
  · obtain ⟨prev, hseek, hat, hge⟩ := h.buckets.seek_at hb
      (lt_of_le_of_ne hval.1 (Ne.symm hmin)) hval.2
    rw [exec_eq hn hmax hwritten, hseek]
    simp only
    by_cases hadd : op = .add ∧ p.table.mem.val (p.table.mem.next prev) ≠ val
    · by_cases hnew : malloc p.table.mem.used = 0
      · left
        rw [if_pos ⟨hadd.1, hadd.2, hnew⟩]
      · right
        obtain ⟨l', hholds, hresult, -⟩ := h.finish hn op hat hge hlt ⟨hmalloc _, hnew⟩
        rw [if_neg (fun hexit => hnew hexit.2.2), ← hresult]
        exact ⟨_, _, rfl, hholds, rfl⟩
    · right
      obtain ⟨new, hnew⟩ := Infinite.exists_notMem_finset (insert 0 p.table.mem.used)
      rw [Finset.mem_insert, not_or] at hnew
      obtain ⟨l', hholds, hresult, -⟩ := h.finish hn op hat hge hlt ⟨hnew.2, hnew.1⟩
      rw [if_neg (fun hexit => hadd ⟨hexit.1, hexit.2.1⟩), Op.finish_congr hadd new, ← hresult]
      exact ⟨_, _, rfl, hholds, rfl⟩

theorem Program.Survives.holds (h : p.Survives malloc n tail S calls) :
  ∃ l, p.table.Holds n l tail S
  := by
  cases calls with
  | nil => exact h
  | cons call calls => exact h.1

/-- An operation after which all is as it should be has been one inside the sentinels. -/
theorem Program.Survives.inside
    (h : p.Survives malloc n tail S ((op, val) :: calls)) (hn : 1 ≤ n) (hmax : n ≤ maxHtLength)
    (hwritten : p.written = Finset.range n) (hmalloc : ∀ used, malloc used ≠ 0) :
  op.Inside val
  := by
  obtain ⟨⟨l, hholds⟩, hexec⟩ := h
  have hb := bucketOf_lt hn val
  rw [exec_eq hn hmax hwritten] at hexec
  constructor
  · rintro rfl
    obtain ⟨prev, hseek, hnext⟩ := hholds.buckets.seek_valMax hb
    have hnotMem : valMax ∉ S := fun hmem => lt_irrefl _ (hholds.between hn hmem).2
    rw [hseek] at hexec
    cases op with
    | contains => simp [Op.finish, Op.spec, hnext, hnotMem] at hexec
    | add => simp [Op.finish, Op.spec, hnext, hnotMem] at hexec
    | remove => simp [Op.finish, Op.spec, hnext, hnotMem] at hexec
  · rintro rfl rfl
    obtain ⟨hseek, hfirst⟩ := hholds.buckets.seek_valMin hb
    rw [hseek] at hexec
    simp only [hmalloc, and_false, if_false] at hexec
    obtain ⟨-, -, hrest⟩ := hexec
    obtain ⟨l', hholds'⟩ := hrest.holds
    exact lt_irrefl _ (hholds'.between hn (Finset.mem_insert_self _ _)).1

theorem Program.survives_of_inside
    (h : p.table.Holds n l tail S) (hn : 1 ≤ n) (hmax : n ≤ maxHtLength)
    (hwritten : p.written = Finset.range n) (hmalloc : ∀ used, malloc used ∉ used)
    (hcalls : ∀ call ∈ calls, (valMin ≤ call.2 ∧ call.2 ≤ valMax) ∧ call.1.Inside call.2) :
  p.Survives malloc n tail S calls
  := by
  induction calls generalizing p l S with
  | nil => exact ⟨l, h⟩
  | cons call calls ih =>
      obtain ⟨op, val⟩ := call
      obtain ⟨⟨hval, hinside⟩, hcalls⟩ := List.forall_mem_cons.mp hcalls
      refine ⟨⟨l, h⟩, ?_⟩
      rcases exec_inside h hn hmax hwritten hmalloc hval hinside with
        hexit | ⟨p', l', hdone, hholds, hhead⟩
      · rw [hexit]
        trivial
      · rw [hdone]
        exact ⟨rfl, hhead, ih hholds ((written_of_exec hdone).trans hwritten) hcalls⟩

theorem Program.Survives.inside_all
    (h : p.Survives malloc n tail S calls) (hn : 1 ≤ n) (hmax : n ≤ maxHtLength)
    (hwritten : p.written = Finset.range n) (hmalloc : ∀ used, malloc used ∉ used ∧ malloc used ≠ 0)
    (hcalls : ∀ call ∈ calls, valMin ≤ call.2 ∧ call.2 ≤ valMax) :
  ∀ call ∈ calls, call.1.Inside call.2
  := by
  induction calls generalizing p S with
  | nil => simp
  | cons call calls ih =>
      obtain ⟨op, val⟩ := call
      obtain ⟨hval, hcalls⟩ := List.forall_mem_cons.mp hcalls
      have hinside := h.inside hn hmax hwritten fun used => (hmalloc used).2
      refine List.forall_mem_cons.mpr ⟨hinside, ?_⟩
      obtain ⟨⟨l, hholds⟩, hexec⟩ := h
      rcases exec_inside hholds hn hmax hwritten (fun used => (hmalloc used).1) hval hinside with
        hexit | ⟨p', l', hdone, -, -⟩
      · rw [exec_eq hn hmax hwritten] at hexit
        split at hexit
        · cases hexit
        · simp only [(hmalloc _).2, and_false, if_false] at hexit
          cases hexit
      · rw [hdone] at hexec
        exact ih hexec.2.2 ((written_of_exec hdone).trans hwritten) hcalls

/-- The address behind the largest. -/
def nextFree (used : Finset Addr) : Addr := used.sup id + 1

theorem nextFree_spec (used : Finset Addr) :
  nextFree used ∉ used ∧ nextFree used ≠ 0
  := by
  constructor
  · intro hmem
    have hle : nextFree used ≤ used.sup id := Finset.le_sup (f := id) hmem
    exact Nat.not_succ_le_self _ hle
  · exact Nat.succ_ne_zero _

/-- All is as it should be in a run if and only if its operations are inside the sentinels. -/
theorem sentinelsSurvive_iff
    (hn : 1 ≤ n) (hmax : n ≤ maxHtLength)
    (hcalls : ∀ call ∈ calls, valMin ≤ call.2 ∧ call.2 ≤ valMax) :
  SentinelsSurvive n calls ↔ ∀ call ∈ calls, call.1.Inside call.2
  := by
  constructor
  · intro h
    obtain ⟨t, -, hnew⟩ := exists_htNewWritten firstFree hmax
    have hsurvives := h firstFree nextFree _ firstFree_injective
      (by rintro ⟨b, x⟩; cases x <;> simp [firstFree]) (fun used => (nextFree_spec used).1) hnew
    exact hsurvives.inside_all hn hmax rfl nextFree_spec hcalls
  · intro hinside alloc malloc p hinj hzero hmalloc hnew
    obtain ⟨t, ht, hnew'⟩ := exists_htNewWritten alloc hmax
    obtain rfl := Option.some.inj (hnew.symm.trans hnew')
    exact Program.survives_of_inside (holds_htNew hinj hzero ht) hn hmax rfl hmalloc
      fun call hcall => ⟨hcalls call hcall, hinside call hcall⟩

end Sentinels

/-- In a run of the driver all is as it should be if and only if no operation has the largest value,
and none inserts the smallest; and in all runs with a range if and only if the range is smaller than
the largest value. -/
theorem sentinels_survive_iff
    (n : Nat) (hn : 1 ≤ n) (hmax : n ≤ maxHtLength) (range : Int) (hrange : 0 < range) :
  (∀ calls : List (Op × Int), (∀ call ∈ calls, Driven range call.2) →
    (SentinelsSurvive n calls ↔
      ∀ call ∈ calls, call.2 ≠ valMax ∧ (call.1 = .add → call.2 ≠ valMin))) ∧
  ((∀ calls : List (Op × Int), (∀ call ∈ calls, Driven range call.2) → SentinelsSurvive n calls) ↔
    range < valMax)
  := by
  have hrun : ∀ calls : List (Op × Int), (∀ call ∈ calls, Driven range call.2) →
      (SentinelsSurvive n calls ↔ ∀ call ∈ calls, call.1.Inside call.2) := by
    intro calls hcalls
    exact sentinelsSurvive_iff hn hmax fun call hcall => (hcalls call hcall).bounds
  refine ⟨hrun, ?_, ?_⟩
  · intro h
    by_contra hge
    have hdriven : ∀ call ∈ [(Op.remove, valMax)], Driven range call.2 := by
      rw [List.forall_mem_singleton]
      exact driven_valMax (not_lt.mp hge)
    have hinside := (hrun _ hdriven).mp (h _ hdriven)
    exact (hinside _ List.mem_cons_self).1 rfl
  · intro hlt calls hcalls
    rw [hrun calls hcalls]
    intro call hcall
    obtain ⟨hlow, hhigh⟩ := (hcalls call hcall).between hrange hlt
    exact ⟨ne_of_lt hhigh, fun _ => ne_of_gt hlow⟩

/-- The range 10, with a table of one bucket. -/
theorem sentinels_survive_ten :
  SentinelsSurvive 1 [(.add, 3), (.add, 10), (.remove, 3), (.contains, 10)]
  := by
  have h := (sentinels_survive_iff 1 (by decide) (by decide) 10 (by decide)).1
    [(.add, 3), (.add, 10), (.remove, 3), (.contains, 10)] ?_
  · exact h.mpr (by decide)
  · have hthree : Driven 10 3 := .populate 2 (by decide)
    have hten : Driven 10 10 := .populate 9 (by decide)
    simp only [List.forall_mem_cons]
    exact ⟨hthree, hten, hthree, hten, nofun⟩

/-- With the default range a thread draws the largest value. When it is removed the sentinel goes,
and the next operation follows the null pointer. -/
theorem sentinels_lost :
  Driven 2147483647 valMax ∧ ¬SentinelsSurvive 1 [(.remove, valMax)] ∧
    ∃ p, htNewWritten firstFree 1 = some p ∧
      p.run nextFree 1 [(.remove, valMax), (.contains, 5)] = .fault .null
  := by
  refine ⟨?_, ?_, _, rfl, ?_⟩
  · exact .thread [2147483647] (by decide) 2147483647 (by decide)
  · rw [sentinelsSurvive_iff (by decide) (by decide) (by decide)]
    intro h
    exact (h _ List.mem_cons_self).1 rfl
  · rfl

end HashTable
