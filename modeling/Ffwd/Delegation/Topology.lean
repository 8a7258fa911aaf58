import Ffwd.Delegation.Slots

/-!
# The discovery of the machine

`initialize_core_ordering` reads the numbers of the cores from a command that prints them line by
line, counts the lines and the numbers, derives the number of sockets and the number of cores in a
core group by division, and reads the numbers once more into the table `cores`. A fault is a
division by zero or a write outside of a row of the table.
-/

namespace Delegation

/-! ### Reading the output -/

/-- The characters up to the first newline, and it, but at most `n` of them; and the rest. -/
def readLine : Nat → List Char → List Char × List Char
  | 0, file => ([], file)
  | _ + 1, [] => ([], [])
  | n + 1, c :: file =>
      if c = '\n' then ([c], file)
      else (c :: (readLine n file).1, (readLine n file).2)

/-- What the calls `fgets(text, size, file)` return one after the other, until the end of the
file. -/
def fgetsAll (size : Nat) : Nat → List Char → List (List Char)
  | 0, _ => []
  | _ + 1, [] => []
  | fuel + 1, c :: file =>
      (readLine (size - 1) (c :: file)).1 ::
        fgetsAll size fuel (readLine (size - 1) (c :: file)).2

/-- The lines of the file, as they are read into a `text` of 1024 characters. -/
def lines (file : List Char) : List (List Char) := fgetsAll 1024 file.length file

/-- What `strtok_r` returns with the blank as the only delimiter. -/
def tokens : List Char → List (List Char)
  | [] => []
  | c :: text =>
      if c = ' ' then tokens text
      else match text with
        | [] => [[c]]
        | d :: _ =>
            if d = ' ' then [c] :: tokens text
            else match tokens text with
              | [] => [[c]]
              | p :: ps => (c :: p) :: ps

/-- The value of the digits at the start. -/
def digits (value : Int) : List Char → Int
  | [] => value
  | c :: p => if c.isDigit then digits (value * 10 + (c.toNat - '0'.toNat)) p else value

def atoi (p : List Char) : Int :=
  match p.dropWhile Char.isWhitespace with
  | '-' :: p => -digits 0 p
  | '+' :: p => digits 0 p
  | p => digits 0 p

/-! ### The table of the cores -/

inductive Fault where
  | divisionByZero
  | outOfBounds
  deriving DecidableEq

def divide (a b : Nat) : Except Fault Nat :=
  if b = 0 then .error .divisionByZero else .ok (a / b)

/-- The rows that are allocated; what has not been written is `none`. -/
abbrev CoreTable : Type := List (List (Option Int))

/-- `cores[socket][i] = value` -/
def CoreTable.write (cores : CoreTable) (socket i : Nat) (value : Int) : Except Fault CoreTable :=
  match cores[socket]? with
  | none => .error .outOfBounds
  | some row =>
      if i < row.length then .ok (cores.set socket (row.set i (some value)))
      else .error .outOfBounds

/-- The numbers of one line, from the column `i` on. -/
def fillRow (socket : Nat) : Nat → List (List Char) → CoreTable → Except Fault CoreTable
  | _, [], cores => .ok cores
  | i, p :: ps, cores => do
      let cores ← cores.write socket i (atoi p)
      fillRow socket (i + 1) ps cores

/-- The lines, from the row `socketCounter` on. -/
def fillRows : Nat → List (List Char) → CoreTable → Except Fault CoreTable
  | _, [], cores => .ok cores
  | socketCounter, text :: file, cores => do
      let cores ← fillRow socketCounter 0 (tokens text) cores
      fillRows (socketCounter + 1) file cores

/-! ### The discovery -/

/-- What `initialize_core_ordering` leaves in the variables of the library. -/
structure Topology where
  machine : Machine
  activeThreadsPerSocket : Nat
  numThreads : Nat
  cores : CoreTable

/-- The first loop: the numbers and the lines that have been counted. -/
def count (file : List (List Char)) : Nat × Nat :=
  file.foldl (fun (allThreads, totalSockets) text =>
    (allThreads + (tokens text).length, totalSockets + 1)) (0, 0)

def initializeCoreOrdering (stc : Bool) (platform : Platform) (file : List Char) :
    Except Fault Topology := do
  let (allThreads, totalSockets) := count (lines file)
  let coresPerSocket ← divide allThreads totalSockets
  let numSockets := totalSockets / 2
  let activeThreadsPerSocket ← divide allThreads numSockets
  let cores ← fillRows 0 (lines file)
    (List.replicate totalSockets (List.replicate activeThreadsPerSocket none))
  let servers ← divide activeThreadsPerSocket coresPerSocket
  return ⟨⟨platform, stc, numSockets, coresPerSocket⟩, activeThreadsPerSocket - servers,
    allThreads, cores⟩

/-- What `ffwd_thread_create` and `ffwd_bind_main_thread` divide by, for a client on a core. -/
def Machine.divisors (m : Machine) (id : Nat) : List Int :=
  (m.coresPerSocket : Int) :: (if m.stc then [] else [(m.numSockets : Int)]) ++
    match m.platform with
    | .xeon => [m.coresPerSocket * maxSock, m.coresPerSocket]
    | .opteron => [m.coresPerSocket * 2, m.coresPerSocket, m.coresPerSocket * (m.myChip id * 2 + 1)]

/-- The discovery has no fault, and the divisions for the clients are defined. -/
def Discovers (stc : Bool) (platform : Platform) (file : List Char) : Prop :=
  ∃ t, initializeCoreOrdering stc platform file = .ok t ∧
    1 ≤ t.machine.numSockets ∧ 1 ≤ t.machine.coresPerSocket ∧
    ∀ id, ∀ d ∈ t.machine.divisors id, d ≠ 0

/-! ### What the command prints -/

/-- A line of numbers with blanks between them. -/
def printLine (numbers : List (List Char)) : List Char :=
  (numbers.intersperse [' ']).flatten ++ ['\n']

/-- At least one line, with at least one number in each. -/
def Printed (file : List Char) : Prop :=
  ∃ output : List (List (List Char)), output ≠ [] ∧
    (∀ numbers ∈ output, numbers ≠ [] ∧ ∀ number ∈ numbers, number ≠ [] ∧ ∀ c ∈ number, c.isDigit) ∧
    file = output.flatMap printLine

/-! ### Every line that is read has a number -/

/-- Each blank has something else behind it. -/
def Spaced : List Char → Prop
  | [] => True
  | c :: file => (c = ' ' → ∃ d rest, file = d :: rest ∧ d ≠ ' ') ∧ Spaced file

theorem Spaced.of_append {xs ys : List Char} (h : Spaced (xs ++ ys)) :
  Spaced ys
  := by
  induction xs with
  | nil => exact h
  | cons c xs ih => exact ih h.2

theorem Spaced.append {xs ys : List Char} (h : Spaced ys) (hxs : ∀ c ∈ xs, c ≠ ' ') :
  Spaced (xs ++ ys)
  := by
  induction xs with
  | nil => exact h
  | cons c xs ih =>
      obtain ⟨hc, hxs⟩ := List.forall_mem_cons.mp hxs
      exact ⟨fun hblank => absurd hblank hc, ih hxs⟩

theorem isDigit_ne_blank {c : Char} (h : c.isDigit) :
  c ≠ ' '
  := by
  rintro rfl
  exact absurd h (by decide)

theorem Spaced.printLine
    {numbers : List (List Char)} {file : List Char} (hfile : Spaced file) (hne : numbers ≠ [])
    (h : ∀ number ∈ numbers, number ≠ [] ∧ ∀ c ∈ number, c.isDigit) :
  Spaced (printLine numbers ++ file)
  := by
  induction numbers with
  | nil => exact absurd rfl hne
  | cons x numbers ih =>
      obtain ⟨⟨-, hx⟩, hnumbers⟩ := List.forall_mem_cons.mp h
      have hblank : ∀ c ∈ x, c ≠ ' ' := fun c hc => isDigit_ne_blank (hx c hc)
      cases numbers with
      | nil =>
          have heq : Delegation.printLine [x] ++ file = x ++ '\n' :: file := by
            simp [Delegation.printLine]
          rw [heq]
          apply Spaced.append _ hblank
          exact ⟨nofun, hfile⟩
      | cons y numbers =>
          have heq : Delegation.printLine (x :: y :: numbers) ++ file =
              x ++ ' ' :: (Delegation.printLine (y :: numbers) ++ file) := by
            simp [Delegation.printLine]
          rw [heq]
          apply Spaced.append _ hblank
          refine ⟨fun _ => ?_, ih (by simp) hnumbers⟩
          obtain ⟨⟨hy, hdigits⟩, -⟩ := List.forall_mem_cons.mp hnumbers
          obtain ⟨d, y, rfl⟩ := List.exists_cons_of_ne_nil hy
          have hd : d ≠ ' ' := isDigit_ne_blank (hdigits d List.mem_cons_self)
          cases numbers with
          | nil => exact ⟨d, _, rfl, hd⟩
          | cons z numbers => exact ⟨d, _, rfl, hd⟩

theorem Printed.spaced {file : List Char} (h : Printed file) :
  Spaced file ∧ file ≠ []
  := by
  obtain ⟨output, hne, houtput, rfl⟩ := h
  constructor
  · clear hne
    induction output with
    | nil => exact trivial
    | cons numbers output ih =>
        obtain ⟨⟨hnumbers, hnumber⟩, hrest⟩ := List.forall_mem_cons.mp houtput
        exact (ih hrest).printLine hnumbers hnumber
  · obtain ⟨numbers, output, rfl⟩ := List.exists_cons_of_ne_nil hne
    simp [printLine]

theorem readLine_append (n : Nat) (file : List Char) :
  (readLine n file).1 ++ (readLine n file).2 = file
  := by
  induction n generalizing file with
  | zero => rfl
  | succ n ih =>
      cases file with
      | nil => rfl
      | cons c file =>
          rw [readLine]
          by_cases hc : c = '\n'
          · rw [if_pos hc]
            rfl
          · rw [if_neg hc, List.cons_append, ih]

/-- With room for two characters, what is read has one that is not a blank. -/
theorem Spaced.readLine {n : Nat} {c : Char} {file : List Char} (h : Spaced (c :: file)) :
  ∃ d ∈ (readLine (n + 2) (c :: file)).1, d ≠ ' '
  := by
  by_cases hc : c = ' '
  · subst hc
    obtain ⟨d, rest, rfl, hd⟩ := h.1 rfl
    refine ⟨d, ?_, hd⟩
    rw [Delegation.readLine, if_neg (by decide), Delegation.readLine]
    by_cases hnewline : d = '\n'
    · simp [hnewline]
    · simp [hnewline]
  · refine ⟨c, ?_, hc⟩
    rw [Delegation.readLine]
    by_cases hnewline : c = '\n'
    · simp [hnewline]
    · simp [hnewline]

theorem tokens_ne_nil {text : List Char} (h : ∃ d ∈ text, d ≠ ' ') :
  tokens text ≠ []
  := by
  induction text with
  | nil =>
      obtain ⟨d, hd, -⟩ := h
      cases hd
  | cons c text ih =>
      rw [tokens.eq_def]
      by_cases hc : c = ' '
      · simp only [if_pos hc]
        apply ih
        obtain ⟨d, hd, hne⟩ := h
        rcases List.mem_cons.mp hd with rfl | hd
        · exact absurd hc hne
        · exact ⟨d, hd, hne⟩
      · simp only [if_neg hc]
        cases text with
        | nil => exact List.cons_ne_nil _ _
        | cons d text =>
            by_cases hd : d = ' '
            · simp [hd]
            · simp only [if_neg hd]
              cases tokens (d :: text) <;> exact List.cons_ne_nil _ _

theorem Spaced.tokens_ne_nil {n fuel : Nat} {file : List Char} (h : Spaced file) :
  ∀ text ∈ fgetsAll (n + 3) fuel file, tokens text ≠ []
  := by
  induction fuel generalizing file with
  | zero => nofun
  | succ fuel ih =>
      cases file with
      | nil => nofun
      | cons c file =>
          rw [fgetsAll, List.forall_mem_cons]
          refine ⟨Delegation.tokens_ne_nil h.readLine, ih ?_⟩
          rw [← readLine_append (n + 3 - 1) (c :: file)] at h
          exact h.of_append

theorem Printed.lines {file : List Char} (h : Printed file) :
  lines file ≠ [] ∧ ∀ text ∈ lines file, 1 ≤ (tokens text).length
  := by
  obtain ⟨hspaced, hne⟩ := h.spaced
  constructor
  · obtain ⟨c, file, rfl⟩ := List.exists_cons_of_ne_nil hne
    exact List.cons_ne_nil _ _
  · intro text htext
    apply List.length_pos_of_ne_nil
    exact hspaced.tokens_ne_nil (n := 1021) text htext

/-! ### The writes to the table -/

/-- The table has `k` rows with room for `a` numbers each. -/
def CoreTable.Shape (cores : CoreTable) (k a : Nat) : Prop :=
  cores.length = k ∧ ∀ row ∈ cores, row.length = a

section Rows

variable {cores cores' : CoreTable} {k a socket i : Nat}

theorem CoreTable.Shape.write (h : cores.Shape k a) (hs : socket < k) (value : Int) :
  (i < a → ∃ cores', cores.write socket i value = .ok cores' ∧ cores'.Shape k a) ∧
    (a ≤ i → cores.write socket i value = .error .outOfBounds)
  := by
  obtain ⟨hlen, hrows⟩ := h
  have hs' : socket < cores.length := by omega
  have hrow : (cores[socket]).length = a := hrows _ (List.getElem_mem hs')
  rw [CoreTable.write, List.getElem?_eq_getElem hs']
  simp only [hrow]
  constructor
  · intro hi
    refine ⟨_, if_pos hi, ?_, ?_⟩
    · rw [List.length_set]
      exact hlen
    · intro row hmem
      rcases List.mem_or_eq_of_mem_set hmem with hmem | rfl
      · exact hrows row hmem
      · rw [List.length_set]
        exact hrow
  · intro hi
    exact if_neg (by omega)

theorem CoreTable.Shape.fillRow {ps : List (List Char)} (h : cores.Shape k a) (hs : socket < k)
    (hi : i ≤ a) :
  (i + ps.length ≤ a → ∃ cores', fillRow socket i ps cores = .ok cores' ∧ cores'.Shape k a) ∧
    (a < i + ps.length → fillRow socket i ps cores = .error .outOfBounds)
  := by
  induction ps generalizing i cores with
  | nil => exact ⟨fun _ => ⟨cores, rfl, h⟩, fun hlt => absurd hi (by simpa using hlt)⟩
  | cons p ps ih =>
      rw [List.length_cons, Delegation.fillRow]
      obtain ⟨hwrite, hfault⟩ := h.write (i := i) hs (atoi p)
      by_cases hia : i < a
      · obtain ⟨cores', hcores', hshape⟩ := hwrite hia
        rw [hcores']
        obtain ⟨hfits, hover⟩ := ih hshape hia
        exact ⟨fun hle => hfits (by omega), fun hlt => hover (by omega)⟩
      · rw [hfault (by omega)]
        exact ⟨fun hle => absurd hle (by omega), fun _ => rfl⟩

theorem CoreTable.Shape.fillRows {file : List (List Char)} (h : cores.Shape k a)
    (hs : socket + file.length ≤ k) :
  ((∀ text ∈ file, (tokens text).length ≤ a) →
    ∃ cores', fillRows socket file cores = .ok cores') ∧
    ((∃ text ∈ file, a < (tokens text).length) →
      fillRows socket file cores = .error .outOfBounds)
  := by
  induction file generalizing socket cores with
  | nil => exact ⟨fun _ => ⟨cores, rfl⟩, nofun⟩
  | cons text file ih =>
      rw [List.length_cons] at hs
      rw [List.forall_mem_cons, List.exists_mem_cons_iff, Delegation.fillRows]
      have hsocket : socket < k := by omega
      obtain ⟨hrow, hfault⟩ := @fillRow cores k a socket 0 (tokens text) h hsocket (Nat.zero_le a)
      rw [Nat.zero_add] at hrow hfault
      by_cases hfits : (tokens text).length ≤ a
      · obtain ⟨cores', hcores', hshape⟩ := hrow hfits
        rw [hcores']
        obtain ⟨hrest, hover⟩ := ih hshape (by omega : socket + 1 + file.length ≤ k)
        exact ⟨fun hall => hrest hall.2, fun hex => hover (hex.resolve_left (by omega))⟩
      · rw [hfault (by omega)]
        exact ⟨fun hall => absurd hall.1 hfits, fun _ => rfl⟩

end Rows

/-! ### When the discovery is safe -/

theorem count_eq (file : List (List Char)) :
  count file = ((file.map (fun text => (tokens text).length)).sum, file.length)
  := by
  have hfold : ∀ (acc : Nat × Nat), file.foldl (fun (acc : Nat × Nat) text =>
      (acc.1 + (tokens text).length, acc.2 + 1)) acc =
      (acc.1 + (file.map (fun text => (tokens text).length)).sum, acc.2 + file.length) := by
    induction file with
    | nil => simp
    | cons text file ih =>
        intro acc
        rw [List.foldl_cons, ih]
        simp only [List.map_cons, List.sum_cons, List.length_cons]
        congr 1 <;> omega
  have h := hfold (0, 0)
  rw [Nat.zero_add, Nat.zero_add] at h
  exact h

theorem Machine.divisors_ne_zero {m : Machine} (hsockets : 1 ≤ m.numSockets)
    (hcores : 1 ≤ m.coresPerSocket) (id : Nat) :
  ∀ d ∈ m.divisors id, d ≠ 0
  := by
  have hchip : m.platform = .opteron → 0 ≤ m.myChip id := by
    intro hplatform
    rw [Machine.myChip, hplatform]
    exact Int.natCast_nonneg _
  have hcores' : (m.coresPerSocket : Int) ≠ 0 := by omega
  have hsockets' : (m.numSockets : Int) ≠ 0 := by omega
  intro d hd
  rw [Machine.divisors, List.mem_append, List.mem_cons] at hd
  rcases hd with (rfl | hd) | hd
  · exact hcores'
  · by_cases hstc : m.stc
    · rw [if_pos hstc] at hd
      cases hd
    · rw [if_neg hstc, List.mem_singleton] at hd
      rw [hd]
      exact hsockets'
  · cases hplatform : m.platform with
    | xeon =>
        simp only [hplatform, List.mem_cons, List.not_mem_nil, or_false] at hd
        rcases hd with rfl | rfl
        · exact mul_ne_zero hcores' (by decide)
        · exact hcores'
    | opteron =>
        have hnonneg := hchip hplatform
        simp only [hplatform, List.mem_cons, List.not_mem_nil, or_false] at hd
        rcases hd with rfl | rfl | rfl
        · exact mul_ne_zero hcores' (by decide)
        · exact hcores'
        · exact mul_ne_zero hcores' (by omega)

/-- The discovery is safe if and only if at least two lines are read, and none of them has more
numbers than a row of the table, which is half the lines' share of all the numbers. -/
theorem discovers_iff (stc : Bool) (platform : Platform) (file : List Char) (h : Printed file) :
  Discovers stc platform file ↔
    2 ≤ (lines file).length ∧ ∀ text ∈ lines file, (tokens text).length ≤
      ((lines file).map (fun text => (tokens text).length)).sum / ((lines file).length / 2)
  := by
  obtain ⟨hne, hone⟩ := h.lines
  rw [Discovers, initializeCoreOrdering, count_eq]
  generalize htotal : ((lines file).map (fun text => (tokens text).length)).sum = total
  have hpos : 0 < (lines file).length := List.length_pos_of_ne_nil hne
  have htotal_le : (lines file).length ≤ total := by
    rw [← htotal]
    have := List.card_nsmul_le_sum ((lines file).map (fun text => (tokens text).length)) 1 (by
      intro n hn
      obtain ⟨text, htext, rfl⟩ := List.mem_map.mp hn
      exact hone text htext)
    simpa using this
  have hcores : 1 ≤ total / (lines file).length := Nat.div_pos htotal_le hpos
  simp only [divide, bind, Except.bind, if_neg (show (lines file).length ≠ 0 by omega)]
  by_cases htwo : 2 ≤ (lines file).length
  · have hsockets : 1 ≤ (lines file).length / 2 := by omega
    rw [if_neg (by omega)]
    have hshape : CoreTable.Shape (List.replicate (lines file).length
        (List.replicate (total / ((lines file).length / 2)) none)) (lines file).length
        (total / ((lines file).length / 2)) := by
      refine ⟨List.length_replicate, ?_⟩
      intro row hrow
      rw [List.eq_of_mem_replicate hrow, List.length_replicate]
    obtain ⟨hfits, hover⟩ :=
      hshape.fillRows (show 0 + (lines file).length ≤ (lines file).length by omega)
    simp only [htwo, true_and]
    constructor
    · rintro ⟨t, ht, -⟩
      by_contra hex
      push Not at hex
      rw [hover hex] at ht
      cases ht
    · intro hall
      obtain ⟨cores', hcores'⟩ := hfits hall
      simp only [hcores', if_neg (show total / (lines file).length ≠ 0 by omega)]
      refine ⟨_, rfl, hsockets, hcores, fun id => ?_⟩
      exact Machine.divisors_ne_zero hsockets hcores id
  · rw [if_pos (by omega)]
    constructor
    · rintro ⟨t, ht, -⟩
      cases ht
    · rintro ⟨hle, -⟩
      exact absurd hle htwo

/-- A machine with two nodes, one line for each. -/
theorem discovers_iff_twoNodes :
  Discovers false .xeon ['0', ' ', '1', '\n', '2', ' ', '3', '\n']
  := by
  have hprinted : Printed ['0', ' ', '1', '\n', '2', ' ', '3', '\n'] :=
    ⟨[[['0'], ['1']], [['2'], ['3']]], by simp, by simp [Char.isDigit], rfl⟩
  exact (discovers_iff false .xeon _ hprinted).mpr (by decide)

/-- A machine with one node, whose cores are printed on one line. -/
theorem not_discovers_oneNode :
  Printed ['0', ' ', '1', ' ', '2', ' ', '3', '\n'] ∧
    ¬ Discovers false .xeon ['0', ' ', '1', ' ', '2', ' ', '3', '\n']
  := by
  refine ⟨⟨[[['0'], ['1'], ['2'], ['3']]], by simp, by simp [Char.isDigit], rfl⟩, ?_⟩
  rintro ⟨t, ht, -⟩
  have hfault : initializeCoreOrdering false .xeon ['0', ' ', '1', ' ', '2', ' ', '3', '\n'] =
      .error .divisionByZero := rfl
  rw [hfault] at ht
  cases ht

end Delegation
