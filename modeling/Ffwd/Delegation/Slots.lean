import Mathlib

/-!
# Client slots

`ffwdThreadCreate` and `ffwdBindMainThread` give each new client the next core that is
not the first of its core group, and derive from the core's number the chip and the
index in the chip that name the client's request slot, together with the response line
it polls. `scan` is the other side of that mapping: the slots `server_func` tests in
one round, each with the line it publishes for it. The two agree, and no two clients
share a slot, for every machine the library assumes and every number of clients that
fits on it.
-/

namespace Delegation

/-- The number of sockets the library has room for. -/
def maxSock : Nat := 4

/-- What is subtracted from an index in a chip, because the first core of a chip and its
sibling belong to the servers. -/
def indexDiff : Nat := 2

/-- The platforms `initialize_core_ordering` accepts. -/
inductive Platform where
  | xeon
  | opteron
  deriving DecidableEq

/-- A machine as the library sees it: its platform, whether sockets are filled first,
its number of sockets and the number of cores in a core group. -/
structure Machine where
  platform : Platform
  stc : Bool
  numSockets : Nat
  coresPerSocket : Nat

/-- The entry `cores[row][x]`. On a Xeon the even rows hold the first hyperthreads of a
socket and the odd rows the second ones; on an Opteron the rows are consecutive
blocks. -/
def Machine.cores (m : Machine) (row x : Nat) : Nat :=
  match m.platform with
  | .xeon =>
      if row % 2 = 0 then row / 2 * m.coresPerSocket + x
      else (m.numSockets + row / 2) * m.coresPerSocket + x
  | .opteron => row * m.coresPerSocket + x

/-- The core `launch_servers` puts server `s` on. -/
def Machine.serverCore (m : Machine) (s : Nat) : Nat :=
  match m.platform with
  | .xeon => m.coresPerSocket * s
  | .opteron => m.coresPerSocket * 2 * s

/-- The global counter after it has skipped the first core of a core group and moved to
the next client. -/
def nextGlobalId (cps globalId : Nat) : Nat :=
  if globalId = cps - 1 ∨ globalId = cps * 2 - 1 ∨ globalId = cps * 3 - 1 ∨
      globalId = cps * 4 - 1 ∨ globalId = cps * 5 - 1 ∨ globalId = cps * 6 - 1 ∨
      globalId = cps * 7 - 1 then
    globalId + 1 + 1
  else globalId + 1

/-- The row of `cores` the client with a given counter is taken from. -/
def Machine.row (m : Machine) (globalId : Nat) : Int :=
  if m.stc then (globalId / m.coresPerSocket : Nat)
  else ((globalId / m.coresPerSocket : Nat) : Int) * 2
    + (1 - m.numSockets * 2) * ((globalId / m.coresPerSocket / m.numSockets : Nat) : Int)

/-- The core the client with a given counter is pinned to. -/
def Machine.coreId (m : Machine) (globalId : Nat) : Nat :=
  m.cores (m.row globalId).toNat (globalId % m.coresPerSocket)

/-- The chip of a core. -/
def Machine.myChip (m : Machine) (id : Nat) : Int :=
  match m.platform with
  | .xeon =>
      ((id / m.coresPerSocket : Nat) : Int)
        - ((id / (m.coresPerSocket * maxSock) : Nat) : Int) * maxSock
  | .opteron => (id / (m.coresPerSocket * 2) : Nat)

/-- The index of a core in its chip. -/
def Machine.idInChip (m : Machine) (id : Nat) : Int :=
  match m.platform with
  | .xeon =>
      ((id % m.coresPerSocket : Nat) : Int) * 2
        + (id / (m.coresPerSocket * maxSock) : Nat) - indexDiff
  | .opteron =>
      ((id % m.coresPerSocket : Nat) : Int) * 2
        + (id / (m.coresPerSocket * ((m.myChip id).toNat * 2 + 1)) : Nat) - indexDiff

/-- The part of a client's context that says where it meets the servers: its core, its
chip and index in the chip, the request slot the `switch` on the chip selects (the
array of the chip and the index in it), and the index of the response line. -/
structure Context where
  id : Nat
  myChip : Int
  idInChip : Int
  request : Option (Nat × Int)
  serverResponse : Int

/-- The array of requests the `switch` on the chip selects. -/
def requestOf (myChip idInChip : Int) : Option (Nat × Int) :=
  if myChip = 0 then some (0, idInChip)
  else if myChip = 1 then some (1, idInChip)
  else if myChip = 2 then some (2, idInChip)
  else if myChip = 3 then some (3, idInChip)
  else none

/-- The context of the client with a given counter. -/
def Machine.context (nclients : Nat) (m : Machine) (globalId : Nat) : Context :=
  let id := m.coreId globalId
  { id := id
    myChip := m.myChip id
    idInChip := m.idInChip id
    request := requestOf (m.myChip id) (m.idInChip id)
    serverResponse := m.myChip id * maxSock + (m.idInChip id).tdiv nclients }

/-- The assignment both ways of making a client share: the new counter and the context
of the new client. -/
def Machine.assign (nclients : Nat) (m : Machine) (globalId : Nat) : Nat × Context :=
  let globalId := nextGlobalId m.coresPerSocket globalId
  (globalId, m.context nclients globalId)

/-- `ffwd_thread_create`, as far as the slot of the new client goes. -/
def ffwdThreadCreate (nclients : Nat) (m : Machine) (globalId : Nat) : Nat × Context :=
  m.assign nclients globalId

/-- `ffwd_bind_main_thread`, as far as the slot of the main thread goes. -/
def ffwdBindMainThread (nclients : Nat) (m : Machine) (globalId : Nat) : Nat × Context :=
  m.assign nclients globalId

/-- The two calls that make a client. -/
inductive Call where
  | threadCreate
  | bindMainThread
  deriving DecidableEq

/-- One call. -/
def Call.run (nclients : Nat) (m : Machine) : Call → Nat → Nat × Context
  | .threadCreate => ffwdThreadCreate nclients m
  | .bindMainThread => ffwdBindMainThread nclients m

/-- The contexts a sequence of calls makes, in order, from a value of the counter. -/
def contexts (nclients : Nat) (m : Machine) : Nat → List Call → List Context
  | _, [] => []
  | globalId, c :: cs =>
      (c.run nclients m globalId).2 :: contexts nclients m (c.run nclients m globalId).1 cs

/-! ### The scan of the server -/

/-- The thread ids of the first half of a socket. -/
def add2Half1 (x : Nat) : Nat := x

/-- The thread ids of the second half of a socket. -/
def add2Half2 (nclients x : Nat) : Nat := nclients + x

/-- A slot the server tests: its chip, the id in the chip, the line it is published on,
and the index of its return value in the line. -/
structure ScanEntry where
  chip : Nat
  id : Nat
  line : Nat
  returnIndex : Nat
  deriving DecidableEq

/-- The entry tests slot `id` of chip `chip`. -/
def ScanEntry.tests (chip id : Nat) (e : ScanEntry) : Bool :=
  e.chip = chip ∧ e.id = id

/-- `REPEAT(NCLIENTS, …)`: the slots of one half-socket, in the order of the test. -/
def scanHalf (nclients chip line : Nat) (half : Nat → Nat) : List ScanEntry :=
  (List.range nclients).map fun x => ⟨chip, half x, line, half x % nclients⟩

/-- The slots `server_func` tests in one round, with the line it publishes for each. -/
def scan (nclients : Nat) : List ScanEntry :=
  scanHalf nclients 0 0 add2Half1 ++ scanHalf nclients 0 1 (add2Half2 nclients) ++
  scanHalf nclients 1 4 add2Half1 ++ scanHalf nclients 1 5 (add2Half2 nclients) ++
  scanHalf nclients 2 8 add2Half1 ++ scanHalf nclients 2 9 (add2Half2 nclients) ++
  scanHalf nclients 3 12 add2Half1 ++ scanHalf nclients 3 13 (add2Half2 nclients)

/-- A half-socket whose chip or ids are others has no entry for an id of a chip. -/
theorem filter_scanHalf_miss
    {nclients chip line : Nat} {half : Nat → Nat} {chip' id : Nat}
    (h : ∀ x < nclients, chip = chip' → half x ≠ id) :
  (scanHalf nclients chip line half).filter (ScanEntry.tests chip' id) = []
  := by
  rw [List.filter_eq_nil_iff]
  intro e he
  obtain ⟨x, hx, rfl⟩ := List.mem_map.mp he
  simp only [ScanEntry.tests, decide_eq_true_eq, not_and]
  apply h x (List.mem_range.mp hx)

/-- A half-socket of the chip whose ids include `half x` has exactly one entry for it. -/
theorem filter_scanHalf_hit
    {nclients : Nat} (chip line : Nat) {half : Nat → Nat} (hinj : Function.Injective half)
    {x : Nat} (hx : x < nclients) :
  (scanHalf nclients chip line half).filter (ScanEntry.tests chip (half x))
    = [⟨chip, half x, line, half x % nclients⟩]
  := by
  have hfilter : (List.range nclients).filter (fun y => decide (half y = half x)) = [x] := by
    have hnodup := (List.nodup_range (n := nclients)).filter (fun y => decide (half y = half x))
    apply List.perm_singleton.mp
    apply (List.perm_ext_iff_of_nodup hnodup (List.nodup_singleton x)).mpr
    intro y
    simp only [List.mem_filter, List.mem_range, decide_eq_true_eq, List.mem_singleton]
    constructor
    · rintro ⟨-, hy⟩
      apply hinj hy
    · rintro rfl
      exact ⟨hx, rfl⟩
  simp only [scanHalf, List.filter_map, Function.comp_def, ScanEntry.tests, true_and, hfilter, List.map_cons,
    List.map_nil]

theorem add2Half1_injective :
  Function.Injective add2Half1
  := fun _ _ h => h

theorem add2Half2_injective (nclients : Nat) :
  Function.Injective (add2Half2 nclients)
  := fun _ _ h => Nat.add_left_cancel h

/-- In one round the server tests every slot of every chip exactly once, and publishes it
on line `chip * MAX_SOCK + id / NCLIENTS`, at index `id % NCLIENTS`. -/
theorem filter_scan {nclients chip id : Nat} (hchip : chip < maxSock) (hid : id < 2 * nclients) :
  (scan nclients).filter (ScanEntry.tests chip id)
    = [⟨chip, id, chip * maxSock + id / nclients, id % nclients⟩]
  := by
  have hmiss : ∀ {c line : Nat} {half : Nat → Nat}, c ≠ chip →
      (scanHalf nclients c line half).filter (ScanEntry.tests chip id) = [] :=
    fun hc => filter_scanHalf_miss (fun _ _ h => absurd h hc)
  have hhalves : ∀ line : Nat,
      (scanHalf nclients chip line add2Half1).filter (ScanEntry.tests chip id)
        ++ (scanHalf nclients chip (line + 1) (add2Half2 nclients)).filter
          (ScanEntry.tests chip id)
        = [⟨chip, id, line + id / nclients, id % nclients⟩] := by
    intro line
    by_cases hlow : id < nclients
    · have hhit := filter_scanHalf_hit chip line add2Half1_injective hlow
      simp only [add2Half1] at hhit
      rw [hhit, filter_scanHalf_miss, Nat.div_eq_of_lt hlow]
      · rfl
      · intro x _ _ h
        simp only [add2Half2] at h
        omega
    · have hx : id - nclients < nclients := by omega
      have hid' : add2Half2 nclients (id - nclients) = id := by
        simp only [add2Half2]
        omega
      have hdiv : id / nclients = 1 := Nat.div_eq_of_lt_le (by omega) (by omega)
      have hhit := filter_scanHalf_hit chip (line + 1)
        (add2Half2_injective nclients) hx
      rw [hid'] at hhit
      rw [hhit, filter_scanHalf_miss, hdiv]
      · rfl
      · intro x hx' _ h
        simp only [add2Half1] at h
        omega
  simp only [scan, List.filter_append]
  simp only [maxSock] at hchip
  obtain rfl | rfl | rfl | rfl : chip = 0 ∨ chip = 1 ∨ chip = 2 ∨ chip = 3 := by omega
  · simpa [hmiss, maxSock] using hhalves 0
  · simpa [hmiss, maxSock] using hhalves 4
  · simpa [hmiss, maxSock] using hhalves 8
  · simpa [hmiss, maxSock] using hhalves 12

/-- The thread ids the two builds spell out by hand. -/
example : (List.range 7).map (add2Half2 7) = [7, 8, 9, 10, 11, 12, 13] := rfl

/-! ### The slots of the clients -/

/-- The counter of client `j`, counting from `0`: group `j / (cps - 1)`, and in it the
core `j % (cps - 1) + 1`. -/
def globalIdOf (cps j : Nat) : Nat :=
  j / (cps - 1) * cps + (j % (cps - 1) + 1)

/-- The counter moves from one client to the next, as long as the last group it enters
is the eighth. -/
theorem nextGlobalId_globalIdOf {cps j : Nat} (hcps : 2 ≤ cps) (hj : j + 1 < 8 * (cps - 1)) :
  nextGlobalId cps (globalIdOf cps j) = globalIdOf cps (j + 1)
  := by
  obtain ⟨w, rfl⟩ : ∃ w, cps = w + 1 := ⟨cps - 1, by omega⟩
  simp only [Nat.add_sub_cancel] at hj
  have hw : 0 < w := by omega
  simp only [globalIdOf, Nat.add_sub_cancel]
  have hr := Nat.mod_lt j hw
  have hj' := Nat.div_add_mod j w
  set q := j / w with hq
  set r := j % w with hrdef
  have hq8 : q < 8 := by
    rw [hq, Nat.div_lt_iff_lt_mul hw]
    omega
  by_cases hlast : r + 1 = w
  · have hdiv : (j + 1) / w = q + 1 := by
      rw [← hj', Nat.add_assoc, hlast, ← Nat.mul_succ, Nat.mul_div_cancel_left _ hw]
    have hmod : (j + 1) % w = 0 := by
      rw [← hj', Nat.add_assoc, hlast, ← Nat.mul_succ, Nat.mul_mod_right]
    have hq7 : q < 7 := by
      by_contra hge
      have hq7 : q = 7 := by omega
      rw [hq7] at hj'
      omega
    rw [hdiv, hmod, hlast, nextGlobalId, if_pos]
    · ring
    · interval_cases q <;> omega
  · have hdiv : (j + 1) / w = q := by
      rw [← hj', Nat.add_assoc, Nat.mul_add_div hw, Nat.div_eq_of_lt (by omega), Nat.add_zero]
    have hmod : (j + 1) % w = r + 1 := by
      rw [← hj', Nat.add_assoc, Nat.mul_add_mod, Nat.mod_eq_of_lt (by omega)]
    rw [hdiv, hmod, nextGlobalId, if_neg]
    · ring
    · interval_cases q <;> omega

/-- The counter moves from its initial value to the first client. -/
theorem nextGlobalId_zero {cps : Nat} (hcps : 2 ≤ cps) :
  nextGlobalId cps 0 = globalIdOf cps 0
  := by
  rw [nextGlobalId, if_neg (by omega)]
  simp [globalIdOf]

/-- Both calls assign alike. -/
theorem Call.run_eq (nclients : Nat) (m : Machine) (c : Call) (globalId : Nat) :
  c.run nclients m globalId = m.assign nclients globalId
  := by
  cases c with
  | threadCreate => rfl
  | bindMainThread => rfl

/-- The contexts made from the counter of client `j` on are those of the clients that
follow. -/
theorem contexts_globalIdOf {nclients : Nat} {m : Machine} (hcps : 2 ≤ m.coresPerSocket) :
  ∀ (cs : List Call) (j : Nat), j + cs.length < 8 * (m.coresPerSocket - 1) →
    contexts nclients m (globalIdOf m.coresPerSocket j) cs
      = (List.range' (j + 1) cs.length).map
          (fun i => m.context nclients (globalIdOf m.coresPerSocket i))
  | [], _, _ => rfl
  | c :: cs, j, h => by
      simp only [List.length_cons] at h
      have hnext := nextGlobalId_globalIdOf (j := j) hcps (by omega)
      simp only [contexts, Call.run_eq, Machine.assign, hnext, List.length_cons,
        List.range'_succ, List.map_cons]
      rw [contexts_globalIdOf hcps cs (j + 1) (by omega)]

/-- The contexts a sequence of calls makes from the initial counter are those of the
clients `0`, `1`, … in order. -/
theorem contexts_zero
    {nclients : Nat} {m : Machine} (hcps : 2 ≤ m.coresPerSocket) (cs : List Call)
    (h : cs.length ≤ 8 * (m.coresPerSocket - 1)) :
  contexts nclients m 0 cs
    = (List.range cs.length).map (fun i => m.context nclients (globalIdOf m.coresPerSocket i))
  := by
  cases cs with
  | nil => rfl
  | cons c cs =>
      simp only [List.length_cons] at h
      simp only [contexts, Call.run_eq, Machine.assign, nextGlobalId_zero hcps, List.length_cons,
        List.range_eq_range', List.range'_succ, List.map_cons]
      rw [contexts_globalIdOf hcps cs 0 (by omega)]

/-- The core group, in the order of the core numbers, that the `q`-th group in the order
of assignment is. -/
def Machine.group (m : Machine) (q : Nat) : Nat :=
  match m.platform, m.stc with
  | .xeon, false => q
  | .xeon, true => if q % 2 = 0 then q / 2 else m.numSockets + q / 2
  | .opteron, false => if q < m.numSockets then 2 * q else 2 * (q - m.numSockets) + 1
  | .opteron, true => q

/-- A core number determines its group and its position in the group. -/
theorem groupCore_div_mod {cps q r : Nat} (hr : r < cps) :
  (q * cps + r) / cps = q ∧ (q * cps + r) % cps = r
  := by
  constructor
  · rw [Nat.mul_comm, Nat.mul_add_div (by omega), Nat.div_eq_of_lt hr, Nat.add_zero]
  · rw [Nat.mul_comm, Nat.mul_add_mod, Nat.mod_eq_of_lt hr]

/-- The row the default ordering takes for group `q`: the first hyperthreads of every
socket and then the second ones. -/
theorem row_eq
    {m : Machine} (hstc : m.stc = false) {q r : Nat}
    (hq : q < 2 * m.numSockets) (hr : r < m.coresPerSocket) :
  m.row (q * m.coresPerSocket + r)
    = ((if q < m.numSockets then 2 * q else 2 * (q - m.numSockets) + 1 : Nat) : Int)
  := by
  simp only [Machine.row, hstc, (groupCore_div_mod hr).1, Bool.false_eq_true, if_false]
  by_cases hlow : q < m.numSockets
  · rw [Nat.div_eq_of_lt hlow, if_pos hlow]
    push_cast
    ring
  · have h1 : q / m.numSockets = 1 := Nat.div_eq_of_lt_le (by omega) (by omega)
    rw [h1, if_neg hlow]
    push_cast [Nat.le_of_not_lt hlow]
    ring

/-- Client `j` is pinned to core `j % (cps - 1) + 1` of its group. -/
theorem coreId_globalIdOf
    {m : Machine} (hcps : 2 ≤ m.coresPerSocket) {j : Nat}
    (hj : j < 2 * m.numSockets * (m.coresPerSocket - 1)) :
  m.coreId (globalIdOf m.coresPerSocket j)
    = m.group (j / (m.coresPerSocket - 1)) * m.coresPerSocket
      + (j % (m.coresPerSocket - 1) + 1)
  := by
  have hw : 0 < m.coresPerSocket - 1 := by omega
  have hq : j / (m.coresPerSocket - 1) < 2 * m.numSockets := (Nat.div_lt_iff_lt_mul hw).mpr hj
  have hr : j % (m.coresPerSocket - 1) + 1 < m.coresPerSocket := by
    have := Nat.mod_lt j hw
    omega
  simp only [Machine.coreId, globalIdOf]
  generalize j / (m.coresPerSocket - 1) = q at hq
  generalize j % (m.coresPerSocket - 1) + 1 = r at hr
  obtain ⟨hdiv, hmod⟩ := groupCore_div_mod (q := q) hr
  rw [hmod]
  cases hstc : m.stc with
  | false =>
      rw [row_eq hstc hq hr, Int.toNat_natCast]
      cases hp : m.platform with
      | xeon =>
          simp only [Machine.cores, Machine.group, hp, hstc]
          by_cases hlow : q < m.numSockets
          · simp only [hlow, if_true, Nat.mul_mod_right, Nat.mul_div_cancel_left q (by omega : 0 < 2)]
          · have h1 : (2 * (q - m.numSockets) + 1) % 2 ≠ 0 := by omega
            have h2 : m.numSockets + (2 * (q - m.numSockets) + 1) / 2 = q := by omega
            simp only [hlow, if_false, h1, h2]
      | opteron => simp only [Machine.cores, Machine.group, hp, hstc]
  | true =>
      simp only [Machine.row, hstc, hdiv, if_true, Int.toNat_natCast]
      cases hp : m.platform with
      | xeon =>
          simp only [Machine.cores, Machine.group, hp, hstc]
          split <;> rfl
      | opteron => simp only [Machine.cores, Machine.group, hp, hstc]

/-- Different groups in the order of assignment are different groups of cores. -/
theorem group_inj
    {m : Machine} {q q' : Nat} (hq : q < 2 * m.numSockets) (hq' : q' < 2 * m.numSockets)
    (h : m.group q = m.group q') :
  q = q'
  := by
  simp only [Machine.group] at h
  split at h
  · exact h
  · split at h <;> split at h <;> omega
  · split at h <;> split at h <;> omega
  · exact h

theorem group_lt {m : Machine} {q : Nat} (hq : q < 2 * m.numSockets) :
  m.group q < 2 * m.numSockets
  := by
  simp only [Machine.group]
  split
  · exact hq
  · split <;> omega
  · split <;> omega
  · exact hq

/-- The chip of a core of group `p`. -/
def Machine.chipOf (m : Machine) (p : Nat) : Nat :=
  match m.platform with
  | .xeon => p % maxSock
  | .opteron => p / 2

/-- Which of the two groups of a chip group `p` is. -/
def Machine.sibling (m : Machine) (p : Nat) : Nat :=
  match m.platform with
  | .xeon => p / maxSock
  | .opteron => p % 2

/-- The chip the code computes for core `r` of group `p`. -/
theorem myChip_eq {m : Machine} {p r : Nat} (hr : r < m.coresPerSocket) :
  m.myChip (p * m.coresPerSocket + r) = m.chipOf p
  := by
  have hdiv := (groupCore_div_mod (q := p) hr).1
  simp only [Machine.myChip, Machine.chipOf, ← Nat.div_div_eq_div_mul, hdiv]
  cases m.platform with
  | xeon =>
      simp only [maxSock]
      omega
  | opteron => rfl

/-- The index in the chip the code computes for core `r` of group `p`. -/
theorem idInChip_eq {m : Machine} {p r : Nat} (hr : r < m.coresPerSocket) :
  m.idInChip (p * m.coresPerSocket + r) = 2 * (r : Int) + m.sibling p - 2
  := by
  obtain ⟨hdiv, hmod⟩ := groupCore_div_mod (q := p) hr
  simp only [Machine.idInChip, Machine.sibling, myChip_eq hr, Machine.chipOf, indexDiff,
    ← Nat.div_div_eq_div_mul, hdiv, hmod]
  cases m.platform with
  | xeon =>
      push_cast
      ring
  | opteron =>
      have hsib : p / ((((p / 2 : Nat) : Int).toNat) * 2 + 1) = p % 2 := by
        rw [Int.toNat_natCast]
        obtain h | h := Nat.mod_two_eq_zero_or_one p
        · rw [h, Nat.div_eq_of_lt (by omega)]
        · rw [h, show p / 2 * 2 + 1 = p by omega, Nat.div_self (by omega)]
      simp only [hsib]
      push_cast
      ring

/-- Group, chip and sibling bounds on a machine of at most four sockets. -/
theorem chipOf_sibling_lt {m : Machine} (hs : m.numSockets ≤ maxSock) {p : Nat}
    (hp : p < 2 * m.numSockets) :
  m.chipOf p < maxSock ∧ m.sibling p < 2
  := by
  simp only [maxSock] at hs
  simp only [Machine.chipOf, Machine.sibling, maxSock]
  cases m.platform with
  | xeon =>
      simp only
      omega
  | opteron =>
      simp only
      omega

/-- Chip and sibling determine the group. -/
theorem group_of_chip {m : Machine} {p p' : Nat} (hchip : m.chipOf p = m.chipOf p')
    (hsib : m.sibling p = m.sibling p') :
  p = p'
  := by
  simp only [Machine.chipOf, Machine.sibling, maxSock] at hchip hsib
  cases hm : m.platform with
  | xeon =>
      simp only [hm] at hchip hsib
      omega
  | opteron =>
      simp only [hm] at hchip hsib
      omega

/-- The chip and the id the `switch` selects, for a chip of the machine. -/
theorem requestOf_eq {chip : Nat} (h : chip < maxSock) (id : Int) :
  requestOf chip id = some (chip, id)
  := by
  simp only [maxSock] at h
  obtain rfl | rfl | rfl | rfl : chip = 0 ∨ chip = 1 ∨ chip = 2 ∨ chip = 3 := by omega
  all_goals rfl

/-- The chip, the id in the chip and the core of client `j`. -/
theorem context_globalIdOf
    (nclients : Nat) {m : Machine} (hcps : 2 ≤ m.coresPerSocket) {j : Nat}
    (hj : j < 2 * m.numSockets * (m.coresPerSocket - 1)) :
  (m.context nclients (globalIdOf m.coresPerSocket j)).id
      = m.group (j / (m.coresPerSocket - 1)) * m.coresPerSocket
        + (j % (m.coresPerSocket - 1) + 1) ∧
    (m.context nclients (globalIdOf m.coresPerSocket j)).myChip
      = m.chipOf (m.group (j / (m.coresPerSocket - 1))) ∧
    (m.context nclients (globalIdOf m.coresPerSocket j)).idInChip
      = ((2 * (j % (m.coresPerSocket - 1))
          + m.sibling (m.group (j / (m.coresPerSocket - 1))) : Nat) : Int)
  := by
  have hr : j % (m.coresPerSocket - 1) + 1 < m.coresPerSocket := by
    have := Nat.mod_lt j (show 0 < m.coresPerSocket - 1 by omega)
    omega
  simp only [Machine.context, coreId_globalIdOf hcps hj, true_and]
  constructor
  · apply myChip_eq hr
  · rw [idInChip_eq hr]
    push_cast
    ring

/-- Clients whose chip and id in the chip agree are the same client. -/
theorem context_injective
    (nclients : Nat) {m : Machine} (hs : m.numSockets ≤ maxSock) (hcps : 2 ≤ m.coresPerSocket)
    {i j : Nat} (hi : i < 2 * m.numSockets * (m.coresPerSocket - 1))
    (hj : j < 2 * m.numSockets * (m.coresPerSocket - 1))
    (hchip : (m.context nclients (globalIdOf m.coresPerSocket i)).myChip
      = (m.context nclients (globalIdOf m.coresPerSocket j)).myChip)
    (hid : (m.context nclients (globalIdOf m.coresPerSocket i)).idInChip
      = (m.context nclients (globalIdOf m.coresPerSocket j)).idInChip) :
  i = j
  := by
  obtain ⟨-, hchip₁, hid₁⟩ := context_globalIdOf nclients hcps hi
  obtain ⟨-, hchip₂, hid₂⟩ := context_globalIdOf nclients hcps hj
  rw [hchip₁, hchip₂, Nat.cast_inj] at hchip
  rw [hid₁, hid₂, Nat.cast_inj] at hid
  have hw : 0 < m.coresPerSocket - 1 := by omega
  have hqi : i / (m.coresPerSocket - 1) < 2 * m.numSockets := (Nat.div_lt_iff_lt_mul hw).mpr hi
  have hqj : j / (m.coresPerSocket - 1) < 2 * m.numSockets := (Nat.div_lt_iff_lt_mul hw).mpr hj
  obtain ⟨-, hsi⟩ := chipOf_sibling_lt hs (group_lt hqi)
  obtain ⟨-, hsj⟩ := chipOf_sibling_lt hs (group_lt hqj)
  have hsib : m.sibling (m.group (i / (m.coresPerSocket - 1)))
      = m.sibling (m.group (j / (m.coresPerSocket - 1))) := by omega
  have hr : i % (m.coresPerSocket - 1) = j % (m.coresPerSocket - 1) := by omega
  have hq := group_inj hqi hqj (group_of_chip hchip hsib)
  rw [← Nat.div_add_mod i (m.coresPerSocket - 1), ← Nat.div_add_mod j (m.coresPerSocket - 1),
    hq, hr]

/-- What a client's context has to satisfy: its chip and id are in range, its core is not
the first of a core group and no server is on it, and its request slot and response line
are the slot the server tests and the line it publishes for that chip and id. -/
structure Context.Good (nclients : Nat) (m : Machine) (c : Context) : Prop where
  idInChip_nonneg : 0 ≤ c.idInChip
  idInChip_lt : c.idInChip < 2 * nclients
  myChip_nonneg : 0 ≤ c.myChip
  myChip_lt : c.myChip < maxSock
  notFirst : c.id % m.coresPerSocket ≠ 0
  notServer : ∀ s, c.id ≠ m.serverCore s
  request : c.request = some (c.myChip.toNat, c.idInChip)
  scanned : ∃ line : Nat, c.serverResponse = line ∧
    (scan nclients).filter (ScanEntry.tests c.myChip.toNat c.idInChip.toNat)
      = [⟨c.myChip.toNat, c.idInChip.toNat, line, c.idInChip.toNat % nclients⟩]

/-- No core that is not the first of its group has a server on it. -/
theorem serverCore_mod (m : Machine) (s : Nat) :
  m.serverCore s % m.coresPerSocket = 0
  := by
  simp only [Machine.serverCore]
  cases m.platform with
  | xeon => exact Nat.mul_mod_right _ _
  | opteron =>
      rw [Nat.mul_assoc]
      exact Nat.mul_mod_right _ _

theorem context_good
    {nclients : Nat} {m : Machine} (hs : m.numSockets ≤ maxSock)
    (hcps : 2 ≤ m.coresPerSocket) (hfit : m.coresPerSocket ≤ nclients + 1) {j : Nat}
    (hj : j < 2 * m.numSockets * (m.coresPerSocket - 1)) :
  (m.context nclients (globalIdOf m.coresPerSocket j)).Good nclients m
  := by
  obtain ⟨hid, hchip, hidx⟩ := context_globalIdOf nclients hcps hj
  have hw : 0 < m.coresPerSocket - 1 := by omega
  have hq : j / (m.coresPerSocket - 1) < 2 * m.numSockets := (Nat.div_lt_iff_lt_mul hw).mpr hj
  have hr := Nat.mod_lt j hw
  obtain ⟨hc, hsib⟩ := chipOf_sibling_lt hs (group_lt hq)
  have hlt : 2 * (j % (m.coresPerSocket - 1))
      + m.sibling (m.group (j / (m.coresPerSocket - 1))) < 2 * nclients := by omega
  have hmod : (m.context nclients (globalIdOf m.coresPerSocket j)).id % m.coresPerSocket
      = j % (m.coresPerSocket - 1) + 1 := by
    rw [hid]
    apply (groupCore_div_mod (by omega)).2
  have hfirst : (m.context nclients (globalIdOf m.coresPerSocket j)).id % m.coresPerSocket
      ≠ 0 := by omega
  constructor
  · rw [hidx]
    apply Int.natCast_nonneg
  · rw [hidx]
    exact_mod_cast hlt
  · rw [hchip]
    apply Int.natCast_nonneg
  · rw [hchip]
    exact_mod_cast hc
  · exact hfirst
  · intro s h
    apply hfirst
    rw [h, serverCore_mod]
  · show requestOf (m.context nclients _).myChip (m.context nclients _).idInChip = _
    rw [hchip, requestOf_eq hc, Int.toNat_natCast]
  · rw [hchip, hidx, Int.toNat_natCast, Int.toNat_natCast]
    refine ⟨_, ?_, filter_scan hc hlt⟩
    show (m.context nclients _).myChip * (maxSock : Int)
      + (m.context nclients _).idInChip.tdiv nclients = _
    rw [hchip, hidx]
    push_cast
    rfl

/-- For at most four sockets and core groups of two to `NCLIENTS + 1` cores, on both
platforms and with both orderings, any sequence of calls that makes no more clients than
there are cores for gives pairwise distinct pairs of chip and id in the chip, and every
client a good context. -/
theorem clientSlots
    (nclients : Nat) (m : Machine) (hs : 1 ≤ m.numSockets ∧ m.numSockets ≤ 4)
    (hcps : 2 ≤ m.coresPerSocket ∧ m.coresPerSocket ≤ nclients + 1) (calls : List Call)
    (hcalls : calls.length ≤ 2 * m.numSockets * (m.coresPerSocket - 1)) :
  (contexts nclients m 0 calls).Pairwise
      (fun c d => (c.myChip, c.idInChip) ≠ (d.myChip, d.idInChip)) ∧
    ∀ c ∈ contexts nclients m 0 calls, c.Good nclients m
  := by
  have hle : 2 * m.numSockets * (m.coresPerSocket - 1) ≤ 8 * (m.coresPerSocket - 1) :=
    Nat.mul_le_mul_right _ (by omega)
  rw [contexts_zero hcps.1 calls (hcalls.trans hle)]
  constructor
  · rw [List.pairwise_map]
    apply List.Nodup.pairwise_of_forall_ne List.nodup_range
    intro i hi j hj hne h
    rw [List.mem_range] at hi hj
    obtain ⟨hchip, hid⟩ := Prod.mk.inj h
    apply hne (context_injective nclients hs.2 hcps.1 (by omega) (by omega) hchip hid)
  · intro c hc
    obtain ⟨j, hj, rfl⟩ := List.mem_map.mp hc
    apply context_good hs.2 hcps.1 hcps.2
    have := List.mem_range.mp hj
    omega

/-- Fifteen clients to a line, as in the Xeon build, and 24 clients on two sockets of eight
cores. -/
theorem clientSlots_xeon :
  (contexts 15 ⟨.xeon, false, 2, 8⟩ 0 (.bindMainThread :: List.replicate 23 .threadCreate)).Pairwise
      (fun c d => (c.myChip, c.idInChip) ≠ (d.myChip, d.idInChip)) ∧
    ∀ c ∈ contexts 15 ⟨.xeon, false, 2, 8⟩ 0
      (.bindMainThread :: List.replicate 23 .threadCreate), c.Good 15 ⟨.xeon, false, 2, 8⟩
  := clientSlots 15 ⟨.xeon, false, 2, 8⟩ (by decide) (by decide) _ (by decide)

end Delegation
