import Ffwd.Micro.SkipList

/-!
# The arrays of the skip list

The operations of the skip list with the arrays they use: `update`, which has a fixed size, and
the array `forward` of every node, which has room for the level of the node. An access outside of
an array, or to a part of `forward` that has not been written, is a fault. `main` derives the bound
of the levels from the range of the keys, and fills the list.
-/

namespace Micro

open Linked

variable {Addr : Type} [DecidableEq Addr]

/-! ### Accesses -/

def skiplistMaxLevel : Nat := 14

inductive BoundsFault where
  | update
  | forward
  | unwritten
  | unfinished
  deriving DecidableEq

/-- The skip list, with the number of elements of every array `forward`, and those of its elements
that have been written. A node that is not allocated has no array. -/
structure SkipMemory (Addr : Type) where
  list : SkipList Addr
  room : Addr → Nat
  written : Addr → Nat → Bool

/-- `a->forward[i]` -/
def SkipMemory.forward (m : SkipMemory Addr) (a : Addr) (i : Nat) : Except BoundsFault Addr :=
  if m.room a ≤ i then .error .forward
  else if m.written a i then .ok (m.list.forward a i)
  else .error .unwritten

/-- `a->forward[i] = b` -/
def SkipMemory.setForward (m : SkipMemory Addr) (a : Addr) (i : Nat) (b : Addr) :
    Except BoundsFault (SkipMemory Addr) :=
  if m.room a ≤ i then .error .forward
  else .ok { m with
    list := { m.list with forward := Micro.setForward m.list.forward a i b }
    written := Function.update m.written a (Function.update (m.written a) i true) }

/-- `update[i]` -/
def getUpdate (update : Nat → Addr) (i : Nat) : Except BoundsFault Addr :=
  if skiplistMaxLevel < i then .error .update else .ok (update i)

/-- `update[i] = x` -/
def putUpdate (update : Nat → Addr) (i : Nat) (x : Addr) : Except BoundsFault (Nat → Addr) :=
  if skiplistMaxLevel < i then .error .update else .ok (Function.update update i x)

/-! ### The operations -/

/-- The loop on one level, for `n` rounds at most. -/
def SkipMemory.walk (m : SkipMemory Addr) (key : Int) (i : Nat) :
    Nat → Addr → Except BoundsFault Addr
  | 0, x => do
      let y ← m.forward x i
      if m.list.key y < key then .error .unfinished else .ok x
  | n + 1, x => do
      let y ← m.forward x i
      if m.list.key y < key then m.walk key i n y else .ok x

/-- The loop through the levels from `i` down to `1`; `put` is the write to `update`. -/
def SkipMemory.descend (m : SkipMemory Addr) (key : Int)
    (put : (Nat → Addr) → Nat → Addr → Except BoundsFault (Nat → Addr)) :
    Nat → Addr → (Nat → Addr) → Except BoundsFault (Addr × (Nat → Addr))
  | 0, x, update => .ok (x, update)
  | i + 1, x, update => do
      let x ← m.walk key (i + 1) m.list.used.card x
      let update ← put update (i + 1) x
      m.descend key put i x update

/-- The loop that puts the header into `update` at `n` places from `i` on. -/
def raiseUpdate (header : Addr) : Nat → Nat → (Nat → Addr) → Except BoundsFault (Nat → Addr)
  | 0, _, update => .ok update
  | n + 1, i, update => do
      let update ← putUpdate update i header
      raiseUpdate header n (i + 1) update

/-- The loop that puts the node `x` behind those of `update`, on the levels up to `i`. -/
def SkipMemory.link (update : Nat → Addr) (x : Addr) :
    Nat → SkipMemory Addr → Except BoundsFault (SkipMemory Addr)
  | 0, m => .ok m
  | i + 1, m => do
      let m ← SkipMemory.link update x i m
      let a ← getUpdate update (i + 1)
      let b ← m.forward a (i + 1)
      let m ← m.setForward x (i + 1) b
      m.setForward a (i + 1) x

/-- The loop that takes the node `x` out from behind those of `update`, on `n` levels from `i`
on. -/
def SkipMemory.unlink (update : Nat → Addr) (x : Addr) :
    Nat → Nat → SkipMemory Addr → Except BoundsFault (SkipMemory Addr)
  | 0, _, m => .ok m
  | n + 1, i, m => do
      let a ← getUpdate update i
      let b ← m.forward a i
      if b ≠ x then .ok m
      else
        let c ← m.forward x i
        let m ← m.setForward a i c
        SkipMemory.unlink update x n (i + 1) m

/-- The loop that lowers the level of the list. -/
def SkipMemory.lower (m : SkipMemory Addr) : Nat → Except BoundsFault Nat
  | 0 => .ok 0
  | 1 => .ok 1
  | i + 2 => do
      let a ← m.forward m.list.header (i + 2)
      if a = m.list.header then m.lower (i + 1) else .ok (i + 2)

/-- `skiplist_init`, in memory that has been used for something else. -/
def SkipMemory.init (m : SkipMemory Addr) (levelmax : Nat) (header : Addr) : SkipMemory Addr where
  list := skiplistInit m.list levelmax header
  room := Function.update m.room header (levelmax + 1)
  written := Function.update m.written header (fun i => decide (i ≤ levelmax))

/-- A new node, with room for its levels. -/
def SkipMemory.alloc (m : SkipMemory Addr) (new : Addr) (level : Nat) (key value : Int) :
    SkipMemory Addr where
  list := { m.list with
    level := if level > m.list.level then level else m.list.level
    key := Function.update m.list.key new key
    value := Function.update m.list.value new value
    used := insert new m.list.used }
  room := Function.update m.room new (level + 1)
  written := Function.update m.written new (fun _ => false)

def SkipMemory.insert (m : SkipMemory Addr) (levelmax : Nat) (update : Nat → Addr)
    (coins : List Bool) (new : Addr) (key value : Int) :
    Except BoundsFault (SkipMemory Addr × Int) := do
  let (x, update) ← m.descend key putUpdate m.list.level m.list.header update
  let x ← m.forward x 1
  if key = m.list.key x then
    return ({ m with list := { m.list with value := Function.update m.list.value x value } }, 0)
  else
    let level := randLevel levelmax 1 coins
    let update ← raiseUpdate m.list.header (level - m.list.level) (m.list.level + 1) update
    let m ← SkipMemory.link update new level (m.alloc new level key value)
    return (m, 0)

/-- A search keeps no nodes in `update`. -/
def SkipMemory.search (m : SkipMemory Addr) (key : Int) : Except BoundsFault (Option Addr) := do
  let (x, _) ← m.descend key (fun update i x => .ok (Function.update update i x)) m.list.level
    m.list.header (fun _ => m.list.header)
  let x ← m.forward x 1
  if m.list.key x = key then return some x else return none

def SkipMemory.delete (m : SkipMemory Addr) (update : Nat → Addr) (key : Int) :
    Except BoundsFault (SkipMemory Addr × Int) := do
  let (x, update) ← m.descend key putUpdate m.list.level m.list.header update
  let x ← m.forward x 1
  if m.list.key x = key then
    let m ← SkipMemory.unlink update x m.list.level 1 m
    let m := { m with
      list := { m.list with used := m.list.used.erase x }
      room := Function.update m.room x 0 }
    let level ← m.lower m.list.level
    return ({ m with list := { m.list with level := level } }, 0)
  else
    return (m, 1)

def SkipMemory.exec (levelmax : Nat) (m : SkipMemory Addr) :
    SkipListOp Addr → Except BoundsFault (SkipMemory Addr)
  | .insert key value update coins new => do
      let (m, _) ← m.insert levelmax update coins new key value
      return m
  | .search key => do
      let _ ← m.search key
      return m
  | .delete key update => do
      let (m, _) ← m.delete update key
      return m

/-- A new node is at an address that is free. -/
def SkipMemory.Fresh (m : SkipMemory Addr) : SkipListOp Addr → Prop
  | .insert _ _ _ _ new => new ∉ m.list.used
  | .search _ => True
  | .delete _ _ => True

/-! ### The program -/

/-- The bits of `n` below the highest that is set. -/
def floorLog2 (n : Nat) : Int :=
  let (n, pos) := if n ≥ 2 ^ 16 then (n / 2 ^ 16, 16) else (n, 0)
  let (n, pos) := if n ≥ 2 ^ 8 then (n / 2 ^ 8, pos + 8) else (n, pos)
  let (n, pos) := if n ≥ 2 ^ 4 then (n / 2 ^ 4, pos + 4) else (n, pos)
  let (n, pos) := if n ≥ 2 ^ 2 then (n / 2 ^ 2, pos + 2) else (n, pos)
  let pos := if n ≥ 2 ^ 1 then pos + 1 else pos
  if n = 0 then -1 else pos

/-- The bound of the levels, from the arguments of `main`. -/
def levelmaxOf (range listSize : Nat) : Int :=
  if listSize = 1 then 1 else floorLog2 (range % 2 ^ 32)

/-- The keys `main` fills the list with, from `i` on. -/
def population (range step : Nat) : Nat → Nat → List Int
  | 0, _ => []
  | fuel + 1, i => if i < range then (i : Int) :: population range step fuel (i + step) else []

/-- The key and the value an operation inserts. -/
def SkipListOp.entry : SkipListOp Addr → Option (Int × Int)
  | .insert key value .. => some (key, value)
  | .search _ => none
  | .delete .. => none

/-- A run inserts the keys `main` fills the list with, and then goes on with operations on keys
of the range. -/
def IsRun (range listSize : Nat) (ops : List (SkipListOp Addr)) : Prop :=
  ∃ inits rest, ops = inits ++ rest ∧
    inits.map SkipListOp.entry =
      (population range (range / listSize) range 0).map (fun i => some (i, i)) ∧
    ∀ op ∈ rest, 0 ≤ op.key ∧ op.key < range

/-- The level of the list and of each of its nodes is between `1` and the bounds. -/
def SkipMemory.Leveled (levelmax : Nat) (m : SkipMemory Addr) : Prop :=
  (1 ≤ m.list.level ∧ m.list.level ≤ min levelmax skiplistMaxLevel) ∧
    ∃ l, Path (m.list.forward · 1) m.list.header l m.list.header ∧
      ∀ a ∈ l, 1 + 1 ≤ m.room a ∧ m.room a ≤ min levelmax skiplistMaxLevel + 1

/-- Along a sequence of operations there is no fault, and the levels are between their bounds. -/
def SkipMemory.InBounds (levelmax : Nat) : SkipMemory Addr → List (SkipListOp Addr) → Prop
  | m, [] => m.Leveled levelmax
  | m, op :: ops =>
      m.Leveled levelmax ∧
        (m.Fresh op → ∃ m', m.exec levelmax op = .ok m' ∧ SkipMemory.InBounds levelmax m' ops)

/-! ### What the arrays have -/

/-- Each node of the list has room for its levels, and they are written; the header has room for
all of them. -/
structure SkipMemory.Roomy (m : SkipMemory Addr) (levelmax : Nat) (l : List Addr)
    (height : Addr → Nat) : Prop where
  levels : m.list.Levels levelmax l height
  header : m.room m.list.header = levelmax + 1
  headerWritten : ∀ i, i ≤ levelmax → m.written m.list.header i = true
  nodes : ∀ a ∈ l, m.room a = height a + 1
  nodesWritten : ∀ a ∈ l, ∀ i, 1 ≤ i → i ≤ height a → m.written a i = true

/-- The element can be read. -/
def SkipMemory.Readable (m : SkipMemory Addr) (a : Addr) (i : Nat) : Prop :=
  i < m.room a ∧ m.written a i = true

omit [DecidableEq Addr] in
theorem SkipMemory.Readable.forward_eq {m : SkipMemory Addr} {a : Addr} {i : Nat}
    (h : m.Readable a i) :
  m.forward a i = .ok (m.list.forward a i)
  := by
  rw [SkipMemory.forward, if_neg (not_le.mpr h.1), if_pos h.2]

omit [DecidableEq Addr] in
theorem putUpdate_eq {update : Nat → Addr} {i : Nat} {x : Addr} (hi : i ≤ skiplistMaxLevel) :
  putUpdate update i x = .ok (Function.update update i x)
  := by
  rw [putUpdate, if_neg (not_lt.mpr hi)]

omit [DecidableEq Addr] in
theorem getUpdate_eq {update : Nat → Addr} {i : Nat} (hi : i ≤ skiplistMaxLevel) :
  getUpdate update i = .ok (update i)
  := by
  rw [getUpdate, if_neg (not_lt.mpr hi)]

section Roomy

variable {m : SkipMemory Addr} {levelmax : Nat} {l l₁ l₂ : List Addr} {height : Addr → Nat}
  {key : Int}

omit [DecidableEq Addr] in
theorem SkipMemory.Roomy.readable {i : Nat} {x : Addr} (h : m.Roomy levelmax l height)
    (hi : 1 ≤ i) (hlevel : i ≤ levelmax) (hx : x ∈ m.list.header :: l.filter (i ≤ height ·)) :
  m.Readable x i
  := by
  rcases List.mem_cons.mp hx with rfl | hx
  · refine ⟨?_, h.headerWritten i hlevel⟩
    rw [h.header]
    omega
  · rw [List.mem_filter, decide_eq_true_iff] at hx
    refine ⟨?_, h.nodesWritten x hx.1 i hi hx.2⟩
    rw [h.nodes x hx.1]
    omega

omit [DecidableEq Addr] in
/-- The walk on a ring reads what it passes. -/
theorem SkipMemory.Roomy.walk_eq {i n : Nat} {x y : Addr} (h : m.Roomy levelmax l height)
    (hi : 1 ≤ i) (hlevel : i ≤ levelmax) (hx : x ∈ m.list.header :: l.filter (i ≤ height ·))
    (hwalk : Linked.walk (m.list.forward · i) (fun a => m.list.key a < key) n x = some y) :
  m.walk key i n x = .ok y ∧ y ∈ m.list.header :: l.filter (i ≤ height ·)
  := by
  have hnext : ∀ a ∈ m.list.header :: l.filter (i ≤ height ·),
      m.list.forward a i ∈ m.list.header :: l.filter (i ≤ height ·) := by
    intro a ha
    have hmem := (h.levels.rings i hi hlevel).next_mem ha
    simp only [List.mem_append, List.mem_cons, List.not_mem_nil, or_false] at hmem ⊢
    exact hmem.symm
  induction n generalizing x with
  | zero =>
      unfold Linked.walk at hwalk
      rw [SkipMemory.walk, (h.readable hi hlevel hx).forward_eq]
      by_cases hlt : m.list.key (m.list.forward x i) < key
      · rw [decide_eq_true hlt] at hwalk
        cases hwalk
      · rw [decide_eq_false hlt] at hwalk
        obtain rfl := Option.some.inj hwalk
        exact ⟨if_neg hlt, hx⟩
  | succ n ih =>
      unfold Linked.walk at hwalk
      rw [SkipMemory.walk, (h.readable hi hlevel hx).forward_eq]
      by_cases hlt : m.list.key (m.list.forward x i) < key
      · rw [decide_eq_true hlt] at hwalk
        obtain ⟨heq, hy⟩ := ih (hnext x hx) hwalk
        exact ⟨(if_pos hlt).trans heq, hy⟩
      · rw [decide_eq_false hlt] at hwalk
        obtain rfl := Option.some.inj hwalk
        exact ⟨if_neg hlt, hx⟩

omit [DecidableEq Addr] in
/-- The loop through the levels reads what it passes, if it can write to `update`. -/
theorem SkipMemory.Roomy.descend_eq
    {i : Nat} {x y : Addr} {update update' : Nat → Addr}
    {put : (Nat → Addr) → Nat → Addr → Except BoundsFault (Nat → Addr)}
    (h : m.Roomy levelmax l height) (hlevel : i ≤ levelmax)
    (hput : ∀ update j x, j ≤ i → put update j x = .ok (Function.update update j x))
    (hx : x ∈ m.list.header :: l.filter (i ≤ height ·))
    (hdescend : Micro.descend m.list key i x update = some (y, update')) :
  m.descend key put i x update = .ok (y, update')
  := by
  induction i generalizing x update with
  | zero =>
      obtain ⟨rfl, rfl⟩ := Prod.mk.inj (Option.some.inj hdescend)
      rfl
  | succ i ih =>
      rw [Micro.descend] at hdescend
      cases hwalk : Linked.walk (m.list.forward · (i + 1)) (fun a => m.list.key a < key)
          m.list.used.card x with
      | none =>
          rw [hwalk] at hdescend
          cases hdescend
      | some z =>
          rw [hwalk] at hdescend
          obtain ⟨heq, hz⟩ := h.walk_eq (Nat.succ_pos i) hlevel hx hwalk
          rw [SkipMemory.descend, heq]
          show (do
            let update ← put update (i + 1) z
            m.descend key put i z update) = _
          rw [hput update (i + 1) z (Nat.le_refl _)]
          apply ih (by omega) (fun update j x hj => hput update j x (by omega)) _ hdescend
          rcases List.mem_cons.mp hz with rfl | hz
          · exact List.mem_cons_self
          · rw [List.mem_filter, decide_eq_true_iff] at hz
            apply List.mem_cons_of_mem
            rw [List.mem_filter, decide_eq_true_iff]
            exact ⟨hz.1, by omega⟩

omit [DecidableEq Addr] in
theorem SkipMemory.Roomy.leveled (h : m.Roomy levelmax l height)
    (hmax : levelmax ≤ skiplistMaxLevel) :
  m.Leveled levelmax
  := by
  have hmin : min levelmax skiplistMaxLevel = levelmax := min_eq_left hmax
  have hlevel := h.levels.level
  rw [SkipMemory.Leveled, hmin]
  refine ⟨hlevel, l, ?_, ?_⟩
  · have hring := h.levels.rings 1 (Nat.le_refl 1) (Nat.le_trans hlevel.1 hlevel.2)
    rw [List.filter_eq_self.mpr] at hring
    · exact hring
    · intro a ha
      exact decide_eq_true (h.levels.heights a ha).1
  · intro a ha
    have hheight := h.levels.heights a ha
    rw [h.nodes a ha]
    omega

end Roomy

/-! ### The loops that write -/

section Loops

variable {m : SkipMemory Addr} {update : Nat → Addr} {x header : Addr} {n i : Nat}

omit [DecidableEq Addr] in
theorem raiseUpdate_eq (hn : i + n ≤ skiplistMaxLevel + 1) :
  raiseUpdate header n i update =
    .ok (fun j => if i ≤ j ∧ j < i + n then header else update j)
  := by
  induction n generalizing i update with
  | zero =>
      rw [raiseUpdate]
      congr 1
      funext j
      rw [if_neg (by omega)]
  | succ n ih =>
      rw [raiseUpdate, putUpdate_eq (by omega)]
      show raiseUpdate header n (i + 1) _ = _
      rw [ih (by omega)]
      congr 1
      funext j
      by_cases hj : j = i
      · subst hj
        rw [if_neg (by omega), Function.update_self, if_pos (by omega)]
      · rw [Function.update_of_ne hj]
        by_cases hrange : i + 1 ≤ j ∧ j < i + 1 + n
        · rw [if_pos hrange, if_pos (by omega)]
        · rw [if_neg hrange, if_neg (by omega)]

omit [DecidableEq Addr] in
theorem raiseUpdate_fault (hi : i ≤ skiplistMaxLevel + 1) (hn : skiplistMaxLevel + 1 < i + n) :
  raiseUpdate header n i update = .error .update
  := by
  induction n generalizing i update with
  | zero => omega
  | succ n ih =>
      rw [raiseUpdate]
      by_cases hle : i ≤ skiplistMaxLevel
      · rw [putUpdate_eq hle]
        exact ih (by omega) (by omega)
      · rw [putUpdate, if_pos (by omega)]
        rfl

/-- Other links, and more that has been written. -/
structure SkipMemory.Relinks (m m' : SkipMemory Addr) (forward : Addr → Nat → Addr) : Prop where
  list : m'.list = { m.list with forward := forward }
  room : m'.room = m.room
  written : ∀ a i, m.written a i = true → m'.written a i = true

theorem SkipMemory.setForward_relinks {a b : Addr} (hi : i < m.room a) :
  ∃ m', m.setForward a i b = .ok m' ∧ m.Relinks m' (Micro.setForward m.list.forward a i b) ∧
    m'.written a i = true
  := by
  refine ⟨_, if_neg (not_le.mpr hi), ⟨rfl, rfl, ?_⟩, ?_⟩
  · intro c j hwritten
    show Function.update m.written a _ c j = true
    by_cases hc : c = a
    · subst hc
      rw [Function.update_self]
      by_cases hj : j = i
      · subst hj
        exact Function.update_self _ _ _
      · rw [Function.update_of_ne hj]
        exact hwritten
    · rw [Function.update_of_ne hc]
      exact hwritten
  · show Function.update m.written a _ a i = true
    rw [Function.update_self, Function.update_self]

omit [DecidableEq Addr] in
theorem SkipMemory.Relinks.readable {m' : SkipMemory Addr} {forward : Addr → Nat → Addr} {a : Addr}
    (h : m.Relinks m' forward) (ha : m.Readable a i) :
  m'.Readable a i
  := by
  refine ⟨?_, h.written a i ha.2⟩
  rw [h.room]
  exact ha.1

omit [DecidableEq Addr] in
theorem SkipMemory.Relinks.trans {m₁ m₂ : SkipMemory Addr} {forward₁ forward₂ : Addr → Nat → Addr}
    (h₁ : m.Relinks m₁ forward₁) (h₂ : m₁.Relinks m₂ forward₂) :
  m.Relinks m₂ forward₂
  := by
  refine ⟨?_, h₂.room.trans h₁.room, fun a i ha => h₂.written a i (h₁.written a i ha)⟩
  rw [h₂.list, h₁.list]

theorem SkipMemory.link_relinks (hn : n ≤ skiplistMaxLevel) (hx : n < m.room x)
    (hupdate : ∀ j, 1 ≤ j → j ≤ n → m.Readable (update j) j) :
  ∃ m', SkipMemory.link update x n m = .ok m' ∧
    m.Relinks m' (linkNode update x n m.list.forward) ∧
    ∀ j, 1 ≤ j → j ≤ n → m'.written x j = true
  := by
  induction n with
  | zero => exact ⟨m, rfl, ⟨rfl, rfl, fun _ _ h => h⟩, by omega⟩
  | succ n ih =>
      obtain ⟨m₁, hlink, hrelinks, hwritten⟩ :=
        ih (by omega) (by omega) (fun j hj hjn => hupdate j hj (by omega))
      have hread := hrelinks.readable (hupdate (n + 1) (Nat.succ_pos n) (Nat.le_refl _))
      obtain ⟨m₂, hset₂, hrelinks₂, hwritten₂⟩ :=
        SkipMemory.setForward_relinks (m := m₁) (a := x) (i := n + 1)
          (b := m₁.list.forward (update (n + 1)) (n + 1)) (by rw [hrelinks.room]; exact hx)
      obtain ⟨m₃, hset₃, hrelinks₃, hwritten₃⟩ :=
        SkipMemory.setForward_relinks (m := m₂) (a := update (n + 1)) (i := n + 1) (b := x)
          (hrelinks₂.readable hread).1
      refine ⟨m₃, ?_, ?_, ?_⟩
      · rw [SkipMemory.link, hlink, getUpdate_eq hn]
        simp only [bind, Except.bind, hread.forward_eq, hset₂, hset₃]
      · have htrans := hrelinks.trans (hrelinks₂.trans hrelinks₃)
        rw [hrelinks₂.list, hrelinks.list] at htrans
        exact htrans
      · intro j hj hjn
        apply hrelinks₃.written
        by_cases hlast : j = n + 1
        · rw [hlast]
          exact hwritten₂
        · exact hrelinks₂.written x j (hwritten j hj (by omega))

theorem SkipMemory.unlink_relinks (hn : i + n ≤ skiplistMaxLevel + 1)
    (hupdate : ∀ j, i ≤ j → j < i + n → m.Readable (update j) j)
    (hx : ∀ j, i ≤ j → j < i + n → m.list.forward (update j) j = x → m.Readable x j) :
  ∃ m', SkipMemory.unlink update x n i m = .ok m' ∧
    m.Relinks m' (unlinkNode update x n i m.list.forward)
  := by
  induction n generalizing i m with
  | zero => exact ⟨m, rfl, rfl, rfl, fun _ _ h => h⟩
  | succ n ih =>
      have hread := hupdate i (Nat.le_refl i) (by omega)
      rw [SkipMemory.unlink, getUpdate_eq (by omega), unlinkNode]
      simp only [bind, Except.bind, hread.forward_eq]
      by_cases hlinked : m.list.forward (update i) i = x
      · have hreadx := hx i (Nat.le_refl i) (by omega) hlinked
        obtain ⟨m₁, hset, hrelinks, -⟩ :=
          SkipMemory.setForward_relinks (b := m.list.forward x i) hread.1
        have hforward : ∀ a j, i + 1 ≤ j → m₁.list.forward a j = m.list.forward a j := by
          intro a j hj
          rw [hrelinks.list]
          have hat := congrFun (setForward_at m.list.forward (update i) (m.list.forward x i) i j) a
          rw [if_neg (by omega)] at hat
          exact hat
        obtain ⟨m₂, hunlink, hrelinks₂⟩ := ih (m := m₁) (i := i + 1) (by omega)
          (fun j hj hjn => hrelinks.readable (hupdate j (by omega) (by omega)))
          (by
            intro j hj hjn heq
            rw [hforward _ j hj] at heq
            exact hrelinks.readable (hx j (by omega) (by omega) heq))
        refine ⟨m₂, ?_, ?_⟩
        · rw [if_neg (not_not.mpr hlinked)]
          simp only [hreadx.forward_eq, hset]
          exact hunlink
        · rw [if_neg (not_not.mpr hlinked)]
          have htrans := hrelinks.trans hrelinks₂
          rw [hrelinks.list] at htrans
          exact htrans
      · refine ⟨m, if_pos hlinked, ?_⟩
        rw [if_pos hlinked]
        exact ⟨rfl, rfl, fun _ _ h => h⟩

theorem SkipMemory.lower_eq (h : ∀ j, 1 ≤ j → j ≤ n → m.Readable m.list.header j) :
  m.lower n = .ok (lowerLevel m.list.forward m.list.header n)
  := by
  induction n with
  | zero => rfl
  | succ n ih =>
      cases n with
      | zero => rfl
      | succ n =>
          rw [SkipMemory.lower, (h (n + 2) (by omega) (Nat.le_refl _)).forward_eq, lowerLevel]
          simp only [bind, Except.bind]
          by_cases hempty : m.list.forward m.list.header (n + 2) = m.list.header
          · rw [if_pos hempty, if_pos hempty]
            exact ih (fun j hj hjn => h j hj (by omega))
          · rw [if_neg hempty, if_neg hempty]

end Loops

/-! ### The operations -/

section Operations

variable {m : SkipMemory Addr} {levelmax : Nat} {l l₁ l₂ : List Addr} {height : Addr → Nat}
  {key : Int}

/-- What an operation finds where it arrives. -/
theorem SkipMemory.Roomy.located
    (h : m.Roomy levelmax l height)
    (put : (Nat → Addr) → Nat → Addr → Except BoundsFault (Nat → Addr)) (hkey : key < intMax)
    (hput : ∀ update j x, j ≤ levelmax → put update j x = .ok (Function.update update j x))
    (update : Nat → Addr) :
  ∃ l₁ l₂ x update', l = l₁ ++ l₂ ∧ (∀ a ∈ l₁, m.list.key a < key) ∧
    (∀ a ∈ l₂, key ≤ m.list.key a) ∧
    m.descend key put m.list.level m.list.header update = .ok (x, update') ∧
    m.forward x 1 = .ok (l₂.head?.getD m.list.header) ∧
    (∀ i, 1 ≤ i → i ≤ m.list.level → update' i = m.list.pred l₁ height i)
  := by
  obtain ⟨l₁, l₂, x, update', rfl, hl₁, hl₂, hdescend, hx, hforward, hupdate⟩ :=
    h.levels.located hkey update
  have hlevel := h.levels.level
  refine ⟨l₁, l₂, x, update', rfl, hl₁, hl₂, ?_, ?_, hupdate⟩
  · apply h.descend_eq hlevel.2 (fun update j x hj => hput update j x (by omega))
      List.mem_cons_self hdescend
  · have hmem : x ∈ m.list.header :: (l₁ ++ l₂).filter (1 ≤ height ·) := by
      rw [hx, ← h.levels.pred_one]
      apply (List.Sublist.cons_cons m.list.header _).subset (m.list.pred_mem l₁ height 1)
      exact (List.sublist_append_left l₁ l₂).filter _
    rw [(h.readable (Nat.le_refl 1) (Nat.le_trans hlevel.1 hlevel.2) hmem).forward_eq, hforward]

omit [DecidableEq Addr] in
/-- The last node before the key can be read on its level. -/
theorem SkipMemory.Roomy.readable_pred {i : Nat} (h : m.Roomy levelmax (l₁ ++ l₂) height)
    (hi : 1 ≤ i) (hlevel : i ≤ levelmax) :
  m.Readable (m.list.pred l₁ height i) i
  := by
  apply h.readable hi hlevel
  apply (List.Sublist.cons_cons m.list.header _).subset (m.list.pred_mem l₁ height i)
  exact (List.sublist_append_left l₁ l₂).filter _

theorem SkipMemory.Roomy.insert {new : Addr} (h : m.Roomy levelmax l height)
    (hmax : levelmax ≤ skiplistMaxLevel) (hkey : key < intMax) (hnew : new ∉ m.list.used)
    (update : Nat → Addr) (coins : List Bool) (value : Int) :
  ∃ m' l' height', m.insert levelmax update coins new key value = .ok (m', 0) ∧
    m'.Roomy levelmax l' height'
  := by
  obtain ⟨l₁, l₂, x, update', rfl, hl₁, hl₂, hdescend, hforward, hupdate⟩ :=
    h.located putUpdate hkey (fun _ _ _ hj => putUpdate_eq (Nat.le_trans hj hmax)) update
  rw [SkipMemory.insert, hdescend]
  simp only [bind, Except.bind, hforward]
  rcases h.levels.cases_key hkey hl₂ with ⟨a, l₂', rfl, ha⟩ | ⟨hne, hlt⟩
  · rw [if_pos (by simp [ha])]
    refine ⟨_, l₁ ++ a :: l₂', height, rfl, ?_, h.header, h.headerWritten, h.nodes,
      h.nodesWritten⟩
    exact ⟨h.levels.rings, h.levels.increasing, h.levels.below, h.levels.header,
      h.levels.heights, h.levels.level, h.levels.top, h.levels.used⟩
  · rw [if_neg hne.symm]
    have hlevel := h.levels.level
    have hrand := randLevel_bounds (Nat.le_trans hlevel.1 hlevel.2) coins
    generalize randLevel levelmax 1 coins = level at hrand
    have hold : ∀ b ∈ m.list.header :: (l₁ ++ l₂), b ≠ new := by
      rintro b hb rfl
      exact hnew (h.levels.used b hb)
    have hpred : ∀ j, m.list.pred l₁ height j ∈ m.list.header :: (l₁ ++ l₂) := by
      intro j
      apply (List.Sublist.cons_cons m.list.header _).subset (m.list.pred_mem l₁ height j)
      exact List.filter_sublist.trans (List.sublist_append_left l₁ l₂)
    rw [raiseUpdate_eq (by omega)]
    simp only
    generalize hraised : (fun j => if m.list.level + 1 ≤ j ∧
      j < m.list.level + 1 + (level - m.list.level) then m.list.header else update' j) = raised
    have hraised_eq : ∀ j, 1 ≤ j → j ≤ level → raised j = m.list.pred l₁ height j := by
      intro j hj hjl
      rw [← hraised]
      beta_reduce
      by_cases hraise : m.list.level < j
      · rw [if_pos (by omega), h.levels.pred_eq_header hraise]
      · rw [if_neg (by omega), hupdate j hj (by omega)]
    obtain ⟨m', hlink, hrelinks, hwritten⟩ :=
      SkipMemory.link_relinks (by omega)
        (show level < (m.alloc new level key value).room new by simp [SkipMemory.alloc])
        (show ∀ j, 1 ≤ j → j ≤ level → (m.alloc new level key value).Readable (raised j) j by
          intro j hj hjl
          have hread := h.readable_pred hj (show j ≤ levelmax by omega)
          rw [hraised_eq j hj hjl]
          have hne := hold _ (hpred j)
          simpa [SkipMemory.Readable, SkipMemory.alloc, hne] using hread)
    rw [hlink]
    refine ⟨m', l₁ ++ new :: l₂, Function.update height new level, rfl, ?_⟩
    have hheader : m'.list.header = m.list.header := by
      rw [hrelinks.list]
      rfl
    have hroom : ∀ b, b ≠ new → m'.room b = m.room b := by
      intro b hb
      rw [hrelinks.room]
      exact Function.update_of_ne hb _ _
    have hkept : ∀ b i, b ≠ new → m.written b i = true → m'.written b i = true := by
      intro b i hb hi
      apply hrelinks.written
      show Function.update m.written new _ b i = true
      rw [Function.update_of_ne hb]
      exact hi
    have hmem : ∀ b, b ∈ l₁ ++ new :: l₂ → b = new ∨ b ∈ l₁ ++ l₂ := by
      intro b hb
      simp only [List.mem_append, List.mem_cons] at hb ⊢
      tauto
    refine ⟨?_, ?_, ?_, ?_, ?_⟩
    · rw [hrelinks.list]
      exact h.levels.link raised hkey hl₁ hlt hnew hrand hraised_eq _
    · rw [hheader, hroom _ (hold _ List.mem_cons_self)]
      exact h.header
    · intro i hi
      rw [hheader]
      exact hkept _ _ (hold _ List.mem_cons_self) (h.headerWritten i hi)
    · intro b hb
      rcases hmem b hb with rfl | hb
      · rw [hrelinks.room, Function.update_self]
        exact Function.update_self _ _ _
      · have hne := hold b (List.mem_cons_of_mem _ hb)
        rw [Function.update_of_ne hne, hroom b hne]
        exact h.nodes b hb
    · intro b hb i hi hib
      rcases hmem b hb with rfl | hb
      · rw [Function.update_self] at hib
        exact hwritten i hi hib
      · have hne := hold b (List.mem_cons_of_mem _ hb)
        rw [Function.update_of_ne hne] at hib
        exact hkept b i hne (h.nodesWritten b hb i hi hib)

theorem SkipMemory.Roomy.search (h : m.Roomy levelmax l height) (hkey : key < intMax) :
  ∃ x, m.search key = .ok x
  := by
  obtain ⟨l₁, l₂, x, update', rfl, hl₁, hl₂, hdescend, hforward, hupdate⟩ :=
    h.located (fun update i x => .ok (Function.update update i x)) hkey
      (fun _ _ _ _ => rfl) (fun _ => m.list.header)
  rw [SkipMemory.search, hdescend]
  simp only [bind, Except.bind, hforward]
  by_cases hfound : m.list.key (l₂.head?.getD m.list.header) = key
  · rw [if_pos hfound]
    exact ⟨_, rfl⟩
  · rw [if_neg hfound]
    exact ⟨_, rfl⟩

theorem SkipMemory.Roomy.delete (h : m.Roomy levelmax l height)
    (hmax : levelmax ≤ skiplistMaxLevel) (hkey : key < intMax) (update : Nat → Addr) :
  ∃ m' l' result, m.delete update key = .ok (m', result) ∧ m'.Roomy levelmax l' height
  := by
  obtain ⟨l₁, l₂, x, update', rfl, hl₁, hl₂, hdescend, hforward, hupdate⟩ :=
    h.located putUpdate hkey (fun _ _ _ hj => putUpdate_eq (Nat.le_trans hj hmax)) update
  rw [SkipMemory.delete, hdescend]
  simp only [bind, Except.bind, hforward]
  have hlevel := h.levels.level
  rcases h.levels.cases_key hkey hl₂ with ⟨a, l₂', rfl, ha⟩ | ⟨hne, -⟩
  · rw [if_pos (by simpa using ha)]
    simp only [List.head?_cons, Option.getD_some]
    have hnotMem := h.levels.notMem_rest
    obtain ⟨m₁, hunlink, hrelinks⟩ :=
      SkipMemory.unlink_relinks (m := m) (x := a) (n := m.list.level) (i := 1) (by omega)
        (show ∀ j, 1 ≤ j → j < 1 + m.list.level → m.Readable (update' j) j by
          intro j hj hjl
          rw [hupdate j hj (by omega)]
          exact h.readable_pred hj (by omega))
        (by
          intro j hj hjl heq
          apply h.readable hj (by omega)
          rw [hupdate j hj (by omega), h.levels.forward_pred hj (by omega)] at heq
          cases hfilter : (a :: l₂').filter (j ≤ height ·) with
          | nil =>
              rw [hfilter, List.head?_nil, Option.getD_none] at heq
              rw [heq]
              exact List.mem_cons_self
          | cons b r =>
              rw [hfilter, List.head?_cons, Option.getD_some] at heq
              subst heq
              apply List.mem_cons_of_mem
              rw [List.filter_append, hfilter]
              simp)
    rw [hunlink]
    have hheader : m₁.list.header = m.list.header := by
      rw [hrelinks.list]
    have hne : m.list.header ≠ a := fun heq => hnotMem (heq ▸ List.mem_cons_self)
    have hsub : ∀ b ∈ l₁ ++ l₂', b ∈ l₁ ++ a :: l₂' ∧ b ≠ a := by
      intro b hb
      constructor
      · simp only [List.mem_append, List.mem_cons] at hb ⊢
        tauto
      · rintro rfl
        exact hnotMem (List.mem_cons_of_mem _ hb)
    have hroom : ∀ b, b ≠ a → Function.update m₁.room a 0 b = m.room b := by
      intro b hb
      rw [Function.update_of_ne hb, hrelinks.room]
    have hlist_level : m₁.list.level = m.list.level := by
      rw [hrelinks.list]
    have hlower := SkipMemory.lower_eq (n := m₁.list.level) (m := { m₁ with
      list := { m₁.list with used := m₁.list.used.erase a }
      room := Function.update m₁.room a 0 }) (by
        intro j hj hjl
        show j < Function.update m₁.room a 0 m₁.list.header ∧ m₁.written m₁.list.header j = true
        rw [hheader, hroom _ hne, h.header]
        exact ⟨by omega, hrelinks.written _ _ (h.headerWritten j (by omega))⟩)
    simp only [hlower]
    refine ⟨_, l₁ ++ l₂', 0, rfl, ?_, ?_, ?_, ?_, ?_⟩
    · simp only [hrelinks.list]
      exact h.levels.unlink hupdate
    · show Function.update m₁.room a 0 m₁.list.header = _
      rw [hheader, hroom _ hne]
      exact h.header
    · intro i hi
      show m₁.written m₁.list.header i = true
      rw [hheader]
      exact hrelinks.written _ _ (h.headerWritten i hi)
    · intro b hb
      obtain ⟨hb, hba⟩ := hsub b hb
      exact (hroom b hba).trans (h.nodes b hb)
    · intro b hb i hi hib
      exact hrelinks.written _ _ (h.nodesWritten b (hsub b hb).1 i hi hib)
  · rw [if_neg hne]
    exact ⟨m, _, 1, rfl, h⟩

end Operations

/-! ### Runs -/

section Runs

variable {m : SkipMemory Addr} {levelmax : Nat} {l : List Addr} {height : Addr → Nat}

theorem SkipMemory.Roomy.exec {op : SkipListOp Addr} (h : m.Roomy levelmax l height)
    (hmax : levelmax ≤ skiplistMaxLevel) (hkey : op.key < intMax) (hfresh : m.Fresh op) :
  ∃ m' l' height', m.exec levelmax op = .ok m' ∧ m'.Roomy levelmax l' height'
  := by
  cases op with
  | insert key value update coins new =>
      obtain ⟨m', l', height', hinsert, hm'⟩ :=
        h.insert hmax (show key < intMax from hkey) hfresh update coins value
      refine ⟨m', l', height', ?_, hm'⟩
      rw [SkipMemory.exec, hinsert]
      rfl
  | search key =>
      obtain ⟨x, hsearch⟩ := h.search (show key < intMax from hkey)
      refine ⟨m, l, height, ?_, h⟩
      rw [SkipMemory.exec, hsearch]
      rfl
  | delete key update =>
      obtain ⟨m', l', result, hdelete, hm'⟩ := h.delete hmax (show key < intMax from hkey) update
      refine ⟨m', l', height, ?_, hm'⟩
      rw [SkipMemory.exec, hdelete]
      rfl

theorem SkipMemory.Roomy.inBounds (h : m.Roomy levelmax l height)
    (hmax : levelmax ≤ skiplistMaxLevel) (ops : List (SkipListOp Addr))
    (hops : ∀ op ∈ ops, op.key < intMax) :
  m.InBounds levelmax ops
  := by
  induction ops generalizing m l height with
  | nil => exact h.leveled hmax
  | cons op ops ih =>
      obtain ⟨hkey, hops⟩ := List.forall_mem_cons.mp hops
      refine ⟨h.leveled hmax, fun hfresh => ?_⟩
      obtain ⟨m', l', height', hexec, hm'⟩ := h.exec hmax hkey hfresh
      exact ⟨m', hexec, ih hm' hops⟩

theorem SkipMemory.roomy_init (m : SkipMemory Addr) (header : Addr) (hlevelmax : 1 ≤ levelmax) :
  (m.init levelmax header).Roomy levelmax [] (fun _ => 0)
  := by
  refine ⟨(holds_init m.list header hlevelmax).levels, Function.update_self _ _ _, ?_, nofun,
    nofun⟩
  intro i hi
  show Function.update m.written header _ header i = true
  rw [Function.update_self]
  exact decide_eq_true hi

end Runs

/-! ### The bound of the levels -/

theorem floorLog2_bounds {n : Nat} (hpos : 2 ≤ n) (hn : n < 2 ^ 32) :
  1 ≤ floorLog2 n ∧ (floorLog2 n ≤ 14 ↔ n < 2 ^ 15)
  := by
  unfold floorLog2
  by_cases h16 : n ≥ 2 ^ 16
  · simp only [if_pos h16]
    by_cases h8 : n / 2 ^ 16 ≥ 2 ^ 8
    · simp only [if_pos h8]
      split_ifs <;> omega
    · simp only [if_neg h8]
      split_ifs <;> omega
  · simp only [if_neg h16]
    by_cases h8 : n ≥ 2 ^ 8
    · simp only [if_pos h8]
      split_ifs <;> omega
    · simp only [if_neg h8]
      split_ifs <;> omega

section Main

variable {range listSize : Nat}

theorem levelmaxOf_bounds (hsize : 1 ≤ listSize) (hle : listSize ≤ range) (hrange : range < 2 ^ 31) :
  1 ≤ levelmaxOf range listSize ∧
    (levelmaxOf range listSize ≤ 14 ↔ listSize = 1 ∨ range < 2 ^ 15)
  := by
  rw [levelmaxOf, Nat.mod_eq_of_lt (by omega)]
  by_cases hone : listSize = 1
  · rw [if_pos hone]
    simp [hone]
  · rw [if_neg hone]
    obtain ⟨hpos, hiff⟩ := floorLog2_bounds (n := range) (by omega) (by omega)
    refine ⟨hpos, ?_⟩
    rw [hiff]
    simp [hone]

theorem population_lt {step fuel i : Nat} :
  ∀ k ∈ population range step fuel i, 0 ≤ k ∧ k < range
  := by
  induction fuel generalizing i with
  | zero => nofun
  | succ fuel ih =>
      rw [population]
      by_cases hi : i < range
      · rw [if_pos hi, List.forall_mem_cons]
        exact ⟨⟨Int.natCast_nonneg i, Int.ofNat_lt.mpr hi⟩, ih⟩
      · rw [if_neg hi]
        nofun

omit [DecidableEq Addr] in
theorem SkipListOp.key_of_entry {op : SkipListOp Addr} {i : Int}
    (h : op.entry = some (i, i)) :
  op.key = i
  := by
  cases op with
  | insert key value update coins new => exact (Prod.mk.inj (Option.some.inj h)).1
  | search key => cases h
  | delete key update => cases h

omit [DecidableEq Addr] in
theorem IsRun.key_lt {ops : List (SkipListOp Addr)} (h : IsRun range listSize ops)
    (hrange : range < 2 ^ 31) :
  ∀ op ∈ ops, op.key < intMax
  := by
  obtain ⟨inits, rest, rfl, hinits, hrest⟩ := h
  have hmax : (range : Int) ≤ intMax := by
    rw [intMax]
    omega
  intro op hop
  rcases List.mem_append.mp hop with hop | hop
  · have hentry := List.mem_map_of_mem (f := SkipListOp.entry) hop
    rw [hinits, List.mem_map] at hentry
    obtain ⟨i, hi, heq⟩ := hentry
    rw [SkipListOp.key_of_entry heq.symm]
    exact lt_of_lt_of_le (population_lt i hi).2 hmax
  · exact lt_of_lt_of_le (hrest op hop).2 hmax

theorem randLevel_replicate {levelmax level n : Nat} (h : levelmax ≤ level + n)
    (hle : level ≤ levelmax) :
  randLevel levelmax level (List.replicate n true) = levelmax
  := by
  induction n generalizing level with
  | zero =>
      show level = levelmax
      omega
  | succ n ih =>
      rw [List.replicate_succ, randLevel]
      by_cases hlt : level < levelmax
      · rw [if_pos hlt]
        exact ih (by omega) hlt
      · rw [if_neg hlt]
        omega

/-- With a larger bound, a first node of the highest level does not fit. -/
theorem SkipMemory.insert_fault {levelmax : Nat} (m : SkipMemory Addr) (header : Addr)
    (hmax : skiplistMaxLevel < levelmax) (update : Nat → Addr) (new : Addr) :
  (m.init levelmax header).insert levelmax update (List.replicate levelmax true) new 0 0 =
    .error .update
  := by
  have hkey : (m.init levelmax header).list.key header = intMax := Function.update_self _ _ _
  have hread : (m.init levelmax header).Readable header 1 :=
    (SkipMemory.roomy_init m header (Nat.one_le_of_lt hmax)).readable (Nat.le_refl 1)
      (Nat.one_le_of_lt hmax) List.mem_cons_self
  have hforward : (m.init levelmax header).list.forward header 1 = header := by
    show Function.update m.list.forward header _ header 1 = header
    rw [Function.update_self, if_pos (Nat.one_le_of_lt hmax)]
  have hhead := hread.forward_eq
  rw [hforward] at hhead
  have hwalk : ∀ n, (m.init levelmax header).walk 0 1 n header = .ok header := by
    intro n
    cases n <;> rw [SkipMemory.walk, hhead] <;>
      simp only [bind, Except.bind, hkey, if_neg (show ¬ intMax < 0 by decide)]
  have hlevel : (m.init levelmax header).list.level = 1 := rfl
  have hheader : (m.init levelmax header).list.header = header := rfl
  rw [SkipMemory.insert, hlevel, hheader, SkipMemory.descend, hwalk,
    randLevel_replicate (Nat.le_add_left _ _) (Nat.one_le_of_lt hmax)]
  simp only [bind, Except.bind, putUpdate_eq (show 0 + 1 ≤ skiplistMaxLevel by decide),
    SkipMemory.descend, hhead, hkey, if_neg (show (0 : Int) ≠ intMax by decide)]
  rw [raiseUpdate_fault (by decide) (by omega)]

/-- If the levels may grow past the size of `update`, some run writes behind its end. -/
theorem exists_run_fault [Nontrivial Addr] (listSize : Nat) {levelmax : Nat} (hrange : 1 ≤ range)
    (hmax : skiplistMaxLevel < levelmax) (m : SkipMemory Addr) (header : Addr) :
  ∃ ops : List (SkipListOp Addr), IsRun range listSize ops ∧
    ¬ SkipMemory.InBounds levelmax
      (SkipMemory.init { m with list := { m.list with used := ∅ } } levelmax header) ops
  := by
  obtain ⟨new, hnew⟩ := exists_ne header
  let insertion (key : Int) : SkipListOp Addr :=
    .insert key key (fun _ => header) (List.replicate levelmax true) new
  refine ⟨(population range (range / listSize) range 0).map insertion, ⟨_, [],
    (List.append_nil _).symm, ?_, nofun⟩, ?_⟩
  · rw [List.map_map]
    rfl
  · obtain ⟨range, rfl⟩ : ∃ n, range = n + 1 := ⟨range - 1, by omega⟩
    rw [population, if_pos (Nat.succ_pos range), List.map_cons]
    rintro ⟨-, hexec⟩
    obtain ⟨m', hm', -⟩ := hexec (by simpa [SkipMemory.Fresh, insertion, SkipMemory.init,
      skiplistInit] using hnew)
    have hfault := SkipMemory.insert_fault { m with list := { m.list with used := ∅ } } header hmax
      (fun _ => header) new
    rw [SkipMemory.exec] at hm'
    simp only [Nat.cast_zero] at hm'
    rw [hfault] at hm'
    cases hm'

end Main

/-- The accesses of every run are inside the arrays if and only if the list is initialised with one
node, or the range is smaller than the levels of `update` allow. -/
theorem skiplist_inBounds_iff [Nontrivial Addr]
    (range listSize : Nat) (hsize : 1 ≤ listSize) (hle : listSize ≤ range)
    (hrange : range < 2 ^ 31) :
  (∀ (m : SkipMemory Addr) (header : Addr) (ops : List (SkipListOp Addr)),
    IsRun range listSize ops →
      SkipMemory.InBounds (levelmaxOf range listSize).toNat
        (m.init (levelmaxOf range listSize).toNat header) ops) ↔
    listSize = 1 ∨ range < 2 ^ 15
  := by
  obtain ⟨hpos, hiff⟩ := levelmaxOf_bounds hsize hle hrange
  rw [← hiff]
  constructor
  · intro h
    by_contra hlarge
    obtain ⟨header, -, -⟩ := exists_pair_ne Addr
    obtain ⟨ops, hrun, hnot⟩ := exists_run_fault listSize (show 1 ≤ range by omega)
      (show skiplistMaxLevel < (levelmaxOf range listSize).toNat by rw [skiplistMaxLevel]; omega)
      ⟨⟨fun _ => 0, fun _ => 0, fun _ _ => header, header, 0, ∅⟩, fun _ => 0, fun _ _ => false⟩
      header
    exact hnot (h _ header ops hrun)
  · intro hmax m header ops hrun
    apply (SkipMemory.roomy_init m header (by omega)).inBounds
    · rw [skiplistMaxLevel]
      omega
    · exact hrun.key_lt hrange

/-- The largest range for which the levels fit. -/
theorem skiplist_inBounds_iff_largest :
  (levelmaxOf 32767 100).toNat = 14 ∧
    ∀ (m : SkipMemory Nat) (header : Nat) (ops : List (SkipListOp Nat)),
      IsRun 32767 100 ops → SkipMemory.InBounds 14 (m.init 14 header) ops
  := by
  have hlevelmax : (levelmaxOf 32767 100).toNat = 14 := by decide
  have h := (@skiplist_inBounds_iff Nat _ _ 32767 100 (by decide) (by decide) (by decide)).mpr
    (.inr (by decide))
  rw [hlevelmax] at h
  exact ⟨hlevelmax, h⟩

/-- With the next range, a first node of the highest level is linked on the level `15`. -/
theorem skiplist_not_inBounds :
  ¬ ∀ (m : SkipMemory Nat) (header : Nat) (ops : List (SkipListOp Nat)),
    IsRun 32768 2 ops →
      SkipMemory.InBounds (levelmaxOf 32768 2).toNat
        (m.init (levelmaxOf 32768 2).toNat header) ops
  := by
  intro h
  obtain ⟨ops, hrun, hnot⟩ := exists_run_fault 2 (show 1 ≤ 32768 by decide)
    (show skiplistMaxLevel < (levelmaxOf 32768 2).toNat by decide)
    ⟨⟨fun _ => 0, fun _ => 0, fun _ _ => 0, 0, 0, ∅⟩, fun _ => 0, fun _ _ => false⟩ 0
  exact hnot (h _ 0 ops hrun)

end Micro
