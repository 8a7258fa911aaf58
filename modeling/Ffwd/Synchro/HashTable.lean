import Ffwd.Lib.SortedPath

/-!
# The delegated hash table

The hash table of `lockbased-ht`: an array of sorted lists with sentinels, each of which belongs to
one of four servers. A client sends an operation to the server of the bucket of its value. A server
goes through a list pointer by pointer while the others do the same with theirs; nothing but the
division of the buckets keeps them apart.
-/

namespace HashTable

open Linked

/-! ### The table -/

def valMin : Int := -2147483648

def valMax : Int := 2147483647

/-- `MAXHTLENGTH`, the number of entries of the array of buckets. -/
def maxHtLength : Nat := 65536

/-- The address of a node; 0 is `NULL`. -/
abbrev Addr := Nat

/-- The nodes; those in `used` are allocated. -/
structure Memory where
  val : Addr → Int
  next : Addr → Addr
  used : Finset Addr

def newNode (m : Memory) (a : Addr) (val : Int) (next : Addr) : Memory where
  val := Function.update m.val a val
  next := Function.update m.next a next
  used := insert a m.used

def Memory.setNext (m : Memory) (a next : Addr) : Memory :=
  { m with next := Function.update m.next a next }

def Memory.free (m : Memory) (a : Addr) : Memory := { m with used := m.used.erase a }

/-- The nodes and the heads of the lists in the array. -/
structure Table where
  mem : Memory
  head : Nat → Addr

/-- `set->buckets[i] = set_new()`, with the addresses of the sentinels. There is no such entry of
the array from `MAXHTLENGTH` on. -/
def setNew (t : Table) (i : Nat) (max min : Addr) : Option Table :=
  if i < maxHtLength then
    some ⟨newNode (newNode t.mem max valMax 0) min valMin max, Function.update t.head i min⟩
  else none

/-- The loop of `ht_new`, where `malloc` returns the addresses of `alloc`. -/
def htNew (alloc : Nat × Bool → Addr) : Nat → Option Table
  | 0 => some ⟨⟨fun _ => 0, fun _ => 0, ∅⟩, fun _ => 0⟩
  | i + 1 => do
      let t ← htNew alloc i
      setNew t i (alloc (i, true)) (alloc (i, false))

/-- `val % maxhtlength`; the value is converted to an unsigned number. -/
def bucketOf (maxhtlength : Nat) (val : Int) : Nat := (val % 2 ^ 32).toNat % maxhtlength

def serverOf (maxhtlength addr : Nat) : Nat :=
  let quarter := maxhtlength / 4
  if addr < quarter then 0
  else if addr < 2 * quarter then 1
  else if addr < 3 * quarter then 2
  else 3

inductive Op where
  | contains
  | add
  | remove
  deriving DecidableEq

/-- What `set_contains_intern`, `set_seq_add_intern` and `set_remove_intern` do after the loop that
they have in common; `new` is the address that `malloc` returns. -/
def Op.finish (op : Op) (m : Memory) (val : Int) (prev next new : Addr) : Memory × Bool :=
  match op with
  | .contains => (m, m.val next = val)
  | .add => if m.val next ≠ val then ((newNode m new val next).setNext prev new, true) else (m, false)
  | .remove => if m.val next = val then ((m.setNext prev (m.next next)).free next, true) else (m, false)

/-- The insertions of the main thread before there are others. -/
def setSeqAddIntern2 (m : Memory) (head : Addr) (val : Int) (new : Addr) : Option (Memory × Bool) := do
  let prev ← walk m.next (fun a => m.val a < val) m.used.card head
  return Op.add.finish m val prev (m.next prev) new

def htAdd2 (maxhtlength : Nat) (t : Table) (val : Int) (new : Addr) : Option (Table × Bool) := do
  let (mem, result) ← setSeqAddIntern2 t.mem (t.head (bucketOf maxhtlength val)) val new
  return ({ t with mem := mem }, result)

/-- The loop of `ht_size` through one list. -/
def countNodes (m : Memory) : Nat → Addr → Option Nat
  | 0, _ => none
  | n + 1, node => if m.next node ≠ 0 then (countNodes m n (m.next node)).map (· + 1) else some 0

def htSize (t : Table) : Nat → Option Nat
  | 0 => some 0
  | i + 1 => do
      let size ← htSize t i
      let count ← countNodes t.mem t.mem.used.card (t.mem.next (t.head i))
      return size + count

/-! ### The clients and the servers -/

/-- An operation that is delegated: the server, the function, the bucket and the value. -/
structure Request where
  server : Nat
  op : Op
  set : Nat
  val : Int
  deriving DecidableEq

def htRequest (op : Op) (maxhtlength : Nat) (val : Int) : Request :=
  let addr := bucketOf maxhtlength val
  ⟨serverOf maxhtlength addr, op, addr, val⟩

def htContains (maxhtlength : Nat) (val : Int) : Request := htRequest .contains maxhtlength val

def htAdd (maxhtlength : Nat) (val : Int) : Request := htRequest .add maxhtlength val

def htRemove (maxhtlength : Nat) (val : Int) : Request := htRequest .remove maxhtlength val

inductive Client where
  | idle
  | waiting (r : Request)
  | returned (r : Request) (result : Bool)
  deriving DecidableEq

/-- A server between two requests, or in the loop through a list. -/
inductive Server (C : Type) where
  | idle
  | walking (c : C) (r : Request) (prev next : Addr)
  deriving DecidableEq

/-- An operation that a server has completed. -/
structure Entry (C : Type) where
  client : C
  op : Op
  val : Int
  result : Bool

/-- The table, the servers and the clients, with the operations in the order in which the servers
have completed them. -/
structure State (C : Type) where
  table : Table
  server : Nat → Server C
  client : C → Client
  log : List (Entry C)

variable {C : Type} [DecidableEq C]

def State.start (t : Table) : State C := ⟨t, fun _ => .idle, fun _ => .idle, []⟩

def State.goClient (s : State C) (c : C) (client : Client) : State C :=
  { s with client := Function.update s.client c client }

def State.goServer (s : State C) (k : Nat) (server : Server C) : State C :=
  { s with server := Function.update s.server k server }

/-- A server has come to the end of the loop, and executes the rest. -/
def State.complete (s : State C) (k : Nat) (c : C) (r : Request) (prev next new : Addr) : State C :=
  let (mem, result) := r.op.finish s.table.mem r.val prev next new
  { table := { s.table with mem := mem }
    server := Function.update s.server k .idle
    client := Function.update s.client c (.returned r result)
    log := s.log ++ [⟨c, r.op, r.val, result⟩] }

/-- A call or a return of a client, or a pointer that a server follows. -/
inductive State.Step (maxhtlength : Nat) (s : State C) : State C → Prop where
  | invoke (c : C) (val : Int) (r : Request) (hclient : s.client c = .idle)
      (hval : valMin < val ∧ val < valMax)
      (hr : r = htContains maxhtlength val ∨ r = htAdd maxhtlength val ∨
        r = htRemove maxhtlength val) :
      Step maxhtlength s (s.goClient c (.waiting r))
  | accept (c : C) (r : Request) (hserver : s.server r.server = .idle)
      (hclient : s.client c = .waiting r) :
      Step maxhtlength s (s.goServer r.server
        (.walking c r (s.table.head r.set) (s.table.mem.next (s.table.head r.set))))
  | advance (k : Nat) (c : C) (r : Request) (prev next : Addr)
      (hserver : s.server k = .walking c r prev next) (hval : s.table.mem.val next < r.val) :
      Step maxhtlength s (s.goServer k (.walking c r next (s.table.mem.next next)))
  | complete (k : Nat) (c : C) (r : Request) (prev next new : Addr)
      (hserver : s.server k = .walking c r prev next) (hval : ¬s.table.mem.val next < r.val)
      (hnew : new ∉ s.table.mem.used ∧ new ≠ 0) :
      Step maxhtlength s (s.complete k c r prev next new)
  | back (c : C) (r : Request) (result : Bool) (hclient : s.client c = .returned r result) :
      Step maxhtlength s (s.goClient c .idle)

/-- The table that the main thread has made and filled. -/
inductive Filled (maxhtlength : Nat) : Table → Prop where
  | new (alloc : Nat × Bool → Addr) (t : Table) (hinj : Function.Injective alloc)
      (hzero : ∀ p, alloc p ≠ 0) (hnew : htNew alloc maxhtlength = some t) : Filled maxhtlength t
  | add (t t' : Table) (val : Int) (new : Addr) (result : Bool) (ht : Filled maxhtlength t)
      (hval : valMin < val ∧ val < valMax) (hnew : new ∉ t.mem.used ∧ new ≠ 0)
      (hadd : htAdd2 maxhtlength t val new = some (t', result)) : Filled maxhtlength t'

def Reachable (maxhtlength : Nat) (t : Table) (s : State C) : Prop :=
  Relation.ReflTransGen (State.Step maxhtlength) (State.start t) s

/-! ### What the table is for -/

/-- A set of integers: the set after an operation and what it returns. -/
def Op.spec (op : Op) (val : Int) (S : Finset Int) : Finset Int × Bool :=
  match op with
  | .contains => (S, val ∈ S)
  | .add => (insert val S, val ∉ S)
  | .remove => (S.erase val, val ∈ S)

/-- The operations executed one after the other on a set lead to another, with these results. -/
def Legal (S : Finset Int) : List (Entry C) → Finset Int → Prop
  | [], S' => S = S'
  | e :: log, S' => e.result = (e.op.spec e.val S).2 ∧ Legal (e.op.spec e.val S).1 log S'

/-- The number of the operations that have returned 1. -/
def succeeded (op : Op) (log : List (Entry C)) : Nat :=
  log.countP (fun e => e.op = op && e.result)

/-- The lists of the buckets are sorted between their sentinels, have only values of their buckets
and no nodes in common. -/
structure Table.Buckets (t : Table) (maxhtlength : Nat) (l : Nat → List Addr) (tail : Nat → Addr) :
    Prop where
  sorted : ∀ b < maxhtlength, SortedPath t.mem.val t.mem.next (t.head b) (l b) (tail b)
  val_head : ∀ b < maxhtlength, t.mem.val (t.head b) = valMin
  val_tail : ∀ b < maxhtlength, t.mem.val (tail b) = valMax
  next_tail : ∀ b < maxhtlength, t.mem.next (tail b) = 0
  bucket : ∀ b < maxhtlength, ∀ a ∈ l b, bucketOf maxhtlength (t.mem.val a) = b
  disjoint : ∀ b < maxhtlength, ∀ b' < maxhtlength, ∀ a ∈ t.head b :: (l b ++ [tail b]),
    a ∈ t.head b' :: (l b' ++ [tail b']) → b = b'
  used : ∀ b < maxhtlength, ∀ a ∈ t.head b :: (l b ++ [tail b]), a ∈ t.mem.used
  zero : 0 ∉ t.mem.used

/-- The values in the lists are the elements of the set. -/
structure Table.Holds (t : Table) (maxhtlength : Nat) (l : Nat → List Addr) (tail : Nat → Addr)
    (S : Finset Int) : Prop where
  buckets : t.Buckets maxhtlength l tail
  mem_iff : ∀ v, v ∈ S ↔ ∃ a ∈ l (bucketOf maxhtlength v), t.mem.val a = v

section Buckets

variable {t : Table} {n b : Nat} {l : Nat → List Addr} {tail : Nat → Addr} {S : Finset Int}
  {prev next new : Addr} {v : Int}

theorem bucketOf_lt (hn : 1 ≤ n) (v : Int) :
  bucketOf n v < n
  := Nat.mod_lt _ hn

theorem serverOf_lt (n addr : Nat) :
  serverOf n addr < 4
  := by
  simp only [serverOf]
  split
  · decide
  · split
    · decide
    · split <;> decide

/-- The nodes of all buckets but one are as they were. -/
def Table.Untouched (t : Table) (n : Nat) (l : Nat → List Addr) (tail : Nat → Addr) (b : Nat)
    (m : Memory) : Prop :=
  ∀ b' < n, b' ≠ b → ∀ a ∈ t.head b' :: (l b' ++ [tail b']),
    m.val a = t.mem.val a ∧ m.next a = t.mem.next a ∧ a ∈ m.used

/-- The list of one bucket is changed, and no node of another. -/
theorem Table.Buckets.setBucket
    {m : Memory} {l' : List Addr} (h : t.Buckets n l tail) (hb : b < n)
    (hsorted : SortedPath m.val m.next (t.head b) l' (tail b))
    (hends : m.val (t.head b) = valMin ∧ m.val (tail b) = valMax ∧ m.next (tail b) = 0)
    (hbucket : ∀ a ∈ l', bucketOf n (m.val a) = b)
    (hnodes : ∀ a ∈ l', a ∈ l b ∨ a ∉ t.mem.used)
    (hframe : t.Untouched n l tail b m)
    (hused : ∀ a ∈ t.head b :: (l' ++ [tail b]), a ∈ m.used) (hzero : 0 ∉ m.used) :
  { t with mem := m }.Buckets n (Function.update l b l') tail
  := by
  have hown : ∀ b' < n, b' ≠ b → ∀ a ∈ t.head b' :: (l b' ++ [tail b']),
      a ∉ t.head b :: (l' ++ [tail b]) := by
    intro b' hb' hne a ha hmem
    have hold : a ∈ t.head b :: (l b ++ [tail b]) := by
      simp only [List.mem_cons, List.mem_append, List.not_mem_nil, or_false] at hmem ⊢
      rcases hmem with hmem | hmem | hmem
      · exact .inl hmem
      · rcases hnodes a hmem with hmem | hnot
        · exact .inr (.inl hmem)
        · exact absurd (h.used b' hb' a ha) hnot
      · exact .inr (.inr hmem)
    exact hne (h.disjoint b' hb' b hb a ha hold)
  constructor
  · intro b' hb'
    by_cases hne : b' = b
    · subst hne
      rw [Function.update_self]
      exact hsorted
    · rw [Function.update_of_ne hne]
      apply (h.sorted b' hb').congr
      · intro a ha
        exact (hframe b' hb' hne a ha).1
      · intro a ha
        apply (hframe b' hb' hne a _).2.1
        rw [← List.cons_append]
        exact List.mem_append_left _ ha
  · intro b' hb'
    by_cases hne : b' = b
    · subst hne
      exact hends.1
    · exact (hframe b' hb' hne _ List.mem_cons_self).1.trans (h.val_head b' hb')
  · intro b' hb'
    by_cases hne : b' = b
    · subst hne
      exact hends.2.1
    · exact (hframe b' hb' hne _ (by simp)).1.trans (h.val_tail b' hb')
  · intro b' hb'
    by_cases hne : b' = b
    · subst hne
      exact hends.2.2
    · exact (hframe b' hb' hne _ (by simp)).2.1.trans (h.next_tail b' hb')
  · intro b' hb' a ha
    by_cases hne : b' = b
    · subst hne
      rw [Function.update_self] at ha
      exact hbucket a ha
    · rw [Function.update_of_ne hne] at ha
      show bucketOf n (m.val a) = b'
      rw [(hframe b' hb' hne a (by simp [ha])).1]
      exact h.bucket b' hb' a ha
  · intro b₁ hb₁ b₂ hb₂ a ha₁ ha₂
    by_cases hne₁ : b₁ = b
    · subst hne₁
      by_cases hne₂ : b₂ = b₁
      · exact hne₂.symm
      · rw [Function.update_self] at ha₁
        rw [Function.update_of_ne hne₂] at ha₂
        exact absurd ha₁ (hown b₂ hb₂ hne₂ a ha₂)
    · rw [Function.update_of_ne hne₁] at ha₁
      by_cases hne₂ : b₂ = b
      · subst hne₂
        rw [Function.update_self] at ha₂
        exact absurd ha₂ (hown b₁ hb₁ hne₁ a ha₁)
      · rw [Function.update_of_ne hne₂] at ha₂
        exact h.disjoint b₁ hb₁ b₂ hb₂ a ha₁ ha₂
  · intro b' hb' a ha
    by_cases hne : b' = b
    · subst hne
      rw [Function.update_self] at ha
      exact hused a ha
    · rw [Function.update_of_ne hne] at ha
      exact (hframe b' hb' hne a ha).2.2
  · exact hzero

/-- A server in the list of a bucket: the value is bigger than those it has passed. -/
structure Table.At (t : Table) (l : Nat → List Addr) (b : Nat) (v : Int) (prev next : Addr) :
    Prop where
  mem : prev ∈ t.head b :: l b
  next : next = t.mem.next prev
  lt : t.mem.val prev < v

/-- The list before and after the place where a server is. -/
theorem Table.Buckets.split
    (h : t.Buckets n l tail) (hb : b < n) (hat : t.At l b v prev next) :
  ∃ l₁ l₂, l b = l₁ ++ l₂ ∧ last (t.head b) l₁ = prev ∧ l₂.head?.getD (tail b) = next
  := by
  obtain ⟨l₁, l₂, hl, hlast⟩ := exists_last_eq hat.mem
  have hpath := (h.sorted b hb).path
  rw [hl] at hpath
  refine ⟨l₁, l₂, hl, hlast, ?_⟩
  rw [hat.next, ← hlast, (Path.append_iff.mp hpath).1.next_last]

theorem Table.Buckets.next_mem
    (h : t.Buckets n l tail) (hb : b < n) (hat : t.At l b v prev next) :
  next ∈ l b ++ [tail b]
  := by
  rw [hat.next]
  exact (h.sorted b hb).path.next_mem hat.mem

/-- The head of a list is such a place. -/
theorem Table.Buckets.at_head (h : t.Buckets n l tail) (hb : b < n) (hv : valMin < v) :
  t.At l b v (t.head b) (t.mem.next (t.head b))
  := by
  refine ⟨List.mem_cons_self, rfl, ?_⟩
  rw [h.val_head b hb]
  exact hv

/-- The pointer that is followed leads to another. -/
theorem Table.Buckets.at_next
    (h : t.Buckets n l tail) (hb : b < n) (hat : t.At l b v prev next) (hlt : t.mem.val next < v)
    (hv : v < valMax) :
  t.At l b v next (t.mem.next next)
  := by
  refine ⟨?_, rfl, hlt⟩
  rcases List.mem_append.mp (h.next_mem hb hat) with hmem | hmem
  · exact List.mem_cons_of_mem _ hmem
  · rw [List.mem_singleton.mp hmem, h.val_tail b hb] at hlt
    omega

theorem Table.Buckets.ne_prev
    (h : t.Buckets n l tail) (hb : b < n) (hat : t.At l b v prev next) {b' : Nat} (hb' : b' < n)
    (hne : b' ≠ b) {a : Addr} (ha : a ∈ t.head b' :: (l b' ++ [tail b'])) :
  a ≠ prev
  := by
  rintro rfl
  apply hne
  apply h.disjoint b' hb' b hb a ha
  rw [← List.cons_append]
  exact List.mem_append_left _ hat.mem

theorem Table.Buckets.insert
    (h : t.Buckets n l tail) (hb : b < n) (hat : t.At l b v prev next)
    (hgt : v < t.mem.val next) (hbucket : bucketOf n v = b) (hnew : new ∉ t.mem.used ∧ new ≠ 0) :
  ∃ l₁ l₂, l b = l₁ ++ l₂ ∧
    { t with mem := (newNode t.mem new v next).setNext prev new }.Buckets n
      (Function.update l b (l₁ ++ new :: l₂)) tail ∧
    t.Untouched n l tail b ((newNode t.mem new v next).setNext prev new)
  := by
  obtain ⟨l₁, l₂, hl, rfl, rfl⟩ := h.split hb hat
  have hsorted := h.sorted b hb
  have hused := h.used b hb
  have hold : ∀ a ∈ t.mem.used, a ≠ new := by
    rintro a ha rfl
    exact hnew.1 ha
  have hframe : t.Untouched n l tail b
      ((newNode t.mem new v (l₂.head?.getD (tail b))).setNext (last (t.head b) l₁) new) := by
    intro b' hb' hne a ha
    have ha_used := h.used b' hb' a ha
    refine ⟨Function.update_of_ne (hold a ha_used) _ _, ?_, Finset.mem_insert_of_mem ha_used⟩
    refine (Function.update_of_ne (h.ne_prev hb hat hb' hne ha) _ _).trans ?_
    exact Function.update_of_ne (hold a ha_used) _ _
  have htail : tail b ≠ last (t.head b) l₁ := by
    intro heq
    have hlt := lt_trans hat.lt hgt
    have hle := hsorted
    rw [hl] at hle
    have hle := hle.sides.2 (tail b) (by simp)
    rw [← heq] at hlt
    omega
  refine ⟨l₁, l₂, hl, h.setBucket hb ?_ ⟨?_, ?_, ?_⟩ ?_ ?_ hframe ?_ ?_, hframe⟩
  · rw [hl] at hsorted hused
    apply hsorted.insert _ hat.lt hgt
    intro hmem
    exact hnew.1 (hused new hmem)
  · refine (Function.update_of_ne (hold _ (hused _ (by simp))) _ _).trans ?_
    exact h.val_head b hb
  · refine (Function.update_of_ne (hold _ (hused _ (by simp))) _ _).trans ?_
    exact h.val_tail b hb
  · refine (Function.update_of_ne htail _ _).trans ?_
    refine (Function.update_of_ne (hold _ (hused _ (by simp))) _ _).trans ?_
    exact h.next_tail b hb
  · intro a ha
    show bucketOf n (Function.update t.mem.val new v a) = b
    by_cases ha_new : a = new
    · rw [ha_new, Function.update_self]
      exact hbucket
    · have hmem : a ∈ l b := by
        rw [hl]
        simp only [List.mem_append, List.mem_cons] at ha ⊢
        tauto
      rw [Function.update_of_ne ha_new]
      exact h.bucket b hb a hmem
  · intro a ha
    rw [hl]
    simp only [List.mem_append, List.mem_cons] at ha ⊢
    rcases ha with ha | rfl | ha
    · exact .inl (.inl ha)
    · exact .inr hnew.1
    · exact .inl (.inr ha)
  · intro a ha
    show a ∈ Insert.insert new t.mem.used
    rw [hl] at hused
    rw [Finset.mem_insert]
    simp only [List.mem_cons, List.mem_append, List.not_mem_nil, or_false] at ha hused
    have := hused a
    tauto
  · show 0 ∉ Insert.insert new t.mem.used
    rw [Finset.mem_insert, not_or]
    exact ⟨hnew.2.symm, h.zero⟩

theorem Table.Buckets.remove
    (h : t.Buckets n l tail) (hb : b < n) (hat : t.At l b v prev next)
    (heq : t.mem.val next = v) (hv : v < valMax) :
  ∃ l₁ l₂, l b = l₁ ++ next :: l₂ ∧
    { t with mem := (t.mem.setNext prev (t.mem.next next)).free next }.Buckets n
      (Function.update l b (l₁ ++ l₂)) tail ∧
    t.Untouched n l tail b ((t.mem.setNext prev (t.mem.next next)).free next)
  := by
  obtain ⟨l₁, l₂, hl, rfl, hnext⟩ := h.split hb hat
  obtain ⟨l₂, rfl⟩ : ∃ l₂', l₂ = next :: l₂' := by
    cases l₂ with
    | nil =>
        have hlast : tail b = next := hnext
        rw [← hlast, h.val_tail b hb] at heq
        omega
    | cons c l₂ =>
        have hfirst : c = next := hnext
        exact ⟨l₂, by rw [hfirst]⟩
  have hsorted := h.sorted b hb
  have hused := h.used b hb
  have hnodup := hsorted.nodup
  rw [hl] at hsorted hused hnodup
  have hnot : next ∉ t.head b :: (l₁ ++ l₂ ++ [tail b]) := by
    intro hmem
    grind
  have hframe : t.Untouched n l tail b
      ((t.mem.setNext (last (t.head b) l₁) (t.mem.next next)).free next) := by
    intro b' hb' hne a ha
    refine ⟨rfl, Function.update_of_ne (h.ne_prev hb hat hb' hne ha) _ _, ?_⟩
    show a ∈ t.mem.used.erase next
    rw [Finset.mem_erase]
    refine ⟨?_, h.used b' hb' a ha⟩
    rintro rfl
    apply hne
    apply h.disjoint b' hb' b hb a ha
    rw [hl]
    simp
  have htail : tail b ≠ last (t.head b) l₁ := by
    intro hlast
    have hlt := hat.lt
    rw [← hlast, h.val_tail b hb] at hlt
    omega
  refine ⟨l₁, l₂, hl, h.setBucket hb hsorted.remove ⟨h.val_head b hb, h.val_tail b hb, ?_⟩ ?_ ?_
    hframe ?_ ?_, hframe⟩
  · exact (Function.update_of_ne htail _ _).trans (h.next_tail b hb)
  · intro a ha
    apply h.bucket b hb a
    rw [hl]
    simp only [List.mem_append, List.mem_cons] at ha ⊢
    tauto
  · intro a ha
    left
    rw [hl]
    simp only [List.mem_append, List.mem_cons] at ha ⊢
    tauto
  · intro a ha
    show a ∈ t.mem.used.erase next
    rw [Finset.mem_erase]
    constructor
    · rintro rfl
      exact hnot ha
    · apply hused a
      simp only [List.mem_cons, List.mem_append] at ha ⊢
      tauto
  · intro hmem
    exact h.zero (Finset.mem_of_mem_erase hmem)

/-- The value is in the set if and only if it is that of the next node. -/
theorem Table.Holds.mem_iff_next
    (h : t.Holds n l tail S) (hn : 1 ≤ n) (hat : t.At l (bucketOf n v) v prev next)
    (hge : ¬t.mem.val next < v) (hv : v < valMax) :
  v ∈ S ↔ t.mem.val next = v
  := by
  have hb := bucketOf_lt hn v
  obtain ⟨l₁, l₂, hl, rfl, rfl⟩ := h.buckets.split hb hat
  have hsorted := h.buckets.sorted _ hb
  rw [hl] at hsorted
  rw [h.mem_iff, hl]
  apply hsorted.mem_iff hat.lt (not_lt.mp hge)
  rw [h.buckets.val_tail _ hb]
  exact hv

/-- The values of the table when the list of one bucket has been changed. -/
theorem Table.Holds.setValues
    {m : Memory} {l' : List Addr} {S' : Finset Int} (h : t.Holds n l tail S) (hn : 1 ≤ n)
    (hbuckets : { t with mem := m }.Buckets n (Function.update l b l') tail)
    (hframe : t.Untouched n l tail b m) (hother : ∀ w, bucketOf n w ≠ b → (w ∈ S' ↔ w ∈ S))
    (hown : ∀ w, bucketOf n w = b → (w ∈ S' ↔ ∃ a ∈ l', m.val a = w)) :
  { t with mem := m }.Holds n (Function.update l b l') tail S'
  := by
  refine ⟨hbuckets, ?_⟩
  intro w
  show w ∈ S' ↔ ∃ a ∈ Function.update l b l' (bucketOf n w), m.val a = w
  by_cases hw : bucketOf n w = b
  · rw [hw, Function.update_self]
    exact hown w hw
  · rw [hother w hw, Function.update_of_ne hw, h.mem_iff]
    apply exists_congr
    intro a
    apply and_congr_right
    intro ha
    rw [(hframe _ (bucketOf_lt hn w) hw a (by simp [ha])).1]

theorem Table.Buckets.untouched (h : t.Buckets n l tail) :
  t.Untouched n l tail b t.mem
  := by
  intro b' hb' _ a ha
  exact ⟨rfl, rfl, h.used b' hb' a ha⟩

/-- The end of an operation of the source does what the operation on the set does. -/
theorem Table.Holds.finish
    (h : t.Holds n l tail S) (hn : 1 ≤ n) (op : Op) (hat : t.At l (bucketOf n v) v prev next)
    (hge : ¬t.mem.val next < v) (hv : v < valMax) (hnew : new ∉ t.mem.used ∧ new ≠ 0) :
  ∃ l', { t with mem := (op.finish t.mem v prev next new).1 }.Holds n
      (Function.update l (bucketOf n v) l') tail (op.spec v S).1 ∧
    (op.finish t.mem v prev next new).2 = (op.spec v S).2 ∧
    t.Untouched n l tail (bucketOf n v) (op.finish t.mem v prev next new).1
  := by
  have hb := bucketOf_lt hn v
  have hmem := h.mem_iff_next hn hat hge hv
  have hsame : Function.update l (bucketOf n v) (l (bucketOf n v)) = l := Function.update_eq_self _ _
  have hwithout : ∀ S', S' = S → t.Holds n (Function.update l (bucketOf n v) (l (bucketOf n v))) tail
      S' := by
    rintro S' rfl
    rw [hsame]
    exact h
  cases op with
  | contains =>
      refine ⟨l (bucketOf n v), hwithout _ rfl, ?_, h.buckets.untouched⟩
      show decide (t.mem.val next = v) = decide (v ∈ S)
      rw [decide_eq_decide, hmem]
  | add =>
      by_cases heq : t.mem.val next = v
      · have hfinish : Op.add.finish t.mem v prev next new = (t.mem, false) := by
          simp [Op.finish, heq]
        rw [hfinish]
        refine ⟨l (bucketOf n v), hwithout _ ?_, ?_, h.buckets.untouched⟩
        · exact Finset.insert_eq_self.mpr (hmem.mpr heq)
        · simp [Op.spec, hmem.mpr heq]
      · have hfinish : Op.add.finish t.mem v prev next new =
            ((newNode t.mem new v next).setNext prev new, true) := by
          simp [Op.finish, heq]
        rw [hfinish]
        have hgt : v < t.mem.val next := by omega
        obtain ⟨l₁, l₂, hl, hbuckets, hframe⟩ := h.buckets.insert hb hat hgt rfl hnew
        refine ⟨l₁ ++ new :: l₂, h.setValues hn hbuckets hframe ?_ ?_, ?_, hframe⟩
        · intro w hw
          show w ∈ Insert.insert v S ↔ w ∈ S
          rw [Finset.mem_insert, or_iff_right]
          rintro rfl
          exact hw rfl
        · intro w hw
          show w ∈ Insert.insert v S ↔
            ∃ a ∈ l₁ ++ new :: l₂, Function.update t.mem.val new v a = w
          have hval : ∀ a ∈ l₁ ++ l₂, Function.update t.mem.val new v a = t.mem.val a := by
            intro a ha
            apply Function.update_of_ne
            rintro rfl
            apply hnew.1
            apply h.buckets.used _ hb
            rw [hl]
            exact List.mem_cons_of_mem _ (List.mem_append_left _ ha)
          have hsplit : ∀ a, a ∈ l₁ ++ new :: l₂ ↔ a = new ∨ a ∈ l₁ ++ l₂ := by
            intro a
            simp only [List.mem_append, List.mem_cons]
            tauto
          rw [Finset.mem_insert, h.mem_iff, hw, hl]
          simp only [hsplit, or_and_right, exists_or, exists_eq_left, Function.update_self]
          apply or_congr eq_comm
          apply exists_congr
          intro a
          apply and_congr_right
          intro ha
          rw [hval a ha]
        · have hnot : v ∉ S := fun hin => heq (hmem.mp hin)
          simp [Op.spec, hnot]
  | remove =>
      by_cases heq : t.mem.val next = v
      · have hfinish : Op.remove.finish t.mem v prev next new =
            ((t.mem.setNext prev (t.mem.next next)).free next, true) := by
          simp [Op.finish, heq]
        rw [hfinish]
        obtain ⟨l₁, l₂, hl, hbuckets, hframe⟩ := h.buckets.remove hb hat heq hv
        refine ⟨l₁ ++ l₂, h.setValues hn hbuckets hframe ?_ ?_, ?_, hframe⟩
        · intro w hw
          show w ∈ S.erase v ↔ w ∈ S
          rw [Finset.mem_erase, and_iff_right]
          rintro rfl
          exact hw rfl
        · intro w hw
          show w ∈ S.erase v ↔ ∃ a ∈ l₁ ++ l₂, t.mem.val a = w
          have hincreasing := (h.buckets.sorted _ hb).increasing
          have hne : ∀ a ∈ l₁ ++ l₂, t.mem.val a ≠ v := by
            rw [← heq]
            intro a ha
            rw [hl] at hincreasing
            simp only [List.pairwise_cons, List.append_assoc, List.cons_append,
              List.pairwise_append, List.mem_append, List.mem_cons] at hincreasing
            rcases List.mem_append.mp ha with ha | ha
            · exact ne_of_lt (hincreasing.2.2.2 a ha next (.inl rfl))
            · exact ne_of_gt (hincreasing.2.2.1.1 a (.inl ha))
          rw [Finset.mem_erase, h.mem_iff, hw, hl]
          constructor
          · rintro ⟨hwv, a, ha, rfl⟩
            refine ⟨a, ?_, rfl⟩
            simp only [List.mem_append, List.mem_cons] at ha ⊢
            rcases ha with ha | rfl | ha
            · exact .inl ha
            · exact absurd heq hwv
            · exact .inr ha
          · rintro ⟨a, ha, rfl⟩
            refine ⟨hne a ha, a, ?_, rfl⟩
            simp only [List.mem_append, List.mem_cons] at ha ⊢
            tauto
        · simp [Op.spec, hmem.mpr heq]
      · have hfinish : Op.remove.finish t.mem v prev next new = (t.mem, false) := by
          simp [Op.finish, heq]
        have hnot : v ∉ S := fun hin => heq (hmem.mp hin)
        rw [hfinish]
        refine ⟨l (bucketOf n v), hwithout _ ?_, ?_, h.buckets.untouched⟩
        · exact Finset.erase_eq_of_notMem hnot
        · simp [Op.spec, hnot]

/-! ### The size -/

theorem countNodes_eq
    {m : Memory} {fuel : Nat} {b e : Addr} {l : List Addr} (h : Path m.next b l e)
    (hne : ∀ a ∈ l ++ [e], a ≠ 0) (he : m.next e = 0) (hfuel : l.length < fuel) :
  countNodes m fuel (m.next b) = some l.length
  := by
  induction l generalizing b fuel with
  | nil =>
      obtain ⟨fuel, rfl⟩ : ∃ k, fuel = k + 1 := ⟨fuel - 1, by simp at hfuel; omega⟩
      have hnext : m.next b = e := h
      rw [hnext, countNodes, if_neg (by simp [he])]
      rfl
  | cons a l ih =>
      obtain ⟨fuel, rfl⟩ : ∃ k, fuel = k + 1 := ⟨fuel - 1, by simp at hfuel; omega⟩
      have hnext : m.next a ≠ 0 := by
        apply hne
        exact List.mem_cons_of_mem _ (h.2.next_mem List.mem_cons_self)
      have hcount := ih h.2 (fun c hc => hne c (List.mem_cons_of_mem a hc))
        (Nat.lt_of_succ_lt_succ hfuel)
      rw [h.1, countNodes, if_pos hnext, hcount]
      rfl

theorem Table.Buckets.length_lt (h : t.Buckets n l tail) (hb : b < n) :
  (l b).length < t.mem.used.card
  := by
  have hsub : (t.head b :: (l b ++ [tail b])).toFinset ⊆ t.mem.used := by
    intro a ha
    exact h.used b hb a (List.mem_toFinset.mp ha)
  have hcard := Finset.card_le_card hsub
  rw [List.toFinset_card_of_nodup (h.sorted b hb).nodup, List.length_cons, List.length_append] at hcard
  omega

theorem Table.Buckets.htSize_eq (h : t.Buckets n l tail) {i : Nat} (hi : i ≤ n) :
  htSize t i = some (∑ b ∈ Finset.range i, (l b).length)
  := by
  induction i with
  | zero => rfl
  | succ i ih =>
      have hcount := countNodes_eq (h.sorted i hi).path
        (by
          rintro a ha rfl
          exact h.zero (h.used i hi 0 (List.mem_cons_of_mem _ ha)))
        (h.next_tail i hi) (h.length_lt hi)
      rw [htSize, ih (Nat.le_of_succ_le hi)]
      show (countNodes t.mem t.mem.used.card (t.mem.next (t.head i)) >>= _) = _
      rw [hcount, Finset.sum_range_succ]
      rfl

theorem Table.Holds.card_eq (h : t.Holds n l tail S) (hn : 1 ≤ n) :
  S.card = ∑ b ∈ Finset.range n, (l b).length
  := by
  have hS : S = (Finset.range n).biUnion (fun b => ((l b).map t.mem.val).toFinset) := by
    ext v
    rw [h.mem_iff, Finset.mem_biUnion]
    constructor
    · rintro ⟨a, ha, rfl⟩
      refine ⟨_, Finset.mem_range.mpr (bucketOf_lt hn (t.mem.val a)), ?_⟩
      rw [List.mem_toFinset, List.mem_map]
      exact ⟨a, ha, rfl⟩
    · rintro ⟨b, hb, hv⟩
      rw [List.mem_toFinset, List.mem_map] at hv
      obtain ⟨a, ha, rfl⟩ := hv
      refine ⟨a, ?_, rfl⟩
      rw [h.buckets.bucket b (Finset.mem_range.mp hb) a ha]
      exact ha
  rw [hS, Finset.card_biUnion]
  · apply Finset.sum_congr rfl
    intro b hb
    rw [List.toFinset_card_of_nodup, List.length_map]
    have hincreasing := (h.buckets.sorted b (Finset.mem_range.mp hb)).increasing
    have hincreasing := (List.pairwise_append.mp (List.pairwise_cons.mp hincreasing).2).1
    apply List.Pairwise.map t.mem.val _ hincreasing
    intro a c hac
    exact ne_of_lt hac
  · intro b hb b' hb' hne
    rw [Function.onFun, Finset.disjoint_left]
    intro v hv hv'
    rw [List.mem_toFinset, List.mem_map] at hv hv'
    obtain ⟨a, ha, rfl⟩ := hv
    obtain ⟨a', ha', heq⟩ := hv'
    apply hne
    rw [← h.buckets.bucket b (Finset.mem_range.mp hb) a ha, ← heq,
      h.buckets.bucket b' (Finset.mem_range.mp hb') a' ha']

theorem Table.Holds.htSize_eq (h : t.Holds n l tail S) (hn : 1 ≤ n) :
  htSize t n = some S.card
  := by
  rw [h.buckets.htSize_eq (Nat.le_refl n), h.card_eq hn]

omit [DecidableEq C] in
/-- The size of the set after operations with these results. -/
theorem Legal.card {S S' : Finset Int} {log : List (Entry C)} (h : Legal S log S') :
  S'.card + succeeded .remove log = S.card + succeeded .add log
  := by
  induction log generalizing S with
  | nil =>
      obtain rfl : S = S' := h
      rfl
  | cons e log ih =>
      obtain ⟨client, op, v, result⟩ := e
      obtain ⟨hresult, h⟩ := h
      have hcard := ih h
      have hresult : result = (op.spec v S).2 := hresult
      have hstep : (op.spec v S).1.card + (if op = .remove ∧ result then 1 else 0)
          = S.card + (if op = .add ∧ result then 1 else 0) := by
        cases op with
        | contains => simp [Op.spec]
        | add =>
            by_cases hv : v ∈ S
            · simp [Op.spec, hresult, hv, Finset.insert_eq_self.mpr hv]
            · simp [Op.spec, hresult, hv]
        | remove =>
            by_cases hv : v ∈ S
            · have hspec : Op.remove.spec v S = (S.erase v, true) := by simp [Op.spec, hv]
              rw [if_pos ⟨rfl, by rw [hresult, hspec]⟩, if_neg (by simp), hspec]
              exact Finset.card_erase_add_one hv
            · simp [Op.spec, hresult, hv]
      have hadd : succeeded .add (⟨client, op, v, result⟩ :: log)
          = succeeded .add log + (if op = .add ∧ result then 1 else 0) := by
        simp [succeeded, List.countP_cons]
      have hremove : succeeded .remove (⟨client, op, v, result⟩ :: log)
          = succeeded .remove log + (if op = .remove ∧ result then 1 else 0) := by
        simp [succeeded, List.countP_cons]
      rw [hadd, hremove]
      show S'.card + _ = _
      have hcard : S'.card + succeeded .remove log
        = (op.spec v S).1.card + succeeded .add log := hcard
      omega

omit [DecidableEq C] in
theorem Legal.snoc
    {S S' : Finset Int} {log : List (Entry C)} {e : Entry C} (h : Legal S log S')
    (he : e.result = (e.op.spec e.val S').2) :
  Legal S (log ++ [e]) (e.op.spec e.val S').1
  := by
  induction log generalizing S with
  | nil =>
      obtain rfl : S = S' := h
      exact ⟨he, rfl⟩
  | cons e' log ih => exact ⟨h.1, ih h.2⟩

/-! ### The main thread -/

/-- The entries of the array up to the length of the table are there. -/
theorem htNew_isSome (alloc : Nat × Bool → Addr) (n : Nat) :
  (htNew alloc n).isSome = decide (n ≤ maxHtLength)
  := by
  induction n with
  | zero => rfl
  | succ n ih =>
      rw [htNew]
      by_cases hn : n < maxHtLength
      · rw [decide_eq_true (Nat.le_of_lt hn)] at ih
        obtain ⟨t, ht⟩ := Option.isSome_iff_exists.mp ih
        rw [ht, decide_eq_true (Nat.succ_le_of_lt hn)]
        simp [setNew, hn]
      · rw [decide_eq_false (by omega)]
        cases htNew alloc n with
        | none => rfl
        | some t => simp [setNew, hn]

/-- The sentinels of the buckets that have been made. -/
theorem htNew_spec
    {alloc : Nat × Bool → Addr} (hinj : Function.Injective alloc) {n : Nat} {t : Table} (h : htNew alloc n = some t) :
  (∀ b < n, t.head b = alloc (b, false) ∧ t.mem.val (alloc (b, false)) = valMin ∧
      t.mem.next (alloc (b, false)) = alloc (b, true) ∧ t.mem.val (alloc (b, true)) = valMax ∧
      t.mem.next (alloc (b, true)) = 0) ∧
    ∀ a, a ∈ t.mem.used ↔ ∃ b < n, ∃ x, a = alloc (b, x)
  := by
  induction n generalizing t with
  | zero =>
      obtain rfl := Option.some.inj h
      exact ⟨nofun, by simp⟩
  | succ n ih =>
      obtain ⟨t₀, ht₀, hset⟩ := Option.bind_eq_some_iff.mp h
      obtain ⟨hbuckets, hused⟩ := ih ht₀
      rw [setNew] at hset
      split at hset
      · obtain rfl := Option.some.inj hset
        have hne : ∀ b < n, ∀ x y, alloc (b, x) ≠ alloc (n, y) := by
          intro b hb x y heq
          have := congrArg Prod.fst (hinj heq)
          exact Nat.ne_of_lt hb this
        have hends : alloc (n, true) ≠ alloc (n, false) := by
          intro heq
          have := congrArg Prod.snd (hinj heq)
          cases this
        constructor
        · intro b hb
          by_cases hlast : b = n
          · subst hlast
            refine ⟨Function.update_self _ _ _, Function.update_self _ _ _,
              Function.update_self _ _ _, ?_, ?_⟩
            · exact (Function.update_of_ne hends _ _).trans (Function.update_self _ _ _)
            · exact (Function.update_of_ne hends _ _).trans (Function.update_self _ _ _)
          · have hb : b < n := by omega
            obtain ⟨hhead, hmin, hnext, hmax, hnull⟩ := hbuckets b hb
            simp only [newNode, Function.update_of_ne (hne b hb _ _), Function.update_of_ne hlast]
            exact ⟨hhead, hmin, hnext, hmax, hnull⟩
        · intro a
          simp only [newNode, Finset.mem_insert, hused]
          constructor
          · rintro (rfl | rfl | ⟨b, hb, x, rfl⟩)
            · exact ⟨n, Nat.lt_succ_self n, false, rfl⟩
            · exact ⟨n, Nat.lt_succ_self n, true, rfl⟩
            · exact ⟨b, Nat.lt_succ_of_lt hb, x, rfl⟩
          · rintro ⟨b, hb, x, rfl⟩
            by_cases hlast : b = n
            · subst hlast
              cases x with
              | false => exact .inl rfl
              | true => exact .inr (.inl rfl)
            · exact .inr (.inr ⟨b, by omega, x, rfl⟩)
      · cases hset

/-- The table without values. -/
theorem holds_htNew
    {alloc : Nat × Bool → Addr} (hinj : Function.Injective alloc) (hzero : ∀ p, alloc p ≠ 0)
    (h : htNew alloc n = some t) :
  t.Holds n (fun _ => []) (fun b => alloc (b, true)) ∅
  := by
  obtain ⟨hbuckets, hused⟩ := htNew_spec hinj h
  refine ⟨⟨?_, ?_, ?_, ?_, nofun, ?_, ?_, ?_⟩, by simp⟩
  · intro b hb
    obtain ⟨hhead, hmin, hnext, hmax, -⟩ := hbuckets b hb
    rw [hhead]
    refine ⟨hnext, ?_⟩
    simp only [List.nil_append, List.pairwise_cons, List.mem_singleton, forall_eq, hmin, hmax]
    exact ⟨by decide, nofun, .nil⟩
  · intro b hb
    obtain ⟨hhead, hmin, -⟩ := hbuckets b hb
    rw [hhead, hmin]
  · intro b hb
    exact (hbuckets b hb).2.2.2.1
  · intro b hb
    exact (hbuckets b hb).2.2.2.2
  · intro b hb b' hb' a ha ha'
    rw [(hbuckets b hb).1] at ha
    rw [(hbuckets b' hb').1] at ha'
    simp only [List.nil_append, List.mem_cons, List.not_mem_nil, or_false] at ha ha'
    rcases ha with rfl | rfl
    · rcases ha' with ha' | ha'
      · exact congrArg Prod.fst (hinj ha')
      · exact congrArg Prod.fst (hinj ha')
    · rcases ha' with ha' | ha'
      · exact congrArg Prod.fst (hinj ha')
      · exact congrArg Prod.fst (hinj ha')
  · intro b hb a ha
    rw [(hbuckets b hb).1] at ha
    simp only [List.nil_append, List.mem_cons, List.not_mem_nil, or_false] at ha
    rw [hused]
    rcases ha with rfl | rfl
    · exact ⟨b, hb, false, rfl⟩
    · exact ⟨b, hb, true, rfl⟩
  · rw [hused]
    rintro ⟨b, -, x, heq⟩
    exact hzero _ heq.symm

/-- The loop of the main thread ends where a server would. -/
theorem Table.Buckets.walk_at
    (h : t.Buckets n l tail) (hb : b < n) (hmin : valMin < v) (hmax : v < valMax) :
  ∃ prev, walk t.mem.next (fun a => t.mem.val a < v) t.mem.used.card (t.head b) = some prev ∧
    t.At l b v prev (t.mem.next prev) ∧ ¬t.mem.val (t.mem.next prev) < v
  := by
  have hend : v ≤ t.mem.val (tail b) := by
    rw [h.val_tail b hb]
    exact Int.le_of_lt hmax
  obtain ⟨prev, hprev, hwalk, hlt, hge⟩ := (h.sorted b hb).walk_eq_some
    (Nat.le_of_lt (h.length_lt hb)) (by rw [h.val_head b hb]; exact hmin) hend
  exact ⟨prev, hwalk, ⟨hprev, rfl, hlt⟩, hge⟩

theorem Filled.holds (h : Filled n t) (hn : 1 ≤ n) :
  ∃ l tail S, t.Holds n l tail S
  := by
  induction h with
  | new alloc t hinj hzero hnew => exact ⟨_, _, _, holds_htNew hinj hzero hnew⟩
  | add t t' v new result _ hv hnew hadd ih =>
      obtain ⟨l, tail, S, ht⟩ := ih
      obtain ⟨prev, hwalk, hat, hge⟩ := ht.buckets.walk_at (bucketOf_lt hn v) hv.1 hv.2
      obtain ⟨l', hfinish, -⟩ := ht.finish hn .add hat hge hv.2 hnew
      rw [htAdd2, setSeqAddIntern2, hwalk] at hadd
      obtain ⟨rfl, -⟩ := Prod.mk.inj (Option.some.inj hadd)
      exact ⟨_, _, _, hfinish⟩

end Buckets

/-! ### The servers -/

structure State.Inv (s : State C) (n : Nat) (S₀ : Finset Int) (l : Nat → List Addr)
    (tail : Nat → Addr) (S : Finset Int) : Prop where
  holds : s.table.Holds n l tail S
  legal : Legal S₀ s.log S
  waiting : ∀ c r, s.client c = .waiting r →
    r = htRequest r.op n r.val ∧ valMin < r.val ∧ r.val < valMax
  walking : ∀ k c r prev next, s.server k = .walking c r prev next →
    s.client c = .waiting r ∧ r.server = k ∧ s.table.At l r.set r.val prev next
  returned : ∀ c r result, s.client c = .returned r result →
    (s.log.filter (·.client = c)).getLast? = some ⟨c, r.op, r.val, result⟩

section Step

variable {s s' : State C} {n : Nat} {S₀ S : Finset Int} {l : Nat → List Addr} {tail : Nat → Addr}

@[simp]
theorem State.goClient_self {c : C} {client : Client} :
  (s.goClient c client).client c = client
  := by
  simp [State.goClient]

theorem State.goClient_of_ne {c c' : C} {client : Client} (hc : c' ≠ c) :
  (s.goClient c client).client c' = s.client c'
  := by
  simp [State.goClient, hc]

omit [DecidableEq C] in
@[simp]
theorem State.goServer_self {k : Nat} {server : Server C} :
  (s.goServer k server).server k = server
  := by
  simp [State.goServer]

omit [DecidableEq C] in
theorem State.goServer_of_ne {k k' : Nat} {server : Server C} (hk : k' ≠ k) :
  (s.goServer k server).server k' = s.server k'
  := by
  simp [State.goServer, hk]

/-- A call, or a return. -/
theorem State.Inv.goClient
    {c : C} {client : Client} (h : s.Inv n S₀ l tail S) (hc : ∀ r, s.client c ≠ .waiting r)
    (hwaiting : ∀ r, client = .waiting r →
      r = htRequest r.op n r.val ∧ valMin < r.val ∧ r.val < valMax)
    (hreturned : ∀ r result, client ≠ .returned r result) :
  (s.goClient c client).Inv n S₀ l tail S
  := by
  refine ⟨h.holds, h.legal, ?_, ?_, ?_⟩
  · intro c' r hc'
    by_cases heq : c' = c
    · subst heq
      rw [State.goClient_self] at hc'
      exact hwaiting r hc'
    · rw [State.goClient_of_ne heq] at hc'
      exact h.waiting c' r hc'
  · intro k c' r prev next hk
    obtain ⟨hclient, hserver, hat⟩ := h.walking k c' r prev next hk
    refine ⟨?_, hserver, hat⟩
    rw [State.goClient_of_ne]
    · exact hclient
    · rintro rfl
      exact hc r hclient
  · intro c' r result hc'
    by_cases heq : c' = c
    · subst heq
      rw [State.goClient_self] at hc'
      exact absurd hc' (hreturned r result)
    · rw [State.goClient_of_ne heq] at hc'
      exact h.returned c' r result hc'

/-- A pointer is followed. -/
theorem State.Inv.goServer
    {k : Nat} {c : C} {r : Request} {prev next : Addr} (h : s.Inv n S₀ l tail S)
    (hclient : s.client c = .waiting r) (hserver : r.server = k)
    (hat : s.table.At l r.set r.val prev next) :
  (s.goServer k (.walking c r prev next)).Inv n S₀ l tail S
  := by
  refine ⟨h.holds, h.legal, h.waiting, ?_, h.returned⟩
  intro k' c' r' prev' next' hk'
  by_cases heq : k' = k
  · subst heq
    rw [State.goServer_self] at hk'
    obtain ⟨rfl, rfl, rfl, rfl⟩ := Server.walking.inj hk'
    exact ⟨hclient, hserver, hat⟩
  · rw [State.goServer_of_ne heq] at hk'
    exact h.walking k' c' r' prev' next' hk'

/-- The end of an operation. -/
theorem State.Inv.complete
    {k : Nat} {c : C} {r : Request} {prev next new : Addr} (h : s.Inv n S₀ l tail S) (hn : 1 ≤ n)
    (hserver : s.server k = .walking c r prev next) (hge : ¬s.table.mem.val next < r.val)
    (hnew : new ∉ s.table.mem.used ∧ new ≠ 0) :
  ∃ l' S', (s.complete k c r prev next new).Inv n S₀ l' tail S'
  := by
  obtain ⟨hclient, hk, hat⟩ := h.walking k c r prev next hserver
  obtain ⟨hr, -, hmax⟩ := h.waiting c r hclient
  have hset : r.set = bucketOf n r.val := by rw [hr]; rfl
  have hown : k = serverOf n (bucketOf n r.val) := by rw [← hk, hr]; rfl
  rw [hset] at hat
  obtain ⟨l', hholds, hresult, hframe⟩ := h.holds.finish hn r.op hat hge hmax hnew
  refine ⟨Function.update l (bucketOf n r.val) l', (r.op.spec r.val S).1, hholds, ?_, ?_, ?_, ?_⟩
  · exact h.legal.snoc (e := ⟨c, r.op, r.val, _⟩) hresult
  · intro c' r' hc'
    by_cases heq : c' = c
    · subst heq
      have hself : (s.complete k c' r prev next new).client c' = .returned r _ :=
        Function.update_self _ _ _
      rw [hself] at hc'
      cases hc'
    · have hother : (s.complete k c r prev next new).client c' = s.client c' :=
        Function.update_of_ne heq _ _
      rw [hother] at hc'
      exact h.waiting c' r' hc'
  · intro k' c' r' prev' next' hk'
    by_cases heq : k' = k
    · subst heq
      have hself : (s.complete k' c r prev next new).server k' = .idle := Function.update_self _ _ _
      rw [hself] at hk'
      cases hk'
    · have hother : (s.complete k c r prev next new).server k' = s.server k' :=
        Function.update_of_ne heq _ _
      rw [hother] at hk'
      obtain ⟨hclient', hserver', hat'⟩ := h.walking k' c' r' prev' next' hk'
      have hc : c' ≠ c := by
        rintro rfl
        rw [hclient] at hclient'
        obtain rfl := Client.waiting.inj hclient'
        exact heq (hserver'.symm.trans hk)
      have hset' : r'.set = bucketOf n r'.val := by
        rw [(h.waiting c' r' hclient').1]
        rfl
      have hb : r'.set ≠ bucketOf n r.val := by
        intro hb
        apply heq
        rw [← hserver', (h.waiting c' r' hclient').1, hown, ← hb, hset']
        rfl
      have hlt : r'.set < n := by
        rw [hset']
        exact bucketOf_lt hn _
      have hframe' := hframe r'.set hlt hb prev' (by
        rw [← List.cons_append]
        exact List.mem_append_left _ hat'.mem)
      refine ⟨(Function.update_of_ne hc _ _).trans hclient', hserver', ?_, ?_, ?_⟩
      · rw [Function.update_of_ne hb]
        exact hat'.mem
      · exact hat'.next.trans hframe'.2.1.symm
      · exact lt_of_eq_of_lt hframe'.1 hat'.lt
  · intro c' r' result hc'
    have hlog : (s.complete k c r prev next new).log =
        s.log ++ [⟨c, r.op, r.val, (r.op.finish s.table.mem r.val prev next new).2⟩] := rfl
    rw [hlog, List.filter_append]
    by_cases heq : c' = c
    · subst heq
      have hself : (s.complete k c' r prev next new).client c' =
          .returned r (r.op.finish s.table.mem r.val prev next new).2 := Function.update_self _ _ _
      rw [hself] at hc'
      obtain ⟨rfl, rfl⟩ := Client.returned.inj hc'
      rw [List.filter_cons_of_pos (by simp), List.filter_nil, List.getLast?_concat]
    · have hother : (s.complete k c r prev next new).client c' = s.client c' :=
        Function.update_of_ne heq _ _
      rw [hother] at hc'
      rw [List.filter_cons_of_neg (by simpa using Ne.symm heq), List.filter_nil, List.append_nil]
      exact h.returned c' r' result hc'

theorem State.Inv.step (h : s.Inv n S₀ l tail S) (hn : 1 ≤ n) (hstep : s.Step n s') :
  ∃ l' S', s'.Inv n S₀ l' tail S'
  := by
  cases hstep with
  | invoke c v r hclient hval hr =>
      refine ⟨l, S, h.goClient (by rw [hclient]; nofun) ?_ nofun⟩
      rintro r' ⟨⟩
      rcases hr with rfl | rfl | rfl
      · exact ⟨rfl, hval⟩
      · exact ⟨rfl, hval⟩
      · exact ⟨rfl, hval⟩
  | accept c r hserver hclient =>
      obtain ⟨hr, hmin, -⟩ := h.waiting c r hclient
      have hlt : r.set < n := by
        rw [hr]
        exact bucketOf_lt hn _
      exact ⟨l, S, h.goServer hclient rfl (h.holds.buckets.at_head hlt hmin)⟩
  | advance k c r prev next hserver hval =>
      obtain ⟨hclient, hk, hat⟩ := h.walking k c r prev next hserver
      obtain ⟨hr, -, hmax⟩ := h.waiting c r hclient
      have hlt : r.set < n := by
        rw [hr]
        exact bucketOf_lt hn _
      exact ⟨l, S, h.goServer hclient hk (h.holds.buckets.at_next hlt hat hval hmax)⟩
  | complete k c r prev next new hserver hge hnew => exact h.complete hn hserver hge hnew
  | back c r result hclient =>
      exact ⟨l, S, h.goClient (by rw [hclient]; nofun) nofun nofun⟩

end Step

/-! ### Runs -/

/-- The state of the table in a run from the set `S₀` of size `size₀`. The lists are sorted between
their sentinels and have only values of their buckets. What has been returned is what a set returns
when the operations are executed one after the other, and the size is what remains after these. A
server has only nodes of buckets of its own. -/
def State.Good (s : State C) (n : Nat) (S₀ : Finset Int) (size₀ : Nat) : Prop :=
  ∃ l tail S, s.table.Holds n l tail S ∧ Legal S₀ s.log S ∧
    (∀ c r result, s.client c = .returned r result →
      (s.log.filter (·.client = c)).getLast? = some ⟨c, r.op, r.val, result⟩) ∧
    (∃ size, htSize s.table n = some size ∧
      size + succeeded .remove s.log = size₀ + succeeded .add s.log) ∧
    ∀ k c r prev next, s.server k = .walking c r prev next →
      k = serverOf n r.set ∧ r.set = bucketOf n r.val ∧
        prev ∈ s.table.head r.set :: l r.set ∧ next ∈ l r.set ++ [tail r.set]

/-- A table of length `n` can be made; all operations on a value go to the same bucket and the same
server; and every run from a filled table is as it should be. -/
def Correct (C : Type) [DecidableEq C] (n : Nat) : Prop :=
  (∀ alloc, Function.Injective alloc → (∀ p, alloc p ≠ 0) → ∃ t, htNew alloc n = some t) ∧
    (∀ v, bucketOf n v < n ∧ ∀ r, r = htContains n v ∨ r = htAdd n v ∨ r = htRemove n v →
      r.set = bucketOf n v ∧ r.server = serverOf n (bucketOf n v) ∧ r.server < 4) ∧
    ∀ t, Filled n t → ∃ l tail S₀ size₀, t.Holds n l tail S₀ ∧ htSize t n = some size₀ ∧
      ∀ s : State C, Reachable n t s → s.Good n S₀ size₀

theorem Reachable.inv
    {n : Nat} {t : Table} {s : State C} {S₀ : Finset Int} {l : Nat → List Addr} {tail : Nat → Addr}
    (h : Reachable n t s) (hn : 1 ≤ n) (ht : t.Holds n l tail S₀) :
  ∃ l' S, s.Inv n S₀ l' tail S
  := by
  induction h with
  | refl => exact ⟨l, S₀, ht, rfl, nofun, nofun, nofun⟩
  | tail _ hstep ih =>
      obtain ⟨l', S, hinv⟩ := ih
      exact hinv.step hn hstep

theorem State.Inv.good
    {s : State C} {n : Nat} {S₀ S : Finset Int} {l : Nat → List Addr} {tail : Nat → Addr}
    (h : s.Inv n S₀ l tail S) (hn : 1 ≤ n) :
  s.Good n S₀ S₀.card
  := by
  refine ⟨l, tail, S, h.holds, h.legal, h.returned, ⟨S.card, h.holds.htSize_eq hn, h.legal.card⟩, ?_⟩
  intro k c r prev next hk
  obtain ⟨hclient, hserver, hat⟩ := h.walking k c r prev next hk
  have hr := (h.waiting c r hclient).1
  have hset : r.set = bucketOf n r.val := by rw [hr]; rfl
  have hlt : r.set < n := by
    rw [hset]
    exact bucketOf_lt hn _
  refine ⟨?_, hset, hat.mem, h.holds.buckets.next_mem hlt hat⟩
  rw [← hserver, hset, hr]
  rfl

/-- A table with as many buckets as the array has room for is built, and a request goes to the server
of the bucket of its value. In every state that clients and servers reach together, the table holds
the set that the requests done so far have made, and these were answered as operations on a set. -/
theorem hashTable_correct (n : Nat) (hn : 1 ≤ n) (hmax : n ≤ maxHtLength) :
  Correct C n
  := by
  refine ⟨?_, ?_, ?_⟩
  · intro alloc _ _
    rw [← Option.isSome_iff_exists, htNew_isSome]
    exact decide_eq_true hmax
  · intro v
    refine ⟨bucketOf_lt hn v, ?_⟩
    rintro r (rfl | rfl | rfl)
    · exact ⟨rfl, rfl, serverOf_lt n _⟩
    · exact ⟨rfl, rfl, serverOf_lt n _⟩
    · exact ⟨rfl, rfl, serverOf_lt n _⟩
  · intro t ht
    obtain ⟨l, tail, S₀, hholds⟩ := ht.holds hn
    refine ⟨l, tail, S₀, S₀.card, hholds, hholds.htSize_eq hn, ?_⟩
    intro s hs
    obtain ⟨l', S, hinv⟩ := hs.inv hn hholds
    exact hinv.good hn

/-- The addresses 1, 2, 3 and so on, in the order in which `ht_new` calls `malloc`. -/
def firstFree (p : Nat × Bool) : Addr := 2 * p.1 + (if p.2 then 2 else 1)

theorem firstFree_injective :
  Function.Injective firstFree
  := by
  rintro ⟨b, x⟩ ⟨b', x'⟩ heq
  cases x <;> cases x' <;> simp [firstFree] at heq ⊢ <;> omega

/-- Two servers are in the lists of their buckets at the same time. -/
theorem hashTable_correct_two :
  ∃ (t : Table) (s : State Bool), Filled 6 t ∧ Reachable 6 t s ∧
    s.server 0 = .walking true (htAdd 6 0) 1 2 ∧ s.server 3 = .walking false (htAdd 6 5) 11 12 ∧
    ∃ S₀ size₀, s.Good 6 S₀ size₀
  := by
  have hfilled : Filled 6 ((htNew firstFree 6).get rfl) :=
    .new firstFree _ firstFree_injective (by rintro ⟨b, x⟩; cases x <;> simp [firstFree]) rfl
  have h : Reachable (C := Bool) 6 _ (State.start ((htNew firstFree 6).get rfl)) := .refl
  have h := h.tail (.invoke true 0 (htAdd 6 0) rfl (by decide) (.inr (.inl rfl)))
  have h := h.tail (.invoke false 5 (htAdd 6 5) rfl (by decide) (.inr (.inl rfl)))
  have h := h.tail (.accept true (htAdd 6 0) rfl rfl)
  have h := h.tail (.accept false (htAdd 6 5) rfl rfl)
  obtain ⟨-, -, hruns⟩ := hashTable_correct (C := Bool) 6 (by decide) (by decide)
  obtain ⟨l, tail, S₀, size₀, -, -, hgood⟩ := hruns _ hfilled
  exact ⟨_, _, hfilled, h, rfl, rfl, S₀, size₀, hgood _ h⟩

/-- The array has no entry for the last bucket of a table that is longer than it. -/
theorem hashTable_beyondArray :
  ¬Correct Bool (maxHtLength + 1)
  := by
  rintro ⟨hnew, -, -⟩
  obtain ⟨t, ht⟩ := hnew firstFree firstFree_injective
    (by rintro ⟨b, x⟩; cases x <;> simp [firstFree])
  have hsome := htNew_isSome firstFree (maxHtLength + 1)
  rw [ht, decide_eq_false (by omega)] at hsome
  cases hsome

end HashTable
