import Ffwd.Lib.Path

/-!
# The lazy list

The set of integers of `ffwd_lazy.c`: a sorted list from a sentinel to another, with the
traversals left to the clients while the insertions and deletions are executed by the server. The
lowest bit of a pointer to the next node is the mark that a deletion leaves in the node. The server
validates the two neighbouring nodes a client has come to by comparing pointers.
-/

namespace LazyList

open Linked

/-! ### Pointers with a mark -/

abbrev Addr := BitVec 64

def longMin : Addr := 0x8000000000000000#64

def longMax : Addr := 0x7fffffffffffffff#64

def isMarkedRef (i : Addr) : Bool := (i &&& (longMin + 1)).setWidth 32 != 0

def unsetMark (i : Addr) : Addr := i &&& (longMax - 1)

def setMark (i : Addr) : Addr := unsetMark i + 1

/-- What is promised of the pointers `malloc` returns. -/
def Aligned (a : Addr) : Prop := a &&& (longMin + 1) = 0

instance (a : Addr) : Decidable (Aligned a) :=
  inferInstanceAs (Decidable (a &&& (longMin + 1) = 0))

theorem aligned_unsetMark (i : Addr) :
  Aligned (unsetMark i)
  := by
  rw [Aligned, unsetMark, BitVec.and_assoc,
    show (longMax - 1) &&& (longMin + 1) = 0 by decide]
  apply BitVec.and_zero

theorem unsetMark_of_aligned {a : Addr} (h : Aligned a) :
  unsetMark a = a
  := by
  have hsplit : a &&& ((longMin + 1) ||| (longMax - 1)) = a := by
    rw [show (longMin + 1) ||| (longMax - 1) = BitVec.allOnes 64 by decide, BitVec.and_allOnes]
  rw [BitVec.and_or_distrib_left, h] at hsplit
  apply BitVec.zero_or.symm.trans hsplit

theorem setMark_eq (i : Addr) :
  setMark i = unsetMark i ||| 1
  := by
  rw [setMark, BitVec.add_eq_or_of_and_eq_zero]
  rw [unsetMark, BitVec.and_assoc, show (longMax - 1) &&& 1 = 0 by decide]
  apply BitVec.and_zero

@[simp]
theorem unsetMark_setMark (i : Addr) :
  unsetMark (setMark i) = unsetMark i
  := by
  rw [setMark_eq, unsetMark, unsetMark, BitVec.and_or_distrib_right, BitVec.and_assoc,
    BitVec.and_self, show (1 : Addr) &&& (longMax - 1) = 0 by decide]
  apply BitVec.or_zero

theorem isMarkedRef_of_aligned {a : Addr} (h : Aligned a) :
  isMarkedRef a = false
  := by
  rw [isMarkedRef, h]
  decide

theorem isMarkedRef_setMark (i : Addr) :
  isMarkedRef (setMark i) = true
  := by
  have haligned := aligned_unsetMark i
  rw [Aligned] at haligned
  rw [isMarkedRef, setMark_eq, BitVec.and_or_distrib_right, haligned]
  decide

/-! ### The operations -/

def valMin : Int := -2147483648

def valMax : Int := 2147483647

/-- The nodes: those in `used` have been allocated, and none is ever freed. -/
structure Memory where
  val : Addr → Int
  next : Addr → Addr
  used : Finset Addr
  head : Addr

/-- An address that `malloc` may return. -/
def Memory.Fresh (m : Memory) (a : Addr) : Prop := a ∉ m.used ∧ Aligned a ∧ a ≠ 0

instance (m : Memory) (a : Addr) : Decidable (m.Fresh a) :=
  inferInstanceAs (Decidable (a ∉ m.used ∧ Aligned a ∧ a ≠ 0))

def newNodeL (m : Memory) (a : Addr) (val : Int) (next : Addr) : Memory :=
  { m with
    val := Function.update m.val a val
    next := Function.update m.next a next
    used := insert a m.used }

def Memory.setNext (m : Memory) (a next : Addr) : Memory :=
  { m with next := Function.update m.next a next }

def setNewL (max min : Addr) : Memory :=
  newNodeL (newNodeL ⟨fun _ => 0, fun _ => 0, ∅, min⟩ max valMax 0) min valMin max

def parseValidate (m : Memory) (pred curr : Addr) : Bool :=
  !isMarkedRef pred && !isMarkedRef curr && m.next pred == curr

/-- The server inserts a value between two nodes; `new` is what `malloc` returns. -/
def parseInsertIntern (m : Memory) (new pred curr : Addr) (val : Int) : Memory × Int :=
  if parseValidate m pred curr then
    if m.val curr ≠ val then ((newNodeL m new val curr).setNext pred new, 1) else (m, 0)
  else (m, -1)

/-- The first write of a deletion. -/
def Memory.mark (m : Memory) (curr : Addr) : Memory := m.setNext curr (setMark (m.next curr))

/-- The second write of a deletion. -/
def Memory.unlink (m : Memory) (pred curr : Addr) : Memory :=
  m.setNext pred (unsetMark (m.next curr))

def parseDeleteIntern (m : Memory) (pred curr : Addr) (val : Int) : Memory × Int :=
  if parseValidate m pred curr then
    if val = m.val curr then ((m.mark curr).unlink pred curr, 1) else (m, 0)
  else (m, -1)

/-- The insertion of the main thread before there are others, with a bound on the rounds of its
loop. -/
def parseInsert2 (n : Nat) (m : Memory) (new : Addr) (val : Int) : Option (Memory × Bool) := do
  let pred ← walk (fun a => unsetMark (m.next a)) (fun a => m.val a < val) n m.head
  let curr := unsetMark (m.next pred)
  let result := parseValidate m pred curr && m.val curr != val
  if result then some ((newNodeL m new val curr).setNext pred new, result) else some (m, result)

/-- The loop of `set_size_l` from the node on, with a bound on its rounds. -/
def countNodes (m : Memory) : Nat → Addr → Option Nat
  | 0, _ => none
  | n + 1, node => if m.next node ≠ 0 then (countNodes m n (m.next node)).map (· + 1) else some 0

def setSizeL (m : Memory) (n : Nat) : Option Nat := countNodes m n (m.next m.head)

/-! ### The clients and the server -/

inductive Op where
  | add
  | remove
  deriving DecidableEq

/-- Where a client is: outside of the operations, in the traversal of an update, waiting for the
server with the nodes it has come to, back from the server with the result, or in `parse_find` or
back from it. -/
inductive Client where
  | idle
  | walking (op : Op) (val : Int) (pred curr : Addr)
  | waiting (op : Op) (val : Int) (pred curr : Addr)
  | returned (op : Op) (val result : Int)
  | finding (val : Int) (curr : Addr)
  | found (val : Int) (result : Bool)
  deriving DecidableEq

/-- The server is between two requests, or between the two writes of a deletion. -/
inductive Server (C : Type) where
  | idle
  | unlinking (c : C) (pred curr : Addr)
  deriving DecidableEq

/-- The memory, the server and the clients, with the numbers of insertions and deletions that have
returned 1. -/
structure State (C : Type) where
  mem : Memory
  server : Server C
  client : C → Client
  added : Nat
  removed : Nat

variable {C : Type} [DecidableEq C]

def State.start (m : Memory) : State C := ⟨m, .idle, fun _ => .idle, 0, 0⟩

def State.go (s : State C) (c : C) (client : Client) : State C :=
  { s with client := Function.update s.client c client }

/-- A read of a client, or a write of the server. -/
inductive State.Step (s : State C) : State C → Prop where
  | invoke (c : C) (op : Op) (val : Int) (hclient : s.client c = .idle)
      (hval : valMin < val ∧ val < valMax) :
      Step s (s.go c (.walking op val s.mem.head (unsetMark (s.mem.next s.mem.head))))
  | advance (c : C) (op : Op) (val : Int) (pred curr : Addr)
      (hclient : s.client c = .walking op val pred curr) (hval : s.mem.val curr < val) :
      Step s (s.go c (.walking op val curr (unsetMark (s.mem.next curr))))
  | delegate (c : C) (op : Op) (val : Int) (pred curr : Addr)
      (hclient : s.client c = .walking op val pred curr) (hval : ¬s.mem.val curr < val) :
      Step s (s.go c (.waiting op val pred curr))
  | insert (c : C) (val : Int) (pred curr new : Addr) (hserver : s.server = .idle)
      (hclient : s.client c = .waiting .add val pred curr)
      (hnew : (parseInsertIntern s.mem new pred curr val).2 = 1 → s.mem.Fresh new) :
      Step s ({ s with
        mem := (parseInsertIntern s.mem new pred curr val).1
        added := if (parseInsertIntern s.mem new pred curr val).2 = 1 then s.added + 1
          else s.added }.go c (.returned .add val (parseInsertIntern s.mem new pred curr val).2))
  | refuse (c : C) (val : Int) (pred curr : Addr) (hserver : s.server = .idle)
      (hclient : s.client c = .waiting .remove val pred curr)
      (hresult : (parseDeleteIntern s.mem pred curr val).2 ≠ 1) :
      Step s (s.go c (.returned .remove val (parseDeleteIntern s.mem pred curr val).2))
  | mark (c : C) (val : Int) (pred curr : Addr) (hserver : s.server = .idle)
      (hclient : s.client c = .waiting .remove val pred curr)
      (hvalidate : parseValidate s.mem pred curr = true) (hval : val = s.mem.val curr) :
      Step s { s with mem := s.mem.mark curr, server := .unlinking c pred curr }
  | unlink (c : C) (val : Int) (pred curr : Addr) (hserver : s.server = .unlinking c pred curr)
      (hclient : s.client c = .waiting .remove val pred curr) :
      Step s ({ s with
        mem := s.mem.unlink pred curr
        server := .idle
        removed := s.removed + 1 }.go c (.returned .remove val 1))
  | find (c : C) (val : Int) (hclient : s.client c = .idle)
      (hval : valMin < val ∧ val < valMax) : Step s (s.go c (.finding val s.mem.head))
  | look (c : C) (val : Int) (curr : Addr) (hclient : s.client c = .finding val curr)
      (hval : s.mem.val curr < val) :
      Step s (s.go c (.finding val (unsetMark (s.mem.next curr))))
  | answer (c : C) (val : Int) (curr : Addr) (hclient : s.client c = .finding val curr)
      (hval : ¬s.mem.val curr < val) :
      Step s (s.go c (.found val (s.mem.val curr = val && !isMarkedRef curr)))
  | backUpdate (c : C) (op : Op) (val result : Int)
      (hclient : s.client c = .returned op val result) : Step s (s.go c .idle)
  | backFind (c : C) (val : Int) (result : Bool) (hclient : s.client c = .found val result) :
      Step s (s.go c .idle)

/-! ### The list in memory -/

/-- The nodes from an address on, as many as `n`. -/
def Memory.nodes (m : Memory) : Nat → Addr → List Addr
  | 0, _ => []
  | n + 1, a => if a = 0 then [] else a :: m.nodes n (unsetMark (m.next a))

/-- The nodes that can be reached from the head. -/
def Memory.list (m : Memory) : List Addr := m.nodes m.used.card m.head

/-- The abstract set. -/
def Memory.set (m : Memory) : Finset Int :=
  (m.list.map m.val).toFinset.filter (fun v => valMin < v ∧ v < valMax)

/-- The successor of a node, marked or not. -/
def Memory.succ (m : Memory) : Addr → Addr := unsetMark ∘ m.next

/-- The list leads from the head through the nodes of `l` to `tail`, with increasing values. The
nodes that are not in the list any more still lead upwards. -/
structure Memory.Ordered (m : Memory) (l : List Addr) (tail : Addr) : Prop where
  path : Path m.succ m.head l tail
  sorted : (m.head :: (l ++ [tail])).Pairwise (m.val · < m.val ·)
  val_head : m.val m.head = valMin
  val_tail : m.val tail = valMax
  next_tail : m.next tail = 0
  aligned : ∀ a ∈ m.used, Aligned a
  ne_zero : ∀ a ∈ m.used, a ≠ 0
  used : ∀ a ∈ m.head :: (l ++ [tail]), a ∈ m.used
  up : ∀ a ∈ m.used, a ≠ tail → m.succ a ∈ m.used ∧ m.val a < m.val (m.succ a)

/-- The pointers of the nodes in the list have no mark, except for a node about to be unlinked, and
those of the others do. -/
structure Memory.Marks (m : Memory) (nodes : List Addr) (busy : Option Addr) : Prop where
  aligned : ∀ a ∈ nodes, busy ≠ some a → Aligned (m.next a)
  marked : ∀ a ∈ m.used, a ∉ nodes ∨ busy = some a → isMarkedRef (m.next a) = true

section Memory

variable {m m' : Memory} {l l₁ l₂ : List Addr} {tail pred curr new : Addr} {val : Int}

theorem Memory.setNext_self {a x : Addr} :
  (m.setNext a x).next a = x
  :=
  Function.update_self _ _ _

theorem Memory.setNext_of_ne {a b x : Addr} (hb : b ≠ a) :
  (m.setNext a x).next b = m.next b
  :=
  Function.update_of_ne hb _ _

theorem Memory.Ordered.nodup (h : m.Ordered l tail) :
  (m.head :: (l ++ [tail])).Nodup
  := by
  apply h.sorted.imp
  rintro a b hab rfl
  exact Int.lt_irrefl _ hab

theorem Memory.Ordered.nodup_val (h : m.Ordered l tail) :
  (l.map m.val).Nodup
  := by
  have hsorted := (List.pairwise_append.mp (List.pairwise_cons.mp h.sorted).2).1
  apply List.Pairwise.map m.val _ hsorted
  intro a b hab heq
  rw [heq] at hab
  exact Int.lt_irrefl _ hab

theorem Memory.nodes_eq
    {n : Nat} {b e : Addr} (h : Path m.succ b l e) (hne : ∀ a ∈ b :: (l ++ [e]), a ≠ 0)
    (he : m.next e = 0) (hn : l.length + 2 ≤ n) :
  m.nodes n b = b :: (l ++ [e])
  := by
  induction l generalizing b n with
  | nil =>
      obtain ⟨n, rfl⟩ : ∃ n', n = n' + 1 + 1 := ⟨n - 2, by simp at hn; omega⟩
      have hnext : unsetMark (m.next b) = e := h
      have hend : m.nodes n (unsetMark (m.next e)) = [] := by
        rw [he, show unsetMark 0 = 0 by decide]
        cases n with
        | zero => rfl
        | succ n => exact if_pos rfl
      rw [Memory.nodes, if_neg (hne b (by simp)), hnext, Memory.nodes,
        if_neg (hne e (by simp)), hend]
      rfl
  | cons a l ih =>
      obtain ⟨n, rfl⟩ : ∃ n', n = n' + 1 := ⟨n - 1, by simp at hn; omega⟩
      have hnext : unsetMark (m.next b) = a := h.1
      rw [Memory.nodes, if_neg (hne b (by simp)), hnext, ih h.2]
      · rfl
      · intro c hc
        exact hne c (List.mem_cons_of_mem b hc)
      · exact Nat.le_of_succ_le_succ hn

theorem Memory.Ordered.length_le (h : m.Ordered l tail) :
  l.length + 2 ≤ m.used.card
  := by
  have hsubset : (m.head :: (l ++ [tail])).toFinset ⊆ m.used := by
    intro a ha
    exact h.used a (List.mem_toFinset.mp ha)
  have hcard := Finset.card_le_card hsubset
  rw [List.toFinset_card_of_nodup h.nodup, List.length_cons, List.length_append] at hcard
  exact hcard

theorem Memory.Ordered.list_eq (h : m.Ordered l tail) :
  m.list = m.head :: (l ++ [tail])
  := by
  apply Memory.nodes_eq h.path _ h.next_tail h.length_le
  intro a ha
  exact h.ne_zero a (h.used a ha)

theorem Memory.Ordered.head_mem (h : m.Ordered l tail) :
  m.head ∈ m.used
  := by
  apply h.used
  exact List.mem_cons_self

theorem Memory.Ordered.tail_mem (h : m.Ordered l tail) :
  tail ∈ m.used
  := by
  apply h.used
  simp

/-- The values of the nodes between the sentinels. -/
theorem Memory.Ordered.bounds {a : Addr} (h : m.Ordered l tail) (ha : a ∈ l) :
  valMin < m.val a ∧ m.val a < valMax
  := by
  obtain ⟨hhead, hsorted⟩ := List.pairwise_cons.mp h.sorted
  obtain ⟨-, -, htail⟩ := List.pairwise_append.mp hsorted
  rw [← h.val_head, ← h.val_tail]
  exact ⟨hhead a (List.mem_append_left _ ha), htail a ha tail List.mem_cons_self⟩

theorem Memory.Ordered.set_eq (h : m.Ordered l tail) :
  m.set = (l.map m.val).toFinset
  := by
  ext v
  rw [Memory.set, h.list_eq, Finset.mem_filter, List.mem_toFinset, List.mem_toFinset, List.mem_map,
    List.mem_map]
  constructor
  · rintro ⟨⟨a, ha, rfl⟩, hmin, hmax⟩
    rcases List.mem_cons.mp ha with rfl | ha
    · rw [h.val_head] at hmin
      exact absurd hmin (Int.lt_irrefl _)
    · rcases List.mem_append.mp ha with ha | ha
      · exact ⟨a, ha, rfl⟩
      · rw [List.mem_singleton.mp ha, h.val_tail] at hmax
        exact absurd hmax (Int.lt_irrefl _)
  · rintro ⟨a, ha, rfl⟩
    exact ⟨⟨a, by simp [ha], rfl⟩, h.bounds ha⟩

theorem Memory.Ordered.ne_tail {a : Addr} (h : m.Ordered l tail) (ha : m.val a < valMax) :
  a ≠ tail
  := by
  rintro rfl
  rw [h.val_tail] at ha
  exact Int.lt_irrefl _ ha

/-- The list before and after a pointer from a node to its neighbour. -/
theorem Memory.Ordered.split (h : m.Ordered l tail) (hpred : pred ∈ m.head :: l) :
  ∃ l₁ l₂, l = l₁ ++ l₂ ∧ last m.head l₁ = pred ∧ l₂.head?.getD tail = m.succ pred
  := by
  obtain ⟨l₁, l₂, rfl, hlast⟩ := exists_last_eq hpred
  obtain ⟨h₁, -⟩ := Path.append_iff.mp h.path
  refine ⟨l₁, l₂, rfl, hlast, ?_⟩
  rw [← hlast, h₁.next_last]

/-- What the comparison of the pointers tells of the two nodes. -/
theorem Memory.Ordered.validate
    (h : m.Ordered l tail) (hmarks : m.Marks (m.head :: (l ++ [tail])) none)
    (hpred : pred ∈ m.used) (hcurr : curr ∈ m.used)
    (hvalidate : parseValidate m pred curr = true) :
  m.succ pred = curr ∧ pred ∈ m.head :: l
  := by
  simp only [parseValidate, Bool.and_eq_true, beq_iff_eq] at hvalidate
  have hnext := hvalidate.2
  constructor
  · show unsetMark (m.next pred) = curr
    rw [hnext, unsetMark_of_aligned (h.aligned curr hcurr)]
  · by_contra hnot
    have hne : pred ≠ tail := by
      rintro rfl
      rw [h.next_tail] at hnext
      exact h.ne_zero curr hcurr hnext.symm
    have hmarked := hmarks.marked pred hpred (.inl (by
      intro hmem
      rw [← List.cons_append] at hmem
      rcases List.mem_append.mp hmem with hmem | hmem
      · exact hnot hmem
      · exact hne (List.mem_singleton.mp hmem)))
    rw [hnext, isMarkedRef_of_aligned (h.aligned curr hcurr)] at hmarked
    exact Bool.false_ne_true hmarked

/-! ### Insertion -/

/-- The nodes on the two sides of a new value. -/
theorem Memory.Ordered.sides
    (h : m.Ordered (l₁ ++ l₂) tail) (hlt : m.val (last m.head l₁) < val)
    (hgt : val < m.val (l₂.head?.getD tail)) :
  (∀ a ∈ m.head :: l₁, m.val a < val) ∧ ∀ a ∈ l₂ ++ [tail], val < m.val a
  := by
  have hsorted := h.sorted
  rw [List.append_assoc, ← List.cons_append] at hsorted
  obtain ⟨hsorted₁, hsorted₂, -⟩ := List.pairwise_append.mp hsorted
  constructor
  · intro a ha
    rcases rel_last hsorted₁ ha with rfl | hlast
    · exact hlt
    · exact Int.lt_trans hlast hlt
  · intro a ha
    cases l₂ with
    | nil =>
        rw [List.mem_singleton.mp ha]
        exact hgt
    | cons c l₂ =>
        rcases List.mem_cons.mp ha with rfl | ha
        · exact hgt
        · apply Int.lt_trans hgt
          exact (List.pairwise_cons.mp hsorted₂).1 a ha

/-- The memory `m'` is `m` after the two writes that put the node `new` behind `pred`. -/
structure Memory.Inserted (m m' : Memory) (pred curr new : Addr) (val : Int) : Prop where
  head : m'.head = m.head
  used : m'.used = Insert.insert new m.used
  val_new : m'.val new = val
  val_of_used : ∀ a ∈ m.used, m'.val a = m.val a
  next_pred : m'.next pred = new
  next_new : m'.next new = curr
  next_of_used : ∀ a ∈ m.used, a ≠ pred → m'.next a = m.next a

theorem Memory.inserted (curr : Addr) (val : Int) (hpred : pred ∈ m.used) (hnew : new ∉ m.used) :
  m.Inserted ((newNodeL m new val curr).setNext pred new) pred curr new val
  := by
  have hne : ∀ a ∈ m.used, a ≠ new := by
    rintro a ha rfl
    exact hnew ha
  constructor
  · rfl
  · rfl
  · exact Function.update_self _ _ _
  · exact fun a ha => Function.update_of_ne (hne a ha) _ _
  · exact Function.update_self _ _ _
  · exact (Function.update_of_ne (hne pred hpred).symm _ _).trans (Function.update_self _ _ _)
  · intro a ha hne'
    exact (Function.update_of_ne hne' _ _).trans (Function.update_of_ne (hne a ha) _ _)

section Inserted

variable (h : m.Ordered (l₁ ++ l₂) tail)
  (hi : m.Inserted m' (last m.head l₁) (l₂.head?.getD tail) new val)
include h hi

/-- The pointers without the marks. -/
theorem Memory.Inserted.succ_new :
  m'.succ new = l₂.head?.getD tail
  := by
  show unsetMark (m'.next new) = l₂.head?.getD tail
  rw [hi.next_new]
  apply unsetMark_of_aligned
  apply h.aligned
  apply h.used
  cases l₂ <;> simp

omit h in
theorem Memory.Inserted.succ_pred (haligned : Aligned new) :
  m'.succ (last m.head l₁) = new
  := by
  show unsetMark (m'.next (last m.head l₁)) = new
  rw [hi.next_pred, unsetMark_of_aligned haligned]

omit h in
theorem Memory.Inserted.succ_of_used {a : Addr} (ha : a ∈ m.used) (hne : a ≠ last m.head l₁) :
  m'.succ a = m.succ a
  := by
  show unsetMark (m'.next a) = unsetMark (m.next a)
  rw [hi.next_of_used a ha hne]

/-- The list has the new node. -/
theorem Memory.Inserted.path (hnew : m.Fresh new) :
  Path m'.succ m'.head (l₁ ++ new :: l₂) tail
  := by
  have hnotMem : new ∉ m.head :: (l₁ ++ l₂) := by
    intro hin
    apply hnew.1
    apply h.used
    rw [← List.cons_append]
    exact List.mem_append_left _ hin
  have hnodup := h.nodup
  rw [← List.cons_append] at hnodup
  rw [hi.head]
  apply (h.path.insert (List.nodup_append.mp hnodup).1 hnotMem).congr_of_mem
  intro a ha
  by_cases hpred : a = last m.head l₁
  · rw [hpred, Function.update_self, hi.succ_pred hnew.2.1]
  · rw [Function.update_of_ne hpred]
    by_cases hanew : a = new
    · rw [hanew, Function.update_self, hi.succ_new h, (Path.append_iff.mp h.path).1.next_last]
    · rw [Function.update_of_ne hanew]
      apply hi.succ_of_used _ hpred
      apply h.used
      simp only [List.mem_cons, List.mem_append] at ha ⊢
      tauto

/-- The values are still in order. -/
theorem Memory.Inserted.sorted
    (hlt : m.val (last m.head l₁) < val) (hgt : val < m.val (l₂.head?.getD tail)) :
  (m'.head :: (l₁ ++ new :: l₂ ++ [tail])).Pairwise (m'.val · < m'.val ·)
  := by
  obtain ⟨hbefore, hafter⟩ := h.sides hlt hgt
  have hsorted := h.sorted
  rw [List.append_assoc, ← List.cons_append] at hsorted
  obtain ⟨hsorted₁, hsorted₂, hcross⟩ := List.pairwise_append.mp hsorted
  have hused₁ : ∀ a ∈ m.head :: l₁, m'.val a = m.val a := by
    intro a ha
    apply hi.val_of_used a (h.used a _)
    rw [List.append_assoc, ← List.cons_append]
    exact List.mem_append_left _ ha
  have hused₂ : ∀ a ∈ l₂ ++ [tail], m'.val a = m.val a := by
    intro a ha
    apply hi.val_of_used a (h.used a _)
    rw [List.append_assoc, ← List.cons_append]
    exact List.mem_append_right _ ha
  rw [hi.head, List.append_assoc, List.cons_append, ← List.cons_append, List.pairwise_append]
  refine ⟨?_, List.pairwise_cons.mpr ⟨?_, ?_⟩, ?_⟩
  · apply hsorted₁.imp_of_mem
    intro a b ha hb hab
    rw [hused₁ a ha, hused₁ b hb]
    exact hab
  · intro a ha
    rw [hi.val_new, hused₂ a ha]
    exact hafter a ha
  · apply hsorted₂.imp_of_mem
    intro a b ha hb hab
    rw [hused₂ a ha, hused₂ b hb]
    exact hab
  · intro a ha b hb
    rw [hused₁ a ha]
    rcases List.mem_cons.mp hb with rfl | hb
    · rw [hi.val_new]
      exact hbefore a ha
    · rw [hused₂ b hb]
      exact hcross a ha b hb

/-- The pointers lead to greater values. -/
theorem Memory.Inserted.up
    (hnew : Aligned new) (hlt : m.val (last m.head l₁) < val) (hgt : val < m.val (l₂.head?.getD tail)) :
  ∀ a ∈ m'.used, a ≠ tail → m'.succ a ∈ m'.used ∧ m'.val a < m'.val (m'.succ a)
  := by
  have hpred : last m.head l₁ ∈ m.used := by
    apply h.used
    rw [List.append_assoc, ← List.cons_append]
    exact List.mem_append_left _ last_mem
  have hcurr : l₂.head?.getD tail ∈ m.used := by
    apply h.used
    cases l₂ <;> simp
  intro a ha hatail
  rw [hi.used, Finset.mem_insert] at ha ⊢
  rcases ha with rfl | ha
  · rw [hi.succ_new h, hi.val_new, hi.val_of_used _ hcurr]
    exact ⟨.inr hcurr, hgt⟩
  · by_cases hapred : a = last m.head l₁
    · rw [hapred, hi.succ_pred hnew, hi.val_new, hi.val_of_used _ hpred]
      exact ⟨.inl rfl, hlt⟩
    · obtain ⟨hup, hval⟩ := h.up a ha hatail
      rw [hi.succ_of_used ha hapred, hi.val_of_used a ha, hi.val_of_used _ hup]
      exact ⟨.inr hup, hval⟩

end Inserted

theorem mem_inserted {a : Addr} :
  a ∈ m.head :: (l₁ ++ new :: l₂ ++ [tail]) ↔ a = new ∨ a ∈ m.head :: (l₁ ++ l₂ ++ [tail])
  := by
  simp only [List.mem_cons, List.mem_append]
  tauto

/-- The marks are as before. -/
theorem Memory.Inserted.marks
    (hi : m.Inserted m' pred curr new val) (hmarks : m.Marks (m.head :: (l₁ ++ l₂ ++ [tail])) none)
    (hused : ∀ a ∈ m.head :: (l₁ ++ l₂ ++ [tail]), a ∈ m.used)
    (hpred : pred ∈ m.head :: (l₁ ++ l₂ ++ [tail])) (hcurr : Aligned curr) (hnew : Aligned new) :
  m'.Marks (m.head :: (l₁ ++ new :: l₂ ++ [tail])) none
  := by
  constructor
  · intro a ha _
    rcases mem_inserted.mp ha with rfl | ha
    · rw [hi.next_new]
      exact hcurr
    · by_cases hapred : a = pred
      · rw [hapred, hi.next_pred]
        exact hnew
      · rw [hi.next_of_used a (hused a ha) hapred]
        exact hmarks.aligned a ha nofun
  · intro a ha hnot
    rw [hi.used, Finset.mem_insert] at ha
    rw [mem_inserted, or_iff_left (nofun : ¬none = some a), not_or] at hnot
    have ha := ha.resolve_left hnot.1
    have hapred : a ≠ pred := by
      rintro rfl
      exact hnot.2 hpred
    rw [hi.next_of_used a ha hapred]
    exact hmarks.marked a ha (.inl hnot.2)

/-- A new node is put between two neighbours. -/
theorem Memory.Ordered.insert
    (h : m.Ordered (l₁ ++ l₂) tail)
    (hmarks : m.Marks (m.head :: (l₁ ++ l₂ ++ [tail])) none)
    (hlast : last m.head l₁ = pred) (hfirst : l₂.head?.getD tail = curr)
    (hlt : m.val pred < val) (hgt : val < m.val curr) (hnew : m.Fresh new) :
  ((newNodeL m new val curr).setNext pred new).Ordered (l₁ ++ new :: l₂) tail ∧
    ((newNodeL m new val curr).setNext pred new).Marks
      (m.head :: (l₁ ++ new :: l₂ ++ [tail])) none
  := by
  subst hlast hfirst
  have hpred : last m.head l₁ ∈ m.head :: (l₁ ++ l₂ ++ [tail]) := by
    rw [List.append_assoc, ← List.cons_append]
    exact List.mem_append_left _ last_mem
  have hcurr : l₂.head?.getD tail ∈ m.used := by
    apply h.used
    cases l₂ <;> simp
  have htail : tail ≠ last m.head l₁ := by
    intro heq
    have hlast := (h.sides hlt hgt).2 tail (by simp)
    rw [heq] at hlast
    omega
  have hi := Memory.inserted (l₂.head?.getD tail) val (h.used _ hpred) hnew.1
  obtain ⟨m', hm'⟩ : ∃ m', (newNodeL m new val (l₂.head?.getD tail)).setNext (last m.head l₁) new = m' :=
    ⟨_, rfl⟩
  rw [hm'] at hi ⊢
  have hmem : ∀ a, a ∈ m'.used ↔ a = new ∨ a ∈ m.used := by
    intro a
    rw [hi.used, Finset.mem_insert]
  refine ⟨⟨hi.path h hnew, hi.sorted h hlt hgt, ?_, ?_, ?_, ?_, ?_, ?_, hi.up h hnew.2.1 hlt hgt⟩,
    hi.marks hmarks h.used hpred (h.aligned _ hcurr) hnew.2.1⟩
  · rw [hi.head, hi.val_of_used _ h.head_mem]
    exact h.val_head
  · rw [hi.val_of_used _ h.tail_mem]
    exact h.val_tail
  · rw [hi.next_of_used _ h.tail_mem htail]
    exact h.next_tail
  · intro a ha
    rcases (hmem a).mp ha with rfl | ha
    · exact hnew.2.1
    · exact h.aligned a ha
  · intro a ha
    rcases (hmem a).mp ha with rfl | ha
    · exact hnew.2.2
    · exact h.ne_zero a ha
  · intro a ha
    rw [hi.head, mem_inserted] at ha
    exact (hmem a).mpr (ha.imp id (h.used a))

/-! ### Deletion -/

/-- The mark does not change where the pointers lead. -/
theorem Memory.succ_mark (m : Memory) (curr : Addr) :
  (m.mark curr).succ = m.succ
  := by
  show unsetMark ∘ Function.update m.next curr (setMark (m.next curr)) = unsetMark ∘ m.next
  rw [Function.comp_update, unsetMark_setMark]
  exact Function.update_eq_self curr (unsetMark ∘ m.next)

theorem Memory.Ordered.mark (h : m.Ordered l tail) (hcurr : curr ≠ tail) :
  (m.mark curr).Ordered l tail
  := by
  constructor
  · rw [Memory.succ_mark]
    exact h.path
  · exact h.sorted
  · exact h.val_head
  · exact h.val_tail
  · exact (Function.update_of_ne hcurr.symm _ _).trans h.next_tail
  · exact h.aligned
  · exact h.ne_zero
  · exact h.used
  · rw [Memory.succ_mark]
    exact h.up

theorem Memory.Marks.mark {nodes : List Addr} (h : m.Marks nodes none) :
  (m.mark curr).Marks nodes (some curr)
  := by
  constructor
  · intro a ha hne
    have hcurr : a ≠ curr := by
      rintro rfl
      exact hne rfl
    rw [Memory.mark, Memory.setNext_of_ne hcurr]
    exact h.aligned a ha nofun
  · intro a ha hmarked
    by_cases hcurr : a = curr
    · rw [hcurr, Memory.mark, Memory.setNext_self]
      exact isMarkedRef_setMark _
    · rw [Memory.mark, Memory.setNext_of_ne hcurr]
      apply h.marked a ha
      refine .inl (hmarked.resolve_right ?_)
      intro heq
      exact hcurr (Option.some.inj heq).symm

theorem Memory.succ_unlink (m : Memory) (pred curr : Addr) :
  (m.unlink pred curr).succ = Function.update m.succ pred (m.succ curr)
  := by
  show unsetMark ∘ Function.update m.next pred (unsetMark (m.next curr)) = _
  rw [Function.comp_update, unsetMark_of_aligned (aligned_unsetMark _)]
  rfl

/-- A marked node is taken out of the list. -/
theorem Memory.Ordered.unlink
    (h : m.Ordered (l₁ ++ curr :: l₂) tail)
    (hmarks : m.Marks (m.head :: (l₁ ++ curr :: l₂ ++ [tail])) (some curr))
    (hlast : last m.head l₁ = pred) :
  (m.unlink pred curr).Ordered (l₁ ++ l₂) tail ∧
    (m.unlink pred curr).Marks (m.head :: (l₁ ++ l₂ ++ [tail])) none
  := by
  subst hlast
  have hnodup := h.nodup
  have hsub : (m.head :: (l₁ ++ l₂ ++ [tail])).Sublist (m.head :: (l₁ ++ curr :: l₂ ++ [tail])) := by
    apply List.Sublist.cons_cons
    apply List.Sublist.append_right
    apply List.Sublist.append_left
    exact List.sublist_cons_self _ _
  have hmem : ∀ a, a ∈ m.head :: (l₁ ++ curr :: l₂ ++ [tail]) ↔
      a = curr ∨ a ∈ m.head :: (l₁ ++ l₂ ++ [tail]) := by
    intro a
    simp only [List.mem_cons, List.mem_append]
    tauto
  have hcurr : curr ∈ l₁ ++ curr :: l₂ := by simp
  have hcurr_used : curr ∈ m.used := h.used curr ((hmem curr).mpr (.inl rfl))
  have hcurr_tail : curr ≠ tail := h.ne_tail (h.bounds hcurr).2
  have hpred : last m.head l₁ ∈ m.head :: (l₁ ++ l₂ ++ [tail]) := by
    rw [List.append_assoc, ← List.cons_append]
    exact List.mem_append_left _ last_mem
  have hcurr_not : curr ∉ m.head :: (l₁ ++ l₂ ++ [tail]) := by
    have hmiddle : (m.head :: l₁ ++ curr :: (l₂ ++ [tail])).Nodup := by
      simpa only [List.cons_append, List.append_assoc] using hnodup
    have hnot := (List.nodup_cons.mp (List.nodup_middle.mp hmiddle)).1
    simpa only [List.cons_append, List.append_assoc] using hnot
  have hcross : ∀ b ∈ curr :: (l₂ ++ [tail]), m.val (last m.head l₁) < m.val b := by
    have hsorted : (m.head :: l₁ ++ curr :: (l₂ ++ [tail])).Pairwise (m.val · < m.val ·) := by
      simpa only [List.cons_append, List.append_assoc] using h.sorted
    exact (List.pairwise_append.mp hsorted).2.2 _ last_mem
  have hnext : ∀ a, a ≠ last m.head l₁ → (m.unlink (last m.head l₁) curr).next a = m.next a := by
    intro a ha
    exact Memory.setNext_of_ne ha
  refine ⟨⟨?_, ?_, ?_, ?_, ?_, ?_, ?_, ?_, ?_⟩, ?_, ?_⟩
  · rw [Memory.succ_unlink]
    apply h.path.remove
    rw [← List.cons_append] at hnodup
    exact (List.nodup_append.mp hnodup).1
  · exact h.sorted.sublist hsub
  · exact h.val_head
  · exact h.val_tail
  · rw [hnext tail]
    · exact h.next_tail
    · intro heq
      have hlt := hcross tail (by simp)
      rw [← heq] at hlt
      exact Int.lt_irrefl _ hlt
  · exact h.aligned
  · exact h.ne_zero
  · intro a ha
    exact h.used a ((hmem a).mpr (.inr ha))
  · intro a ha hatail
    rw [Memory.succ_unlink]
    by_cases hapred : a = last m.head l₁
    · obtain ⟨hup, hval⟩ := h.up curr hcurr_used hcurr_tail
      rw [hapred, Function.update_self]
      exact ⟨hup, Int.lt_trans (hcross curr List.mem_cons_self) hval⟩
    · rw [Function.update_of_ne hapred]
      exact h.up a ha hatail
  · intro a ha _
    by_cases hapred : a = last m.head l₁
    · rw [hapred, Memory.unlink, Memory.setNext_self]
      exact aligned_unsetMark _
    · rw [hnext a hapred]
      apply hmarks.aligned a ((hmem a).mpr (.inr ha))
      intro heq
      rw [← Option.some.inj heq] at ha
      exact hcurr_not ha
  · intro a ha hnot
    rw [or_iff_left (nofun : ¬none = some a)] at hnot
    have hapred : a ≠ last m.head l₁ := by
      rintro rfl
      exact hnot hpred
    rw [hnext a hapred]
    apply hmarks.marked a ha
    by_cases hacurr : a = curr
    · exact .inr (congrArg some hacurr.symm)
    · left
      rw [hmem]
      exact not_or.mpr ⟨hacurr, hnot⟩

/-- The set after an insertion. -/
theorem Memory.set_insert
    (h : m.Ordered (l₁ ++ l₂) tail) (h' : m'.Ordered (l₁ ++ new :: l₂) tail)
    (hval : ∀ a ∈ m.used, m'.val a = m.val a) (hnew : m'.val new = val) :
  m'.set = insert val m.set
  := by
  have hmap : ∀ a ∈ l₁ ++ l₂, m'.val a = m.val a := by
    intro a ha
    apply hval a (h.used a _)
    exact List.mem_cons_of_mem _ (List.mem_append_left _ ha)
  rw [h.set_eq, h'.set_eq, ← List.map_congr_left hmap]
  ext v
  simp only [List.map_append, List.map_cons, List.mem_toFinset, List.mem_append, List.mem_cons,
    Finset.mem_insert, hnew]
  tauto

/-- The set after a deletion. -/
theorem Memory.set_erase
    (h : m.Ordered (l₁ ++ curr :: l₂) tail) (h' : m'.Ordered (l₁ ++ l₂) tail)
    (hval : m'.val = m.val) (hcurr : m.val curr = val) :
  m'.set = m.set.erase val
  := by
  have hnot : val ∉ (l₁ ++ l₂).map m.val := by
    have hnodup := h.nodup_val
    rw [List.map_append, List.map_cons, List.nodup_middle] at hnodup
    rw [← hcurr, List.map_append]
    exact (List.nodup_cons.mp hnodup).1
  rw [h.set_eq, h'.set_eq, hval]
  ext v
  rw [Finset.mem_erase, List.mem_toFinset, List.mem_toFinset]
  simp only [List.map_append, List.map_cons, List.mem_append, List.mem_cons, hcurr] at hnot ⊢
  constructor
  · intro hv
    refine ⟨?_, by tauto⟩
    rintro rfl
    exact hnot hv
  · tauto

/-! ### The operations of the server -/

/-- The nodes of a client that the server has validated are neighbours. -/
theorem Memory.Ordered.neighbours
    (h : m.Ordered l tail) (hmarks : m.Marks (m.head :: (l ++ [tail])) none)
    (hpred : pred ∈ m.used) (hcurr : curr ∈ m.used)
    (hvalidate : parseValidate m pred curr = true) :
  ∃ l₁ l₂, l = l₁ ++ l₂ ∧ last m.head l₁ = pred ∧ l₂.head?.getD tail = curr
  := by
  obtain ⟨hsucc, hmem⟩ := h.validate hmarks hpred hcurr hvalidate
  obtain ⟨l₁, l₂, hl, hlast, hfirst⟩ := h.split hmem
  exact ⟨l₁, l₂, hl, hlast, hfirst.trans hsucc⟩

/-- An insertion that returns 1 adds the value, and any other changes nothing. -/
theorem parseInsertIntern_cases
    (h : m.Ordered l tail) (hmarks : m.Marks (m.head :: (l ++ [tail])) none)
    (hpred : pred ∈ m.used) (hcurr : curr ∈ m.used) (hlt : m.val pred < val)
    (hle : val ≤ m.val curr)
    (hnew : (parseInsertIntern m new pred curr val).2 = 1 → m.Fresh new) :
  (((parseInsertIntern m new pred curr val).2 = 0 ∨
        (parseInsertIntern m new pred curr val).2 = -1) ∧
      (parseInsertIntern m new pred curr val).1 = m) ∨
    ∃ l₁ l₂, l = l₁ ++ l₂ ∧ last m.head l₁ = pred ∧ m.Fresh new ∧
      parseInsertIntern m new pred curr val =
        ((newNodeL m new val curr).setNext pred new, 1) ∧
      ((newNodeL m new val curr).setNext pred new).Ordered (l₁ ++ new :: l₂) tail ∧
      ((newNodeL m new val curr).setNext pred new).Marks
        (m.head :: (l₁ ++ new :: l₂ ++ [tail])) none ∧
      val ∉ m.set ∧
      ((newNodeL m new val curr).setNext pred new).set = insert val m.set
  := by
  rw [parseInsertIntern] at hnew ⊢
  split_ifs at hnew ⊢ with hvalidate hval
  · right
    obtain ⟨l₁, l₂, rfl, hlast, hfirst⟩ := h.neighbours hmarks hpred hcurr hvalidate
    have hgt : val < m.val curr := by omega
    have hfresh := hnew rfl
    obtain ⟨hordered, hmarks⟩ := h.insert hmarks hlast hfirst hlt hgt hfresh
    refine ⟨l₁, l₂, rfl, hlast, hfresh, rfl, hordered, hmarks, ?_, ?_⟩
    · subst hlast hfirst
      obtain ⟨hbefore, hafter⟩ := h.sides hlt hgt
      rw [h.set_eq, List.mem_toFinset, List.mem_map]
      rintro ⟨a, ha, haval⟩
      rcases List.mem_append.mp ha with ha | ha
      · have := hbefore a (List.mem_cons_of_mem _ ha)
        omega
      · have := hafter a (List.mem_append_left _ ha)
        omega
    · apply Memory.set_insert h hordered
      · intro a ha
        apply Function.update_of_ne
        rintro rfl
        exact hfresh.1 ha
      · exact Function.update_self _ _ _
  · exact .inl ⟨.inl rfl, rfl⟩
  · exact .inl ⟨.inr rfl, rfl⟩

/-- The node that a deletion marks is in the list behind the one before it. -/
theorem Memory.Ordered.delete_split
    (h : m.Ordered l tail) (hmarks : m.Marks (m.head :: (l ++ [tail])) none)
    (hpred : pred ∈ m.used) (hcurr : curr ∈ m.used) (hmax : val < valMax)
    (hvalidate : parseValidate m pred curr = true) (hval : val = m.val curr) :
  ∃ l₁ l₂, l = l₁ ++ curr :: l₂ ∧ last m.head l₁ = pred
  := by
  obtain ⟨l₁, l₂, rfl, hlast, hfirst⟩ := h.neighbours hmarks hpred hcurr hvalidate
  rw [hval] at hmax
  have htail := h.ne_tail hmax
  cases l₂ with
  | nil => exact absurd hfirst.symm htail
  | cons c l₂ =>
      obtain rfl : c = curr := hfirst
      exact ⟨l₁, l₂, rfl, hlast⟩

/-- A deletion that returns 1 removes the value, and any other changes nothing. -/
theorem parseDeleteIntern_cases
    (h : m.Ordered l tail) (hmarks : m.Marks (m.head :: (l ++ [tail])) none)
    (hpred : pred ∈ m.used) (hcurr : curr ∈ m.used) (hmax : val < valMax) :
  (((parseDeleteIntern m pred curr val).2 = 0 ∨
        (parseDeleteIntern m pred curr val).2 = -1) ∧
      (parseDeleteIntern m pred curr val).1 = m) ∨
    (parseDeleteIntern m pred curr val).2 = 1 ∧ val ∈ m.set ∧
      (parseDeleteIntern m pred curr val).1.set = m.set.erase val
  := by
  rw [parseDeleteIntern]
  split_ifs with hvalidate hval
  · right
    obtain ⟨l₁, l₂, rfl, hlast⟩ := h.delete_split hmarks hpred hcurr hmax hvalidate hval
    have hcurr_tail : curr ≠ tail := h.ne_tail (h.bounds (by simp)).2
    have hordered := h.mark hcurr_tail
    refine ⟨rfl, ?_, ?_⟩
    · rw [h.set_eq, List.mem_toFinset, hval]
      exact List.mem_map_of_mem (by simp)
    · exact Memory.set_erase h (hordered.unlink hmarks.mark hlast).1 rfl hval.symm
  · exact .inl ⟨.inl rfl, rfl⟩
  · exact .inl ⟨.inr rfl, rfl⟩

end Memory

/-! ### The invariant -/

def Server.busy : Server C → Option Addr
  | .idle => none
  | .unlinking _ _ curr => some curr

/-- What a client knows of the nodes it has come to, however old they are. -/
def Client.Ok (m : Memory) : Client → Prop
  | .walking _ val pred curr =>
      val < valMax ∧ pred ∈ m.used ∧ curr ∈ m.used ∧ m.val pred < val
  | .waiting _ val pred curr =>
      val < valMax ∧ pred ∈ m.used ∧ curr ∈ m.used ∧ m.val pred < val ∧ val ≤ m.val curr
  | .finding val curr => valMin < val ∧ val < valMax ∧ curr ∈ m.used
  | _ => True

structure State.Inv (initial : Nat) (s : State C) (l : List Addr) (tail : Addr) : Prop where
  ordered : s.mem.Ordered l tail
  marks : s.mem.Marks (s.mem.head :: (l ++ [tail])) s.server.busy
  server : ∀ c pred curr, s.server = .unlinking c pred curr →
    ∃ l₁ l₂, l = l₁ ++ curr :: l₂ ∧ last s.mem.head l₁ = pred ∧
      s.client c = .waiting .remove (s.mem.val curr) pred curr
  client : ∀ c, (s.client c).Ok s.mem
  count : l.length + s.removed = initial + s.added

/-- The nodes stay where they are: only those in the list are given other successors. -/
structure Memory.Evolves (m m' : Memory) : Prop where
  head : m'.head = m.head
  used : m.used ⊆ m'.used
  val : ∀ a ∈ m.used, m'.val a = m.val a
  succ : ∀ a ∈ m.used, a ∉ m'.list → m'.succ a = m.succ a

theorem Memory.Evolves.refl (m : Memory) :
  m.Evolves m
  :=
  ⟨rfl, Finset.Subset.refl _, fun _ _ => rfl, fun _ _ _ => rfl⟩

theorem Client.Ok.mono {m m' : Memory} {client : Client} (h : client.Ok m) (hm : m.Evolves m') :
  client.Ok m'
  := by
  cases client with
  | walking op val pred curr =>
      obtain ⟨hmax, hpred, hcurr, hlt⟩ := h
      rw [← hm.val pred hpred] at hlt
      exact ⟨hmax, hm.used hpred, hm.used hcurr, hlt⟩
  | waiting op val pred curr =>
      obtain ⟨hmax, hpred, hcurr, hlt, hle⟩ := h
      rw [← hm.val pred hpred] at hlt
      rw [← hm.val curr hcurr] at hle
      exact ⟨hmax, hm.used hpred, hm.used hcurr, hlt, hle⟩
  | finding val curr => exact ⟨h.1, h.2.1, hm.used h.2.2⟩
  | _ => trivial

/-- What a step does to the set: nothing, or it completes an insertion or a deletion that returns
1. -/
def State.SetStep (s s' : State C) : Prop :=
  s'.mem.set = s.mem.set ∨
    (∃ c val pred curr, s.client c = .waiting .add val pred curr ∧
      s'.client c = .returned .add val 1 ∧ val ∉ s.mem.set ∧ s'.mem.set = insert val s.mem.set) ∨
    ∃ c val pred curr, s.server = .unlinking c pred curr ∧
      s.client c = .waiting .remove val pred curr ∧ s'.client c = .returned .remove val 1 ∧
      val ∈ s.mem.set ∧ s'.mem.set = s.mem.set.erase val

/-- What a step keeps and does. -/
structure State.Goes (initial : Nat) (s s' : State C) (tail : Addr) : Prop where
  inv : ∃ l, s'.Inv initial l tail
  evolves : s.mem.Evolves s'.mem
  set : s.SetStep s'

section Inv

variable {s s' : State C} {l l₁ l₂ : List Addr} {tail pred curr new : Addr} {val : Int}
    {initial : Nat} {c : C}

omit [DecidableEq C] in
theorem State.Inv.not_unlinking
    (h : s.Inv initial l tail)
    (hclient : ∀ val pred curr, s.client c ≠ .waiting .remove val pred curr) (pred curr : Addr) :
  s.server ≠ .unlinking c pred curr
  := by
  intro hserver
  obtain ⟨l₁, l₂, -, -, hwaiting⟩ := h.server c pred curr hserver
  exact hclient _ _ _ hwaiting

theorem State.go_self {client : Client} :
  (s.go c client).client c = client
  :=
  Function.update_self _ _ _

theorem State.go_of_ne {client : Client} {c' : C} (hc : c' ≠ c) :
  (s.go c client).client c' = s.client c'
  :=
  Function.update_of_ne hc _ _

/-- A client goes on. -/
theorem State.Inv.go
    {client : Client} (h : s.Inv initial l tail)
    (hc : ∀ pred curr, s.server ≠ .unlinking c pred curr) (hok : client.Ok s.mem) :
  s.Goes initial (s.go c client) tail
  := by
  refine ⟨⟨l, h.ordered, h.marks, ?_, ?_, h.count⟩, .refl _, .inl rfl⟩
  · intro c' pred curr hserver
    obtain ⟨l₁, l₂, hl, hlast, hclient⟩ := h.server c' pred curr hserver
    refine ⟨l₁, l₂, hl, hlast, ?_⟩
    have hne : c' ≠ c := by
      rintro rfl
      exact hc pred curr hserver
    exact (State.go_of_ne hne).trans hclient
  · intro c'
    by_cases hc' : c' = c
    · rw [hc', State.go_self]
      exact hok
    · rw [State.go_of_ne hc']
      exact h.client c'

/-- The other clients keep what they know when the server has served one of them. -/
theorem State.Inv.served
    {op : Op} {result : Int} (h : s.Inv initial l tail) (hm : s.mem.Evolves s'.mem)
    (hclient : s'.client = Function.update s.client c (.returned op val result)) (c' : C) :
  (s'.client c').Ok s'.mem
  := by
  rw [hclient]
  by_cases hc' : c' = c
  · rw [hc', Function.update_self]
    trivial
  · rw [Function.update_of_ne hc']
    exact (h.client c').mono hm

theorem State.Inv.insert
    (h : s.Inv initial l tail) (hserver : s.server = .idle)
    (hclient : s.client c = .waiting .add val pred curr)
    (hnew : (parseInsertIntern s.mem new pred curr val).2 = 1 → s.mem.Fresh new) :
  s.Goes initial ({ s with
    mem := (parseInsertIntern s.mem new pred curr val).1
    added := if (parseInsertIntern s.mem new pred curr val).2 = 1 then s.added + 1
      else s.added }.go c (.returned .add val (parseInsertIntern s.mem new pred curr val).2)) tail
  := by
  have hok := h.client c
  rw [hclient] at hok
  obtain ⟨hmax, hpred, hcurr, hlt, hle⟩ := hok
  have hmarks := h.marks
  rw [hserver] at hmarks
  rcases parseInsertIntern_cases h.ordered hmarks hpred hcurr hlt hle hnew with
    ⟨hresult, hmem⟩ | ⟨l₁, l₂, rfl, hlast, hfresh, hresult, hordered, hmarks', hnot, hset⟩
  · have hne : (parseInsertIntern s.mem new pred curr val).2 ≠ 1 := by omega
    rw [hmem, if_neg hne]
    apply h.go
    · rw [hserver]
      nofun
    · trivial
  · rw [hresult]
    have hevolves : s.mem.Evolves ((newNodeL s.mem new val curr).setNext pred new) := by
      refine ⟨rfl, Finset.subset_insert _ _, ?_, ?_⟩
      · intro a ha
        apply Function.update_of_ne
        rintro rfl
        exact hfresh.1 ha
      · intro a ha hout
        rw [hordered.list_eq] at hout
        have hapred : a ≠ pred := by
          rintro rfl
          apply hout
          rw [← hlast, List.append_assoc, ← List.cons_append]
          exact List.mem_append_left _ last_mem
        have hanew : a ≠ new := by
          rintro rfl
          exact hfresh.1 ha
        show unsetMark (Function.update (Function.update s.mem.next new curr) pred new a) = _
        rw [Function.update_of_ne hapred, Function.update_of_ne hanew]
        rfl
    refine ⟨⟨l₁ ++ new :: l₂, hordered, ?_, ?_, ?_, ?_⟩, hevolves, .inr (.inl ?_)⟩
    · show Memory.Marks _ _ s.server.busy
      rw [hserver]
      exact hmarks'
    · intro c' pred' curr' hserver'
      exact absurd (hserver.symm.trans hserver') nofun
    · exact h.served hevolves rfl
    · have hcount := h.count
      simp only [List.length_append, List.length_cons] at hcount ⊢
      show _ + s.removed = initial + (if (1 : Int) = 1 then s.added + 1 else s.added)
      rw [if_pos rfl]
      omega
    · exact ⟨c, val, pred, curr, hclient, State.go_self, hnot, hset⟩

omit [DecidableEq C] in
theorem State.Inv.mark
    (h : s.Inv initial l tail) (hserver : s.server = .idle)
    (hclient : s.client c = .waiting .remove val pred curr)
    (hvalidate : parseValidate s.mem pred curr = true) (hval : val = s.mem.val curr) :
  s.Goes initial { s with mem := s.mem.mark curr, server := .unlinking c pred curr } tail
  := by
  have hok := h.client c
  rw [hclient] at hok
  obtain ⟨hmax, hpred, hcurr, -, -⟩ := hok
  have hmarks := h.marks
  rw [hserver] at hmarks
  have hevolves : s.mem.Evolves (s.mem.mark curr) := by
    refine ⟨rfl, Finset.Subset.refl _, fun _ _ => rfl, ?_⟩
    intro a _ _
    rw [Memory.succ_mark]
  have hcurr_tail : curr ≠ tail := by
    apply h.ordered.ne_tail
    rw [← hval]
    exact hmax
  refine ⟨⟨l, h.ordered.mark hcurr_tail, hmarks.mark, ?_, ?_, h.count⟩, hevolves, .inl ?_⟩
  · intro c' pred' curr' hserver'
    obtain ⟨rfl, rfl, rfl⟩ : c = c' ∧ pred = pred' ∧ curr = curr' := by
      simpa using hserver'
    obtain ⟨l₁, l₂, hl, hlast⟩ := h.ordered.delete_split hmarks hpred hcurr hmax hvalidate hval
    refine ⟨l₁, l₂, hl, hlast, ?_⟩
    rw [hval] at hclient
    exact hclient
  · intro c'
    exact (h.client c').mono hevolves
  · rw [(h.ordered.mark hcurr_tail).set_eq, h.ordered.set_eq]
    rfl

theorem State.Inv.unlink
    (h : s.Inv initial l tail) (hserver : s.server = .unlinking c pred curr)
    (hclient : s.client c = .waiting .remove val pred curr) :
  s.Goes initial ({ s with
    mem := s.mem.unlink pred curr
    server := .idle
    removed := s.removed + 1 }.go c (.returned .remove val 1)) tail
  := by
  obtain ⟨l₁, l₂, rfl, hlast, hwaiting⟩ := h.server c pred curr hserver
  obtain rfl : val = s.mem.val curr := by
    rw [hclient] at hwaiting
    simpa using hwaiting
  have hmarks := h.marks
  rw [hserver] at hmarks
  obtain ⟨hordered, hmarks'⟩ := h.ordered.unlink hmarks hlast
  have hevolves : s.mem.Evolves (s.mem.unlink pred curr) := by
    refine ⟨rfl, Finset.Subset.refl _, fun _ _ => rfl, ?_⟩
    intro a _ hout
    rw [hordered.list_eq] at hout
    have hapred : a ≠ pred := by
      rintro rfl
      apply hout
      rw [← hlast, List.append_assoc, ← List.cons_append]
      exact List.mem_append_left _ last_mem
    rw [Memory.succ_unlink, Function.update_of_ne hapred]
  refine ⟨⟨l₁ ++ l₂, hordered, hmarks', nofun, h.served hevolves rfl, ?_⟩, hevolves,
    .inr (.inr ?_)⟩
  · have hcount := h.count
    simp only [List.length_append, List.length_cons] at hcount ⊢
    show _ + (s.removed + 1) = initial + s.added
    omega
  · refine ⟨c, s.mem.val curr, pred, curr, hserver, hclient, State.go_self, ?_, ?_⟩
    · rw [h.ordered.set_eq, List.mem_toFinset]
      exact List.mem_map_of_mem (by simp)
    · exact Memory.set_erase h.ordered hordered rfl rfl

/-- What a step keeps and does. -/
theorem State.Inv.step (h : s.Inv initial l tail) (hstep : s.Step s') :
  s.Goes initial s' tail
  := by
  have hsucc : ∀ {a : Addr} {v : Int}, a ∈ s.mem.used → s.mem.val a < v → v < valMax →
      unsetMark (s.mem.next a) ∈ s.mem.used := by
    intro a v ha hv hmax
    exact (h.ordered.up a ha (h.ordered.ne_tail (Int.lt_trans hv hmax))).1
  cases hstep with
  | invoke c op val hclient hval =>
      apply h.go (h.not_unlinking (by rw [hclient]; nofun))
      have hhead : s.mem.val s.mem.head < val := by
        rw [h.ordered.val_head]
        exact hval.1
      exact ⟨hval.2, h.ordered.head_mem, hsucc h.ordered.head_mem hhead hval.2, hhead⟩
  | advance c op val pred curr hclient hval =>
      have hok := h.client c
      rw [hclient] at hok
      obtain ⟨hmax, -, hcurr, -⟩ := hok
      apply h.go (h.not_unlinking (by rw [hclient]; nofun))
      exact ⟨hmax, hcurr, hsucc hcurr hval hmax, hval⟩
  | delegate c op val pred curr hclient hval =>
      have hok := h.client c
      rw [hclient] at hok
      obtain ⟨hmax, hpred, hcurr, hlt⟩ := hok
      apply h.go (h.not_unlinking (by rw [hclient]; nofun))
      exact ⟨hmax, hpred, hcurr, hlt, Int.not_lt.mp hval⟩
  | insert c val pred curr new hserver hclient hnew => exact h.insert hserver hclient hnew
  | refuse c val pred curr hserver hclient hresult =>
      apply h.go
      · rw [hserver]
        nofun
      · trivial
  | mark c val pred curr hserver hclient hvalidate hval =>
      exact h.mark hserver hclient hvalidate hval
  | unlink c val pred curr hserver hclient => exact h.unlink hserver hclient
  | find c val hclient hval =>
      apply h.go (h.not_unlinking (by rw [hclient]; nofun))
      exact ⟨hval.1, hval.2, h.ordered.head_mem⟩
  | look c val curr hclient hval =>
      have hok := h.client c
      rw [hclient] at hok
      apply h.go (h.not_unlinking (by rw [hclient]; nofun))
      exact ⟨hok.1, hok.2.1, hsucc hok.2.2 hval hok.2.1⟩
  | answer c val curr hclient hval =>
      apply h.go (h.not_unlinking (by rw [hclient]; nofun))
      trivial
  | backUpdate c op val result hclient =>
      apply h.go (h.not_unlinking (by rw [hclient]; nofun))
      trivial
  | backFind c val result hclient =>
      apply h.go (h.not_unlinking (by rw [hclient]; nofun))
      trivial

end Inv

/-! ### The start -/

/-- The memory after the main thread has made the list and inserted values into it. -/
inductive Filled : Memory → Prop where
  | new (max min : Addr) (hmax : Aligned max ∧ max ≠ 0) (hmin : Aligned min ∧ min ≠ 0)
      (hne : min ≠ max) : Filled (setNewL max min)
  | add {m m' : Memory} (n : Nat) (new : Addr) (val : Int) (result : Bool) (hm : Filled m)
      (hval : valMin < val ∧ val < valMax) (hnew : m.Fresh new)
      (hadd : parseInsert2 n m new val = some (m', result)) : Filled m'

theorem ordered_setNewL
    {max min : Addr} (hmax : Aligned max ∧ max ≠ 0) (hmin : Aligned min ∧ min ≠ 0)
    (hne : min ≠ max) :
  (setNewL max min).Ordered [] max ∧
    (setNewL max min).Marks ((setNewL max min).head :: ([] ++ [max])) none
  := by
  have hnext_min : (setNewL max min).next min = max := Function.update_self _ _ _
  have hnext_max : (setNewL max min).next max = 0 := by
    refine (Function.update_of_ne hne.symm _ _).trans ?_
    exact Function.update_self _ _ _
  have hval_min : (setNewL max min).val min = valMin := Function.update_self _ _ _
  have hval_max : (setNewL max min).val max = valMax := by
    refine (Function.update_of_ne hne.symm _ _).trans ?_
    exact Function.update_self _ _ _
  have hused : ∀ a, a ∈ (setNewL max min).used ↔ a = min ∨ a = max := by
    intro a
    simp [setNewL, newNodeL]
  have hsucc : (setNewL max min).succ min = max := by
    show unsetMark ((setNewL max min).next min) = max
    rw [hnext_min, unsetMark_of_aligned hmax.1]
  have hlt : valMin < valMax := by decide
  refine ⟨⟨hsucc, ?_, hval_min, hval_max, hnext_max, ?_, ?_, ?_, ?_⟩, ?_, ?_⟩
  · apply List.pairwise_pair.mpr
    show (setNewL max min).val min < _
    rw [hval_min, hval_max]
    exact hlt
  · intro a ha
    rcases (hused a).mp ha with rfl | rfl
    · exact hmin.1
    · exact hmax.1
  · intro a ha
    rcases (hused a).mp ha with rfl | rfl
    · exact hmin.2
    · exact hmax.2
  · intro a ha
    rw [hused]
    rcases List.mem_cons.mp ha with rfl | ha
    · exact .inl rfl
    · exact .inr (List.mem_singleton.mp ha)
  · intro a ha hamax
    obtain rfl := ((hused a).mp ha).resolve_right hamax
    rw [hsucc, hused, hval_min, hval_max]
    exact ⟨.inr rfl, hlt⟩
  · intro a ha _
    rcases List.mem_cons.mp ha with ha | ha
    · rw [show a = min from ha, hnext_min]
      exact hmax.1
    · rw [List.mem_singleton.mp ha, hnext_max]
      decide
  · intro a ha hout
    rcases hout with hout | hout
    · exfalso
      apply hout
      rcases (hused a).mp ha with rfl | rfl
      · exact List.mem_cons_self
      · exact List.mem_cons_of_mem _ List.mem_cons_self
    · exact absurd hout nofun

/-- The insertion of the main thread is the one the server would do. -/
theorem parseInsert2_eq
    {n : Nat} {m m' : Memory} {new : Addr} {val : Int} {result : Bool} {l : List Addr}
    {tail : Addr} (h : m.Ordered l tail) (hval : valMin < val ∧ val < valMax)
    (hadd : parseInsert2 n m new val = some (m', result)) :
  ∃ pred curr, pred ∈ m.used ∧ curr ∈ m.used ∧ m.val pred < val ∧ val ≤ m.val curr ∧
    m' = (parseInsertIntern m new pred curr val).1
  := by
  rw [parseInsert2, Option.bind_eq_bind, Option.bind_eq_some_iff] at hadd
  obtain ⟨pred, hwalk, hadd⟩ := hadd
  obtain ⟨⟨hpred, hlt⟩, hend⟩ := walk_inv (fun a => a ∈ m.used ∧ m.val a < val) hwalk
    ⟨h.head_mem, by rw [h.val_head]; exact hval.1⟩ (by
      rintro a ⟨ha, halt⟩ htest
      exact ⟨(h.up a ha (h.ne_tail (Int.lt_trans halt hval.2))).1, by simpa using htest⟩)
  refine ⟨pred, unsetMark (m.next pred), hpred,
    (h.up pred hpred (h.ne_tail (Int.lt_trans hlt hval.2))).1, hlt, by simpa using hend, ?_⟩
  rw [parseInsertIntern]
  cases hvalidate : parseValidate m pred (unsetMark (m.next pred)) with
  | false =>
      simp only [hvalidate, Bool.false_and, Bool.false_eq_true, if_false, Option.some.injEq,
        Prod.mk.injEq] at hadd ⊢
      exact hadd.1.symm
  | true =>
      by_cases hne : m.val (unsetMark (m.next pred)) = val
      · simp only [hvalidate, hne, bne_self_eq_false, Bool.and_false, Bool.false_eq_true, if_false,
          Option.some.injEq, Prod.mk.injEq, if_true, ne_eq, not_true] at hadd ⊢
        exact hadd.1.symm
      · simp only [hvalidate, bne_iff_ne.mpr hne, Bool.and_true, if_true, Option.some.injEq,
          Prod.mk.injEq, ne_eq, hne, not_false_iff] at hadd ⊢
        exact hadd.1.symm

theorem Filled.ordered {m : Memory} (h : Filled m) :
  ∃ l tail, m.Ordered l tail ∧ m.Marks (m.head :: (l ++ [tail])) none
  := by
  induction h with
  | new max min hmax hmin hne => exact ⟨[], max, ordered_setNewL hmax hmin hne⟩
  | add n new val result hm hval hnew hadd ih =>
      obtain ⟨l, tail, hordered, hmarks⟩ := ih
      obtain ⟨pred, curr, hpred, hcurr, hlt, hle, rfl⟩ := parseInsert2_eq hordered hval hadd
      rcases parseInsertIntern_cases hordered hmarks hpred hcurr hlt hle (fun _ => hnew) with
        ⟨-, hmem⟩ | ⟨l₁, l₂, -, -, -, hresult, hordered', hmarks', -, -⟩
      · rw [hmem]
        exact ⟨l, tail, hordered, hmarks⟩
      · rw [hresult]
        exact ⟨l₁ ++ new :: l₂, tail, hordered', hmarks'⟩

/-- The loop of `set_size_l` counts the nodes between the sentinels. -/
theorem countNodes_eq
    {m : Memory} {l : List Addr} {tail b : Addr} {n : Nat} (h : Path m.succ b l tail)
    (haligned : ∀ a ∈ b :: l, Aligned (m.next a)) (hne : ∀ a ∈ l ++ [tail], a ≠ 0)
    (htail : m.next tail = 0) (hn : l.length < n) :
  countNodes m n (m.next b) = some l.length
  := by
  obtain ⟨n, rfl⟩ : ∃ n', n = n' + 1 := ⟨n - 1, by omega⟩
  induction l generalizing b n with
  | nil =>
      have hnext : m.next b = tail := by
        rw [← unsetMark_of_aligned (haligned b List.mem_cons_self)]
        exact h
      rw [hnext, countNodes, htail, if_neg (not_not.mpr rfl)]
      rfl
  | cons a l ih =>
      have hnext : m.next b = a := by
        rw [← unsetMark_of_aligned (haligned b List.mem_cons_self)]
        exact h.1
      have hnext_a : m.next a ≠ 0 := by
        rw [← unsetMark_of_aligned (haligned a (by simp))]
        cases l with
        | nil =>
            rw [show unsetMark (m.next a) = tail from h.2]
            exact hne tail (by simp)
        | cons c l =>
            rw [show unsetMark (m.next a) = c from h.2.1]
            exact hne c (by simp)
      rw [List.length_cons] at hn
      obtain ⟨n, rfl⟩ : ∃ n', n = n' + 1 := ⟨n - 1, by omega⟩
      rw [hnext, countNodes, if_pos hnext_a, ih h.2]
      · rfl
      · intro c hc
        exact haligned c (List.mem_cons_of_mem b hc)
      · intro c hc
        exact hne c (List.mem_cons_of_mem a hc)
      · omega

theorem setSizeL_eq
    {m : Memory} {l : List Addr} {tail : Addr} {n : Nat} (h : m.Ordered l tail)
    (hmarks : m.Marks (m.head :: (l ++ [tail])) none) (hn : m.used.card ≤ n) :
  setSizeL m n = some l.length
  := by
  apply countNodes_eq h.path
  · intro a ha
    apply hmarks.aligned a _ nofun
    rw [← List.cons_append]
    exact List.mem_append_left _ ha
  · intro a ha
    exact h.ne_zero a (h.used a (List.mem_cons_of_mem _ ha))
  · exact h.next_tail
  · have := h.length_le
    omega

/-! ### The runs -/

/-- The states that can be reached from a list that the main thread has filled. -/
def Reachable (m : Memory) (s : State C) : Prop :=
  Relation.ReflTransGen State.Step (State.start m) s

theorem Reachable.inv
    {m : Memory} {s : State C} {l : List Addr} {tail : Addr} (h : Reachable m s)
    (hordered : m.Ordered l tail) (hmarks : m.Marks (m.head :: (l ++ [tail])) none) :
  ∃ l', s.Inv l.length l' tail
  := by
  induction h with
  | refl => exact ⟨l, hordered, hmarks, nofun, fun _ => trivial, rfl⟩
  | tail _ hstep ih =>
      obtain ⟨l', hinv⟩ := ih
      exact (hinv.step hstep).inv

def Op.exec (m : Memory) (new pred curr : Addr) (val : Int) : Op → Memory × Int
  | .add => parseInsertIntern m new pred curr val
  | .remove => parseDeleteIntern m pred curr val

/-- In every state the list leads upwards from the one sentinel to the other. Whatever a client has
asked the server to do, with nodes however old, a result of 1 means that the value is added to the
set, or removed from it, and any other result that the set stays as it is; so the size of the set
is as the results say. -/
theorem lazyList_updates {m : Memory} {s : State C} (hm : Filled m) (h : Reachable m s) :
  (∃ vals, s.mem.list.map s.mem.val = valMin :: (vals ++ [valMax]) ∧
      (valMin :: (vals ++ [valMax])).Pairwise (· < ·)) ∧
    (s.server = .idle → ∀ c op val pred curr new, s.client c = .waiting op val pred curr →
      ((op.exec s.mem new pred curr val).2 = 1 → s.mem.Fresh new) →
      ((op.exec s.mem new pred curr val).2 = -1 ∨ (op.exec s.mem new pred curr val).2 = 0) ∧
          (op.exec s.mem new pred curr val).1.set = s.mem.set ∨
        (op.exec s.mem new pred curr val).2 = 1 ∧
          match op with
          | .add => val ∉ s.mem.set ∧
              (op.exec s.mem new pred curr val).1.set = insert val s.mem.set
          | .remove => val ∈ s.mem.set ∧
              (op.exec s.mem new pred curr val).1.set = s.mem.set.erase val) ∧
    (s.server = .idle → ∃ initial size, (∀ n ≥ m.used.card, setSizeL m n = some initial) ∧
      (∀ n ≥ s.mem.used.card, setSizeL s.mem n = some size) ∧
      size + s.removed = initial + s.added)
  := by
  obtain ⟨l₀, tail, hordered, hmarks⟩ := hm.ordered
  obtain ⟨l, hinv⟩ := h.inv hordered hmarks
  refine ⟨⟨l.map s.mem.val, ?_, ?_⟩, ?_, ?_⟩
  · rw [hinv.ordered.list_eq]
    simp [hinv.ordered.val_head, hinv.ordered.val_tail]
  · have hsorted := List.Pairwise.map s.mem.val (fun _ _ hab => hab) hinv.ordered.sorted
    simpa [hinv.ordered.val_head, hinv.ordered.val_tail] using hsorted
  · intro hserver c op val pred curr new hclient hnew
    have hok := hinv.client c
    rw [hclient] at hok
    obtain ⟨hmax, hpred, hcurr, hlt, hle⟩ := hok
    have hmarks := hinv.marks
    rw [hserver] at hmarks
    cases op with
    | add =>
        rcases parseInsertIntern_cases hinv.ordered hmarks hpred hcurr hlt hle hnew with
          ⟨hresult, hmem⟩ | ⟨l₁, l₂, -, -, -, hresult, -, -, hnot, hset⟩
        · exact .inl ⟨hresult.symm, congrArg Memory.set hmem⟩
        · right
          rw [Op.exec, hresult]
          exact ⟨rfl, hnot, hset⟩
    | remove =>
        rcases parseDeleteIntern_cases hinv.ordered hmarks hpred hcurr hmax with
          ⟨hresult, hmem⟩ | ⟨hresult, hval, hset⟩
        · exact .inl ⟨hresult.symm, congrArg Memory.set hmem⟩
        · exact .inr ⟨hresult, hval, hset⟩
  · intro hserver
    have hmarks' := hinv.marks
    rw [hserver] at hmarks'
    exact ⟨l₀.length, l.length, fun n hn => setSizeL_eq hordered hmarks hn,
      fun n hn => setSizeL_eq hinv.ordered hmarks' hn, hinv.count⟩

/-- Two clients that come to the same nodes with the same value: the nodes of the second are not
neighbours any more when the server comes to it. -/
theorem lazyList_updates_stale :
  ∃ m, Filled m ∧ ∃ s : State Bool, Reachable m s ∧ s.client true = .returned .add 5 1 ∧
    s.client false = .returned .add 5 (-1) ∧
    ∃ initial size, setSizeL m 2 = some initial ∧ setSizeL s.mem 3 = some size ∧
      size + s.removed = initial + s.added
  := by
  have hm : Filled (setNewL 16 32) := .new 16 32 (by decide) (by decide) (by decide)
  have h : Reachable (C := Bool) (setNewL 16 32) (State.start (setNewL 16 32)) := .refl
  have h := h.tail (.invoke true .add 5 rfl (by decide))
  have h := h.tail (.invoke false .add 5 rfl (by decide))
  have h := h.tail (.delegate true .add 5 32 16 rfl (by decide))
  have h := h.tail (.delegate false .add 5 32 16 rfl (by decide))
  have h := h.tail (.insert true 5 32 16 48 rfl rfl (by decide))
  have h := h.tail (.insert false 5 32 16 64 rfl rfl (by decide))
  obtain ⟨initial, size, hinitial, hsize, hcount⟩ := (lazyList_updates hm h).2.2 rfl
  exact ⟨_, hm, _, h, rfl, rfl, initial, size, hinitial 2 (by decide), hsize 3 (by decide), hcount⟩

end LazyList
