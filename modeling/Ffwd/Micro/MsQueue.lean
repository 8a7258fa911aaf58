import Ffwd.Lib.Chain
import Ffwd.Lib.Linearizable

/-!
# The queue of `msqueue.c`

The queue of the benchmarks that has no lock. A node is linked behind the last one, and `tail` follows;
a thread that finds `tail` behind helps it on. Nodes are taken from blocks of memory and never given back,
so that the `next` of a node changes only once. Whether a `dequeue` that has found no node returns is
settled later, when it looks at `head` again. A step is one access to the memory that the threads share.
-/

namespace MsQueue

open Linked Concurrent

/-! ### The algorithm -/

abbrev Value : Type := BitVec 32

/-- A node: the one that the queue is made with, or one of the nodes of a block of a thread. -/
inductive Addr (ι : Type) where
  | guard
  | node (i : ι) (block slot : Nat)
  deriving DecidableEq

def poolSize : Nat := 1024

/-- `pool_node`, the block allocated last, if there is one, and `pool_node_index`. -/
structure Pool where
  block : Nat
  index : Nat
  le : index ≤ poolSize
  null : block = 0 → index = 0

/-- The block and the slot of the next node, and the pool without it. -/
def Pool.take (pool : Pool) : Pool × Nat × Nat :=
  if pool.index = 0 then
    (⟨pool.block + 1, poolSize - 1, by omega, by omega⟩, pool.block + 1, poolSize - 1)
  else
    (⟨pool.block, pool.index - 1, by have := pool.le; omega, by have := pool.null; omega⟩, pool.block,
      pool.index - 1)

inductive Op where
  | enqueue (arg : Value)
  | dequeue
  deriving DecidableEq

/-- Where a thread is. `p` is the node that it puts in the queue; the other nodes are what it has read. -/
inductive Pc (ι : Type) where
  | idle
  | alloc (arg : Value)
  | readTail (p : Addr ι)
  | readNext (p last : Addr ι)
  | checkTail (p last : Addr ι) (next : Option (Addr ι))
  | casNext (p last : Addr ι)
  | helpTail (p last next : Addr ι)
  | swingTail (p last : Addr ι)
  | enqueued
  | readHead
  | readLast (first : Addr ι)
  | readFirst (first last : Addr ι)
  | checkHead (first last : Addr ι) (next : Option (Addr ι))
  | advanceTail (last next : Addr ι)
  | readValue (first : Addr ι) (next : Option (Addr ι))
  | casHead (first next : Addr ι) (value : Value)
  | dequeued (value : Value)
  | empty

structure State (ι : Type) where
  pool : ι → Pool
  value : Addr ι → Value
  next : Addr ι → Option (Addr ι)
  head : Addr ι
  tail : Addr ι
  pc : ι → Pc ι

variable {ι : Type} [DecidableEq ι]

/-- `SHARED_OBJECT_INIT`. What the nodes contain is not known. -/
def State.init (value : Addr ι → Value) (next : Addr ι → Option (Addr ι)) : State ι where
  pool _ := ⟨0, 0, Nat.zero_le _, fun _ => rfl⟩
  value := value
  next := Function.update next .guard none
  head := .guard
  tail := .guard
  pc _ := .idle

def State.goto (s : State ι) (i : ι) (pc : Pc ι) : State ι :=
  { s with pc := Function.update s.pc i pc }

/-- A node is taken, with `p->value = arg` and `p->next = null`. -/
def State.alloc (s : State ι) (i : ι) (arg : Value) : State ι :=
  let (pool, block, slot) := (s.pool i).take
  let p := Addr.node i block slot
  { s with
    pool := Function.update s.pool i pool
    value := Function.update s.value p arg
    next := Function.update s.next p none }.goto i (.readTail p)

/-- `CASPTR(&tail, last, next)` -/
def State.casTail (s : State ι) (last next : Addr ι) : State ι :=
  { s with tail := if s.tail = last then next else s.tail }

/-- A step of a thread in `enqueue` or `dequeue`. -/
def State.move (s : State ι) (i : ι) : Option (State ι) :=
  match s.pc i with
  | .idle => none
  | .alloc arg => some (s.alloc i arg)
  | .readTail p => some (s.goto i (.readNext p s.tail))
  | .readNext p last => some (s.goto i (.checkTail p last (s.next last)))
  | .checkTail p last next =>
      if s.tail = last then
        match next with
        | none => some (s.goto i (.casNext p last))
        | some next => some (s.goto i (.helpTail p last next))
      else some (s.goto i (.readTail p))
  | .casNext p last =>
      if s.next last = none then
        some ({ s with next := Function.update s.next last (some p) }.goto i (.swingTail p last))
      else some (s.goto i (.readTail p))
  | .helpTail p last next => some ((s.casTail last next).goto i (.readTail p))
  | .swingTail p last => some ((s.casTail last p).goto i .enqueued)
  | .enqueued => some (s.goto i .idle)
  | .readHead => some (s.goto i (.readLast s.head))
  | .readLast first => some (s.goto i (.readFirst first s.tail))
  | .readFirst first last => some (s.goto i (.checkHead first last (s.next first)))
  | .checkHead first last next =>
      if s.head = first then
        if first = last then
          match next with
          | none => some (s.goto i .empty)
          | some next => some (s.goto i (.advanceTail last next))
        else some (s.goto i (.readValue first next))
      else some (s.goto i .readHead)
  | .advanceTail last next => some ((s.casTail last next).goto i .readHead)
  | .readValue first next =>
      match next with
      -- `next->value`, with `next` null
      | none => none
      | some next => some (s.goto i (.casHead first next (s.value next)))
  | .casHead first next value =>
      if s.head = first then some ({ s with head := next }.goto i (.dequeued value))
      else some (s.goto i .readHead)
  | .dequeued _ => some (s.goto i .idle)
  | .empty => some (s.goto i .idle)

/-- A thread calls an operation, or moves. -/
inductive Label (ι : Type) where
  | call (i : ι) (op : Op)
  | step (i : ι)

/-- `enqueue`, which returns nothing, and `dequeue`, as they are seen from outside. -/
def msqueue : System (State ι) (Label ι) (Event ι Op (Option Value)) where
  step s
    | .call i op =>
        match s.pc i, op with
        | .idle, .enqueue arg => some (s.goto i (.alloc arg))
        | .idle, .dequeue => some (s.goto i .readHead)
        | _, _ => none
    | .step i => s.move i
  event s
    | .call i op => some (.call i op)
    | .step i =>
        match s.pc i with
        | .enqueued => some (.ret i none)
        | .dequeued value => some (.ret i (some value))
        | .empty => some (.ret i (some (-1)))
        | _ => none

/-- A queue, whose `dequeue` returns `-1` if there is nothing in it. -/
def queue : Object Op (Option Value) (List Value) where
  apply op l :=
    match op, l with
    | .enqueue arg, l => (l ++ [arg], none)
    | .dequeue, [] => ([], some (-1))
    | .dequeue, v :: l => (l, some v)

/-! ### The nodes -/

/-- The node has been taken from the pool. -/
def Pool.Taken (pool : Pool) (block slot : Nat) : Prop :=
  0 < block ∧ slot < poolSize ∧ (block < pool.block ∨ block = pool.block ∧ pool.index ≤ slot)

theorem Pool.taken_take (pool : Pool) (block slot : Nat) :
  pool.take.1.Taken block slot ↔ pool.Taken block slot ∨ (block, slot) = pool.take.2
  := by
  have hle := pool.le
  have hnull := pool.null
  simp only [Pool.take]
  split <;> simp only [Pool.Taken, poolSize, Prod.mk.injEq] at hle ⊢ <;> omega

theorem Pool.not_taken_take (pool : Pool) :
  ¬pool.Taken pool.take.2.1 pool.take.2.2
  := by
  rintro ⟨-, -, htaken⟩
  simp only [Pool.take] at htaken
  split at htaken <;> obtain hlt | ⟨heq, hle⟩ := htaken <;> simp only at * <;> omega

/-- The node is in use. -/
def State.Used (s : State ι) : Addr ι → Prop
  | .guard => True
  | .node i block slot => (s.pool i).Taken block slot

/-- The thread from whose pool the node is. -/
def Addr.owner : Addr ι → Option ι
  | .guard => none
  | .node i _ _ => some i

/-- The node that a thread has not linked yet. -/
def Pc.links : Pc ι → Option (Addr ι)
  | .readTail p => some p
  | .readNext p _ => some p
  | .checkTail p _ _ => some p
  | .casNext p _ => some p
  | .helpTail p _ _ => some p
  | _ => none

/-- The node `b` can be reached from `a`. -/
def State.Reaches (s : State ι) : Addr ι → Addr ι → Prop :=
  Relation.ReflTransGen fun a b => s.next a = some b

/-- The node `a` is the node `b`, or before it. -/
def State.Before (s : State ι) (a b : Addr ι) : Prop :=
  s.Used a ∧ s.Reaches a b

/-! ### The invariant -/

/-- The node is one of the thread, and not linked. -/
def State.Owns (s : State ι) (i : ι) (p : Addr ι) : Prop :=
  p.owner = some i ∧ s.Used p ∧ s.next p = none

/-- What is known of the nodes that a thread has read. -/
def State.Holds (s : State ι) (i : ι) : Prop :=
  match s.pc i with
  | .readTail p => s.Owns i p
  | .readNext p last => s.Owns i p ∧ s.Before last s.tail
  | .checkTail p last next => s.Owns i p ∧ s.Before last s.tail ∧ ∀ n, next = some n → s.next last = some n
  | .casNext p last => s.Owns i p ∧ s.Before last s.tail
  | .helpTail p last next => s.Owns i p ∧ s.Used last ∧ s.next last = some next
  | .swingTail p last => s.Used last ∧ s.next last = some p
  | .readLast first => s.Before first s.head
  | .readFirst first last => s.Before first s.head ∧ s.Before first last ∧ s.Before last s.tail
  | .checkHead first last next =>
      s.Before first last ∧ s.Before last s.tail ∧ (∀ n, next = some n → s.next first = some n) ∧
        (next = none → first = last)
  | .advanceTail last next => s.Used last ∧ s.next last = some next
  | .readValue first next => ∃ n, next = some n ∧ s.Used first ∧ s.next first = some n ∧ s.Before n s.tail
  | .casHead first next value =>
      s.Used first ∧ s.next first = some next ∧ s.Before next s.tail ∧ s.value next = value
  | _ => True

/-- The nodes of the queue are those of `l`, after the one at the head. -/
structure State.Inv (s : State ι) (l : List (Addr ι)) : Prop where
  chain : Chain s.next (some s.head) (s.head :: l)
  closed : ∀ a b, s.Used a → s.next a = some b → s.Used b
  head : s.Used s.head
  tail : s.Reaches s.head s.tail
  fresh : ∀ i p, (s.pc i).links = some p → p ∉ s.head :: l
  holds : ∀ i, s.Holds i

variable {s s' : State ι} {l l' : List (Addr ι)} {i j : ι} {a b p first last : Addr ι}

omit [DecidableEq ι] in
theorem Before.refl (h : s.Used a) :
  s.Before a a
  := ⟨h, .refl⟩

omit [DecidableEq ι] in
theorem State.Inv.used_of_reaches (h : s.Inv l) (ha : s.Used a) (hab : s.Reaches a b) :
  s.Used b
  := by
  induction hab with
  | refl => exact ha
  | tail _ hnext ih => exact h.closed _ _ ih hnext

omit [DecidableEq ι] in
theorem State.Inv.owns (h : s.Inv l) (hlinks : (s.pc i).links = some p) :
  s.Owns i p
  := by
  have hholds := h.holds i
  rw [State.Holds] at hholds
  cases hp : s.pc i <;> rw [hp] at hlinks <;> simp only [hp] at hholds <;> cases hlinks
  case readTail => exact hholds
  all_goals exact hholds.1

/-- What a step of thread `i` leaves as it is: the values of the nodes in use, the links, and the nodes that
the other threads have not linked. -/
structure Step (s s' : State ι) (i : ι) : Prop where
  pc : ∀ j, j ≠ i → s'.pc j = s.pc j
  used : ∀ a, s.Used a → s'.Used a
  value : ∀ a, s.Used a → s'.value a = s.value a
  next : ∀ a b, s.Used a → s.next a = some b → s'.next a = some b
  owns : ∀ j p, j ≠ i → (s.pc j).links = some p → s.Owns j p → s'.next p = none
  head : s'.Reaches s.head s'.head
  tail : s'.Reaches s.tail s'.tail

omit [DecidableEq ι] in
theorem Step.reaches (hs : Step s s' i) (h : s.Inv l) (ha : s.Used a) (hab : s.Reaches a b) :
  s'.Reaches a b
  := by
  induction hab with
  | refl => exact .refl
  | tail hreach hnext ih => exact .tail ih (hs.next _ _ (h.used_of_reaches ha hreach) hnext)

omit [DecidableEq ι] in
theorem Step.before (hs : Step s s' i) (h : s.Inv l) (hab : s.Before a b) :
  s'.Before a b
  := ⟨hs.used a hab.1, hs.reaches h hab.1 hab.2⟩

omit [DecidableEq ι] in
theorem Step.before_head (hs : Step s s' i) (h : s.Inv l) (ha : s.Before a s.head) :
  s'.Before a s'.head
  := ⟨hs.used a ha.1, (hs.reaches h ha.1 ha.2).trans hs.head⟩

omit [DecidableEq ι] in
theorem Step.before_tail (hs : Step s s' i) (h : s.Inv l) (ha : s.Before a s.tail) :
  s'.Before a s'.tail
  := ⟨hs.used a ha.1, (hs.reaches h ha.1 ha.2).trans hs.tail⟩

omit [DecidableEq ι] in
theorem Step.holds (hs : Step s s' i) (h : s.Inv l) (hj : j ≠ i) :
  s'.Holds j
  := by
  have hholds := h.holds j
  have howns : ∀ p, (s.pc j).links = some p → s.Owns j p → s'.Owns j p := by
    rintro p hlinks hp
    exact ⟨hp.1, hs.used p hp.2.1, hs.owns j p hj hlinks hp⟩
  rw [State.Holds] at hholds ⊢
  rw [hs.pc j hj]
  cases hp : s.pc j <;> simp only [hp] at hholds howns ⊢
  case readTail p => exact howns p rfl hholds
  case readNext p last | casNext p last => exact ⟨howns p rfl hholds.1, hs.before_tail h hholds.2⟩
  case checkTail p last next =>
    obtain ⟨hown, hlast, hnext⟩ := hholds
    exact ⟨howns p rfl hown, hs.before_tail h hlast, fun n hn => hs.next last n hlast.1 (hnext n hn)⟩
  case helpTail p last next =>
    obtain ⟨hown, hlast, hnext⟩ := hholds
    exact ⟨howns p rfl hown, hs.used last hlast, hs.next last next hlast hnext⟩
  case swingTail p last => exact ⟨hs.used last hholds.1, hs.next last p hholds.1 hholds.2⟩
  case readLast first => exact hs.before_head h hholds
  case readFirst first last =>
    obtain ⟨hhead, hfirst, hlast⟩ := hholds
    exact ⟨hs.before_head h hhead, hs.before h hfirst, hs.before_tail h hlast⟩
  case checkHead first last next =>
    obtain ⟨hfirst, hlast, hnext, hnone⟩ := hholds
    exact ⟨hs.before h hfirst, hs.before_tail h hlast, fun n hn => hs.next first n hfirst.1 (hnext n hn), hnone⟩
  case advanceTail last next => exact ⟨hs.used last hholds.1, hs.next last next hholds.1 hholds.2⟩
  case readValue first next =>
    obtain ⟨n, hn, hfirst, hnext, hbefore⟩ := hholds
    exact ⟨n, hn, hs.used first hfirst, hs.next first n hfirst hnext, hs.before_tail h hbefore⟩
  case casHead first next value =>
    obtain ⟨hfirst, hnext, hbefore, hvalue⟩ := hholds
    refine ⟨hs.used first hfirst, hs.next first next hfirst hnext, hs.before_tail h hbefore, ?_⟩
    rw [hs.value next hbefore.1]
    exact hvalue

/-! ### The steps -/

@[simp]
theorem goto_pc_self (s : State ι) (i : ι) (pc : Pc ι) :
  (s.goto i pc).pc i = pc
  := by
  simp [State.goto]

/-- What the status of a thread may be. If it has found no node after `first`, its operation may have taken
effect or not. -/
def Pc.Allows (value : Addr ι → Value) : Pc ι → Status Op (Option Value) → Prop
  | .idle, x => x = .idle
  | .alloc arg, x => x = .pending (.enqueue arg)
  | .readTail p, x => x = .pending (.enqueue (value p))
  | .readNext p _, x => x = .pending (.enqueue (value p))
  | .checkTail p _ _, x => x = .pending (.enqueue (value p))
  | .casNext p _, x => x = .pending (.enqueue (value p))
  | .helpTail p _ _, x => x = .pending (.enqueue (value p))
  | .swingTail _ _, x => x = .done none
  | .enqueued, x => x = .done none
  | .readHead, x => x = .pending .dequeue
  | .readLast _, x => x = .pending .dequeue
  | .readFirst _ _, x => x = .pending .dequeue
  | .checkHead _ _ next, x => x = .pending .dequeue ∨ next = none ∧ x = .done (some (-1))
  | .advanceTail _ _, x => x = .pending .dequeue
  | .readValue _ _, x => x = .pending .dequeue
  | .casHead _ _ _, x => x = .pending .dequeue
  | .dequeued value, x => x = .done (some value)
  | .empty, x => x = .done (some (-1))

def State.Allows (s : State ι) (i : ι) (x : Status Op (Option Value)) : Prop := (s.pc i).Allows s.value x

/-- A step of thread `i` keeps the invariant, and whatever the status of the thread is afterwards, it comes
from one before. -/
def Explains (s : State ι) (l : List (Addr ι)) (i : ι) (e : Option (Event ι Op (Option Value))) (s' : State ι) :
    Prop :=
  Step s s' i ∧ ∃ l', s'.Inv l' ∧ ∀ x', s'.Allows i x' →
    ∃ x, s.Allows i x ∧ queue.Change i (x, l.map s.value) e (x', l'.map s'.value)

/-- A thread goes on; `head` and `tail` may be further on. -/
theorem step_goto {head tail : Addr ι} {pc : Pc ι}
    (hhead : s.Reaches s.head head) (htail : s.Reaches s.tail tail) :
  Step s ({ s with head := head, tail := tail }.goto i pc) i
  where
  pc j hj := Function.update_of_ne hj _ _
  used a ha := by
    cases a <;> exact ha
  value a ha := rfl
  next a b ha hab := hab
  owns j p hj hlinks hp := hp.2.2
  head := hhead
  tail := htail

/-- The node that a thread has not linked is the same or none, if it does not take one. -/
theorem fresh_goto {pc : Pc ι}
    (h : s.Inv l) (hlinks : ∀ p, pc.links = some p → (s.pc i).links = some p) (j : ι) (p : Addr ι)
    (hp : (Function.update s.pc i pc j).links = some p) :
  p ∉ s.head :: l
  := by
  rw [Function.update_apply] at hp
  split at hp
  · exact h.fresh i p (hlinks p hp)
  · exact h.fresh j p hp

theorem explains_goto {tail : Addr ι} {pc pc' : Pc ι} {e : Option (Event ι Op (Option Value))}
    (h : s.Inv l) (hp : s.pc i = pc) (htail : s.Reaches s.tail tail)
    (hlinks : ∀ p, pc'.links = some p → pc.links = some p)
    (hback : ∀ x', pc'.Allows s.value x' →
      ∃ x, pc.Allows s.value x ∧ queue.Change i (x, l.map s.value) e (x', l.map s.value))
    (hholds : ({ s with tail := tail }.goto i pc').Holds i) :
  Explains s l i e ({ s with tail := tail }.goto i pc')
  := by
  rw [← hp] at hlinks hback
  have hs : Step s ({ s with tail := tail }.goto i pc') i := step_goto .refl htail
  refine ⟨hs, l, ?_, ?_⟩
  · constructor
    · exact h.chain
    · intro a b ha hab
      apply hs.used b
      apply h.closed a b _ hab
      cases a <;> exact ha
    · exact hs.used _ h.head
    · exact h.tail.trans htail
    · exact fresh_goto (s := s) h hlinks
    · intro j
      by_cases hj : j = i
      · rw [hj]
        exact hholds
      · exact hs.holds h hj
  · intro x' hx'
    rw [State.Allows, goto_pc_self] at hx'
    exact hback x' hx'

/-- A step of which nothing is seen, and that does nothing to the queue. -/
theorem explains_silent {tail : Addr ι} {pc pc' : Pc ι}
    (h : s.Inv l) (hp : s.pc i = pc) (htail : s.Reaches s.tail tail)
    (hlinks : ∀ p, pc'.links = some p → pc.links = some p)
    (hback : ∀ x, pc'.Allows s.value x → pc.Allows s.value x)
    (hholds : ({ s with tail := tail }.goto i pc').Holds i) :
  Explains s l i none ({ s with tail := tail }.goto i pc')
  := by
  apply explains_goto h hp htail hlinks _ hholds
  exact fun x hx => ⟨x, hback x hx, .silent x _⟩

theorem reaches_tail {next : Addr ι} (hnext : s.next last = some next) :
  s.Reaches s.tail (if s.tail = last then next else s.tail)
  := by
  split
  · next htail =>
    rw [htail]
    exact .single hnext
  · exact .refl

theorem used_alloc (s : State ι) (i : ι) (arg : Value) (a : Addr ι) :
  (s.alloc i arg).Used a ↔ s.Used a ∨ a = .node i (s.pool i).take.2.1 (s.pool i).take.2.2
  := by
  cases a with
  | guard => exact iff_of_true trivial (.inl trivial)
  | node j block slot =>
      simp only [State.Used, State.alloc, State.goto, Function.update_apply]
      split
      · next hj =>
        rw [hj, Pool.taken_take]
        simp only [Addr.node.injEq, Prod.ext_iff, true_and]
      · next hj =>
        have hne : Addr.node j block slot ≠ .node i (s.pool i).take.2.1 (s.pool i).take.2.2 :=
          fun h => hj (Addr.node.inj h).1
        exact (or_iff_left hne).symm

theorem explains_alloc {arg : Value} (h : s.Inv l) (hp : s.pc i = .alloc arg) :
  Explains s l i none (s.alloc i arg)
  := by
  generalize hnew : Addr.node i (s.pool i).take.2.1 (s.pool i).take.2.2 = new
  have hunused : ¬s.Used new := by
    rw [← hnew]
    exact (s.pool i).not_taken_take
  have hne : ∀ a, s.Used a → a ≠ new := by
    rintro a ha rfl
    exact hunused ha
  have hvalue : (s.alloc i arg).value = Function.update s.value new arg := by rw [← hnew]; rfl
  have hnext : (s.alloc i arg).next = Function.update s.next new none := by rw [← hnew]; rfl
  have hpc : (s.alloc i arg).pc = Function.update s.pc i (.readTail new) := by rw [← hnew]; rfl
  have hused := used_alloc s i arg
  rw [hnew] at hused
  have hs : Step s (s.alloc i arg) i := by
    constructor
    · intro j hj
      rw [hpc, Function.update_of_ne hj]
    · exact fun a ha => (hused a).mpr (.inl ha)
    · intro a ha
      rw [hvalue, Function.update_of_ne (hne a ha)]
    · intro a b ha hab
      rw [hnext, Function.update_of_ne (hne a ha)]
      exact hab
    · intro j p hj hlinks howns
      rw [hnext, Function.update_of_ne (hne p howns.2.1)]
      exact howns.2.2
    · exact .refl
    · exact .refl
  have hmem : ∀ a ∈ s.head :: l, s.Used a := by
    intro a ha
    exact h.used_of_reaches h.head ((h.chain.mem_iff_reachable a).mp ha)
  refine ⟨hs, l, ?_, ?_⟩
  · constructor
    · rw [hnext]
      apply h.chain.update
      exact fun hmem' => hunused (hmem new hmem')
    · intro a b ha hab
      rw [hnext, Function.update_apply] at hab
      split at hab
      · cases hab
      · next hanew =>
        have ha := ((hused a).mp ha).resolve_right hanew
        exact hs.used b (h.closed a b ha hab)
    · exact hs.used _ h.head
    · exact hs.reaches h h.head h.tail
    · intro j p hlinks
      rw [hpc, Function.update_apply] at hlinks
      split at hlinks
      · cases hlinks
        exact fun hmem' => hunused (hmem new hmem')
      · exact h.fresh j p hlinks
    · intro j
      by_cases hj : j = i
      · rw [hj, State.Holds, hpc, Function.update_self]
        refine ⟨?_, (hused new).mpr (.inr rfl), ?_⟩
        · rw [← hnew]
          rfl
        · rw [hnext, Function.update_self]
      · exact hs.holds h hj
  · intro x' hx'
    rw [State.Allows, hpc, Function.update_self, hvalue, Pc.Allows, Function.update_self] at hx'
    refine ⟨x', ?_, ?_⟩
    · rw [State.Allows, hp]
      exact hx'
    · have hmap : l.map (s.alloc i arg).value = l.map s.value :=
        List.map_congr_left fun a ha => hs.value a (hmem a (.tail _ ha))
      rw [hmap]
      exact .silent _ _

/-- The node is linked behind the last one, which is the one at `tail`. -/
theorem explains_link (h : s.Inv l) (hp : s.pc i = .casNext p last) (hnext : s.next last = none) :
  Explains s l i none ({ s with next := Function.update s.next last (some p) }.goto i (.swingTail p last))
  := by
  have hholds := h.holds i
  rw [State.Holds, hp] at hholds
  obtain ⟨⟨howner, hpused, hpnext⟩, hlast⟩ := hholds
  have hfresh : p ∉ s.head :: l := h.fresh i p (by rw [hp]; rfl)
  -- nothing can be reached from `last`, so that it is at `tail`
  have htail : last = s.tail := by
    obtain htail | ⟨c, hc, -⟩ := hlast.2.cases_head
    · exact htail
    · rw [hnext] at hc
      cases hc
  have hmem : last ∈ s.head :: l := by
    rw [htail]
    exact (h.chain.mem_iff_reachable _).mpr h.tail
  obtain ⟨l₁, l₂, hl⟩ := List.append_of_mem hmem
  have hend : l₂ = [] := by
    have hdrop := h.chain
    rw [hl] at hdrop
    have hdrop := hdrop.drop
    rw [hnext] at hdrop
    exact hdrop.unique rfl
  subst hend
  have hchain := h.chain
  rw [hl] at hchain hfresh
  have hchain' := hchain.append hfresh
  rw [← hl, ← hpnext, Function.update_eq_self] at hchain'
  have hs : Step s ({ s with next := Function.update s.next last (some p) }.goto i (.swingTail p last)) i := by
    constructor
    · exact fun j hj => Function.update_of_ne hj _ _
    · intro a ha
      cases a <;> exact ha
    · exact fun a ha => rfl
    · intro a b ha hab
      apply (Function.update_of_ne _ _ _).trans hab
      rintro rfl
      rw [hnext] at hab
      cases hab
    · intro j q hj hlinks howns
      apply (Function.update_of_ne _ _ _).trans howns.2.2
      rintro rfl
      exact h.fresh j q hlinks hmem
    · exact .refl
    · exact .refl
  refine ⟨hs, l ++ [p], ?_, ?_⟩
  · constructor
    · exact hchain'
    · intro a b ha hab
      have ha' : s.Used a := by
        cases a <;> exact ha
      apply hs.used
      simp only [State.goto, Function.update_apply] at hab
      split at hab
      · cases hab
        exact hpused
      · exact h.closed a b ha' hab
    · exact hs.used _ h.head
    · exact hs.reaches h h.head h.tail
    · intro j q hlinks
      simp only [State.goto, Function.update_apply] at hlinks
      split at hlinks
      · cases hlinks
      · next hj =>
        have hne : q ≠ p := by
          rintro rfl
          have howns := (h.owns hlinks).1
          rw [howner] at howns
          exact hj (Option.some.inj howns).symm
        intro hq
        obtain hq | hq := List.mem_append.mp (show q ∈ (s.head :: l) ++ [p] from hq)
        · exact h.fresh j q hlinks hq
        · exact hne (List.mem_singleton.mp hq)
    · intro j
      by_cases hj : j = i
      · rw [hj, State.Holds, goto_pc_self]
        exact ⟨hs.used last hlast.1, Function.update_self _ _ _⟩
      · exact hs.holds h hj
  · intro x' hx'
    rw [State.Allows, goto_pc_self] at hx'
    refine ⟨.pending (.enqueue (s.value p)), ?_, ?_⟩
    · rw [State.Allows, hp]
      rfl
    · rw [hx', List.map_append]
      exact .effect _ _

/-- The node at the head is taken from the queue. -/
theorem explains_unlink {next : Addr ι} {value : Value}
    (h : s.Inv l) (hp : s.pc i = .casHead first next value) (hhead : s.head = first) :
  Explains s l i none ({ s with head := next }.goto i (.dequeued value))
  := by
  have hholds := h.holds i
  rw [State.Holds, hp] at hholds
  obtain ⟨hfirst, hnext, hbefore, hvalue⟩ := hholds
  rw [← hhead] at hnext
  have hs : Step s ({ s with head := next }.goto i (.dequeued value)) i := step_goto (.single hnext) .refl
  have hchain := h.chain.2
  rw [hnext] at hchain
  obtain ⟨l', rfl⟩ := hchain.exists_cons
  refine ⟨hs, l', ?_, ?_⟩
  · constructor
    · exact hchain
    · intro a b ha hab
      apply hs.used b
      apply h.closed a b _ hab
      cases a <;> exact ha
    · exact hs.used _ hbefore.1
    · exact hbefore.2
    · intro j p hlinks hmem
      exact fresh_goto (s := s) h (by rintro p ⟨⟩) j p hlinks (.tail _ hmem)
    · intro j
      by_cases hj : j = i
      · rw [hj, State.Holds, goto_pc_self]
        trivial
      · exact hs.holds h hj
  · intro x' hx'
    rw [State.Allows, goto_pc_self] at hx'
    refine ⟨.pending .dequeue, ?_, ?_⟩
    · rw [State.Allows, hp]
      rfl
    · rw [hx', List.map_cons, ← hvalue]
      exact .effect Op.dequeue _

/-- What a thread that has looked for a node after `first` knows. If there was none, the queue was empty. -/
theorem explains_readFirst (h : s.Inv l) (hp : s.pc i = .readFirst first last) :
  Explains s l i none (s.goto i (.checkHead first last (s.next first)))
  := by
  have hholds := h.holds i
  rw [State.Holds, hp] at hholds
  obtain ⟨hhead, hfirst, hlast⟩ := hholds
  have hend : ∀ b, s.next first = none → s.Reaches first b → first = b := by
    intro b hnext hb
    obtain hb | ⟨c, hc, -⟩ := hb.cases_head
    · exact hb
    · rw [hnext] at hc
      cases hc
  apply explains_goto h hp .refl
  · rintro p ⟨⟩
  · intro x' hx'
    refine ⟨.pending .dequeue, rfl, ?_⟩
    obtain rfl | ⟨hnext, rfl⟩ := hx'
    · exact .silent _ _
    · have hchain := h.chain.2
      rw [← hend s.head hnext hhead.2, hnext] at hchain
      obtain rfl : l = [] := hchain.unique rfl
      exact .effect Op.dequeue _
  · rw [State.Holds, goto_pc_self]
    exact ⟨hfirst, hlast, fun n hn => hn, fun hnext => hend last hnext hfirst.2⟩

/-- An operation returns. -/
theorem explains_return {pc : Pc ι} {r : Option Value}
    (h : s.Inv l) (hp : s.pc i = pc) (hallows : pc.Allows s.value (.done r)) :
  Explains s l i (some (.ret i r)) (s.goto i .idle)
  := by
  apply explains_goto h hp .refl (by rintro p ⟨⟩)
  · rintro x rfl
    exact ⟨.done r, hallows, .ret r _⟩
  · rw [State.Holds, goto_pc_self]
    trivial

/-- `tail` is compared with the node that was the last one. -/
theorem explains_checkTail {p last : Addr ι} {next : Option (Addr ι)}
    (h : s.Inv l) (hp : s.pc i = .checkTail p last next) (hmove : s.move i = some s') :
  Explains s l i none s'
  := by
  have hholds := h.holds i
  simp only [State.Holds, hp] at hholds
  simp only [State.move, hp] at hmove
  obtain ⟨hown, hlast, hnext⟩ := hholds
  split at hmove
  · cases next with
    | none =>
        obtain rfl := Option.some.inj hmove
        refine explains_silent h hp .refl (fun p hp => hp) (fun x hx => hx) ?_
        rw [State.Holds, goto_pc_self]
        exact ⟨hown, hlast⟩
    | some next =>
        obtain rfl := Option.some.inj hmove
        refine explains_silent h hp .refl (fun p hp => hp) (fun x hx => hx) ?_
        rw [State.Holds, goto_pc_self]
        exact ⟨hown, hlast.1, hnext next rfl⟩
  · obtain rfl := Option.some.inj hmove
    refine explains_silent h hp .refl (fun p hp => hp) (fun x hx => hx) ?_
    rw [State.Holds, goto_pc_self]
    exact hown

/-- `head` is compared with the node that was the first one. -/
theorem explains_checkHead {first last : Addr ι} {next : Option (Addr ι)}
    (h : s.Inv l) (hp : s.pc i = .checkHead first last next) (hmove : s.move i = some s') :
  Explains s l i none s'
  := by
  have hholds := h.holds i
  simp only [State.Holds, hp] at hholds
  simp only [State.move, hp] at hmove
  obtain ⟨hfirst, hlast, hnext, hnone⟩ := hholds
  split at hmove
  · split at hmove
    · next heq =>
      cases next with
      | none =>
          obtain rfl := Option.some.inj hmove
          refine explains_silent h hp .refl (by rintro p ⟨⟩) (fun x hx => .inr ⟨rfl, hx⟩) ?_
          rw [State.Holds, goto_pc_self]
          trivial
      | some next =>
          obtain rfl := Option.some.inj hmove
          refine explains_silent h hp .refl (by rintro p ⟨⟩) (fun x hx => .inl hx) ?_
          rw [State.Holds, goto_pc_self, ← heq]
          exact ⟨hfirst.1, hnext next rfl⟩
    · next hne =>
      obtain rfl := Option.some.inj hmove
      -- `last` is behind `first`, and so there is a node after `first`, not behind `tail`
      obtain heq | ⟨n, hn, hreach⟩ := hfirst.2.cases_head
      · exact absurd heq hne
      obtain ⟨n', hn'⟩ := Option.ne_none_iff_exists'.mp fun hnext => hne (hnone hnext)
      have hsame := (hnext n' hn').symm.trans hn
      obtain rfl := Option.some.inj hsame
      refine explains_silent h hp .refl (by rintro p ⟨⟩) (fun x hx => .inl hx) ?_
      rw [State.Holds, goto_pc_self]
      exact ⟨n', hn', hfirst.1, hn, h.closed first n' hfirst.1 hn, hreach.trans hlast.2⟩
  · obtain rfl := Option.some.inj hmove
    refine explains_silent h hp .refl (by rintro p ⟨⟩) (fun x hx => .inl hx) ?_
    rw [State.Holds, goto_pc_self]
    trivial

theorem explains_move (h : s.Inv l) (hmove : s.move i = some s') :
  Explains s l i (msqueue.event s (.step i)) s'
  := by
  have hholds := h.holds i
  have hmove' := hmove
  simp only [State.move] at hmove
  simp only [msqueue]
  rw [State.Holds] at hholds
  cases hp : s.pc i <;> simp only [hp] at hholds hmove ⊢
  case idle => cases hmove
  case alloc arg =>
    obtain rfl := Option.some.inj hmove
    exact explains_alloc h hp
  case readTail p =>
    obtain rfl := Option.some.inj hmove
    refine explains_silent h hp .refl (fun p hp => hp) (fun x hx => hx) ?_
    rw [State.Holds, goto_pc_self]
    exact ⟨hholds, h.used_of_reaches h.head h.tail, .refl⟩
  case readNext p last =>
    obtain rfl := Option.some.inj hmove
    refine explains_silent h hp .refl (fun p hp => hp) (fun x hx => hx) ?_
    rw [State.Holds, goto_pc_self]
    exact ⟨hholds.1, hholds.2, fun n hn => hn⟩
  case checkTail p last next => exact explains_checkTail h hp hmove'
  case casNext p last =>
    split at hmove
    · next hnext =>
      obtain rfl := Option.some.inj hmove
      exact explains_link h hp hnext
    · obtain rfl := Option.some.inj hmove
      refine explains_silent h hp .refl (fun p hp => hp) (fun x hx => hx) ?_
      rw [State.Holds, goto_pc_self]
      exact hholds.1
  case helpTail p last next =>
    obtain rfl := Option.some.inj hmove
    obtain ⟨hown, hlast, hnext⟩ := hholds
    refine explains_silent h hp (reaches_tail hnext) (fun p hp => hp) (fun x hx => hx) ?_
    rw [State.Holds, goto_pc_self]
    exact hown
  case swingTail p last =>
    obtain rfl := Option.some.inj hmove
    refine explains_silent h hp (reaches_tail hholds.2) (by rintro p ⟨⟩) (fun x hx => hx) ?_
    rw [State.Holds, goto_pc_self]
    trivial
  case enqueued =>
    obtain rfl := Option.some.inj hmove
    exact explains_return h hp rfl
  case readHead =>
    obtain rfl := Option.some.inj hmove
    refine explains_silent h hp .refl (by rintro p ⟨⟩) (fun x hx => hx) ?_
    rw [State.Holds, goto_pc_self]
    exact ⟨h.head, .refl⟩
  case readLast first =>
    obtain rfl := Option.some.inj hmove
    refine explains_silent h hp .refl (by rintro p ⟨⟩) (fun x hx => hx) ?_
    rw [State.Holds, goto_pc_self]
    exact ⟨hholds, ⟨hholds.1, hholds.2.trans h.tail⟩, h.used_of_reaches h.head h.tail, .refl⟩
  case readFirst first last =>
    obtain rfl := Option.some.inj hmove
    exact explains_readFirst h hp
  case checkHead first last next => exact explains_checkHead h hp hmove'
  case advanceTail last next =>
    obtain rfl := Option.some.inj hmove
    refine explains_silent h hp (reaches_tail hholds.2) (by rintro p ⟨⟩) (fun x hx => hx) ?_
    rw [State.Holds, goto_pc_self]
    trivial
  case readValue first next =>
    obtain ⟨n, rfl, hfirst, hnext, hbefore⟩ := hholds
    obtain rfl := Option.some.inj hmove
    refine explains_silent h hp .refl (by rintro p ⟨⟩) (fun x hx => hx) ?_
    rw [State.Holds, goto_pc_self]
    exact ⟨hfirst, hnext, hbefore, rfl⟩
  case casHead first next value =>
    split at hmove
    · next hhead =>
      obtain rfl := Option.some.inj hmove
      exact explains_unlink h hp hhead
    · obtain rfl := Option.some.inj hmove
      refine explains_silent h hp .refl (by rintro p ⟨⟩) (fun x hx => hx) ?_
      rw [State.Holds, goto_pc_self]
      trivial
  case dequeued value =>
    obtain rfl := Option.some.inj hmove
    exact explains_return h hp rfl
  case empty =>
    obtain rfl := Option.some.inj hmove
    exact explains_return h hp rfl

/-! ### Runs -/

/-- The thread that a label is about. -/
def Label.thread : Label ι → ι
  | .call i _ => i
  | .step i => i

theorem explains_step {label : Label ι} (h : s.Inv l) (hstep : msqueue.step s label = some s') :
  Explains s l label.thread (msqueue.event s label) s'
  := by
  cases label with
  | call i op =>
      simp only [msqueue] at hstep ⊢
      split at hstep
      · next arg hp =>
        obtain rfl := Option.some.inj hstep
        apply explains_goto h hp .refl (by rintro p ⟨⟩)
        · rintro x rfl
          exact ⟨.idle, rfl, .call _ _⟩
        · rw [State.Holds, goto_pc_self]
          trivial
      · next hp =>
        obtain rfl := Option.some.inj hstep
        apply explains_goto h hp .refl (by rintro p ⟨⟩)
        · rintro x rfl
          exact ⟨.idle, rfl, .call _ _⟩
        · rw [State.Holds, goto_pc_self]
          trivial
      · cases hstep
  | step i => exact explains_move h hstep

/-- The state of the queue and the statuses that there may be. -/
def Tracks (s : State ι) (v : Atomic ι Op (Option Value) (List Value)) : Prop :=
  (∃ l, s.Inv l ∧ v.state = l.map s.value) ∧ ∀ i, s.Allows i (v.status i)

omit [DecidableEq ι] in
theorem Step.allows {x : Status Op (Option Value)}
    (hs : Step s s' i) (h : s.Inv l) (hj : j ≠ i) (hx : s'.Allows j x) :
  s.Allows j x
  := by
  have hvalue : ∀ p, (s.pc j).links = some p → s'.value p = s.value p := by
    intro p hlinks
    exact hs.value p (h.owns hlinks).2.1
  rw [State.Allows, hs.pc j hj] at hx
  rw [State.Allows]
  cases hp : s.pc j <;> simp only [hp, Pc.Allows] at hx hvalue ⊢
  case readTail p | readNext p _ | checkTail p _ _ | casNext p _ | helpTail p _ _ =>
    rw [hvalue p rfl] at hx
    exact hx
  all_goals exact hx

theorem msqueue_keeps :
  (msqueue (ι := ι)).Keeps fun s => ∃ l, s.Inv l
  := by
  rintro s label s' ⟨l, h⟩ hstep
  obtain ⟨-, l', h', -⟩ := explains_step h hstep
  exact ⟨l', h'⟩

/-- `enqueue` takes effect when its node is linked, and `dequeue` when it swaps `head`, or when it finds no
node after `first`, if it does not start again. -/
theorem msqueue_backSimulates :
  BackSimulates (msqueue (ι := ι)) queue.atomic (fun s => ∃ l, s.Inv l) Tracks
  := by
  rintro s label s' v' ⟨l, h⟩ hstep ⟨⟨l', h', hstate⟩, hstatus⟩
  obtain ⟨hs, l'', h'', hback⟩ := explains_step h hstep
  obtain rfl : l'' = l' := (List.cons.inj (h''.chain.unique h'.chain)).2
  obtain ⟨x, hx, hchange⟩ := hback _ (hstatus label.thread)
  rw [← hstate] at hchange
  obtain ⟨acts, hacts⟩ := hchange.run
  refine ⟨acts, _, hacts, ⟨l, h, rfl⟩, ?_⟩
  intro j
  simp only [Atomic.goto, Function.update_apply]
  split
  · next hj =>
    rw [hj]
    exact hx
  · next hj => exact hs.allows h hj (hstatus j)

omit [DecidableEq ι] in
/-- There is a status for every thread. -/
theorem Pc.exists_allows (value : Addr ι → Value) (pc : Pc ι) :
  ∃ x, pc.Allows value x
  := by
  cases pc with
  | checkHead first last next => exact ⟨_, .inl rfl⟩
  | _ => exact ⟨_, rfl⟩

theorem inv_init (value : Addr ι → Value) (next : Addr ι → Option (Addr ι)) :
  (State.init value next).Inv []
  where
  chain := by simp [Chain, State.init]
  closed a b ha hab := by
    cases a with
    | guard => cases hab
    | node i block slot =>
        obtain ⟨hblock, hslot, htaken⟩ := ha
        simp only [State.init, poolSize] at *
        omega
  head := trivial
  tail := .refl
  fresh i p hp := by cases hp
  holds i := trivial

/-- The queue is linearizable, and no thread reads the value of a node that is not there: for any number of
threads, whatever the nodes contain at first, and for every interleaving of their steps. -/
theorem msqueue_linearizable
    (value : Addr ι → Value) (next : Addr ι → Option (Addr ι)) (labels : List (Label ι)) (s : State ι)
    (h : List (Event ι Op (Option Value))) (hrun : msqueue.run (State.init value next) labels = some (s, h)) :
  queue.Linearizable [] h ∧ ∀ i first, s.pc i ≠ .readValue first none
  := by
  have hinit : ∃ l, (State.init value next).Inv l := ⟨[], inv_init value next⟩
  refine ⟨msqueue_backSimulates.linearizable msqueue_keeps ?_ hinit ?_ hrun, ?_⟩
  · rintro s ⟨l, hinv⟩
    choose x hx using fun i => (s.pc i).exists_allows s.value
    exact ⟨⟨l.map s.value, x⟩, ⟨l, hinv, rfl⟩, hx⟩
  · rintro ⟨state, status⟩ ⟨⟨l, hinv, hstate⟩, hstatus⟩
    obtain rfl : l = [] := (List.cons.inj (hinv.chain.unique (inv_init value next).chain)).2
    obtain rfl : status = fun _ => .idle := funext hstatus
    exact congrArg (fun c => Atomic.mk c fun _ => .idle) hstate
  · intro i first hp
    obtain ⟨l, hinv⟩ := msqueue_keeps.run hinit hrun
    have hholds := hinv.holds i
    rw [State.Holds, hp] at hholds
    obtain ⟨n, hn, -⟩ := hholds
    cases hn

/-- A thread finds no node, and has to start again; later it finds `tail` behind, and helps it on. -/
def helpRun : List (Label Bool) :=
  [Label.call true .dequeue] ++ List.replicate 3 (Label.step true) ++
    [Label.call false (.enqueue 1)] ++ List.replicate 7 (Label.step false) ++
    [Label.call false .dequeue] ++ List.replicate 7 (Label.step false) ++
    List.replicate 6 (Label.step true) ++
    [Label.call false (.enqueue 2)] ++ List.replicate 5 (Label.step false) ++
    [Label.call true (.enqueue 3)] ++ List.replicate 11 (Label.step true) ++
    List.replicate 2 (Label.step false) ++
    [Label.call true .dequeue] ++ List.replicate 7 (Label.step true)

/-- What is seen of the run. -/
def helpHistory : List (Event Bool Op (Option Value)) :=
  [.call true .dequeue, .call false (.enqueue 1), .ret false none, .call false .dequeue, .ret false (some 1),
    .ret true (some (-1)), .call false (.enqueue 2), .call true (.enqueue 3), .ret true none, .ret false none,
    .call true .dequeue, .ret true (some 2)]

theorem msqueue_linearizable_helpRun :
  (∃ s, msqueue.run (State.init (fun _ => 9) fun _ => none) helpRun = some (s, helpHistory)) ∧
    queue.Linearizable [] helpHistory
  := by
  have hseen : (msqueue.run (State.init (fun _ => 9) fun _ => none) helpRun).map Prod.snd
      = some helpHistory := by
    decide +kernel
  obtain ⟨⟨s, h⟩, hrun, rfl⟩ := Option.map_eq_some_iff.mp hseen
  exact ⟨⟨s, hrun⟩, (msqueue_linearizable (fun _ => 9) (fun _ => none) helpRun s _ hrun).1⟩

end MsQueue
