import Ffwd.Lib.Linearizable
import Ffwd.Micro.Mcs

/-!
# CC-Synch

The combining object of the benchmarks. A thread swaps its own node into the tail of a queue, writes its
request into the node it gets for it, and waits. The thread of the first node executes the requests of
the queue in order, its own and those of others, and hands the queue over to the next node, whose request
it has not executed. A step is one access to the memory that the threads share.
-/

namespace CcSynch

open Concurrent
open Mcs (Behind)

/-! ### The algorithm -/

/-- A node. Nothing writes `pid`. -/
structure Node (ι V : Type) where
  next : Option (Option ι)
  argRet : V
  pid : Int
  locked : Bool
  completed : Bool

/-- The sequential function. Those of the benchmarks do not look at the `pid` of a node. -/
structure Sfunc (σ V : Type) where
  apply : σ → V → Int → σ × V
  apply_pid : ∀ s arg pid pid', apply s arg pid = apply s arg pid'

/-- Where a thread is in `applyOp`. `cur` is the node it has got, `p` the one it is at when it executes
requests, and `ret` what the function has returned. -/
inductive Pc (ι V : Type) where
  | idle
  | clearNext (arg : V)
  | setLocked (arg : V)
  | clearCompleted (arg : V)
  | swap (arg : V)
  | writeArg (arg : V) (cur nextNode : Option ι)
  | link (cur nextNode : Option ι)
  | spin (cur : Option ι)
  | helped (cur : Option ι)
  | readRet (cur : Option ι)
  | check (cur p : Option ι) (counter : Nat)
  | take (cur p : Option ι) (counter : Nat)
  | serve (cur p tmpNext : Option ι) (counter : Nat)
  | store (cur p tmpNext : Option ι) (counter : Nat) (ret : V)
  | complete (cur p tmpNext : Option ι) (counter : Nat)
  | unlock (cur p tmpNext : Option ι) (counter : Nat)
  | release (cur p : Option ι)
  | finish (cur : Option ι)

/-- The tail of the queue, the nodes, the object, and of each thread its `next_node` and where it is.
The nodes are the one that the queue is made with, `none`, and those that the threads are made with. -/
structure State (ι V σ : Type) where
  tail : Option ι
  node : Option ι → Node ι V
  object : σ
  nextNode : ι → Option ι
  pc : ι → Pc ι V

variable {ι V σ : Type} [DecidableEq ι]

/-- `CCSynchStructInit` and `threadStateInit`: what the nodes of the threads contain is not known. -/
def State.init (node : Option ι → Node ι V) (object : σ) : State ι V σ where
  tail := none
  node := Function.update node none { node none with next := none, locked := false, completed := false }
  object := object
  nextNode := some
  pc _ := .idle

def State.modify (s : State ι V σ) (a : Option ι) (f : Node ι V → Node ι V) : State ι V σ :=
  { s with node := Function.update s.node a (f (s.node a)) }

def State.goto (s : State ι V σ) (i : ι) (pc : Pc ι V) : State ι V σ :=
  { s with pc := Function.update s.pc i pc }

/-- `st_thread->next_node = a` -/
def State.setNextNode (s : State ι V σ) (i : ι) (a : Option ι) : State ι V σ :=
  { s with nextNode := Function.update s.nextNode i a }

section

variable (s : State ι V σ) (a b : Option ι) (f : Node ι V → Node ι V) (i : ι) (pc : Pc ι V)

@[simp]
theorem State.goto_pc_self :
  (s.goto i pc).pc i = pc
  := Function.update_self _ _ _

@[simp]
theorem State.goto_node :
  (s.goto i pc).node = s.node
  := rfl

@[simp]
theorem State.goto_nextNode :
  (s.goto i pc).nextNode = s.nextNode
  := rfl

@[simp]
theorem State.goto_tail :
  (s.goto i pc).tail = s.tail
  := rfl

@[simp]
theorem State.goto_object :
  (s.goto i pc).object = s.object
  := rfl

@[simp]
theorem State.modify_node_self :
  (s.modify a f).node a = f (s.node a)
  := Function.update_self _ _ _

@[simp]
theorem State.modify_nextNode :
  (s.modify a f).nextNode = s.nextNode
  := rfl

@[simp]
theorem State.modify_tail :
  (s.modify a f).tail = s.tail
  := rfl

@[simp]
theorem State.modify_object :
  (s.modify a f).object = s.object
  := rfl

@[simp]
theorem State.setNextNode_node :
  (s.setNextNode i a).node = s.node
  := rfl

@[simp]
theorem State.setNextNode_tail :
  (s.setNextNode i a).tail = s.tail
  := rfl

@[simp]
theorem State.setNextNode_object :
  (s.setNextNode i a).object = s.object
  := rfl

@[simp]
theorem State.setNextNode_nextNode_self :
  (s.setNextNode i a).nextNode i = a
  := Function.update_self _ _ _

variable {i a b}

theorem State.goto_pc_of_ne {j : ι} (hj : j ≠ i) :
  (s.goto i pc).pc j = s.pc j
  := Function.update_of_ne hj _ _

theorem State.modify_node_of_ne (hb : b ≠ a) :
  (s.modify a f).node b = s.node b
  := Function.update_of_ne hb _ _

theorem State.modify_goto_node_of_ne (hb : b ≠ a) :
  ((s.modify a f).goto i pc).node b = s.node b
  := Function.update_of_ne hb _ _

end

/-- A thread calls `applyOp`, or moves. -/
inductive Label (ι V : Type) where
  | call (i : ι) (arg : V)
  | step (i : ι)

section

variable (sfunc : Sfunc σ V) (helpBound : Nat)

/-- A step of a thread in `applyOp`. -/
def State.move (s : State ι V σ) (i : ι) : Option (State ι V σ) :=
  match s.pc i with
  | .idle => none
  | .clearNext arg =>
      some ((s.modify (s.nextNode i) fun n => { n with next := none }).goto i (.setLocked arg))
  | .setLocked arg =>
      some ((s.modify (s.nextNode i) fun n => { n with locked := true }).goto i (.clearCompleted arg))
  | .clearCompleted arg =>
      some ((s.modify (s.nextNode i) fun n => { n with completed := false }).goto i (.swap arg))
  | .swap arg => some ({ s with tail := s.nextNode i }.goto i (.writeArg arg s.tail (s.nextNode i)))
  | .writeArg arg cur nextNode =>
      some ((s.modify cur fun n => { n with argRet := arg }).goto i (.link cur nextNode))
  | .link cur nextNode =>
      some (((s.modify cur fun n => { n with next := some nextNode }).setNextNode i cur).goto i (.spin cur))
  | .spin cur => if (s.node cur).locked then some s else some (s.goto i (.helped cur))
  | .helped cur =>
      if (s.node cur).completed then some (s.goto i (.readRet cur)) else some (s.goto i (.check cur cur 0))
  | .readRet _ => some (s.goto i .idle)
  | .check cur p counter =>
      if (s.node p).next ≠ none ∧ counter < helpBound then some (s.goto i (.take cur p (counter + 1)))
      else some (s.goto i (.release cur p))
  | .take cur p counter =>
      match (s.node p).next with
      | some tmpNext => some (s.goto i (.serve cur p tmpNext counter))
      | none => none
  | .serve cur p tmpNext counter =>
      let (object, ret) := sfunc.apply s.object (s.node p).argRet (s.node p).pid
      some ({ s with object := object }.goto i (.store cur p tmpNext counter ret))
  | .store cur p tmpNext counter ret =>
      some ((s.modify p fun n => { n with argRet := ret }).goto i (.complete cur p tmpNext counter))
  | .complete cur p tmpNext counter =>
      some ((s.modify p fun n => { n with completed := true }).goto i (.unlock cur p tmpNext counter))
  | .unlock cur p tmpNext counter =>
      some ((s.modify p fun n => { n with locked := false }).goto i (.check cur tmpNext counter))
  | .release cur p => some ((s.modify p fun n => { n with locked := false }).goto i (.finish cur))
  | .finish _ => some (s.goto i .idle)

/-- `applyOp`, as it is seen from outside. -/
def applyOp : System (State ι V σ) (Label ι V) (Event ι V V) where
  step s
    | .call i arg =>
        match s.pc i with
        | .idle => some (s.goto i (.clearNext arg))
        | _ => none
    | .step i => s.move sfunc helpBound i
  event s
    | .call i arg => some (.call i arg)
    | .step i =>
        match s.pc i with
        | .readRet cur => some (.ret i (s.node cur).argRet)
        | .finish cur => some (.ret i (s.node cur).argRet)
        | _ => none

end

/-- The object that the function works on. -/
def Sfunc.object (sfunc : Sfunc σ V) : Object V V σ where
  apply arg s := sfunc.apply s arg 0

/-- The node at which a thread executes requests. -/
def Pc.combines : Pc ι V → Option (Option ι)
  | .check _ p _ => some p
  | .take _ p _ => some p
  | .serve _ p _ _ => some p
  | .store _ p _ _ _ => some p
  | .complete _ p _ _ => some p
  | .unlock _ p _ _ => some p
  | .release _ p => some p
  | _ => none

/-! ### Lists -/

section Lists

variable {T : Type} {q : List T} {a b x y : T}

theorem behind_append (h : Behind q a b) (l : List T) :
  Behind (q ++ l) a b
  := by
  obtain ⟨n, ha, hb⟩ := h
  have hlt := (List.getElem?_eq_some_iff.mp hb).1
  refine ⟨n, ?_, ?_⟩
  · rw [List.getElem?_append_left (by omega)]
    exact ha
  · rw [List.getElem?_append_left hlt]
    exact hb

/-- One more is behind the last of a list. -/
theorem behind_concat (h : q.getLast? = some a) (x : T) :
  Behind (q ++ [x]) a x
  := by
  obtain ⟨l, rfl⟩ := List.getLast?_eq_some_iff.mp h
  refine ⟨l.length, ?_, ?_⟩
  · rw [List.append_assoc]
    simp
  · simp

theorem behind_of_cons (h : Behind (x :: q) a b) (ha : a ≠ x) :
  Behind q a b
  := by
  obtain ⟨n, hn, hb⟩ := h
  cases n with
  | zero => exact absurd (Option.some.inj hn).symm ha
  | succ n => exact ⟨n, hn, hb⟩

end Lists

/-! ### The invariant -/

/-- The node that a thread has for itself: the one it will put into the queue, or the one it has got. -/
def State.own (s : State ι V σ) (i : ι) : Option ι :=
  match s.pc i with
  | .writeArg _ cur _ => cur
  | .link cur _ => cur
  | _ => s.nextNode i

/-- A node whose request is in the queue, linked to the next one. -/
def State.Queued (s : State ι V σ) (q : List (Option ι)) (a : Option ι) (x : Status V V) : Prop :=
  ∃ b, Behind q a b ∧ (s.node a).next = some b ∧ x = .pending (s.node a).argRet

/-- A node whose request has been executed, and whose thread can see that. -/
def State.Served (s : State ι V σ) (q : List (Option ι)) (a : Option ι) (x : Status V V) : Prop :=
  a ∉ q ∧ (s.node a).completed = true ∧ x = .done (s.node a).argRet

/-- Where a thread that does not execute requests stands. -/
def State.Stands (s : State ι V σ) (q : List (Option ι)) (st : ι → Status V V) (i : ι) : Prop :=
  match s.pc i with
  | .idle => st i = .idle ∧ s.nextNode i ∉ q
  | .clearNext arg => st i = .pending arg ∧ s.nextNode i ∉ q
  | .setLocked arg => st i = .pending arg ∧ s.nextNode i ∉ q ∧ (s.node (s.nextNode i)).next = none
  | .clearCompleted arg =>
      st i = .pending arg ∧ s.nextNode i ∉ q ∧ (s.node (s.nextNode i)).next = none ∧
        (s.node (s.nextNode i)).locked = true
  | .swap arg =>
      st i = .pending arg ∧ s.nextNode i ∉ q ∧ (s.node (s.nextNode i)).next = none ∧
        (s.node (s.nextNode i)).locked = true ∧ (s.node (s.nextNode i)).completed = false
  | .writeArg arg cur b => st i = .pending arg ∧ Behind q cur b ∧ (s.node cur).next = none
  | .link cur b => st i = .pending (s.node cur).argRet ∧ Behind q cur b ∧ (s.node cur).next = none
  | .spin cur =>
      cur = s.nextNode i ∧
        (s.Queued q cur (st i) ∨ cur ∉ q ∧ ((s.node cur).locked = false → s.Served q cur (st i)))
  | .helped cur =>
      cur = s.nextNode i ∧
        (s.Queued q cur (st i) ∧ q.head? = some cur ∧ (∀ j, (s.pc j).combines = none) ∨ s.Served q cur (st i))
  | .readRet cur => cur = s.nextNode i ∧ s.Served q cur (st i)
  | .finish cur => cur = s.nextNode i ∧ s.Served q cur (st i)
  | _ => True

/-- The thread is at the first node of the queue: its own, or one that it executes for another. -/
def State.AtHead (s : State ι V σ) (q : List (Option ι)) (st : ι → Status V V) (i : ι) (cur p : Option ι) :
    Prop :=
  cur = s.nextNode i ∧ q.head? = some p ∧
    (cur = p ∧ s.Queued q cur (st i) ∨ s.Served q cur (st i) ∧ (s.node p).locked = true)

/-- The thread has executed the request of the node `p`, with the value `ret`: its own, or one whose
thread waits. The first node of the queue is the next one. -/
def State.Past (s : State ι V σ) (q : List (Option ι)) (st : ι → Status V V) (i : ι) (cur p t : Option ι)
    (ret : V) : Prop :=
  cur = s.nextNode i ∧ q.head? = some t ∧ (s.node t).locked = true ∧ p ∉ q ∧
    (cur = p ∧ st i = .done ret ∨
      s.Served q cur (st i) ∧ cur ≠ p ∧ (s.node p).locked = true ∧
        ∃ k, s.pc k = .spin p ∧ s.nextNode k = p ∧ st k = .done ret)

/-- Where a thread that executes requests is. -/
def State.Combines (s : State ι V σ) (q : List (Option ι)) (st : ι → Status V V) (i : ι) : Prop :=
  match s.pc i with
  | .check cur p counter => s.AtHead q st i cur p ∧ (cur = p → counter = 0)
  | .take cur p _ => s.AtHead q st i cur p ∧ ∃ b, (s.node p).next = some b
  | .serve cur p t _ => s.AtHead q st i cur p ∧ (s.node p).next = some t
  | .store cur p t _ ret => s.Past q st i cur p t ret
  | .complete cur p t _ => s.Past q st i cur p t (s.node p).argRet
  | .unlock cur p t _ => s.Past q st i cur p t (s.node p).argRet ∧ (s.node p).completed = true
  | .release cur p => s.AtHead q st i cur p ∧ cur ≠ p
  | _ => True

/-- The nodes of the queue `q` are those whose requests have not been executed, and the tail. `st` says
where the operations of the threads are on the object. -/
structure State.Inv (s : State ι V σ) (q : List (Option ι)) (st : ι → Status V V) : Prop where
  nodup : q.Nodup
  tail : q.getLast? = some s.tail
  last : (s.node s.tail).next = none
  waiting : ∀ a ∈ q, (s.node a).completed = false
  locked : ∀ a b, Behind q a b → (s.node b).locked = true
  free : (∀ i, (s.pc i).combines = none) → ∀ a, q.head? = some a → (s.node a).locked = false
  unique : ∀ i j, (s.pc i).combines ≠ none → (s.pc j).combines ≠ none → i = j
  own_inj : ∀ i j, s.own i = s.own j → i = j
  own_ne : ∀ i, s.own i ≠ s.tail
  owner : ∀ a ∈ q, a = s.tail ∨ ∃ i, s.own i = a
  stands : ∀ i, s.Stands q st i
  combines : ∀ i, s.Combines q st i

section Inv

variable {s s' : State ι V σ} {q q' : List (Option ι)} {st st' : ι → Status V V} {i j : ι} {a b p t cur : Option ι}
  {x : Status V V} {ret : V}

omit [DecidableEq ι] in
theorem State.Queued.congr
    (h : s.Queued q a x) (hnode : s'.node a = s.node a) (hbehind : ∀ b, Behind q a b → Behind q' a b) :
  s'.Queued q' a x
  := by
  obtain ⟨b, hb, hnext, hx⟩ := h
  refine ⟨b, hbehind b hb, ?_⟩
  rw [hnode]
  exact ⟨hnext, hx⟩

omit [DecidableEq ι] in
theorem State.Served.congr (h : s.Served q a x) (hnode : s'.node a = s.node a) (hmem : a ∈ q' → a ∈ q) :
  s'.Served q' a x
  := by
  refine ⟨fun ha => h.1 (hmem ha), ?_⟩
  rw [hnode]
  exact h.2

omit [DecidableEq ι] in
/-- A thread stands as before if nothing happens to its node. -/
theorem State.Stands.congr
    (h : s.Stands q st j) (hpc : s'.pc j = s.pc j) (hnext : s'.nextNode j = s.nextNode j) (hst : st' j = st j)
    (hnode : s'.node (s.own j) = s.node (s.own j)) (hmem : s.own j ∈ q' → s.own j ∈ q)
    (hbehind : ∀ b, Behind q (s.own j) b → Behind q' (s.own j) b)
    (hfree : (∀ k, (s.pc k).combines = none) → q.head? = some (s.own j) →
      q'.head? = some (s.own j) ∧ ∀ k, (s'.pc k).combines = none) :
  s'.Stands q' st' j
  := by
  rw [State.Stands] at h ⊢
  rw [hpc, hnext, hst]
  simp only [State.own] at hnode hmem hbehind hfree
  cases hp : s.pc j <;> simp only [hp] at h hnode hmem hbehind hfree ⊢
  case idle => exact ⟨h.1, fun hq => h.2 (hmem hq)⟩
  case clearNext => exact ⟨h.1, fun hq => h.2 (hmem hq)⟩
  case setLocked => exact ⟨h.1, fun hq => h.2.1 (hmem hq), hnode ▸ h.2.2⟩
  case clearCompleted => exact ⟨h.1, fun hq => h.2.1 (hmem hq), hnode ▸ h.2.2⟩
  case swap => exact ⟨h.1, fun hq => h.2.1 (hmem hq), hnode ▸ h.2.2⟩
  case writeArg => exact ⟨h.1, hbehind _ h.2.1, hnode ▸ h.2.2⟩
  case link => exact ⟨hnode ▸ h.1, hbehind _ h.2.1, hnode ▸ h.2.2⟩
  case spin cur =>
    obtain ⟨rfl, hqueued | ⟨hnot, hserved⟩⟩ := h
    · exact ⟨rfl, .inl (hqueued.congr hnode hbehind)⟩
    · refine ⟨rfl, .inr ⟨fun hq => hnot (hmem hq), ?_⟩⟩
      rw [hnode]
      exact fun hlocked => (hserved hlocked).congr hnode hmem
  case helped cur =>
    obtain ⟨rfl, ⟨hqueued, hhead, hnone⟩ | hserved⟩ := h
    · obtain ⟨hhead', hnone'⟩ := hfree hnone hhead
      exact ⟨rfl, .inl ⟨hqueued.congr hnode hbehind, hhead', hnone'⟩⟩
    · exact ⟨rfl, .inr (hserved.congr hnode hmem)⟩
  case readRet cur =>
    obtain ⟨rfl, hserved⟩ := h
    exact ⟨rfl, hserved.congr hnode hmem⟩
  case finish cur =>
    obtain ⟨rfl, hserved⟩ := h
    exact ⟨rfl, hserved.congr hnode hmem⟩

/-- What a step of a thread that executes no requests leaves as it is: it changes its own node, whose
links stay in the queue, and may put a node behind the tail. -/
structure Aside (s s' : State ι V σ) (q q' : List (Option ι)) (st st' : ι → Status V V) (i : ι) : Prop where
  pc : ∀ j, j ≠ i → s'.pc j = s.pc j
  nextNode : ∀ j, j ≠ i → s'.nextNode j = s.nextNode j
  status : ∀ j, j ≠ i → st' j = st j
  node : ∀ a, a ≠ s.own i → s'.node a = s.node a
  locked : s.own i ∈ q → (s'.node (s.own i)).locked = (s.node (s.own i)).locked
  next : ∀ b, s.own i ∈ q → (s.node (s.own i)).next = some b → (s'.node (s.own i)).next = some b
  new : ∀ a, a ≠ s.own i → a ∈ q' → a ∈ q
  behind : ∀ a b, Behind q a b → Behind q' a b
  head : ∀ a, q.head? = some a → q'.head? = some a
  spin : ∀ a, s.pc i = .spin a → (s.node a).locked = false
  before : (s.pc i).combines = none
  after : (∀ a, q.head? = some a → a ≠ s.own i) → (s'.pc i).combines = none

omit [DecidableEq ι] in
theorem State.Inv.stands_aside (h : s.Inv q st) (ha : Aside s s' q q' st st' i) (hj : j ≠ i) :
  s'.Stands q' st' j
  := by
  have hown : s.own j ≠ s.own i := fun heq => hj (h.own_inj j i heq)
  apply (h.stands j).congr (ha.pc j hj) (ha.nextNode j hj) (ha.status j hj) (ha.node _ hown) (ha.new _ hown)
    (ha.behind _)
  intro hnone hhead
  refine ⟨ha.head _ hhead, ?_⟩
  intro k
  by_cases hk : k = i
  · subst hk
    apply ha.after
    intro a hhead'
    rw [hhead] at hhead'
    obtain rfl := Option.some.inj hhead'
    exact hown
  · rw [ha.pc k hk]
    exact hnone k

omit [DecidableEq ι] in
theorem Aside.atHead
    (ha : Aside s s' q q' st st' i) (hj : j ≠ i) (hown : s.nextNode j ≠ s.own i) (h : s.AtHead q st j cur p) :
  s'.AtHead q' st' j cur p
  := by
  obtain ⟨rfl, hhead, hcur⟩ := h
  rw [State.AtHead, ha.nextNode j hj, ha.status j hj]
  refine ⟨rfl, ha.head p hhead, ?_⟩
  obtain ⟨rfl, hqueued⟩ | ⟨hserved, hlocked⟩ := hcur
  · exact .inl ⟨rfl, hqueued.congr (ha.node _ hown) (ha.behind _)⟩
  · refine .inr ⟨hserved.congr (ha.node _ hown) (ha.new _ hown), ?_⟩
    by_cases hp : p = s.own i
    · subst hp
      rw [ha.locked (List.mem_of_head? hhead)]
      exact hlocked
    · rw [ha.node p hp]
      exact hlocked

omit [DecidableEq ι] in
theorem Aside.next_eq
    (ha : Aside s s' q q' st st' i) (hp : p ∈ q) (hnext : (s.node p).next = some b) :
  (s'.node p).next = some b
  := by
  by_cases hown : p = s.own i
  · subst hown
    exact ha.next b hp hnext
  · rw [ha.node p hown]
    exact hnext

omit [DecidableEq ι] in
theorem State.Inv.past_aside
    (h : s.Inv q st) (ha : Aside s s' q q' st st' i) (hj : j ≠ i) (hown : s.nextNode j ≠ s.own i)
    (hpast : s.Past q st j cur p t ret) :
  s'.Past q' st' j cur p t ret ∧ s'.node p = s.node p
  := by
  obtain ⟨rfl, hhead, hlocked, hp, hcur⟩ := hpast
  have hlocked' : (s'.node t).locked = true := by
    by_cases ht : t = s.own i
    · subst ht
      rw [ha.locked (List.mem_of_head? hhead)]
      exact hlocked
    · rw [ha.node t ht]
      exact hlocked
  rw [State.Past, ha.nextNode j hj, ha.status j hj]
  obtain ⟨rfl, hdone⟩ | ⟨hserved, hne, hplocked, k, hk, hknext, hkdone⟩ := hcur
  · exact ⟨⟨rfl, ha.head t hhead, hlocked', fun hp' => hp (ha.new _ hown hp'), .inl ⟨rfl, hdone⟩⟩, ha.node _ hown⟩
  · -- the thread of the node waits, so that it is not the one that takes the step
    have hki : k ≠ i := by
      rintro rfl
      rw [ha.spin p hk] at hplocked
      cases hplocked
    have hpown : p ≠ s.own i := by
      have hkown : s.own k = p := by rw [State.own, hk, hknext]
      rw [← hkown]
      exact fun heq => hki (h.own_inj k i heq)
    rw [ha.node p hpown]
    refine ⟨⟨rfl, ha.head t hhead, hlocked', fun hp' => hp (ha.new p hpown hp'), .inr ?_⟩, rfl⟩
    refine ⟨hserved.congr (ha.node _ hown) (ha.new _ hown), hne, hplocked, k, ?_⟩
    rw [ha.pc k hki, ha.nextNode k hki, ha.status k hki]
    exact ⟨hk, hknext, hkdone⟩

omit [DecidableEq ι] in
/-- A thread that executes requests goes on as before. -/
theorem State.Inv.combines_aside (h : s.Inv q st) (ha : Aside s s' q q' st st' i) (hj : j ≠ i) :
  s'.Combines q' st' j
  := by
  have hcombines := h.combines j
  have hown : (s.pc j).combines ≠ none → s.nextNode j ≠ s.own i := by
    intro hcomb heq
    apply hj
    apply h.own_inj
    rw [← heq, State.own]
    split
    · next hp => exact absurd (by rw [hp]; rfl) hcomb
    · next hp => exact absurd (by rw [hp]; rfl) hcomb
    · rfl
  rw [State.Combines] at hcombines ⊢
  rw [ha.pc j hj]
  cases hp : s.pc j <;> simp only [hp] at hcombines hown ⊢
  case check cur p counter =>
    exact ⟨ha.atHead hj (hown (by rintro ⟨⟩)) hcombines.1, hcombines.2⟩
  case take cur p counter =>
    obtain ⟨hat, b, hb⟩ := hcombines
    exact ⟨ha.atHead hj (hown (by rintro ⟨⟩)) hat, b, ha.next_eq (List.mem_of_head? hat.2.1) hb⟩
  case serve cur p t counter =>
    obtain ⟨hat, hb⟩ := hcombines
    exact ⟨ha.atHead hj (hown (by rintro ⟨⟩)) hat, ha.next_eq (List.mem_of_head? hat.2.1) hb⟩
  case store cur p t counter ret =>
    exact (h.past_aside ha hj (hown (by rintro ⟨⟩)) hcombines).1
  case complete cur p t counter =>
    obtain ⟨hpast, hnode⟩ := h.past_aside ha hj (hown (by rintro ⟨⟩)) hcombines
    rw [hnode]
    exact hpast
  case unlock cur p t counter =>
    obtain ⟨hpast, hnode⟩ := h.past_aside ha hj (hown (by rintro ⟨⟩)) hcombines.1
    rw [hnode]
    exact ⟨hpast, hcombines.2⟩
  case release cur p =>
    exact ⟨ha.atHead hj (hown (by rintro ⟨⟩)) hcombines.1, hcombines.2⟩

omit [DecidableEq ι] in
theorem Aside.own_eq (ha : Aside s s' q q' st st' i) (hj : j ≠ i) :
  s'.own j = s.own j
  := by
  rw [State.own, State.own, ha.pc j hj, ha.nextNode j hj]

omit [DecidableEq ι] in
/-- A step that executes no requests, and puts no node into the queue. -/
theorem State.Inv.aside
    (h : s.Inv q st) (ha : Aside s s' q q st st' i) (htail : s'.tail = s.tail) (hown : s'.own i = s.own i)
    (hcompleted : s.own i ∈ q → (s'.node (s.own i)).completed = (s.node (s.own i)).completed)
    (hunique : (s'.pc i).combines ≠ none → ∀ j, (s.pc j).combines = none) (hstands : s'.Stands q st' i)
    (hcombines : s'.Combines q st' i) :
  s'.Inv q st'
  := by
  have hownAll : ∀ j, s'.own j = s.own j := by
    intro j
    by_cases hj : j = i
    · rw [hj, hown]
    · exact ha.own_eq hj
  have hothers : ∀ j, j ≠ i → (s'.pc j).combines = (s.pc j).combines := fun j hj => by rw [ha.pc j hj]
  refine ⟨h.nodup, ?_, ?_, ?_, ?_, ?_, ?_, ?_, ?_, ?_, ?_, ?_⟩
  · rw [htail]
    exact h.tail
  · rw [htail, ha.node _ (h.own_ne i).symm]
    exact h.last
  · intro a hq
    by_cases hi : a = s.own i
    · subst hi
      rw [hcompleted hq]
      exact h.waiting _ hq
    · rw [ha.node a hi]
      exact h.waiting a hq
  · intro a b hab
    by_cases hi : b = s.own i
    · subst hi
      rw [ha.locked hab.mem.2]
      exact h.locked a _ hab
    · rw [ha.node b hi]
      exact h.locked a b hab
  · intro hnone a hhead
    have hfree := h.free (by
      intro j
      by_cases hj : j = i
      · rw [hj]
        exact ha.before
      · rw [← hothers j hj]
        exact hnone j) a hhead
    by_cases hi : a = s.own i
    · subst hi
      rw [ha.locked (List.mem_of_head? hhead)]
      exact hfree
    · rw [ha.node a hi]
      exact hfree
  · intro j k hj hk
    by_cases hji : j = i
    · by_cases hki : k = i
      · rw [hji, hki]
      · rw [hji] at hj
        rw [hothers k hki] at hk
        exact absurd (hunique hj k) hk
    · rw [hothers j hji] at hj
      by_cases hki : k = i
      · rw [hki] at hk
        exact absurd (hunique hk j) hj
      · rw [hothers k hki] at hk
        exact h.unique j k hj hk
  · intro j k hjk
    rw [hownAll, hownAll] at hjk
    exact h.own_inj j k hjk
  · intro j
    rw [hownAll, htail]
    exact h.own_ne j
  · intro a hq
    rw [htail]
    obtain rfl | ⟨j, hj⟩ := h.owner a hq
    · exact .inl rfl
    · exact .inr ⟨j, (hownAll j).trans hj⟩
  · intro j
    by_cases hj : j = i
    · rw [hj]
      exact hstands
    · exact h.stands_aside ha hj
  · intro j
    by_cases hj : j = i
    · rw [hj]
      exact hcombines
    · exact h.combines_aside ha hj

/-- The thread only goes on. -/
theorem aside_goto
    (pc : Pc ι V) (q : List (Option ι)) (st : ι → Status V V) (x : Status V V) (hbefore : (s.pc i).combines = none)
    (hspin : ∀ a, s.pc i = .spin a → (s.node a).locked = false)
    (hafter : (∀ a, q.head? = some a → a ≠ s.own i) → pc.combines = none) :
  Aside s (s.goto i pc) q q st (Function.update st i x) i
  where
  pc j hj := Function.update_of_ne hj _ _
  nextNode _ _ := rfl
  status j hj := Function.update_of_ne hj _ _
  node _ _ := rfl
  locked _ := rfl
  next _ _ hb := hb
  new _ _ ha := ha
  behind _ _ hab := hab
  head _ ha := ha
  spin := hspin
  before := hbefore
  after hhead := by
    rw [State.goto_pc_self]
    exact hafter hhead

/-- The thread writes to its own node. -/
theorem aside_modify
    {pc : Pc ι V} {f : Node ι V → Node ι V} (q : List (Option ι)) (st : ι → Status V V) (x : Status V V)
    (hown : s.own i = a) (hlocked : a ∈ q → (f (s.node a)).locked = (s.node a).locked)
    (hnext : ∀ b, a ∈ q → (s.node a).next = some b → (f (s.node a)).next = some b)
    (hbefore : (s.pc i).combines = none) (hspin : ∀ a, s.pc i = .spin a → (s.node a).locked = false)
    (hafter : pc.combines = none) :
  Aside s ((s.modify a f).goto i pc) q q st (Function.update st i x) i
  := by
  subst hown
  refine ⟨?_, fun _ _ => rfl, ?_, ?_, ?_, ?_, fun _ _ ha => ha, fun _ _ hab => hab, fun _ ha => ha, hspin, hbefore, ?_⟩
  · exact fun j hj => Function.update_of_ne hj _ _
  · exact fun j hj => Function.update_of_ne hj _ _
  · exact fun b hb => Function.update_of_ne hb _ _
  · intro hq
    rw [State.goto_node, State.modify_node_self]
    exact hlocked hq
  · intro b hq hb
    rw [State.goto_node, State.modify_node_self]
    exact hnext b hq hb
  · intro _
    rw [State.goto_pc_self]
    exact hafter

end Inv

/-! ### Steps of a thread that executes no requests -/

section Steps

variable {s : State ι V σ} {q : List (Option ι)} {st : ι → Status V V} {i : ι} {cur b : Option ι} {arg : V}

/-- A thread goes on, without executing requests. -/
theorem State.Inv.goto
    (pc : Pc ι V) (x : Status V V) (h : s.Inv q st) (hbefore : (s.pc i).combines = none)
    (hspin : ∀ a, s.pc i = .spin a → (s.node a).locked = false) (hafter : pc.combines = none)
    (hown : (s.goto i pc).own i = s.own i) (hstands : (s.goto i pc).Stands q (Function.update st i x) i) :
  (s.goto i pc).Inv q (Function.update st i x)
  := by
  apply h.aside (aside_goto pc q st x hbefore hspin fun _ => hafter) rfl hown (fun _ => rfl) _ hstands
  · rw [State.Combines, State.goto_pc_self]
    cases pc <;> trivial
  · intro hcomb
    rw [State.goto_pc_self] at hcomb
    exact absurd hafter hcomb

/-- A thread writes to its node, and goes on. -/
theorem State.Inv.write
    {pc : Pc ι V} {a : Option ι} {f : Node ι V → Node ι V} (h : s.Inv q st) (hbefore : (s.pc i).combines = none)
    (hspin : ∀ a, s.pc i ≠ .spin a) (hafter : pc.combines = none) (ha : s.own i = a)
    (hown : ((s.modify a f).goto i pc).own i = a) (hlocked : a ∈ q → (f (s.node a)).locked = (s.node a).locked)
    (hcompleted : a ∈ q → (f (s.node a)).completed = (s.node a).completed)
    (hnext : ∀ b, a ∈ q → (s.node a).next = some b → (f (s.node a)).next = some b)
    (hstands : ((s.modify a f).goto i pc).Stands q st i) :
  ((s.modify a f).goto i pc).Inv q st
  := by
  have haside := aside_modify q st (st i) ha hlocked hnext hbefore (fun a ha => absurd ha (hspin a)) hafter
  rw [Function.update_eq_self] at haside
  subst ha
  apply h.aside haside rfl hown _ _ hstands
  · rw [State.Combines, State.goto_pc_self]
    cases pc <;> trivial
  · intro hq
    rw [State.goto_node, State.modify_node_self]
    exact hcompleted hq
  · intro hcomb
    rw [State.goto_pc_self] at hcomb
    exact absurd hafter hcomb

theorem State.Inv.call (h : s.Inv q st) (hp : s.pc i = .idle) (arg : V) :
  (s.goto i (.clearNext arg)).Inv q (Function.update st i (.pending arg))
  := by
  have hstands := h.stands i
  simp only [State.Stands, hp] at hstands
  apply h.goto
  · rw [hp]
    rfl
  · intro a ha
    rw [hp] at ha
    cases ha
  · rfl
  · simp [State.own, hp]
  · simp only [State.Stands, State.goto_pc_self, State.goto_nextNode, Function.update_self]
    exact ⟨trivial, hstands.2⟩

/-- The three writes to the node that a thread is going to put into the queue. -/
theorem State.Inv.prepare
    {pc : Pc ι V} {f : Node ι V → Node ι V} (h : s.Inv q st)
    (hp : s.pc i = .clearNext arg ∨ s.pc i = .setLocked arg ∨ s.pc i = .clearCompleted arg)
    (hafter : pc = .setLocked arg ∨ pc = .clearCompleted arg ∨ pc = .swap arg)
    (hstands : ((s.modify (s.nextNode i) f).goto i pc).Stands q st i) :
  ((s.modify (s.nextNode i) f).goto i pc).Inv q st
  := by
  have hnot : s.nextNode i ∉ q := by
    have := h.stands i
    obtain hp | hp | hp := hp <;> simp only [State.Stands, hp] at this
    · exact this.2
    · exact this.2.1
    · exact this.2.1
  apply h.write (a := s.nextNode i)
  · obtain hp | hp | hp := hp <;> rw [hp] <;> rfl
  · obtain hp | hp | hp := hp <;> rw [hp] <;> rintro a ⟨⟩
  · obtain rfl | rfl | rfl := hafter <;> rfl
  · obtain hp | hp | hp := hp <;> simp [State.own, hp]
  · obtain rfl | rfl | rfl := hafter <;> simp [State.own]
  · exact fun hq => absurd hq hnot
  · exact fun hq => absurd hq hnot
  · exact fun b hq => absurd hq hnot
  · exact hstands

theorem State.Inv.clearNext (h : s.Inv q st) (hp : s.pc i = .clearNext arg) :
  ((s.modify (s.nextNode i) fun n => { n with next := none }).goto i (.setLocked arg)).Inv q st
  := by
  have hstands := h.stands i
  simp only [State.Stands, hp] at hstands
  apply h.prepare (.inl hp) (.inl rfl)
  simp only [State.Stands, State.goto_pc_self, State.goto_nextNode, State.goto_node, State.modify_nextNode,
    State.modify_node_self]
  exact ⟨hstands.1, hstands.2, trivial⟩

theorem State.Inv.setLocked (h : s.Inv q st) (hp : s.pc i = .setLocked arg) :
  ((s.modify (s.nextNode i) fun n => { n with locked := true }).goto i (.clearCompleted arg)).Inv q st
  := by
  have hstands := h.stands i
  simp only [State.Stands, hp] at hstands
  apply h.prepare (.inr (.inl hp)) (.inr (.inl rfl))
  simp only [State.Stands, State.goto_pc_self, State.goto_nextNode, State.goto_node, State.modify_nextNode,
    State.modify_node_self]
  exact ⟨hstands.1, hstands.2.1, hstands.2.2, trivial⟩

theorem State.Inv.clearCompleted (h : s.Inv q st) (hp : s.pc i = .clearCompleted arg) :
  ((s.modify (s.nextNode i) fun n => { n with completed := false }).goto i (.swap arg)).Inv q st
  := by
  have hstands := h.stands i
  simp only [State.Stands, hp] at hstands
  apply h.prepare (.inr (.inr hp)) (.inr (.inr rfl))
  simp only [State.Stands, State.goto_pc_self, State.goto_nextNode, State.goto_node, State.modify_nextNode,
    State.modify_node_self]
  exact ⟨hstands.1, hstands.2.1, hstands.2.2.1, hstands.2.2.2, trivial⟩

theorem State.Inv.writeArg (h : s.Inv q st) (hp : s.pc i = .writeArg arg cur b) :
  ((s.modify cur fun n => { n with argRet := arg }).goto i (.link cur b)).Inv q st
  := by
  have hstands := h.stands i
  simp only [State.Stands, hp] at hstands
  apply h.write (a := cur)
  · rw [hp]
    rfl
  · rw [hp]
    rintro a ⟨⟩
  · rfl
  · simp [State.own, hp]
  · simp [State.own]
  · exact fun _ => rfl
  · exact fun _ => rfl
  · exact fun _ _ hb => hb
  · simp only [State.Stands, State.goto_pc_self, State.goto_node, State.modify_node_self]
    exact hstands

/-- The node is linked to the next one. -/
theorem State.Inv.link (h : s.Inv q st) (hp : s.pc i = .link cur b) :
  (((s.modify cur fun n => { n with next := some b }).setNextNode i cur).goto i (.spin cur)).Inv q st
  := by
  have hstands := h.stands i
  simp only [State.Stands, hp] at hstands
  obtain ⟨hst, hbehind, hnone⟩ := hstands
  have hown : s.own i = cur := by rw [State.own, hp]
  have haside : Aside s (((s.modify cur fun n => { n with next := some b }).setNextNode i cur).goto i
      (.spin cur)) q q st st i := by
    refine ⟨?_, ?_, fun _ _ => rfl, ?_, ?_, ?_, fun _ _ ha => ha, fun _ _ hab => hab, fun _ ha => ha, ?_, ?_, ?_⟩
    · exact fun j hj => State.goto_pc_of_ne _ _ hj
    · exact fun j hj => Function.update_of_ne hj _ _
    · intro a ha
      rw [hown] at ha
      rw [State.goto_node, State.setNextNode_node, State.modify_node_of_ne _ _ ha]
    · intro _
      rw [hown, State.goto_node, State.setNextNode_node, State.modify_node_self]
    · intro b' _ hb'
      rw [hown, hnone] at hb'
      cases hb'
    · intro a ha
      rw [hp] at ha
      cases ha
    · rw [hp]
      rfl
    · intro _
      rw [State.goto_pc_self]
      rfl
  apply h.aside haside rfl
  · rw [hown, State.own, State.goto_pc_self]
    exact State.setNextNode_nextNode_self _ _ _
  · intro _
    rw [hown, State.goto_node, State.setNextNode_node, State.modify_node_self]
  · intro hcomb
    rw [State.goto_pc_self] at hcomb
    exact absurd rfl hcomb
  · simp only [State.Stands, State.goto_pc_self, State.goto_nextNode, State.setNextNode_nextNode_self, true_and]
    left
    refine ⟨b, hbehind, ?_⟩
    rw [State.goto_node, State.setNextNode_node, State.modify_node_self]
    exact ⟨rfl, hst⟩
  · rw [State.Combines, State.goto_pc_self]
    trivial

omit [DecidableEq ι] in
/-- A thread that sees its node unlocked in the queue is the first one, and nobody executes requests. -/
theorem State.Inv.first
    (h : s.Inv q st) (hown : s.own i = cur) (hq : cur ∈ q) (hcombines : (s.pc i).combines = none)
    (hlocked : (s.node cur).locked = false) :
  q.head? = some cur ∧ ∀ j, (s.pc j).combines = none
  := by
  have hhead : q.head? = some cur := by
    obtain hhead | ⟨a, ha⟩ := Mcs.head_or_behind hq
    · exact hhead
    · rw [h.locked a cur ha] at hlocked
      cases hlocked
  refine ⟨hhead, ?_⟩
  intro j
  by_contra hj
  have hne : ∀ cur', cur' = s.nextNode j → (s.pc j).combines ≠ none → cur ≠ cur' := by
    rintro _ rfl hcomb heq
    have hownj : s.own j = s.nextNode j := by
      rw [State.own]
      split
      · next hp => exact absurd (by rw [hp]; rfl) hcomb
      · next hp => exact absurd (by rw [hp]; rfl) hcomb
      · rfl
    rw [← hown, ← hownj] at heq
    obtain rfl := h.own_inj i j heq
    exact hcomb hcombines
  have hat : ∀ cur' p, s.AtHead q st j cur' p → False := by
    rintro cur' p ⟨hcur, hp, ⟨rfl, -⟩ | ⟨-, hplocked⟩⟩
    · rw [hhead] at hp
      exact hne cur' hcur hj (Option.some.inj hp)
    · rw [hhead] at hp
      obtain rfl := Option.some.inj hp
      rw [hlocked] at hplocked
      cases hplocked
  have hpast : ∀ cur' p t ret, s.Past q st j cur' p t ret → False := by
    rintro cur' p t ret ⟨-, ht, htlocked, -⟩
    rw [hhead] at ht
    obtain rfl := Option.some.inj ht
    rw [hlocked] at htlocked
    cases htlocked
  have hcomb := h.combines j
  rw [State.Combines] at hcomb
  cases hp : s.pc j <;> simp only [hp] at hcomb hj
  case check cur' p counter => exact hat _ _ hcomb.1
  case take cur' p counter => exact hat _ _ hcomb.1
  case serve cur' p t counter => exact hat _ _ hcomb.1
  case store cur' p t counter ret => exact hpast _ _ _ _ hcomb
  case complete cur' p t counter => exact hpast _ _ _ _ hcomb
  case unlock cur' p t counter => exact hpast _ _ _ _ hcomb.1
  case release cur' p => exact hat _ _ hcomb.1
  all_goals exact hj rfl

/-- A thread sees that its node is unlocked. -/
theorem State.Inv.spin (h : s.Inv q st) (hp : s.pc i = .spin cur) (hlocked : (s.node cur).locked = false) :
  (s.goto i (.helped cur)).Inv q st
  := by
  have hstands := h.stands i
  simp only [State.Stands, hp] at hstands
  obtain ⟨hcur, hwait⟩ := hstands
  have hown : s.own i = cur := by rw [State.own, hp, hcur]
  have hbefore : (s.pc i).combines = none := by
    rw [hp]
    rfl
  have hgoto := h.goto (.helped cur) (st i) hbefore
  rw [Function.update_eq_self] at hgoto
  apply hgoto
  · intro a ha
    rw [hp] at ha
    obtain rfl := Pc.spin.inj ha
    exact hlocked
  · rfl
  · simp [State.own, hp]
  · simp only [State.Stands, State.goto_pc_self, State.goto_nextNode, hcur, true_and]
    rw [← hcur]
    obtain hqueued | ⟨-, hserved⟩ := hwait
    · left
      obtain ⟨hhead, hnone⟩ := h.first hown hqueued.choose_spec.1.mem.1 hbefore hlocked
      refine ⟨hqueued, hhead, ?_⟩
      intro j
      by_cases hj : j = i
      · rw [hj, State.goto_pc_self]
        rfl
      · rw [State.goto_pc_of_ne _ _ hj]
        exact hnone j
    · exact .inr (hserved hlocked)

/-- A thread sees that its request has been executed. -/
theorem State.Inv.helped (h : s.Inv q st) (hp : s.pc i = .helped cur) (hcompleted : (s.node cur).completed = true) :
  (s.goto i (.readRet cur)).Inv q st
  := by
  have hstands := h.stands i
  simp only [State.Stands, hp] at hstands
  obtain ⟨hcur, ⟨-, hhead, -⟩ | hserved⟩ := hstands
  · rw [h.waiting cur (List.mem_of_head? hhead)] at hcompleted
    cases hcompleted
  · have hgoto := h.goto (i := i) (.readRet cur) (st i)
    rw [Function.update_eq_self] at hgoto
    apply hgoto
    · rw [hp]
      rfl
    · intro a ha
      rw [hp] at ha
      cases ha
    · rfl
    · simp [State.own, hp]
    · simp only [State.Stands, State.goto_pc_self, State.goto_nextNode]
      exact ⟨hcur, hserved⟩

/-- A thread returns. -/
theorem State.Inv.ret (h : s.Inv q st) (hp : s.pc i = .readRet cur ∨ s.pc i = .finish cur) :
  st i = .done (s.node cur).argRet ∧ (s.goto i .idle).Inv q (Function.update st i .idle)
  := by
  have hserved : cur = s.nextNode i ∧ s.Served q cur (st i) := by
    have := h.stands i
    obtain hp | hp := hp <;> simp only [State.Stands, hp] at this <;> exact this
  obtain ⟨hcur, hnot, hcompleted, hst⟩ := hserved
  refine ⟨hst, ?_⟩
  apply h.goto
  · obtain hp | hp := hp <;> rw [hp] <;> rfl
  · intro a ha
    obtain hp | hp := hp <;> rw [hp] at ha <;> cases ha
  · rfl
  · obtain hp | hp := hp <;> simp [State.own, hp]
  · simp only [State.Stands, State.goto_pc_self, State.goto_nextNode, Function.update_self, true_and]
    rw [← hcur]
    exact hnot

/-- A thread puts its node into the queue and gets the one that was the last. -/
theorem State.Inv.swap (h : s.Inv q st) (hp : s.pc i = .swap arg) :
  ({ s with tail := s.nextNode i }.goto i (.writeArg arg s.tail (s.nextNode i))).Inv (q ++ [s.nextNode i]) st
  := by
  have hstands := h.stands i
  simp only [State.Stands, hp] at hstands
  obtain ⟨hst, hnot, hnext, hlocked, hcompleted⟩ := hstands
  have hown : s.own i = s.nextNode i := by rw [State.own, hp]
  have hnone : (s.pc i).combines = none := by
    rw [hp]
    rfl
  have htail : s.tail ∈ q := List.mem_of_getLast? h.tail
  have hhead : ∀ a, (q ++ [s.nextNode i]).head? = some a → q.head? = some a := by
    intro a ha
    cases q with
    | nil => cases htail
    | cons x q => exact ha
  have haside : Aside s ({ s with tail := s.nextNode i }.goto i (.writeArg arg s.tail (s.nextNode i))) q
      (q ++ [s.nextNode i]) st st i := by
    refine ⟨?_, fun _ _ => rfl, fun _ _ => rfl, fun _ _ => rfl, fun _ => rfl, fun _ _ hb => hb, ?_, ?_, ?_, ?_,
      hnone, ?_⟩
    · exact fun j hj => State.goto_pc_of_ne _ _ hj
    · intro a ha haq
      rw [List.mem_append, List.mem_singleton] at haq
      obtain haq | rfl := haq
      · exact haq
      · exact absurd hown.symm ha
    · exact fun a b hab => behind_append hab _
    · intro a ha
      rw [List.head?_append, ha]
      rfl
    · intro a ha
      rw [hp] at ha
      cases ha
    · intro _
      rw [State.goto_pc_self]
      rfl
  have hothers : ∀ j, j ≠ i → ({ s with tail := s.nextNode i }.goto i (.writeArg arg s.tail (s.nextNode i))).own j
      = s.own j := fun j hj => haside.own_eq hj
  have hself : ({ s with tail := s.nextNode i }.goto i (.writeArg arg s.tail (s.nextNode i))).own i = s.tail := by
    rw [State.own, State.goto_pc_self]
  have hcombines : ∀ j, (({ s with tail := s.nextNode i }.goto i
      (.writeArg arg s.tail (s.nextNode i))).pc j).combines = (s.pc j).combines := by
    intro j
    by_cases hj : j = i
    · rw [hj, State.goto_pc_self, hnone]
      rfl
    · rw [State.goto_pc_of_ne _ _ hj]
  refine ⟨?_, List.getLast?_concat, hnext, ?_, ?_, ?_, ?_, ?_, ?_, ?_, ?_, ?_⟩
  · rw [List.nodup_append]
    refine ⟨h.nodup, List.nodup_singleton _, ?_⟩
    rintro a ha b hb rfl
    rw [List.mem_singleton.mp hb] at ha
    exact hnot ha
  · intro a ha
    rw [List.mem_append, List.mem_singleton] at ha
    obtain ha | rfl := ha
    · exact h.waiting a ha
    · exact hcompleted
  · intro a b hab
    obtain hab | ⟨-, rfl⟩ := hab.of_append
    · exact h.locked a b hab
    · exact hlocked
  · intro hnone' a ha
    exact h.free (fun j => (hcombines j).symm.trans (hnone' j)) a (hhead a ha)
  · intro j k hj hk
    rw [hcombines] at hj hk
    exact h.unique j k hj hk
  · intro j k hjk
    by_cases hj : j = i
    · by_cases hk : k = i
      · rw [hj, hk]
      · rw [hj, hself, hothers k hk] at hjk
        exact absurd hjk.symm (h.own_ne k)
    · rw [hothers j hj] at hjk
      by_cases hk : k = i
      · rw [hk, hself] at hjk
        exact absurd hjk (h.own_ne j)
      · rw [hothers k hk] at hjk
        exact h.own_inj j k hjk
  · intro j
    by_cases hj : j = i
    · rw [hj, hself]
      intro heq
      rw [show s.tail = s.nextNode i from heq] at htail
      exact hnot htail
    · rw [hothers j hj]
      intro heq
      exact hj (h.own_inj j i (heq.trans hown.symm))
  · intro a ha
    rw [List.mem_append, List.mem_singleton] at ha
    obtain ha | rfl := ha
    · right
      obtain rfl | ⟨j, hj⟩ := h.owner a ha
      · exact ⟨i, hself⟩
      · refine ⟨j, (hothers j ?_).trans hj⟩
        rintro rfl
        rw [← hj, hown] at ha
        exact hnot ha
    · exact .inl rfl
  · intro j
    by_cases hj : j = i
    · subst hj
      rw [State.Stands, State.goto_pc_self]
      exact ⟨hst, behind_concat h.tail _, h.last⟩
    · exact h.stands_aside haside hj
  · intro j
    by_cases hj : j = i
    · subst hj
      rw [State.Combines, State.goto_pc_self]
      trivial
    · exact h.combines_aside haside hj

/-- The thread of the first node begins to execute requests. -/
theorem State.Inv.combine (h : s.Inv q st) (hp : s.pc i = .helped cur) (hcompleted : (s.node cur).completed = false) :
  (s.goto i (.check cur cur 0)).Inv q st
  := by
  have hstands := h.stands i
  simp only [State.Stands, hp] at hstands
  obtain ⟨hcur, ⟨hqueued, hhead, hnone⟩ | ⟨-, hserved, -⟩⟩ := hstands
  · have hown : s.own i = cur := by rw [State.own, hp, hcur]
    have haside := aside_goto (.check cur cur 0) q st (st i) (hnone i) (by
      intro a ha
      rw [hp] at ha
      cases ha) (fun hne => absurd hown.symm (hne cur hhead))
    rw [Function.update_eq_self] at haside
    apply h.aside haside rfl
    · simp [State.own, hp]
    · exact fun _ => rfl
    · exact fun _ => hnone
    · rw [State.Stands, State.goto_pc_self]
      trivial
    · rw [State.Combines, State.goto_pc_self]
      exact ⟨⟨hcur, hhead, .inl ⟨rfl, hqueued⟩⟩, fun _ => rfl⟩
  · rw [hcompleted] at hserved
    cases hserved

end Steps

/-! ### Steps of a thread that executes requests -/

section Combining

variable {s s' : State ι V σ} {q q' : List (Option ι)} {st st' : ι → Status V V} {i j : ι}
  {cur p t : Option ι} {counter : Nat} {ret : V} {pc : Pc ι V}

omit [DecidableEq ι] in
theorem State.own_of_combines (h : (s.pc i).combines ≠ none) :
  s.own i = s.nextNode i
  := by
  rw [State.own]
  split
  · next hp => exact absurd (by rw [hp]; rfl) h
  · next hp => exact absurd (by rw [hp]; rfl) h
  · rfl

omit [DecidableEq ι] in
theorem State.combines_of_none (q : List (Option ι)) (st : ι → Status V V) (h : (s.pc i).combines = none) :
  s.Combines q st i
  := by
  rw [State.Combines]
  cases hp : s.pc i <;> rw [hp] at h <;> trivial

omit [DecidableEq ι] in
theorem State.stands_of_combines (q : List (Option ι)) (st : ι → Status V V) (h : (s.pc i).combines ≠ none) :
  s.Stands q st i
  := by
  rw [State.Stands]
  cases hp : s.pc i <;> rw [hp] at h <;> trivial

omit [DecidableEq ι] in
/-- While one thread executes requests no other does. -/
theorem State.Inv.alone (h : s.Inv q st) (hi : (s.pc i).combines ≠ none) (hj : j ≠ i) :
  (s.pc j).combines = none
  := by
  by_contra hcomb
  exact hj (h.unique j i hcomb hi)

/-- What a step of a thread `i` that executes requests leaves as it is: everything but the node `p`, the
first of the queue or the one that it has executed last. -/
structure Serving (s s' : State ι V σ) (i : ι) (p : Option ι) : Prop where
  pc : ∀ j, j ≠ i → s'.pc j = s.pc j
  nextNode : s'.nextNode = s.nextNode
  tail : s'.tail = s.tail
  node : ∀ a, a ≠ p → s'.node a = s.node a
  next : (s'.node p).next = (s.node p).next
  own : s'.own i = s.own i
  before : (s.pc i).combines ≠ none

omit [DecidableEq ι] in
theorem Serving.own_eq (hs : Serving s s' i p) (j : ι) :
  s'.own j = s.own j
  := by
  by_cases hj : j = i
  · rw [hj, hs.own]
  · rw [State.own, State.own, hs.pc j hj, hs.nextNode]

omit [DecidableEq ι] in
/-- Such a step keeps the invariant, but for what it does itself. -/
theorem State.Inv.serving
    (h : s.Inv q st) (hs : Serving s s' i p) (hwaiting : p ∈ q → (s'.node p).completed = false)
    (hlocked : ∀ a, Behind q a p → (s'.node p).locked = true)
    (hfree : (s'.pc i).combines = none → ∀ a, q.head? = some a → (s'.node a).locked = false)
    (hother : ∀ j, j ≠ i → s.own j = p → s'.Stands q st j) (hstands : s'.Stands q st i)
    (hcombines : s'.Combines q st i) :
  s'.Inv q st
  := by
  have hnone : ∀ j, j ≠ i → (s'.pc j).combines = none := by
    intro j hj
    rw [hs.pc j hj]
    exact h.alone hs.before hj
  refine ⟨h.nodup, ?_, ?_, ?_, ?_, ?_, ?_, ?_, ?_, ?_, ?_, ?_⟩
  · rw [hs.tail]
    exact h.tail
  · rw [hs.tail]
    by_cases hp : s.tail = p
    · rw [hp, hs.next, ← hp]
      exact h.last
    · rw [hs.node _ hp]
      exact h.last
  · intro a ha
    by_cases hap : a = p
    · rw [hap] at ha ⊢
      exact hwaiting ha
    · rw [hs.node a hap]
      exact h.waiting a ha
  · intro a b hab
    by_cases hbp : b = p
    · rw [hbp] at hab ⊢
      exact hlocked a hab
    · rw [hs.node b hbp]
      exact h.locked a b hab
  · exact fun hall => hfree (hall i)
  · intro j k hj hk
    have hji : j = i := by_contra fun hne => hj (hnone j hne)
    have hki : k = i := by_contra fun hne => hk (hnone k hne)
    rw [hji, hki]
  · intro j k hjk
    rw [hs.own_eq, hs.own_eq] at hjk
    exact h.own_inj j k hjk
  · intro j
    rw [hs.own_eq, hs.tail]
    exact h.own_ne j
  · intro a ha
    rw [hs.tail]
    obtain rfl | ⟨j, hj⟩ := h.owner a ha
    · exact .inl rfl
    · exact .inr ⟨j, (hs.own_eq j).trans hj⟩
  · intro j
    by_cases hj : j = i
    · rw [hj]
      exact hstands
    · by_cases hjp : s.own j = p
      · exact hother j hj hjp
      · apply (h.stands j).congr (hs.pc j hj) (congrFun hs.nextNode j) rfl (hs.node _ hjp) id fun _ => id
        exact fun hall => absurd (hall i) hs.before
  · intro j
    by_cases hj : j = i
    · rw [hj]
      exact hcombines
    · exact State.combines_of_none q st (hnone j hj)

theorem serving_goto (p : Option ι) (hbefore : (s.pc i).combines ≠ none) (hafter : pc.combines ≠ none) :
  Serving s (s.goto i pc) i p
  := by
  refine ⟨fun j hj => State.goto_pc_of_ne _ _ hj, rfl, rfl, fun _ _ => rfl, rfl, ?_, hbefore⟩
  rw [State.own_of_combines hbefore, State.own_of_combines (by rwa [State.goto_pc_self])]
  rfl

/-- The thread goes on. -/
theorem State.Inv.proceed
    (h : s.Inv q st) (hbefore : (s.pc i).combines ≠ none) (hafter : pc.combines ≠ none)
    (hcombines : (s.goto i pc).Combines q st i) :
  (s.goto i pc).Inv q st
  := by
  apply h.serving (serving_goto s.tail hbefore hafter)
  · exact fun ha => h.waiting _ ha
  · exact fun a ha => h.locked a _ ha
  · intro hnone
    rw [State.goto_pc_self] at hnone
    exact absurd hnone hafter
  · exact fun j _ hj => absurd hj (h.own_ne j)
  · apply State.stands_of_combines
    rw [State.goto_pc_self]
    exact hafter
  · exact hcombines

/-- There is another node behind `p`. -/
theorem State.Inv.check
    (h : s.Inv q st) (hp : s.pc i = .check cur p counter) (hnext : (s.node p).next ≠ none) :
  (s.goto i (.take cur p (counter + 1))).Inv q st
  := by
  have hcombines := h.combines i
  simp only [State.Combines, hp] at hcombines
  apply h.proceed
  · rw [hp]
    rintro ⟨⟩
  · rintro ⟨⟩
  · rw [State.Combines, State.goto_pc_self]
    exact ⟨hcombines.1, Option.ne_none_iff_exists'.mp hnext⟩

theorem State.Inv.take
    (h : s.Inv q st) (hp : s.pc i = .take cur p counter) (hnext : (s.node p).next = some t) :
  (s.goto i (.serve cur p t counter)).Inv q st
  := by
  have hcombines := h.combines i
  simp only [State.Combines, hp] at hcombines
  apply h.proceed
  · rw [hp]
    rintro ⟨⟩
  · rintro ⟨⟩
  · rw [State.Combines, State.goto_pc_self]
    exact ⟨hcombines.1, hnext⟩

/-- The thread stops, at a node whose request is not its own. -/
theorem State.Inv.stop
    {helpBound : Nat} (h : s.Inv q st) (hbound : 0 < helpBound) (hp : s.pc i = .check cur p counter)
    (hstop : ¬((s.node p).next ≠ none ∧ counter < helpBound)) :
  (s.goto i (.release cur p)).Inv q st
  := by
  have hcombines := h.combines i
  simp only [State.Combines, hp] at hcombines
  obtain ⟨hat, hzero⟩ := hcombines
  apply h.proceed
  · rw [hp]
    rintro ⟨⟩
  · rintro ⟨⟩
  · rw [State.Combines, State.goto_pc_self]
    refine ⟨hat, ?_⟩
    intro hcur
    apply hstop
    rw [hzero hcur]
    refine ⟨?_, hbound⟩
    obtain ⟨-, hhead, ⟨-, b, -, hb, -⟩ | ⟨⟨hnot, -⟩, -⟩⟩ := hat
    · rw [← hcur, hb]
      rintro ⟨⟩
    · rw [hcur] at hnot
      exact absurd (List.mem_of_head? hhead) hnot

omit [DecidableEq ι] in
/-- The thread whose request is executed next: the one that executes it, or one that waits. -/
theorem State.Inv.request
    (h : s.Inv q st) (hbefore : (s.pc i).combines ≠ none) (hat : s.AtHead q st i cur p)
    (hnext : (s.node p).next = some t) :
  ∃ k, s.own k = p ∧ s.Queued q p (st k) ∧
    (k = i ∧ cur = p ∨ k ≠ i ∧ cur ≠ p ∧ s.pc k = .spin p ∧ s.nextNode k = p ∧ s.Served q cur (st i) ∧
      (s.node p).locked = true)
  := by
  obtain ⟨hcur, hhead, ⟨rfl, hqueued⟩ | ⟨hserved, hlocked⟩⟩ := hat
  · exact ⟨i, (State.own_of_combines hbefore).trans hcur.symm, hqueued, .inl ⟨rfl, rfl⟩⟩
  · have hp := List.mem_of_head? hhead
    obtain rfl | ⟨k, hk⟩ := h.owner p hp
    · rw [h.last] at hnext
      cases hnext
    · have hki : k ≠ i := by
        rintro rfl
        rw [State.own_of_combines hbefore, ← hcur] at hk
        exact hserved.1 (hk ▸ hp)
      have hne : cur ≠ p := by
        rintro rfl
        exact hserved.1 hp
      have hstands := h.stands k
      rw [State.Stands] at hstands
      rw [State.own] at hk
      have hidle := h.alone hbefore hki
      have hqueued : s.pc k = .spin p ∧ s.nextNode k = p ∧ s.Queued q p (st k) := by
        cases hpc : s.pc k <;> simp only [hpc] at hstands hk hidle
        case spin a =>
          obtain ⟨rfl, hqueued | ⟨hnot, -⟩⟩ := hstands
          · rw [hk] at hqueued ⊢
            exact ⟨rfl, rfl, hqueued⟩
          · rw [hk] at hnot
            exact absurd hp hnot
        case helped a =>
          obtain ⟨rfl, ⟨-, -, hnone⟩ | ⟨hnot, -⟩⟩ := hstands
          · exact absurd (hnone i) hbefore
          · rw [hk] at hnot
            exact absurd hp hnot
        case writeArg arg a b =>
          rw [hk, hnext] at hstands
          cases hstands.2.2
        case link a b =>
          rw [hk, hnext] at hstands
          cases hstands.2.2
        case idle | clearNext =>
          rw [hk] at hstands
          exact absurd hp hstands.2
        case setLocked | clearCompleted | swap =>
          rw [hk] at hstands
          exact absurd hp hstands.2.1
        case readRet a =>
          obtain ⟨rfl, hnot, -⟩ := hstands
          rw [hk] at hnot
          exact absurd hp hnot
        case finish a =>
          obtain ⟨rfl, hnot, -⟩ := hstands
          rw [hk] at hnot
          exact absurd hp hnot
        all_goals cases hidle
      obtain ⟨hpc, hnextNode, hq⟩ := hqueued
      exact ⟨k, by rw [State.own, hpc, hnextNode], hq, .inr ⟨hki, hne, hpc, hnextNode, hserved, hlocked⟩⟩

/-- A request is executed: its operation takes effect. -/
theorem State.Inv.serve (h : s.Inv q st) (hp : s.pc i = .serve cur p t counter) (object : σ) (ret : V) :
  ∃ k, st k = .pending (s.node p).argRet ∧
    ({ s with object := object }.goto i (.store cur p t counter ret)).Inv q.tail (Function.update st k (.done ret))
  := by
  have hcombines := h.combines i
  simp only [State.Combines, hp] at hcombines
  obtain ⟨hat, hnext⟩ := hcombines
  have hbefore : (s.pc i).combines ≠ none := by
    rw [hp]
    rintro ⟨⟩
  obtain ⟨k, hk, ⟨b, hbehind, hb, hst⟩, hwho⟩ := h.request hbefore hat hnext
  obtain rfl := Option.some.inj (hb.symm.trans hnext)
  obtain ⟨hcur, hhead, -⟩ := hat
  refine ⟨k, hst, ?_⟩
  obtain ⟨rest, rfl⟩ : ∃ rest, q = p :: rest := by
    cases q with
    | nil => cases hhead
    | cons x rest =>
        obtain rfl := Option.some.inj hhead
        exact ⟨rest, rfl⟩
  have hnot : p ∉ rest := (List.nodup_cons.mp h.nodup).1
  have hrest : rest.head? = some b := by
    obtain ⟨n, hn, hn'⟩ := hbehind
    cases n with
    | zero =>
        rw [List.head?_eq_getElem?]
        exact hn'
    | succ n => exact absurd (List.mem_of_getElem? (show rest[n]? = some p from hn)) hnot
  have hs : Serving s ({ s with object := object }.goto i (.store cur p b counter ret)) i p := by
    refine ⟨fun j hj => State.goto_pc_of_ne _ _ hj, rfl, rfl, fun _ _ => rfl, rfl, ?_, hbefore⟩
    rw [State.own_of_combines hbefore, State.own_of_combines]
    · rfl
    · rw [State.goto_pc_self]
      rintro ⟨⟩
  have hlast : rest.getLast? = some s.tail := by
    have htail := h.tail
    cases rest with
    | nil => cases hrest
    | cons x rest =>
        rw [List.getLast?_cons_cons] at htail
        exact htail
  have hnone : ∀ j, j ≠ i → (({ s with object := object }.goto i (.store cur p b counter ret)).pc j).combines = none := by
    intro j hj
    rw [State.goto_pc_of_ne _ _ hj]
    exact h.alone hbefore hj
  have hself : (({ s with object := object }.goto i (.store cur p b counter ret)).pc i).combines ≠ none := by
    rw [State.goto_pc_self]
    rintro ⟨⟩
  refine ⟨(List.nodup_cons.mp h.nodup).2, hlast, h.last, ?_, ?_, ?_, ?_, ?_, ?_, ?_, ?_, ?_⟩
  · exact fun a ha => h.waiting a (List.mem_cons_of_mem p ha)
  · exact fun a c hac => h.locked a c (hac.tail p)
  · exact fun hall => absurd (hall i) hself
  · intro j j' hj hj'
    have hji : j = i := by_contra fun hne => hj (hnone j hne)
    have hji' : j' = i := by_contra fun hne => hj' (hnone j' hne)
    rw [hji, hji']
  · intro j j' hjj'
    rw [hs.own_eq, hs.own_eq] at hjj'
    exact h.own_inj j j' hjj'
  · intro j
    rw [hs.own_eq]
    exact h.own_ne j
  · intro a ha
    obtain rfl | ⟨j, hj⟩ := h.owner a (List.mem_cons_of_mem p ha)
    · exact .inl rfl
    · exact .inr ⟨j, (hs.own_eq j).trans hj⟩
  · intro j
    by_cases hj : j = i
    · rw [hj]
      exact State.stands_of_combines _ _ hself
    · by_cases hjk : j = k
      · subst hjk
        obtain ⟨rfl, -⟩ | ⟨-, -, hpc, hnextNode, -, hlocked⟩ := hwho
        · exact absurd rfl hj
        · rw [State.Stands, State.goto_pc_of_ne _ _ hj]
          simp only [hpc]
          refine ⟨hnextNode.symm, .inr ⟨hnot, ?_⟩⟩
          intro hunlocked
          rw [show (s.node p).locked = false from hunlocked] at hlocked
          cases hlocked
      · have hjp : s.own j ≠ p := by
          rw [← hk]
          exact fun heq => hjk (h.own_inj j k heq)
        apply (h.stands j).congr (State.goto_pc_of_ne _ _ hj) rfl (Function.update_of_ne hjk _ _) rfl
        · exact fun ha => List.mem_cons_of_mem p ha
        · exact fun c hc => behind_of_cons hc hjp
        · exact fun hall => absurd (hall i) hbefore
  · intro j
    by_cases hj : j = i
    · subst hj
      rw [State.Combines, State.goto_pc_self]
      refine ⟨hcur, hrest, h.locked p b hbehind, hnot, ?_⟩
      obtain ⟨rfl, rfl⟩ | ⟨hkj, hne, hpc, hnextNode, hserved, hlocked⟩ := hwho
      · exact .inl ⟨rfl, Function.update_self _ _ _⟩
      · right
        refine ⟨?_, hne, hlocked, k, ?_, hnextNode, Function.update_self _ _ _⟩
        · rw [Function.update_of_ne hkj.symm]
          exact hserved.congr rfl fun ha => List.mem_cons_of_mem p ha
        · rw [State.goto_pc_of_ne _ _ hkj]
          exact hpc
    · exact State.combines_of_none _ _ (hnone j hj)

/-- A write to the node whose request has been executed. Its thread sees that the node is unlocked only
when everything else is written. -/
theorem State.Inv.writePast
    {f : Node ι V → Node ι V} (h : s.Inv q st) (hbefore : (s.pc i).combines ≠ none)
    (hafter : pc.combines ≠ none) (hpast : s.Past q st i cur p t ret) (hnext : (f (s.node p)).next = (s.node p).next)
    (hunlock : (f (s.node p)).locked = (s.node p).locked ∨
      (f (s.node p)).completed = true ∧ (f (s.node p)).argRet = ret)
    (hcombines : ((s.modify p f).goto i pc).Combines q st i) :
  ((s.modify p f).goto i pc).Inv q st
  := by
  obtain ⟨hcur, hhead, -, hnot, hwho⟩ := hpast
  have hself : (((s.modify p f).goto i pc).pc i).combines ≠ none := by
    rw [State.goto_pc_self]
    exact hafter
  have hs : Serving s ((s.modify p f).goto i pc) i p := by
    refine ⟨fun j hj => State.goto_pc_of_ne _ _ hj, rfl, rfl, fun a ha => State.modify_goto_node_of_ne _ _ _ ha, ?_, ?_,
      hbefore⟩
    · rw [State.goto_node, State.modify_node_self]
      exact hnext
    · rw [State.own_of_combines hbefore, State.own_of_combines hself]
      rfl
  apply h.serving hs
  · exact fun ha => absurd ha hnot
  · exact fun a ha => absurd ha.mem.2 hnot
  · exact fun hnone => absurd hnone hself
  · intro j hj hjp
    obtain ⟨hcurp, -⟩ | ⟨-, -, hlocked, k, hk, hknext, hkst⟩ := hwho
    · have hi := State.own_of_combines hbefore
      rw [← hcur, hcurp, ← hjp] at hi
      exact absurd (h.own_inj i j hi).symm hj
    · have hkp : s.own k = p := by rw [State.own, hk, hknext]
      obtain rfl := h.own_inj j k (hjp.trans hkp.symm)
      rw [State.Stands, State.goto_pc_of_ne _ _ hj]
      simp only [State.modify, hk, State.goto_nextNode, State.goto_node, hknext, Function.update_self, true_and]
      right
      refine ⟨hnot, ?_⟩
      intro hunlocked
      obtain hsame | ⟨hcompleted, hret⟩ := hunlock
      · rw [hsame, hlocked] at hunlocked
        cases hunlocked
      · refine ⟨hnot, ?_⟩
        simp only [State.goto_node, Function.update_self]
        exact ⟨hcompleted, hkst.trans (congrArg Status.done hret.symm)⟩
  · exact State.stands_of_combines _ _ hself
  · exact hcombines

/-- What the thread knows of the node it has executed is not touched by a write to it. -/
theorem State.Past.write
    {f : Node ι V → Node ι V} (h : s.Past q st i cur p t ret) (hbefore : (s.pc i).combines ≠ none)
    (hlocked : (f (s.node p)).locked = (s.node p).locked) :
  ((s.modify p f).goto i pc).Past q st i cur p t ret
  := by
  obtain ⟨hcur, hhead, htlocked, hnot, hwho⟩ := h
  have htp : t ≠ p := by
    rintro rfl
    exact hnot (List.mem_of_head? hhead)
  refine ⟨hcur, hhead, ?_, hnot, ?_⟩
  · rw [State.modify_goto_node_of_ne _ _ _ htp]
    exact htlocked
  · obtain hown | ⟨hserved, hne, hplocked, k, hk, hknext, hkst⟩ := hwho
    · exact .inl hown
    · right
      have hki : k ≠ i := by
        rintro rfl
        rw [hk] at hbefore
        exact hbefore rfl
      refine ⟨hserved.congr (State.modify_goto_node_of_ne _ _ _ hne) id, hne, ?_, k, ?_, hknext, hkst⟩
      · rw [State.goto_node, State.modify_node_self, hlocked]
        exact hplocked
      · rw [State.goto_pc_of_ne _ _ hki]
        exact hk

theorem State.Inv.store (h : s.Inv q st) (hp : s.pc i = .store cur p t counter ret) :
  ((s.modify p fun n => { n with argRet := ret }).goto i (.complete cur p t counter)).Inv q st
  := by
  have hpast := h.combines i
  simp only [State.Combines, hp] at hpast
  have hbefore : (s.pc i).combines ≠ none := by
    rw [hp]
    rintro ⟨⟩
  apply h.writePast hbefore (by rintro ⟨⟩) hpast rfl (.inl rfl)
  rw [State.Combines, State.goto_pc_self]
  simp only [State.goto_node, State.modify_node_self]
  exact hpast.write hbefore rfl

theorem State.Inv.complete (h : s.Inv q st) (hp : s.pc i = .complete cur p t counter) :
  ((s.modify p fun n => { n with completed := true }).goto i (.unlock cur p t counter)).Inv q st
  := by
  have hpast := h.combines i
  simp only [State.Combines, hp] at hpast
  have hbefore : (s.pc i).combines ≠ none := by
    rw [hp]
    rintro ⟨⟩
  apply h.writePast hbefore (by rintro ⟨⟩) hpast rfl (.inl rfl)
  rw [State.Combines, State.goto_pc_self]
  simp only [State.goto_node, State.modify_node_self, and_true]
  exact hpast.write hbefore rfl

theorem State.Inv.unlock (h : s.Inv q st) (hp : s.pc i = .unlock cur p t counter) :
  ((s.modify p fun n => { n with locked := false }).goto i (.check cur t counter)).Inv q st
  := by
  have hcombines := h.combines i
  simp only [State.Combines, hp] at hcombines
  obtain ⟨hpast, hcompleted⟩ := hcombines
  have hbefore : (s.pc i).combines ≠ none := by
    rw [hp]
    rintro ⟨⟩
  apply h.writePast hbefore (by rintro ⟨⟩) hpast rfl (.inr ⟨hcompleted, rfl⟩)
  obtain ⟨hcur, hhead, htlocked, hnot, hwho⟩ := hpast
  have ht := List.mem_of_head? hhead
  have htp : t ≠ p := by
    rintro rfl
    exact hnot ht
  rw [State.Combines, State.goto_pc_self]
  have hserved : State.Served ((s.modify p fun n => { n with locked := false }).goto i (.check cur t counter)) q cur
      (st i) := by
    obtain ⟨rfl, hst⟩ | ⟨hserved, hne, -⟩ := hwho
    · refine ⟨hnot, ?_⟩
      rw [State.goto_node, State.modify_node_self]
      exact ⟨hcompleted, hst⟩
    · exact hserved.congr (State.modify_goto_node_of_ne _ _ _ hne) id
  refine ⟨⟨hcur, hhead, .inr ⟨hserved, ?_⟩⟩, ?_⟩
  · rw [State.modify_goto_node_of_ne _ _ _ htp]
    exact htlocked
  · rintro rfl
    exact absurd ht hserved.1

/-- The thread hands the queue over. -/
theorem State.Inv.release (h : s.Inv q st) (hp : s.pc i = .release cur p) :
  ((s.modify p fun n => { n with locked := false }).goto i (.finish cur)).Inv q st
  := by
  have hcombines := h.combines i
  simp only [State.Combines, hp] at hcombines
  obtain ⟨⟨hcur, hhead, hwho⟩, hne⟩ := hcombines
  have hserved : s.Served q cur (st i) := by
    obtain ⟨heq, -⟩ | ⟨hserved, -⟩ := hwho
    · exact absurd heq hne
    · exact hserved
  have hq := List.mem_of_head? hhead
  have hbefore : (s.pc i).combines ≠ none := by
    rw [hp]
    rintro ⟨⟩
  have hs : Serving s ((s.modify p fun n => { n with locked := false }).goto i (.finish cur)) i p := by
    refine ⟨fun j hj => State.goto_pc_of_ne _ _ hj, rfl, rfl, fun a ha => State.modify_goto_node_of_ne _ _ _ ha, ?_, ?_,
      hbefore⟩
    · rw [State.goto_node, State.modify_node_self]
    · rw [State.own_of_combines hbefore, State.own, State.goto_pc_self]
      rfl
  apply h.serving hs
  · intro _
    rw [State.goto_node, State.modify_node_self]
    exact h.waiting p hq
  · intro a ha
    exact absurd rfl (ha.ne_head h.nodup hhead)
  · intro _ a ha
    obtain rfl := Option.some.inj (hhead.symm.trans ha)
    rw [State.goto_node, State.modify_node_self]
  · intro j hj hjp
    have hstands := h.stands j
    rw [State.Stands] at hstands ⊢
    rw [State.goto_pc_of_ne _ _ hj]
    rw [State.own] at hjp
    have hqueued : ∀ {x}, s.Queued q p x →
        State.Queued ((s.modify p fun n => { n with locked := false }).goto i (.finish cur)) q p x := by
      rintro x ⟨b, hb, hnext, hx⟩
      refine ⟨b, hb, ?_⟩
      rw [State.goto_node, State.modify_node_self]
      exact ⟨hnext, hx⟩
    simp only [State.modify] at hjp hstands ⊢
    cases hpc : s.pc j <;> simp only [hpc, State.goto_nextNode, State.goto_node] at hjp hstands ⊢
    case idle | clearNext =>
      rw [hjp] at hstands
      exact absurd hq hstands.2
    case setLocked | clearCompleted | swap =>
      rw [hjp] at hstands
      exact absurd hq hstands.2.1
    case writeArg arg a b =>
      rw [hjp] at hstands ⊢
      rw [Function.update_self]
      exact hstands
    case link a b =>
      rw [hjp] at hstands ⊢
      rw [Function.update_self]
      exact hstands
    case spin a =>
      obtain ⟨rfl, hwait | ⟨hnot, -⟩⟩ := hstands
      · rw [hjp] at hwait ⊢
        exact ⟨rfl, .inl (hqueued hwait)⟩
      · rw [hjp] at hnot
        exact absurd hq hnot
    case helped a =>
      obtain ⟨rfl, ⟨-, -, hnone⟩ | ⟨hnot, -⟩⟩ := hstands
      · exact absurd (hnone i) hbefore
      · rw [hjp] at hnot
        exact absurd hq hnot
    case readRet a =>
      obtain ⟨rfl, hnot, -⟩ := hstands
      rw [hjp] at hnot
      exact absurd hq hnot
    case finish a =>
      obtain ⟨rfl, hnot, -⟩ := hstands
      rw [hjp] at hnot
      exact absurd hq hnot
  · rw [State.Stands, State.goto_pc_self]
    exact ⟨hcur, hserved.congr (State.modify_goto_node_of_ne _ _ _ hne) id⟩
  · rw [State.Combines, State.goto_pc_self]
    trivial

end Combining

/-! ### Runs -/

section Runs

variable {sfunc : Sfunc σ V}

/-- The object on which the operations of the threads are where `applyOp` says that they are. -/
def Tracks (s : State ι V σ) (v : Atomic ι V V σ) : Prop :=
  v.state = s.object ∧ ∃ q, s.Inv q v.status

/-- A step of which nothing is seen, and that lets no operation take effect. -/
theorem tracks_silent
    {s s' : State ι V σ} {q : List (Option ι)} {v : Atomic ι V V σ} (hobject : v.state = s.object)
    (hsame : s'.object = s.object) (h : s'.Inv q v.status) :
  ∃ acts v', sfunc.object.atomic.run v acts = some (v', []) ∧ Tracks s' v'
  := ⟨[], v, rfl, hobject.trans hsame.symm, q, h⟩

theorem applyOp_simulates [Fintype ι] :
  Simulates (applyOp sfunc (3 * Fintype.card ι)) sfunc.object.atomic (Tracks (ι := ι))
  := by
  rintro s v label s' ⟨hobject, q, h⟩ hstep
  cases label with
  | call i arg =>
      simp only [applyOp] at hstep
      split at hstep
      · next hp =>
        obtain rfl := Option.some.inj hstep
        have hidle := h.stands i
        simp only [State.Stands, hp] at hidle
        exact ⟨_, _, atomic_call hidle.1 arg, hobject, q, h.call hp arg⟩
      · cases hstep
  | step i =>
      simp only [applyOp, State.move] at hstep ⊢
      cases hp : s.pc i <;> simp only [hp, Option.toList] at hstep ⊢
      case idle => cases hstep
      case clearNext arg =>
        obtain rfl := Option.some.inj hstep
        exact tracks_silent hobject rfl (h.clearNext hp)
      case setLocked arg =>
        obtain rfl := Option.some.inj hstep
        exact tracks_silent hobject rfl (h.setLocked hp)
      case clearCompleted arg =>
        obtain rfl := Option.some.inj hstep
        exact tracks_silent hobject rfl (h.clearCompleted hp)
      case swap arg =>
        obtain rfl := Option.some.inj hstep
        exact tracks_silent hobject rfl (h.swap hp)
      case writeArg arg cur b =>
        obtain rfl := Option.some.inj hstep
        exact tracks_silent hobject rfl (h.writeArg hp)
      case link cur b =>
        obtain rfl := Option.some.inj hstep
        exact tracks_silent hobject rfl (h.link hp)
      case spin cur =>
        split at hstep
        · obtain rfl := Option.some.inj hstep
          exact tracks_silent hobject rfl h
        · next hlocked =>
          obtain rfl := Option.some.inj hstep
          exact tracks_silent hobject rfl (h.spin hp (Bool.eq_false_of_not_eq_true hlocked))
      case helped cur =>
        split at hstep
        · next hcompleted =>
          obtain rfl := Option.some.inj hstep
          exact tracks_silent hobject rfl (h.helped hp hcompleted)
        · next hcompleted =>
          obtain rfl := Option.some.inj hstep
          exact tracks_silent hobject rfl (h.combine hp (Bool.eq_false_of_not_eq_true hcompleted))
      case readRet cur =>
        obtain rfl := Option.some.inj hstep
        obtain ⟨hdone, hinv⟩ := h.ret (.inl hp)
        exact ⟨_, _, atomic_ret hdone, hobject, q, hinv⟩
      case check cur p counter =>
        split at hstep
        · next hgo =>
          obtain rfl := Option.some.inj hstep
          exact tracks_silent hobject rfl (h.check hp hgo.1)
        · next hstop =>
          obtain rfl := Option.some.inj hstep
          have hbound : 0 < 3 * Fintype.card ι := Nat.mul_pos (by decide) (Fintype.card_pos_iff.mpr ⟨i⟩)
          exact tracks_silent hobject rfl (h.stop hbound hp hstop)
      case take cur p counter =>
        split at hstep
        · next t hnext =>
          obtain rfl := Option.some.inj hstep
          exact tracks_silent hobject rfl (h.take hp hnext)
        · cases hstep
      case serve cur p t counter =>
        obtain rfl := Option.some.inj hstep
        obtain ⟨k, hpending, hinv⟩ := h.serve hp
          (sfunc.apply s.object (s.node p).argRet (s.node p).pid).1
          (sfunc.apply s.object (s.node p).argRet (s.node p).pid).2
        refine ⟨_, _, atomic_effect hpending, ?_⟩
        have happly : sfunc.object.apply (s.node p).argRet v.state
            = sfunc.apply s.object (s.node p).argRet (s.node p).pid := by
          rw [hobject]
          exact sfunc.apply_pid _ _ _ _
        rw [happly]
        exact ⟨rfl, _, hinv⟩
      case store cur p t counter ret =>
        obtain rfl := Option.some.inj hstep
        exact tracks_silent hobject rfl (h.store hp)
      case complete cur p t counter =>
        obtain rfl := Option.some.inj hstep
        exact tracks_silent hobject rfl (h.complete hp)
      case unlock cur p t counter =>
        obtain rfl := Option.some.inj hstep
        exact tracks_silent hobject rfl (h.unlock hp)
      case release cur p =>
        obtain rfl := Option.some.inj hstep
        exact tracks_silent hobject rfl (h.release hp)
      case finish cur =>
        obtain rfl := Option.some.inj hstep
        obtain ⟨hdone, hinv⟩ := h.ret (.inr hp)
        exact ⟨_, _, atomic_ret hdone, hobject, q, hinv⟩

theorem inv_init (node : Option ι → Node ι V) (object : σ) :
  (State.init node object).Inv [none] fun _ => .idle
  := by
  have hself : ((State.init node object).node none).next = none ∧
      ((State.init node object).node none).completed = false ∧
      ((State.init node object).node none).locked = false := by
    simp [State.init]
  have hown : ∀ i, (State.init node object).own i = some i := fun _ => rfl
  refine ⟨List.nodup_singleton _, rfl, hself.1, ?_, ?_, ?_, ?_, ?_, ?_, ?_, ?_, ?_⟩
  · intro a ha
    rw [List.mem_singleton.mp ha]
    exact hself.2.1
  · rintro a b ⟨n, -, hb⟩
    cases hb
  · rintro - a ha
    obtain rfl := Option.some.inj ha
    exact hself.2.2
  · exact fun i j hi => absurd rfl hi
  · intro i j hij
    rw [hown, hown] at hij
    exact Option.some.inj hij
  · intro i
    rw [hown]
    rintro ⟨⟩
  · intro a ha
    exact .inl (List.mem_singleton.mp ha)
  · intro i
    refine ⟨rfl, ?_⟩
    rw [List.mem_singleton]
    rintro ⟨⟩
  · exact fun i => trivial

/-- `applyOp` is linearizable, and only one thread at a time executes requests: for any number of threads,
whatever the nodes contain at first, and for every interleaving of their steps. -/
theorem applyOp_linearizable [Fintype ι]
    (sfunc : Sfunc σ V) (node : Option ι → Node ι V) (object : σ) (labels : List (Label ι V)) (s : State ι V σ)
    (h : List (Event ι V V))
    (hrun : (applyOp sfunc (3 * Fintype.card ι)).run (State.init node object) labels = some (s, h)) :
  sfunc.object.Linearizable object h ∧
    ∀ i j, (s.pc i).combines ≠ none → (s.pc j).combines ≠ none → i = j
  := by
  have hinit : Tracks (State.init node object) (Atomic.start object) := ⟨rfl, [none], inv_init node object⟩
  obtain ⟨acts, v, hacts, -, q, hinv⟩ := applyOp_simulates.run hinit hrun
  exact ⟨⟨acts, v, hacts⟩, hinv.unique⟩

end Runs

/-- `fetchAndMultiply` -/
def fetchAndMultiply : Sfunc (BitVec 32) (BitVec 32) where
  apply s arg _ := (s * arg, s * arg)
  apply_pid _ _ _ _ := rfl

/-- A thread executes its own request and that of another one. -/
def combiningRun : List (Label Bool (BitVec 32)) :=
  [Label.call false 3, Label.call true 5] ++ List.replicate 6 (Label.step false) ++
    List.replicate 6 (Label.step true) ++ List.replicate 17 (Label.step false) ++
    List.replicate 3 (Label.step true)

theorem applyOp_linearizable_combiningRun :
  (∃ s, (applyOp fetchAndMultiply 6).run (State.init (fun _ => ⟨none, 9, 0, false, true⟩) 1) combiningRun
      = some (s, [.call false 3, .call true 5, .ret false 3, .ret true 15])) ∧
    fetchAndMultiply.object.Linearizable 1
      ([.call false 3, .call true 5, .ret false 3, .ret true 15] : List (Event Bool _ _))
  := by
  have hseen : ((applyOp fetchAndMultiply 6).run (State.init (fun _ => ⟨none, 9, 0, false, true⟩) 1)
      combiningRun).map Prod.snd = some [.call false 3, .call true 5, .ret false 3, .ret true 15] := by
    decide +kernel
  obtain ⟨⟨s, h⟩, hrun, rfl⟩ := Option.map_eq_some_iff.mp hseen
  exact ⟨⟨s, hrun⟩, (applyOp_linearizable fetchAndMultiply _ 1 combiningRun s _ hrun).1⟩

end CcSynch
