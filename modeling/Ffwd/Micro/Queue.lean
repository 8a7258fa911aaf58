import Ffwd.Lib.Chain

/-!
# The delegated queue

The queue of the micro-benchmarks, which the server executes, with the pool its nodes are
taken from. The pool is a block of nodes and an index: taking a node advances the index, and
every `dequeue` moves it back, whichever node has left the queue. So the node that `enqueue`
takes depends on the length of the queue only, and the queue is a FIFO queue as long as there
are enough other operations between two `enqueue`s at the same length.
-/

namespace Micro

open Linked

/-! ### The pool -/

/-- A node: the guard, or one of the nodes of a block of memory. -/
inductive Node where
  | guard
  | obj (block slot : Nat)
  deriving DecidableEq

def psize : Nat := 4096

/-- The pool: its entry `p[i]` is the node `i` of the block allocated last. -/
structure Pool where
  block : Nat
  index : Nat
  deriving DecidableEq

def initPool (pool : Pool) : Pool := ⟨pool.block + 1, 0⟩

def allocObj (pool : Pool) : Pool × Node :=
  let pool := if pool.index = psize then initPool pool else pool
  (⟨pool.block, pool.index + 1⟩, .obj pool.block pool.index)

def freeObj (pool : Pool) : Pool :=
  if 0 < pool.index then ⟨pool.block, pool.index - 1⟩ else pool

/-! ### The queue -/

structure Queue where
  pool : Pool
  value : Node → Int
  next : Node → Option Node
  head : Node
  tail : Node

/-- The queue as the server starts with it. -/
def Queue.init : Queue where
  pool := ⟨0, 0⟩
  value _ := 0
  next _ := none
  head := .guard
  tail := .guard

def enqueue (q : Queue) : Queue :=
  let (pool, n) := allocObj q.pool
  { pool := pool
    value := Function.update q.value n 1
    next := Function.update (Function.update q.next n none) q.tail (some n)
    head := q.head
    tail := n }

def dequeue (q : Queue) : Queue × Int :=
  match q.next q.head with
  | none => ({ q with pool := freeObj q.pool }, -1)
  | some n => ({ q with head := n, pool := freeObj q.pool }, q.value n)

/-- The operations. -/
inductive QueueOp where
  | enqueue
  | dequeue
  deriving DecidableEq

/-- The node can be reached from `Head`. -/
def Queue.Reachable (q : Queue) (n : Node) : Prop :=
  Relation.ReflTransGen (fun a b => q.next a = some b) q.head n

/-- The chain from `Head` to `Tail` ends, and it has one node after `Head` for each of the
elements `xs`, in order. -/
def Queue.Represents (q : Queue) (xs : List Int) : Prop :=
  ∃ l, Chain q.next (some q.head) (q.head :: l) ∧ (q.head :: l).getLast? = some q.tail ∧
    l.map q.value = xs

/-- Along a sequence of operations the queue does what the queue `xs` does: it represents
its elements, `dequeue` returns the oldest of them, or `-1` if there is none, and no node
is handed out that can be reached from `Head`. -/
def Queue.Fifo (q : Queue) (xs : List Int) : List QueueOp → Prop
  | [] => q.Represents xs
  | .enqueue :: ops =>
      q.Represents xs ∧ ¬q.Reachable (allocObj q.pool).2 ∧ (enqueue q).Fifo (xs ++ [1]) ops
  | .dequeue :: ops =>
      q.Represents xs ∧ (dequeue q).2 = xs.head?.getD (-1) ∧ (dequeue q).1.Fifo xs.tail ops

/-! ### The nodes in use -/

/-- The pool, and the nodes from `Head` to `Tail`: the last node that has been taken from the
queue, and those of its elements. -/
structure Layout where
  pool : Pool
  used : List Node

def Layout.init : Layout := ⟨⟨0, 0⟩, [.guard]⟩

/-- What an operation does to the pool and the nodes in use. -/
def Layout.step (l : Layout) : QueueOp → Layout
  | .enqueue => ⟨(allocObj l.pool).1, l.used ++ [(allocObj l.pool).2]⟩
  | .dequeue => ⟨freeObj l.pool, if l.used.tail = [] then l.used else l.used.tail⟩

/-- No `enqueue` of the sequence finds the index of the pool at a node in use. -/
def Layout.Fits (l : Layout) : List QueueOp → Prop
  | [] => True
  | op :: ops => (op = .enqueue → (allocObj l.pool).2 ∉ l.used) ∧ (l.step op).Fits ops

instance Layout.decidableFits : (l : Layout) → (ops : List QueueOp) → Decidable (l.Fits ops)
  | _, [] => isTrue trivial
  | l, op :: ops =>
      have := Layout.decidableFits (l.step op) ops
      inferInstanceAs (Decidable ((_ → _) ∧ _))

/-- The queue is as the layout says. -/
structure Queue.LaidOut (q : Queue) (l : Layout) (xs : List Int) : Prop where
  pool : q.pool = l.pool
  chain : Chain q.next (some q.head) l.used
  tail : l.used.getLast? = some q.tail
  values : l.used.tail.map q.value = xs

theorem laidOut_init :
  Queue.init.LaidOut Layout.init []
  := ⟨rfl, ⟨rfl, rfl⟩, rfl, rfl⟩

variable {q : Queue} {l : Layout} {xs : List Int}

/-- The first node in use is `Head`. -/
theorem Queue.LaidOut.used_eq (h : q.LaidOut l xs) :
  l.used = q.head :: l.used.tail
  := by
  have hchain := h.chain
  cases hused : l.used with
  | nil =>
      rw [hused] at hchain
      cases hchain
  | cons a rest =>
      rw [hused] at hchain
      obtain ⟨⟨rfl⟩, -⟩ := hchain
      rfl

theorem Queue.LaidOut.represents (h : q.LaidOut l xs) :
  q.Represents xs
  := by
  have hused := h.used_eq
  refine ⟨l.used.tail, ?_, ?_, h.values⟩
  · rw [← hused]
    exact h.chain
  · rw [← hused]
    exact h.tail

theorem Queue.LaidOut.reachable_iff (h : q.LaidOut l xs) (n : Node) :
  q.Reachable n ↔ n ∈ l.used
  := by
  have hchain := h.chain
  rw [h.used_eq] at hchain ⊢
  exact (hchain.mem_iff_reachable n).symm

theorem Queue.LaidOut.enqueue (h : q.LaidOut l xs) (hunused : (allocObj l.pool).2 ∉ l.used) :
  (enqueue q).LaidOut (l.step .enqueue) (xs ++ [1])
  := by
  obtain ⟨init, hinit⟩ := List.getLast?_eq_some_iff.mp h.tail
  have hchain := h.chain
  rw [hinit] at hchain hunused
  have hne : ∀ n ∈ l.used.tail, n ≠ (allocObj l.pool).2 := by
    rintro n hn rfl
    apply hunused
    rw [← hinit]
    exact List.mem_of_mem_tail hn
  have htail : (l.used ++ [(allocObj l.pool).2]).tail = l.used.tail ++ [(allocObj l.pool).2] := by
    rw [h.used_eq]
    rfl
  constructor
  · simp only [Micro.enqueue, Layout.step, h.pool]
  · simp only [Micro.enqueue, Layout.step, h.pool, hinit]
    exact hchain.append hunused
  · simp only [Micro.enqueue, Layout.step, h.pool]
    rw [List.getLast?_append]
    rfl
  · simp only [Micro.enqueue, Layout.step, h.pool]
    rw [htail, List.map_append, ← h.values]
    congr 1
    · apply List.map_congr_left
      intro n hn
      exact Function.update_of_ne (hne n hn) _ _
    · simp

theorem Queue.LaidOut.dequeue (h : q.LaidOut l xs) :
  (dequeue q).2 = xs.head?.getD (-1) ∧ (dequeue q).1.LaidOut (l.step .dequeue) xs.tail
  := by
  have hchain := h.chain
  have htail := h.tail
  have hvalues := h.values
  have hused := h.used_eq
  rw [hused] at hchain htail
  obtain ⟨-, hchain⟩ := hchain
  cases hrest : l.used.tail with
  | nil =>
      rw [hrest] at hchain htail hvalues hused
      have hnext : q.next q.head = none := hchain
      simp only [Micro.dequeue, hnext, Layout.step, hrest, if_true]
      subst hvalues
      refine ⟨rfl, ⟨?_, h.chain, h.tail, ?_⟩⟩
      · rw [h.pool]
      · rw [hrest]
        rfl
  | cons n rest =>
      rw [hrest] at hchain htail hvalues hused
      have hnext : q.next q.head = some n := hchain.1
      simp only [Micro.dequeue, hnext, Layout.step, hrest, reduceCtorEq, if_false]
      subst hvalues
      refine ⟨rfl, ⟨?_, ⟨rfl, hchain.2⟩, ?_, rfl⟩⟩
      · rw [h.pool]
      · rw [← htail, List.getLast?_cons_cons]

/-- The queue is a FIFO queue along a sequence of operations if and only if the sequence never
finds the index of the pool at a node in use. -/
theorem Queue.LaidOut.fifo_iff (h : q.LaidOut l xs) (ops : List QueueOp) :
  q.Fifo xs ops ↔ l.Fits ops
  := by
  induction ops generalizing q l xs with
  | nil => exact ⟨fun _ => trivial, fun _ => h.represents⟩
  | cons op ops ih =>
      have hreach := h.reachable_iff (allocObj q.pool).2
      rw [h.pool] at hreach
      cases op with
      | enqueue =>
          simp only [Queue.Fifo, Layout.Fits, true_imp_iff, h.pool, hreach]
          constructor
          · rintro ⟨-, hunused, hfifo⟩
            exact ⟨hunused, (ih (h.enqueue hunused)).mp hfifo⟩
          · rintro ⟨hunused, hfits⟩
            exact ⟨h.represents, hunused, (ih (h.enqueue hunused)).mpr hfits⟩
      | dequeue =>
          obtain ⟨hresult, hnext⟩ := h.dequeue
          simp only [Queue.Fifo, Layout.Fits, reduceCtorEq, false_imp_iff, true_and]
          constructor
          · rintro ⟨-, -, hfifo⟩
            exact (ih hnext).mp hfifo
          · intro hfits
            exact ⟨h.represents, hresult, (ih hnext).mpr hfits⟩

/-- A sequence of operations fits if none of its `enqueue`s finds the index at a node in use. -/
theorem Layout.fits_iff (l : Layout) (ops : List QueueOp) :
  l.Fits ops ↔ ∀ t, ops[t]? = some .enqueue →
    (allocObj ((ops.take t).foldl Layout.step l).pool).2 ∉ ((ops.take t).foldl Layout.step l).used
  := by
  induction ops generalizing l with
  | nil => exact ⟨fun _ _ => nofun, fun _ => trivial⟩
  | cons op ops ih =>
      rw [Layout.Fits, ih]
      constructor
      · rintro ⟨hfirst, hrest⟩ t ht
        cases t with
        | zero => exact hfirst (Option.some.inj ht)
        | succ t => exact hrest t ht
      · intro h
        refine ⟨?_, fun t ht => h (t + 1) ht⟩
        rintro rfl
        exact h 0 rfl

/-! ### Levels -/

/-- The length of the queue, the number of the blocks that the pool has replaced, and the smallest
length the queue has had since the last of them. -/
structure Levels where
  length : Nat
  block : Nat
  low : Nat

/-- How far the queue is above its smallest length. -/
def Levels.level (w : Levels) : Nat := w.length - w.low

def Levels.step (w : Levels) : QueueOp → Levels
  | .enqueue =>
      if w.level = psize then ⟨w.length + 1, w.block + 1, w.length⟩ else ⟨w.length + 1, w.block, w.low⟩
  | .dequeue => ⟨w.length - 1, w.block, min w.low (w.length - 1)⟩

def levels (ops : List QueueOp) : Levels := ops.foldl Levels.step ⟨0, 0, 0⟩

/-- The block and the level of an `enqueue`. -/
def Levels.place (w : Levels) : Nat × Nat := if w.level = psize then (w.block + 1, 0) else (w.block, w.level)

/-- Of two `enqueue`s of the sequence at the same level of a block, the later one, at which the queue
has `n` elements, is behind the earlier one by at least `n + 2` in the order of the `enqueue`s. While
the queue has never been longer than a block, the level is the length of the queue. -/
def Spaced (ops : List QueueOp) : Prop :=
  ∀ s t, s < t → ops[s]? = some .enqueue → ops[t]? = some .enqueue →
    (levels (ops.take s)).place = (levels (ops.take t)).place →
    (ops.take s).count .enqueue + (levels (ops.take t)).length + 2 ≤ (ops.take t).count .enqueue

/-- The nodes that the `enqueue`s of a sequence take, in order. -/
def nodesFrom (w : Levels) : List QueueOp → List Node
  | [] => []
  | .enqueue :: ops => .obj w.place.1 w.place.2 :: nodesFrom (w.step .enqueue) ops
  | .dequeue :: ops => nodesFrom (w.step .dequeue) ops

def nodes (ops : List QueueOp) : List Node := nodesFrom ⟨0, 0, 0⟩ ops

variable {ops : List QueueOp} {op : QueueOp} {n : Node}

theorem levels_concat (ops : List QueueOp) (op : QueueOp) :
  levels (ops ++ [op]) = (levels ops).step op
  := List.foldl_concat _ _ _ _

theorem nodesFrom_concat (w : Levels) (ops : List QueueOp) (op : QueueOp) :
  nodesFrom w (ops ++ [op]) = nodesFrom w ops ++
    if op = .enqueue then [.obj (ops.foldl Levels.step w).place.1 (ops.foldl Levels.step w).place.2] else []
  := by
  induction ops generalizing w with
  | nil => cases op <;> rfl
  | cons op' ops ih =>
      cases op' with
      | enqueue => exact congrArg _ (ih (w.step .enqueue))
      | dequeue => exact ih (w.step .dequeue)

theorem nodes_concat (ops : List QueueOp) (op : QueueOp) :
  nodes (ops ++ [op]) = nodes ops ++
    if op = .enqueue then [.obj (levels ops).place.1 (levels ops).place.2] else []
  := nodesFrom_concat _ _ _

theorem length_nodes (ops : List QueueOp) :
  (nodes ops).length = ops.count .enqueue
  := by
  induction ops using List.reverseRecOn with
  | nil => rfl
  | append_singleton ops op ih =>
      rw [nodes_concat, List.length_append, ih, List.count_append]
      cases op <;> rfl

/-- The node of a later `enqueue`. -/
theorem mem_drop_nodes {m : Nat} :
  n ∈ (nodes ops).drop m ↔ ∃ s, ops[s]? = some .enqueue ∧ m ≤ (ops.take s).count .enqueue ∧
    n = .obj (levels (ops.take s)).place.1 (levels (ops.take s)).place.2
  := by
  induction ops using List.reverseRecOn with
  | nil => simp [nodes, nodesFrom]
  | append_singleton ops op ih =>
      have hold : ∀ s, ops[s]? = some .enqueue →
          (ops ++ [op])[s]? = some .enqueue ∧ (ops ++ [op]).take s = ops.take s := by
        intro s hs
        obtain ⟨hlt, -⟩ := List.getElem?_eq_some_iff.mp hs
        exact ⟨(List.getElem?_append_left hlt).trans hs, List.take_append_of_le_length hlt.le⟩
      rw [nodes_concat, List.drop_append, List.mem_append, ih, length_nodes]
      constructor
      · rintro (⟨s, hs, hm, rfl⟩ | hlast)
        · obtain ⟨hs', htake⟩ := hold s hs
          refine ⟨s, hs', ?_⟩
          rw [htake]
          exact ⟨hm, rfl⟩
        · cases op with
          | dequeue => simp at hlast
          | enqueue =>
              have hm : m ≤ ops.count .enqueue := by
                by_contra hlt
                rw [if_pos rfl, List.drop_of_length_le] at hlast
                · cases hlast
                · rw [List.length_singleton]
                  omega
              rw [Nat.sub_eq_zero_of_le hm, if_pos rfl, List.drop_zero, List.mem_singleton] at hlast
              refine ⟨ops.length, List.getElem?_concat_length, ?_⟩
              rw [List.take_left]
              exact ⟨hm, hlast⟩
      · rintro ⟨s, hs, hm, rfl⟩
        obtain ⟨hlt, -⟩ := List.getElem?_eq_some_iff.mp hs
        rw [List.length_append, List.length_singleton] at hlt
        rcases Nat.lt_succ_iff_lt_or_eq.mp hlt with hlt | rfl
        · left
          rw [List.getElem?_append_left hlt] at hs
          rw [(hold s hs).2] at hm ⊢
          exact ⟨s, hs, hm, rfl⟩
        · right
          rw [List.getElem?_concat_length] at hs
          obtain rfl := Option.some.inj hs
          rw [List.take_left] at hm ⊢
          rw [Nat.sub_eq_zero_of_le hm]
          exact List.mem_singleton_self _

/-- What the levels say about the pool and the nodes in use. -/
structure Layout.Described (l : Layout) (ops : List QueueOp) : Prop where
  pool : l.pool = ⟨(levels ops).block, (levels ops).level⟩
  level : (levels ops).level ≤ psize
  low : (levels ops).low ≤ (levels ops).length
  length : (levels ops).length ≤ ops.count .enqueue
  used : l.used = (.guard :: nodes ops).drop (ops.count .enqueue - (levels ops).length)

theorem Layout.Described.alloc (h : l.Described ops) :
  (allocObj l.pool).2 = .obj (levels ops).place.1 (levels ops).place.2
  := by
  rw [h.pool, allocObj, Levels.place]
  split
  · rfl
  · rfl

theorem Layout.Described.enqueue (h : l.Described ops) :
  (l.step .enqueue).Described (ops ++ [.enqueue])
  := by
  have hlevel := h.level
  have hlow := h.low
  have hlength := h.length
  have hcount : (ops ++ [QueueOp.enqueue]).count .enqueue = ops.count .enqueue + 1 := by simp
  have hlen : ((levels ops).step .enqueue).length = (levels ops).length + 1 := by
    rw [Levels.step]
    split <;> rfl
  constructor
  · rw [levels_concat, Layout.step, h.pool, allocObj, Levels.step]
    split
    · simp [initPool, Levels.level]
    · next hfull =>
      simp only [Levels.level, Pool.mk.injEq, true_and]
      omega
  · rw [levels_concat, Levels.step]
    split
    · simp [Levels.level, psize]
    · next hfull =>
      simp only [Levels.level] at hfull hlevel ⊢
      omega
  · rw [levels_concat, Levels.step]
    split
    · exact Nat.le_succ _
    · exact hlow.trans (Nat.le_succ _)
  · rw [levels_concat, hlen, hcount]
    exact Nat.succ_le_succ hlength
  · rw [levels_concat, hlen, hcount, nodes_concat, if_pos rfl, Nat.add_sub_add_right]
    simp only [Layout.step]
    rw [h.used, h.alloc, ← List.cons_append, List.drop_append_of_le_length]
    rw [List.length_cons, length_nodes]
    omega

theorem Layout.Described.dequeue (h : l.Described ops) :
  (l.step .dequeue).Described (ops ++ [.dequeue])
  := by
  have hlevel := h.level
  have hlow := h.low
  have hlength := h.length
  have hcount : (ops ++ [QueueOp.dequeue]).count .enqueue = ops.count .enqueue := by simp
  have hused : l.used.length = (levels ops).length + 1 := by
    rw [h.used, List.length_drop, List.length_cons, length_nodes]
    omega
  constructor
  · rw [levels_concat, Layout.step, h.pool, freeObj, Levels.step]
    split
    · next hpos =>
      simp only [Levels.level, Pool.mk.injEq, true_and] at hpos ⊢
      omega
    · next hpos =>
      simp only [Levels.level, Pool.mk.injEq, true_and] at hpos ⊢
      omega
  · rw [levels_concat]
    simp only [Levels.step, Levels.level] at hlevel ⊢
    omega
  · rw [levels_concat]
    simp only [Levels.step]
    omega
  · rw [levels_concat, hcount]
    simp only [Levels.step]
    omega
  · rw [levels_concat, hcount, nodes_concat, if_neg (by decide), List.append_nil]
    simp only [Layout.step, Levels.step]
    split
    · next hnil =>
      have hzero : (levels ops).length = 0 := by
        have htail := congrArg List.length hnil
        rw [List.length_tail, hused] at htail
        simpa using htail
      rw [h.used, hzero]
    · next hne =>
      have hpos : (levels ops).length ≠ 0 := by
        intro hzero
        apply hne
        rw [← List.length_eq_zero_iff, List.length_tail, hused, hzero]
      rw [h.used, List.tail_drop]
      congr 1
      omega

theorem described (ops : List QueueOp) :
  (ops.foldl Layout.step Layout.init).Described ops
  := by
  induction ops using List.reverseRecOn with
  | nil => exact ⟨rfl, Nat.zero_le _, le_rfl, le_rfl, rfl⟩
  | append_singleton ops op ih =>
      rw [List.foldl_concat]
      cases op with
      | enqueue => exact ih.enqueue
      | dequeue => exact ih.dequeue

/-- An `enqueue` finds the index at a node in use if an earlier one at the same level has been too close. -/
theorem Layout.Described.alloc_mem_iff (h : l.Described ops) :
  (allocObj l.pool).2 ∈ l.used ↔ ∃ s, ops[s]? = some .enqueue ∧
    (levels (ops.take s)).place = (levels ops).place ∧
    ops.count .enqueue < (ops.take s).count .enqueue + (levels ops).length + 2
  := by
  have hdrop : ∀ m block slot, Node.obj block slot ∈ (Node.guard :: nodes ops).drop m ↔
      Node.obj block slot ∈ (nodes ops).drop (m - 1) := by
    intro m block slot
    cases m with
    | zero => simp
    | succ m => rfl
  have hlength := h.length
  rw [h.alloc, h.used, hdrop, mem_drop_nodes]
  apply exists_congr
  intro s
  apply and_congr_right
  intro hs
  rw [Node.obj.injEq, ← Prod.ext_iff, eq_comm, and_comm]
  apply and_congr_right
  intro _
  omega

/-- The queue is a FIFO queue if and only if `enqueue`s at the same level are far enough from each other. -/
theorem queue_fifo_iff (ops : List QueueOp) :
  Queue.init.Fifo [] ops ↔ Spaced ops
  := by
  rw [laidOut_init.fifo_iff, Layout.fits_iff]
  have htake : ∀ s t, s < t → (ops.take t)[s]? = ops[s]? ∧ (ops.take t).take s = ops.take s := by
    intro s t hst
    rw [List.getElem?_take_of_lt hst, List.take_take, min_eq_left hst.le]
    exact ⟨rfl, rfl⟩
  constructor
  · intro h s t hst hs ht hplace
    by_contra hlt
    apply h t ht
    rw [(described _).alloc_mem_iff]
    obtain ⟨hget, htaken⟩ := htake s t hst
    refine ⟨s, hget.trans hs, ?_⟩
    rw [htaken]
    exact ⟨hplace, not_le.mp hlt⟩
  · intro h t ht hmem
    rw [(described _).alloc_mem_iff] at hmem
    obtain ⟨s, hs, hplace, hlt⟩ := hmem
    have hst : s < t := by
      obtain ⟨hlen, -⟩ := List.getElem?_eq_some_iff.mp hs
      rw [List.length_take] at hlen
      exact hlen.trans_le (min_le_left _ _)
    obtain ⟨hget, htaken⟩ := htake s t hst
    rw [htaken] at hplace hlt
    exact absurd (h s t hst (hget.symm.trans hs) ht hplace) (not_le.mpr hlt)

/-- Two elements are put into the queue and one is taken out; then the node of the other is
taken from the pool again, and points to itself. -/
theorem queue_reuses_tail :
  ¬Queue.init.Fifo [] [.enqueue, .enqueue, .dequeue, .enqueue]
  := by
  rw [laidOut_init.fifo_iff]
  decide

end Micro
