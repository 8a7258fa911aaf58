import Ffwd.Micro.Queue

/-!
# The delegated stack

The stack of the micro-benchmarks, which the server executes, with the same pool as the queue. Here
the index of the pool is right: the nodes that are on the stack are taken from the pool and given
back in the order in which they lie on each other, so none is handed out twice. But `pop` returns
the value of the node below the one it takes away.
-/

namespace Micro

open Linked

structure Stack where
  pool : Pool
  value : Node → Int
  next : Node → Option Node
  head : Node

/-- The stack as the server starts with it. -/
def Stack.init : Stack where
  pool := ⟨0, 0⟩
  value _ := 0
  next _ := none
  head := .guard

def push (s : Stack) (pid : Int) : Stack :=
  let (pool, n) := allocObj s.pool
  { pool := pool
    value := Function.update s.value n pid
    next := Function.update s.next n (some s.head)
    head := n }

def pop (s : Stack) : Stack × Int :=
  match s.next s.head with
  | none => ({ s with pool := freeObj s.pool }, -1)
  | some n => ({ s with head := n, pool := freeObj s.pool }, s.value n)

inductive StackOp where
  | push (pid : Int)
  | pop
  deriving DecidableEq

/-- The node can be reached from `Head`. -/
def Stack.Reachable (s : Stack) (n : Node) : Prop :=
  Relation.ReflTransGen (fun a b => s.next a = some b) s.head n

/-- The chain from `Head` to the guard has one node before the guard for each of the elements. -/
def Stack.Represents (s : Stack) (xs : List Int) : Prop :=
  ∃ l, Chain s.next (some s.head) (l ++ [.guard]) ∧ l.map s.value = xs

/-- Along a sequence of operations the stack does what the stack `xs` does: it represents its
elements, `pop` returns the last of them that has been pushed, or `-1` if there is none, and no node
is handed out that can be reached from `Head`. -/
def Stack.Lifo (s : Stack) (xs : List Int) : List StackOp → Prop
  | [] => s.Represents xs
  | .push pid :: ops =>
      s.Represents xs ∧ ¬s.Reachable (allocObj s.pool).2 ∧ (push s pid).Lifo (pid :: xs) ops
  | .pop :: ops =>
      s.Represents xs ∧ (pop s).2 = xs.head?.getD (-1) ∧ (pop s).1.Lifo xs.tail ops

/-- Whenever the sequence has a `pop` and there are elements on the stack `xs`, the two last of
them are equal; below the first there is the 0 of the guard. -/
def Doubled (xs : List Int) : List StackOp → Prop
  | [] => True
  | .push pid :: ops => Doubled (pid :: xs) ops
  | .pop :: ops => (∀ x, xs.head? = some x → xs.tail.head?.getD 0 = x) ∧ Doubled xs.tail ops

/-! ### The nodes in use -/

/-- The first nodes of a block, the last of them on top. -/
def Pool.top (pool : Pool) : List Node := ((List.range pool.index).map (Node.obj pool.block)).reverse

/-- The nodes on the stack: those of the block allocated last are the ones before the index of the
pool, and they lie on those of other blocks. -/
structure Stack.LaidOut (s : Stack) (l : List Node) (xs : List Int) : Prop where
  chain : Chain s.next (some s.head) (l ++ [.guard])
  values : l.map s.value = xs
  guard : s.value .guard = 0
  index : s.pool.index ≤ psize
  nodes : ∃ old, l = s.pool.top ++ old ∧ ∀ n ∈ old, ∃ b i, n = .obj b i ∧ b < s.pool.block

theorem laidOut_initStack :
  Stack.init.LaidOut [] []
  :=
  ⟨⟨rfl, rfl⟩, rfl, rfl, Nat.zero_le _, [], rfl, nofun⟩

variable {s : Stack} {l : List Node} {xs : List Int}

theorem Stack.LaidOut.represents (h : s.LaidOut l xs) :
  s.Represents xs
  :=
  ⟨l, h.chain, h.values⟩

theorem Pool.top_succ (block index : Nat) :
  Pool.top ⟨block, index + 1⟩ = .obj block index :: Pool.top ⟨block, index⟩
  := by
  rw [Pool.top, Pool.top, List.range_succ, List.map_append, List.reverse_append]
  rfl

theorem Pool.mem_top {pool : Pool} {n : Node} (hn : n ∈ pool.top) :
  ∃ i, n = .obj pool.block i ∧ i < pool.index
  := by
  rw [Pool.top, List.mem_reverse] at hn
  obtain ⟨i, hi, rfl⟩ := List.mem_map.mp hn
  exact ⟨i, rfl, List.mem_range.mp hi⟩

/-- The node that is taken from the pool, and the nodes on the stack. -/
theorem Stack.LaidOut.alloc (h : s.LaidOut l xs) :
  (allocObj s.pool).2 ∉ l ++ [.guard] ∧ (allocObj s.pool).1.index ≤ psize ∧
    ∃ old, (allocObj s.pool).2 :: l = (allocObj s.pool).1.top ++ old ∧
      ∀ n ∈ old, ∃ b i, n = .obj b i ∧ b < (allocObj s.pool).1.block
  := by
  have hindex := h.index
  obtain ⟨old, hl, hold⟩ := h.nodes
  rw [allocObj]
  by_cases hfull : s.pool.index = psize
  · simp only [if_pos hfull, initPool]
    have hblock : ∀ n ∈ l, ∃ b i, n = Node.obj b i ∧ b < s.pool.block + 1 := by
      intro n hn
      rw [hl] at hn
      rcases List.mem_append.mp hn with hn | hn
      · obtain ⟨i, rfl, -⟩ := Pool.mem_top hn
        exact ⟨_, i, rfl, Nat.lt_succ_self _⟩
      · obtain ⟨b, i, rfl, hb⟩ := hold n hn
        exact ⟨b, i, rfl, Nat.lt_succ_of_lt hb⟩
    refine ⟨?_, by decide, l, rfl, hblock⟩
    intro hmem
    rcases List.mem_append.mp hmem with hmem | hmem
    · obtain ⟨b, i, heq, hb⟩ := hblock _ hmem
      obtain ⟨rfl, -⟩ := Node.obj.inj heq
      exact Nat.lt_irrefl _ hb
    · simp at hmem
  · simp only [if_neg hfull]
    refine ⟨?_, by omega, old, ?_, hold⟩
    · intro hmem
      rw [hl] at hmem
      rcases List.mem_append.mp hmem with hmem | hmem
      · rcases List.mem_append.mp hmem with hmem | hmem
        · obtain ⟨i, heq, hi⟩ := Pool.mem_top hmem
          obtain ⟨-, rfl⟩ := Node.obj.inj heq
          exact Nat.lt_irrefl _ hi
        · obtain ⟨b, i, heq, hb⟩ := hold _ hmem
          obtain ⟨rfl, -⟩ := Node.obj.inj heq
          exact Nat.lt_irrefl _ hb
      · simp at hmem
    · rw [Pool.top_succ, hl]
      rfl

theorem Stack.LaidOut.push (h : s.LaidOut l xs) (pid : Int) :
  (push s pid).LaidOut ((allocObj s.pool).2 :: l) (pid :: xs)
  := by
  obtain ⟨hnot, hindex, hnodes⟩ := h.alloc
  have hpush : Micro.push s pid = ⟨(allocObj s.pool).1,
    Function.update s.value (allocObj s.pool).2 pid,
    Function.update s.next (allocObj s.pool).2 (some s.head), (allocObj s.pool).2⟩ := rfl
  rw [hpush]
  refine ⟨h.chain.cons hnot, ?_, ?_, hindex, hnodes⟩
  · show Function.update s.value (allocObj s.pool).2 pid (allocObj s.pool).2 ::
      l.map (Function.update s.value (allocObj s.pool).2 pid) = _
    rw [Function.update_self, ← h.values]
    congr 1
    apply List.map_congr_left
    intro n hn
    apply Function.update_of_ne
    rintro rfl
    exact hnot (List.mem_append_left _ hn)
  · show Function.update s.value (allocObj s.pool).2 pid .guard = 0
    rw [Function.update_of_ne]
    · exact h.guard
    · intro heq
      rw [← heq] at hnot
      exact hnot (by simp)

/-- The nodes on the stack without the one on top. -/
theorem Stack.LaidOut.free {n : Node} (h : s.LaidOut (n :: l) xs) :
  (freeObj s.pool).index ≤ psize ∧ ∃ old, l = (freeObj s.pool).top ++ old ∧
    ∀ m ∈ old, ∃ b i, m = .obj b i ∧ b < (freeObj s.pool).block
  := by
  obtain ⟨old, hl, hold⟩ := h.nodes
  have hindex := h.index
  cases hpool : s.pool with
  | mk block index =>
      rw [hpool] at hl hold hindex
      cases index with
      | zero =>
          refine ⟨hindex, l, rfl, ?_⟩
          intro m hm
          apply hold m
          rw [← show n :: l = old from hl]
          exact List.mem_cons_of_mem n hm
      | succ index =>
          rw [Pool.top_succ, List.cons_append] at hl
          refine ⟨Nat.le_of_succ_le hindex, old, ?_, hold⟩
          exact (List.cons.inj hl).2

/-- `pop` returns the value below the one it takes away. -/
theorem Stack.LaidOut.pop (h : s.LaidOut l xs) :
  (pop s).1.LaidOut l.tail xs.tail ∧
    (pop s).2 = if xs = [] then -1 else xs.tail.head?.getD 0
  := by
  obtain ⟨old, hl, hold⟩ := h.nodes
  have hvalues := h.values
  have hchain := h.chain
  cases l with
  | nil =>
      subst hvalues
      have hhead : s.head = .guard := Option.some.inj hchain.1
      have hnext : s.next s.head = none := by
        rw [hhead]
        exact hchain.2
      have hzero : s.pool.index = 0 := by
        have hlength := congrArg List.length hl
        simp [Pool.top] at hlength
        omega
      have hpop : Micro.pop s = (s, -1) := by
        rw [Micro.pop, hnext]
        simp [freeObj, hzero]
      rw [hpop]
      exact ⟨h, rfl⟩
  | cons n l =>
      subst hvalues
      obtain ⟨hn, hchain⟩ := hchain
      have hn : s.head = n := Option.some.inj hn
      obtain ⟨b, hb, hvalue⟩ : ∃ b, s.next n = some b ∧
          s.value b = (l.map s.value).head?.getD 0 := by
        cases l with
        | nil => exact ⟨.guard, hchain.1, h.guard⟩
        | cons m l => exact ⟨m, hchain.1, rfl⟩
      have hpop : Micro.pop s = ({ s with head := b, pool := freeObj s.pool }, s.value b) := by
        rw [Micro.pop, hn, hb]
      obtain ⟨hindex, hnodes⟩ := h.free
      rw [hb] at hchain
      rw [hpop]
      refine ⟨⟨hchain, rfl, h.guard, hindex, hnodes⟩, ?_⟩
      rw [if_neg (by simp)]
      exact hvalue

theorem Stack.LaidOut.reachable_iff (h : s.LaidOut l xs) (n : Node) :
  s.Reachable n ↔ n ∈ l ++ [.guard]
  := by
  have hchain := h.chain
  obtain ⟨a, rest, hrest⟩ := List.exists_cons_of_ne_nil (show l ++ [Node.guard] ≠ [] by simp)
  rw [hrest] at hchain ⊢
  obtain ⟨rfl⟩ := Option.some.inj hchain.1
  exact (hchain.mem_iff_reachable n).symm

/-- The stack is a LIFO stack along a sequence of operations if and only if every `pop` on a stack
that is not empty finds two equal elements on top. -/
theorem Stack.LaidOut.lifo_iff (h : s.LaidOut l xs) (ops : List StackOp) :
  s.Lifo xs ops ↔ Doubled xs ops
  := by
  induction ops generalizing s l xs with
  | nil => exact ⟨fun _ => trivial, fun _ => h.represents⟩
  | cons op ops ih =>
      cases op with
      | push pid =>
          have hreach : ¬s.Reachable (allocObj s.pool).2 := by
            rw [h.reachable_iff]
            exact h.alloc.1
          rw [Stack.Lifo, Doubled, ← ih (h.push pid)]
          exact ⟨fun hlifo => hlifo.2.2, fun hlifo => ⟨h.represents, hreach, hlifo⟩⟩
      | pop =>
          obtain ⟨hpop, hresult⟩ := h.pop
          rw [Stack.Lifo, Doubled, ← ih hpop, hresult]
          constructor
          · rintro ⟨-, heq, hlifo⟩
            refine ⟨?_, hlifo⟩
            intro x hx
            cases xs with
            | nil => exact absurd hx nofun
            | cons y ys =>
                obtain rfl := Option.some.inj hx
                exact heq
          · rintro ⟨hdoubled, hlifo⟩
            refine ⟨h.represents, ?_, hlifo⟩
            cases xs with
            | nil => rfl
            | cons y ys => exact hdoubled y rfl

/-- The stack is a LIFO stack along a sequence of operations if and only if `pop` is called only
when the two last elements are equal: it returns the value below the one it takes away. -/
theorem stack_lifo_iff (ops : List StackOp) :
  Stack.init.Lifo [] ops ↔ Doubled [] ops
  := laidOut_initStack.lifo_iff ops

/-- One element is pushed, and `pop` returns the 0 of the guard. -/
theorem stack_pops_guard :
  ¬Stack.init.Lifo [] [.push 7, .pop]
  := by
  rw [laidOut_initStack.lifo_iff]
  rintro ⟨hdoubled, -⟩
  exact absurd (hdoubled 7 rfl) (by decide)

end Micro
