import Ffwd.Lib.Linearizable
import Ffwd.Micro.Queue

/-!
# The lock-free stack

The stack of the benchmarks whose threads compare and swap the top. Every thread takes its nodes from a
pool of its own and never gives one back, so that a node that has been on the stack does not change any
more, and a top that has not changed has the same nodes below it. A step is one access to the memory that
the threads share.
-/

namespace LfStack

open Linked Concurrent
open Micro (Pool allocObj psize)

/-! ### The algorithm -/

abbrev Value : Type := BitVec 32

/-- A node: the thread whose pool it is from, and the node of the pool. -/
abbrev Addr (ι : Type) : Type := ι × Micro.Node

inductive Op where
  | push (arg : Value)
  | pop
  deriving DecidableEq

/-- Where a thread is. `n` is the node that it pushes, and `oldTop` what it has found at the top. -/
inductive Pc (ι : Type) where
  | idle
  | alloc (arg : Value)
  | readTop (n : Addr ι)
  | setNext (n : Addr ι) (oldTop : Option (Addr ι))
  | casPush (n : Addr ι) (oldTop : Option (Addr ι))
  | pushed
  | popTop
  | readNext (oldTop : Addr ι)
  | casPop (oldTop : Addr ι) (next : Option (Addr ι))
  | readValue (oldTop : Addr ι)
  | empty

structure State (ι : Type) where
  pool : ι → Pool
  value : Addr ι → Value
  next : Addr ι → Option (Addr ι)
  top : Option (Addr ι)
  pc : ι → Pc ι

variable {ι : Type} [DecidableEq ι]

/-- `SHARED_OBJECT_INIT`, and `init_pool` of every thread. What the nodes contain is not known. -/
def State.init (value : Addr ι → Value) (next : Addr ι → Option (Addr ι)) : State ι where
  pool _ := ⟨0, 0⟩
  value := value
  next := next
  top := none
  pc _ := .idle

def State.goto (s : State ι) (i : ι) (pc : Pc ι) : State ι :=
  { s with pc := Function.update s.pc i pc }

/-- A thread calls an operation, or moves. -/
inductive Label (ι : Type) where
  | call (i : ι) (op : Op)
  | step (i : ι)

/-- `n = alloc_obj(&pool)` and `n->value = arg` -/
def State.alloc (s : State ι) (i : ι) (arg : Value) : State ι :=
  let (pool, n) := allocObj (s.pool i)
  { s with pool := Function.update s.pool i pool, value := Function.update s.value (i, n) arg }.goto i
    (.readTop (i, n))

/-- A step of a thread in `push` or `pop`. -/
def State.move (s : State ι) (i : ι) : Option (State ι) :=
  match s.pc i with
  | .idle => none
  | .alloc arg => some (s.alloc i arg)
  | .readTop n => some (s.goto i (.setNext n s.top))
  | .setNext n oldTop => some ({ s with next := Function.update s.next n oldTop }.goto i (.casPush n oldTop))
  | .casPush n oldTop =>
      if s.top = oldTop then some ({ s with top := some n }.goto i .pushed) else some (s.goto i (.readTop n))
  | .pushed => some (s.goto i .idle)
  | .popTop =>
      match s.top with
      | none => some (s.goto i .empty)
      | some oldTop => some (s.goto i (.readNext oldTop))
  | .readNext oldTop => some (s.goto i (.casPop oldTop (s.next oldTop)))
  | .casPop oldTop next =>
      if s.top = some oldTop then some ({ s with top := next }.goto i (.readValue oldTop))
      else some (s.goto i .popTop)
  | .readValue _ => some (s.goto i .idle)
  | .empty => some (s.goto i .idle)

/-- `push`, which returns nothing, and `pop`, as they are seen from outside. -/
def lfstack : System (State ι) (Label ι) (Event ι Op (Option Value)) where
  step s
    | .call i op =>
        match s.pc i, op with
        | .idle, .push arg => some (s.goto i (.alloc arg))
        | .idle, .pop => some (s.goto i .popTop)
        | _, _ => none
    | .step i => s.move i
  event s
    | .call i op => some (.call i op)
    | .step i =>
        match s.pc i with
        | .pushed => some (.ret i none)
        | .readValue oldTop => some (.ret i (some (s.value oldTop)))
        | .empty => some (.ret i (some 0))
        | _ => none

/-- A stack, whose `pop` returns `0` if there is nothing on it. -/
def stack : Object Op (Option Value) (List Value) where
  apply op l :=
    match op, l with
    | .push arg, l => (arg :: l, none)
    | .pop, [] => ([], some 0)
    | .pop, v :: l => (l, some v)

/-! ### The pools -/

/-- The node has been taken from the pool. -/
def Taken (pool : Pool) : Micro.Node → Prop
  | .guard => False
  | .obj block slot => block < pool.block ∨ block = pool.block ∧ slot < pool.index

theorem taken_allocObj (pool : Pool) :
  ¬Taken pool (allocObj pool).2 ∧ Taken (allocObj pool).1 (allocObj pool).2
  := by
  simp only [allocObj]
  split <;> simp [Taken, Micro.initPool]

theorem Taken.allocObj {pool : Pool} {n : Micro.Node} (h : Taken pool n) :
  Taken (allocObj pool).1 n
  := by
  cases n with
  | guard => exact h
  | obj block slot =>
      simp only [Taken, Micro.allocObj] at h ⊢
      split <;> simp [Micro.initPool] <;> omega

/-! ### The invariant -/

/-- The node that a thread is about to push. -/
def Pc.pushes : Pc ι → Option (Addr ι)
  | .readTop n => some n
  | .setNext n _ => some n
  | .casPush n _ => some n
  | _ => none

/-- The node has been on the stack. -/
def State.Published (s : State ι) (a : Addr ι) : Prop :=
  Taken (s.pool a.1) a.2 ∧ (s.pc a.1).pushes ≠ some a

/-- Where a thread stands, and where its operation is on the stack. -/
def State.Stands (s : State ι) (i : ι) (x : Status Op (Option Value)) : Prop :=
  match s.pc i with
  | .idle => x = .idle
  | .alloc arg => x = .pending (.push arg)
  | .readTop n => x = .pending (.push (s.value n)) ∧ n.1 = i ∧ Taken (s.pool i) n.2
  | .setNext n _ => x = .pending (.push (s.value n)) ∧ n.1 = i ∧ Taken (s.pool i) n.2
  | .casPush n oldTop =>
      x = .pending (.push (s.value n)) ∧ n.1 = i ∧ Taken (s.pool i) n.2 ∧ s.next n = oldTop
  | .pushed => x = .done none
  | .popTop => x = .pending .pop
  | .readNext oldTop => x = .pending .pop ∧ s.Published oldTop
  | .casPop oldTop next => x = .pending .pop ∧ s.Published oldTop ∧ s.next oldTop = next
  | .readValue oldTop => x = .done (some (s.value oldTop)) ∧ s.Published oldTop
  | .empty => x = .done (some 0)

/-- The nodes `l` are those of the stack. -/
structure State.Inv (s : State ι) (l : List (Addr ι)) (st : ι → Status Op (Option Value)) : Prop where
  chain : Chain s.next s.top l
  published : ∀ a ∈ l, s.Published a
  stands : ∀ i, s.Stands i (st i)

variable {s s' : State ι} {l : List (Addr ι)} {st : ι → Status Op (Option Value)} {i : ι} {a n : Addr ι}
  {oldTop : Option (Addr ι)} {arg : Value}

/-- What a step of thread `i` leaves as it is: what has been published stays published, and is not written
to, and no other thread is concerned. -/
structure Step (s s' : State ι) (i : ι) : Prop where
  pc : ∀ j, j ≠ i → s'.pc j = s.pc j
  pool : ∀ j, j ≠ i → s'.pool j = s.pool j
  published : ∀ a, s.Published a → s'.Published a
  value : ∀ a, s.Published a ∨ a.1 ≠ i → s'.value a = s.value a
  next : ∀ a, s.Published a ∨ a.1 ≠ i → s'.next a = s.next a

omit [DecidableEq ι] in
theorem Step.stands
    (h : Step s s' i) {j : ι} (hj : j ≠ i) {x : Status Op (Option Value)} (hstands : s.Stands j x) :
  s'.Stands j x
  := by
  have hown : ∀ n : Addr ι, n.1 = j → s'.value n = s.value n ∧ s'.next n = s.next n := by
    rintro n rfl
    exact ⟨h.value n (.inr hj), h.next n (.inr hj)⟩
  rw [State.Stands] at hstands ⊢
  rw [h.pc j hj, h.pool j hj]
  cases hp : s.pc j <;> simp only [hp] at hstands ⊢
  case readTop n | setNext n oldTop =>
    obtain ⟨hx, hn, htaken⟩ := hstands
    rw [(hown n hn).1]
    exact ⟨hx, hn, htaken⟩
  case casPush n oldTop =>
    obtain ⟨hx, hn, htaken, hnext⟩ := hstands
    rw [(hown n hn).1, (hown n hn).2]
    exact ⟨hx, hn, htaken, hnext⟩
  case readNext oldTop => exact ⟨hstands.1, h.published _ hstands.2⟩
  case casPop oldTop next =>
    obtain ⟨hx, hpublished, hnext⟩ := hstands
    rw [h.next oldTop (.inl hpublished)]
    exact ⟨hx, h.published _ hpublished, hnext⟩
  case readValue oldTop =>
    obtain ⟨hx, hpublished⟩ := hstands
    rw [h.value oldTop (.inl hpublished)]
    exact ⟨hx, h.published _ hpublished⟩
  all_goals exact hstands

theorem State.Inv.stands_step
    {x : Status Op (Option Value)} (h : s.Inv l st) (hs : Step s s' i) (hstands : s'.Stands i x) (j : ι) :
  s'.Stands j (Function.update st i x j)
  := by
  rw [Function.update_apply]
  split
  · next hj =>
    rw [hj]
    exact hstands
  · next hj => exact hs.stands hj (h.stands j)

/-- A step after which the top is the same. -/
theorem State.Inv.step
    {x : Status Op (Option Value)} (h : s.Inv l st) (hs : Step s s' i) (htop : s'.top = s.top)
    (hstands : s'.Stands i x) :
  s'.Inv l (Function.update st i x) ∧ l.map s'.value = l.map s.value
  := by
  refine ⟨⟨?_, ?_, h.stands_step hs hstands⟩, ?_⟩
  · rw [htop]
    exact h.chain.congr fun a ha => hs.next a (.inl (h.published a ha))
  · exact fun a ha => hs.published a (h.published a ha)
  · apply List.map_congr_left
    exact fun a ha => hs.value a (.inl (h.published a ha))

/-! ### The steps -/

@[simp]
theorem goto_pc_self (s : State ι) (i : ι) (pc : Pc ι) :
  (s.goto i pc).pc i = pc
  := by
  simp [State.goto]

/-- A thread goes on, and the top may change. -/
theorem step_top
    (top : Option (Addr ι)) {pc : Pc ι} (hpushes : ∀ a, pc.pushes = some a → (s.pc i).pushes = some a) :
  Step s ({ s with top := top }.goto i pc) i
  := by
  constructor
  · exact fun j hj => Function.update_of_ne hj _ _
  · exact fun j hj => rfl
  · rintro a ⟨htaken, hne⟩
    refine ⟨htaken, ?_⟩
    simp only [State.goto, Function.update_apply]
    split
    · next ha =>
      rw [ha] at hne
      exact fun hpc => hne (hpushes a hpc)
    · exact hne
  · exact fun a ha => rfl
  · exact fun a ha => rfl

theorem step_goto {pc : Pc ι} (hpushes : ∀ a, pc.pushes = some a → (s.pc i).pushes = some a) :
  Step s (s.goto i pc) i
  := step_top s.top hpushes

theorem step_alloc (s : State ι) (i : ι) (arg : Value) :
  Step s (s.alloc i arg) i
  := by
  have hfresh : ∀ a, s.Published a → a ≠ (i, (allocObj (s.pool i)).2) := by
    rintro a ⟨htaken, -⟩ rfl
    exact (taken_allocObj (s.pool i)).1 htaken
  constructor
  · exact fun j hj => Function.update_of_ne hj _ _
  · exact fun j hj => Function.update_of_ne hj _ _
  · intro a ha
    have hne := hfresh a ha
    obtain ⟨htaken, hpushes⟩ := ha
    by_cases hi : a.1 = i
    · refine ⟨?_, ?_⟩
      · simp only [State.alloc, State.goto]
        rw [hi, Function.update_self]
        rw [hi] at htaken
        exact htaken.allocObj
      · simp only [State.alloc, State.goto]
        rw [hi, Function.update_self]
        exact fun h => hne (Option.some.inj h).symm
    · refine ⟨?_, ?_⟩
      · simp only [State.alloc, State.goto]
        rw [Function.update_of_ne hi]
        exact htaken
      · simp only [State.alloc, State.goto]
        rw [Function.update_of_ne hi]
        exact hpushes
  · rintro a (ha | ha)
    · exact Function.update_of_ne (hfresh a ha) _ _
    · apply Function.update_of_ne
      rintro rfl
      exact ha rfl
  · exact fun a ha => rfl

theorem step_setNext (hp : s.pc i = .setNext n oldTop) (hn : n.1 = i) :
  Step s ({ s with next := Function.update s.next n oldTop }.goto i (.casPush n oldTop)) i
  := by
  have hfresh : ∀ a, s.Published a → a ≠ n := by
    rintro a ⟨-, hpushes⟩ rfl
    rw [hn, hp] at hpushes
    exact hpushes rfl
  constructor
  · exact fun j hj => Function.update_of_ne hj _ _
  · exact fun j hj => rfl
  · intro a ha
    have hne := hfresh a ha
    refine ⟨ha.1, ?_⟩
    simp only [State.goto, Function.update_apply]
    split
    · exact fun h => hne (Option.some.inj h).symm
    · exact ha.2
  · exact fun a ha => rfl
  · rintro a (ha | ha)
    · exact Function.update_of_ne (hfresh a ha) _ _
    · apply Function.update_of_ne
      rintro rfl
      exact ha hn

/-- The node is put on the stack. -/
theorem State.Inv.push (h : s.Inv l st) (hp : s.pc i = .casPush n s.top) :
  st i = .pending (.push (s.value n)) ∧
    ({ s with top := some n }.goto i .pushed).Inv (n :: l) (Function.update st i (.done none))
  := by
  have hstands := h.stands i
  rw [State.Stands, hp] at hstands
  obtain ⟨hpending, hn, htaken, hnext⟩ := hstands
  have hstep : Step s ({ s with top := some n }.goto i .pushed) i := step_top _ (by rintro a ⟨⟩)
  refine ⟨hpending, ⟨rfl, ?_⟩, ?_, h.stands_step hstep ?_⟩
  · simp only [State.goto, hnext]
    exact h.chain
  · intro a ha
    cases ha with
    | head =>
        refine ⟨?_, ?_⟩
        · rw [hn]
          exact htaken
        · rw [hn, goto_pc_self]
          rintro ⟨⟩
    | tail _ ha => exact hstep.published a (h.published a ha)
  · rw [State.Stands, goto_pc_self]

/-- The node at the top is taken from the stack. -/
theorem State.Inv.pop {a : Addr ι} {next : Option (Addr ι)} (h : s.Inv l st) (hp : s.pc i = .casPop a next)
    (htop : s.top = some a) :
  st i = .pending .pop ∧
    ∃ l', l = a :: l' ∧
      ({ s with top := next }.goto i (.readValue a)).Inv l' (Function.update st i (.done (some (s.value a))))
  := by
  have hstands := h.stands i
  rw [State.Stands, hp] at hstands
  obtain ⟨hpending, hpublished, hnext⟩ := hstands
  have hstep : Step s ({ s with top := next }.goto i (.readValue a)) i := step_top _ (by rintro b ⟨⟩)
  have hchain := h.chain
  rw [htop] at hchain
  obtain ⟨l', rfl⟩ := hchain.exists_cons
  refine ⟨hpending, l', rfl, ?_, ?_, h.stands_step hstep ?_⟩
  · rw [← hnext]
    exact hchain.2
  · exact fun b hb => hstep.published b (h.published b (.tail _ hb))
  · rw [State.Stands, goto_pc_self]
    exact ⟨rfl, hstep.published a hpublished⟩

/-! ### Runs -/

/-- The stack contains the values of the nodes. -/
def Tracks (s : State ι) (v : Atomic ι Op (Option Value) (List Value)) : Prop :=
  ∃ l, s.Inv l v.status ∧ v.state = l.map s.value

variable {v : Atomic ι Op (Option Value) (List Value)}

/-- A step that changes nothing on the stack. -/
theorem tracks_goto
    {x : Status Op (Option Value)} (h : s.Inv l v.status) (hstate : v.state = l.map s.value) (hs : Step s s' i)
    (htop : s'.top = s.top) (hstands : s'.Stands i x) :
  Tracks s' (v.goto i x)
  := by
  obtain ⟨hinv, hmap⟩ := h.step hs htop hstands
  exact ⟨l, hinv, hstate.trans hmap.symm⟩

/-- The same, if nothing is seen of it. -/
theorem tracks_silent
    (h : s.Inv l v.status) (hstate : v.state = l.map s.value) (hs : Step s s' i) (htop : s'.top = s.top)
    (hstands : s'.Stands i (v.status i)) :
  ∃ acts v', stack.atomic.run v acts = some (v', []) ∧ Tracks s' v'
  := by
  refine ⟨[], v, rfl, ?_⟩
  have htracks := tracks_goto h hstate hs htop hstands
  rwa [Atomic.goto, Function.update_eq_self] at htracks

theorem tracks_call {op : Op} {pc : Pc ι}
    (h : s.Inv l v.status) (hstate : v.state = l.map s.value) (hp : s.pc i = .idle) (hpushes : pc.pushes = none)
    (hstands : (s.goto i pc).Stands i (.pending op)) :
  ∃ acts v', stack.atomic.run v acts = some (v', [.call i op]) ∧ Tracks (s.goto i pc) v'
  := by
  have hidle := h.stands i
  rw [State.Stands, hp] at hidle
  have hs : Step s (s.goto i pc) i := step_goto (by simp [hpushes])
  exact ⟨_, _, atomic_call hidle op, tracks_goto h hstate hs rfl hstands⟩

theorem tracks_ret {r : Option Value}
    (h : s.Inv l v.status) (hstate : v.state = l.map s.value) (hdone : v.status i = .done r) :
  ∃ acts v', stack.atomic.run v acts = some (v', [.ret i r]) ∧ Tracks (s.goto i .idle) v'
  := by
  have hs : Step s (s.goto i .idle) i := step_goto (by rintro a ⟨⟩)
  refine ⟨_, _, atomic_ret hdone, tracks_goto h hstate hs rfl ?_⟩
  rw [State.Stands, goto_pc_self]

/-- `push` takes effect when the top is swapped, and `pop` too, or when it finds no top. -/
theorem lfstack_simulates :
  Simulates (lfstack (ι := ι)) stack.atomic Tracks
  := by
  rintro s v label s' ⟨l, h, hstate⟩ hstep
  cases label with
  | call i op =>
      simp only [lfstack] at hstep ⊢
      split at hstep
      · next arg hp =>
        obtain rfl := Option.some.inj hstep
        apply tracks_call h hstate hp rfl
        rw [State.Stands, goto_pc_self]
      · next hp =>
        obtain rfl := Option.some.inj hstep
        apply tracks_call h hstate hp rfl
        rw [State.Stands, goto_pc_self]
      · cases hstep
  | step i =>
      have hstands := h.stands i
      simp only [lfstack, State.move] at hstep ⊢
      rw [State.Stands] at hstands
      cases hp : s.pc i <;> simp only [hp] at hstands hstep ⊢
      case idle => cases hstep
      case alloc arg =>
        obtain rfl := Option.some.inj hstep
        apply tracks_silent h hstate (step_alloc s i arg) rfl
        simp only [State.Stands, State.alloc, goto_pc_self]
        simp only [State.goto, Function.update_self]
        exact ⟨hstands, trivial, (taken_allocObj (s.pool i)).2⟩
      case readTop n =>
        obtain rfl := Option.some.inj hstep
        apply tracks_silent h hstate (step_goto _) rfl
        · rw [State.Stands, goto_pc_self]
          exact hstands
        · rw [hp]
          exact fun a ha => ha
      case setNext n oldTop =>
        obtain rfl := Option.some.inj hstep
        obtain ⟨hpending, hn, htaken⟩ := hstands
        apply tracks_silent h hstate (step_setNext hp hn) rfl
        rw [State.Stands, goto_pc_self]
        exact ⟨hpending, hn, htaken, Function.update_self _ _ _⟩
      case casPush n oldTop =>
        split at hstep
        · next htop =>
          obtain rfl := Option.some.inj hstep
          rw [← htop] at hp
          obtain ⟨hpending, hinv⟩ := h.push hp
          refine ⟨_, _, atomic_effect hpending, n :: l, hinv, ?_⟩
          simp only [stack, hstate]
          rfl
        · obtain rfl := Option.some.inj hstep
          obtain ⟨hpending, hn, htaken, -⟩ := hstands
          apply tracks_silent h hstate (step_goto _) rfl
          · rw [State.Stands, goto_pc_self]
            exact ⟨hpending, hn, htaken⟩
          · rw [hp]
            exact fun a ha => ha
      case pushed =>
        obtain rfl := Option.some.inj hstep
        exact tracks_ret h hstate hstands
      case popTop =>
        split at hstep
        · next htop =>
          obtain rfl := Option.some.inj hstep
          have hchain := h.chain
          rw [htop] at hchain
          obtain rfl : l = [] := hchain.unique rfl
          have hs : Step s (s.goto i .empty) i := step_goto (by rintro a ⟨⟩)
          have hempty : (s.goto i .empty).Stands i (.done (some 0)) := by
            rw [State.Stands, goto_pc_self]
          obtain ⟨hinv, -⟩ := h.step hs rfl hempty
          refine ⟨_, _, atomic_effect hstands, [], ?_, ?_⟩
          · rw [hstate]
            exact hinv
          · rw [hstate]
            rfl
        · next a htop =>
          obtain rfl := Option.some.inj hstep
          have hchain := h.chain
          rw [htop] at hchain
          obtain ⟨l', rfl⟩ := hchain.exists_cons
          have hs : Step s (s.goto i (.readNext a)) i := step_goto (by rintro b ⟨⟩)
          apply tracks_silent h hstate hs rfl
          rw [State.Stands, goto_pc_self]
          exact ⟨hstands, hs.published a (h.published a (.head l'))⟩
      case readNext a =>
        obtain rfl := Option.some.inj hstep
        have hs : Step s (s.goto i (.casPop a (s.next a))) i := step_goto (by rintro b ⟨⟩)
        apply tracks_silent h hstate hs rfl
        rw [State.Stands, goto_pc_self]
        exact ⟨hstands.1, hs.published a hstands.2, rfl⟩
      case casPop a next =>
        split at hstep
        · next htop =>
          obtain rfl := Option.some.inj hstep
          obtain ⟨hpending, l', rfl, hinv⟩ := h.pop hp htop
          refine ⟨_, _, atomic_effect hpending, l', ?_, ?_⟩
          · rw [hstate]
            exact hinv
          · rw [hstate]
            rfl
        · obtain rfl := Option.some.inj hstep
          apply tracks_silent h hstate (step_goto (by rintro b ⟨⟩)) rfl
          rw [State.Stands, goto_pc_self]
          exact hstands.1
      case readValue a =>
        obtain rfl := Option.some.inj hstep
        exact tracks_ret h hstate hstands.1
      case empty =>
        obtain rfl := Option.some.inj hstep
        exact tracks_ret h hstate hstands

omit [DecidableEq ι] in
theorem inv_init (value : Addr ι → Value) (next : Addr ι → Option (Addr ι)) :
  (State.init value next).Inv [] fun _ => .idle
  := by
  refine ⟨rfl, ?_, ?_⟩
  · rintro a ⟨⟩
  · intro i
    rw [State.Stands, State.init]

/-- The lock-free stack is linearizable: for any number of threads, whatever the nodes contain at first, and
for every interleaving of their steps. -/
theorem lfstack_linearizable
    (value : Addr ι → Value) (next : Addr ι → Option (Addr ι)) (labels : List (Label ι)) (s : State ι)
    (h : List (Event ι Op (Option Value))) (hrun : lfstack.run (State.init value next) labels = some (s, h)) :
  stack.Linearizable [] h
  := lfstack_simulates.linearizable ⟨[], inv_init value next, rfl⟩ hrun

/-- A thread finds another top when it swaps, and pushes its node on that of the other one. -/
def swapRun : List (Label Bool) :=
  [Label.call false (.push 1), Label.call true (.push 2)] ++ List.replicate 3 (Label.step false) ++
    List.replicate 5 (Label.step true) ++ List.replicate 5 (Label.step false) ++
    [Label.call true .pop] ++ List.replicate 4 (Label.step true) ++
    [Label.call false .pop] ++ List.replicate 4 (Label.step false) ++
    [Label.call false .pop] ++ List.replicate 2 (Label.step false)

theorem lfstack_linearizable_swapRun :
  (∃ s, lfstack.run (State.init (fun _ => 9) fun _ => none) swapRun
      = some (s, [.call false (.push 1), .call true (.push 2), .ret true none, .ret false none,
          .call true .pop, .ret true (some 1), .call false .pop, .ret false (some 2), .call false .pop,
          .ret false (some 0)])) ∧
    stack.Linearizable []
      ([.call false (.push 1), .call true (.push 2), .ret true none, .ret false none, .call true .pop,
        .ret true (some 1), .call false .pop, .ret false (some 2), .call false .pop,
        .ret false (some 0)] : List (Event Bool _ _))
  := by
  have hseen : (lfstack.run (State.init (fun _ => 9) fun _ => none) swapRun).map Prod.snd
      = some [.call false (.push 1), .call true (.push 2), .ret true none, .ret false none,
          .call true .pop, .ret true (some 1), .call false .pop, .ret false (some 2), .call false .pop,
          .ret false (some 0)] := by
    decide +kernel
  obtain ⟨⟨s, h⟩, hrun, rfl⟩ := Option.map_eq_some_iff.mp hseen
  exact ⟨⟨s, hrun⟩, lfstack_linearizable (fun _ => 9) (fun _ => none) swapRun s _ hrun⟩

end LfStack
