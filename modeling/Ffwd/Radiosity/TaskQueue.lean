import Ffwd.Lib.Chain
import Ffwd.Lib.Placement

/-!
# Task objects

The task objects of the radiosity program and the lists they circulate in: the task queues, the
shared free lists beside them and the local free lists of the processors, all of which use the one
field `next`. The bodies `func5` to `func8` are executed by the server, one at a time; between
them the processors work on their own lists. `Consistent` says that every object is in one place
and that all lists and their counters are as they should be.
-/

namespace Radiosity

open Linked Placement

/-! ### The operations -/

structure TaskQueue where
  top : Option Nat
  tail : Option Nat
  nTasks : Int
  free : Option Nat
  nFree : Int

/-- The tasks a processor is about to give to a shared free list: the variables `top`, `p` and `i`
of `free_task`. -/
structure Batch where
  top : Nat
  p : Nat
  i : Int

/-- The memory: the field `next` of the task objects, which are numbered, the queues, and for every
processor its local free list, the tasks it has got from `get_task` and from `dequeue_task`, and
the tasks it is about to give back. -/
structure State (P : Type) where
  next : Nat → Option Nat
  queue : Nat → TaskQueue
  localFreeTask : P → Option Nat
  nLocalFreeTask : P → Int
  fresh : P → List Nat
  taken : P → List Nat
  batch : P → Option Batch

inductive Mode where
  | append
  | insert
  deriving DecidableEq

def nAllocateLocalTask : Nat := 8

variable {P : Type} [DecidableEq P]

/-- `a->next = o` -/
def State.setNext (s : State P) (a : Nat) (o : Option Nat) : State P :=
  { s with next := Function.update s.next a o }

def State.setQueue (s : State P) (qid : Nat) (tq : TaskQueue) : State P :=
  { s with queue := Function.update s.queue qid tq }

/-- The local free list of a processor and its counter are set. -/
def State.setLocal (s : State P) (processId : P) (o : Option Nat) (n : Int) : State P :=
  { s with
    localFreeTask := Function.update s.localFreeTask processId o
    nLocalFreeTask := Function.update s.nLocalFreeTask processId n }

def State.setFresh (s : State P) (processId : P) (l : List Nat) : State P :=
  { s with fresh := Function.update s.fresh processId l }

def State.setTaken (s : State P) (processId : P) (l : List Nat) : State P :=
  { s with taken := Function.update s.taken processId l }

def State.setBatch (s : State P) (processId : P) (b : Option Batch) : State P :=
  { s with batch := Function.update s.batch processId b }

/-- The body of `enqueue_task`. -/
def func5 (s : State P) (qid task : Nat) (mode : Mode) : State P :=
  let tq := s.queue qid
  match tq.tail, mode with
  | none, _ => s.setQueue qid { tq with tail := some task, top := some task, nTasks := 1 }
  | some tail, .append =>
      (s.setNext tail (some task)).setQueue qid
        { tq with tail := some task, nTasks := tq.nTasks + 1 }
  | some _, .insert =>
      (s.setNext task tq.top).setQueue qid
        { tq with top := some task, nTasks := tq.nTasks + 1 }

/-- The loop that looks for the last task of a queue, and the one before it, in at most `n`
rounds. -/
def findTail (next : Nat → Option Nat) (n : Nat) (prev : Option Nat) (t : Nat) :
    Option (Option Nat × Nat) :=
  match next t, n with
  | none, _ => some (prev, t)
  | some _, 0 => none
  | some t', n + 1 => findTail next n (some t) t'

/-- The body of `dequeue_task`: from the top of the queue of the processor itself, or from the
tail of another. -/
def func6 (maxTasks : Nat) (s : State P) (qid : Nat) (own : Bool) :
    Option (State P × Option Nat) :=
  let tq := s.queue qid
  match tq.top with
  | none => some (s, none)
  | some top =>
      if own then
        let tail := if s.next top = none then none else tq.tail
        some (s.setQueue qid { tq with top := s.next top, tail := tail, nTasks := tq.nTasks - 1 },
          some top)
      else do
        let (prev, t) ← findTail s.next maxTasks none top
        match prev with
        | none =>
            return (s.setQueue qid { tq with top := none, tail := none, nTasks := tq.nTasks - 1 },
              some t)
        | some prev =>
            return ((s.setNext prev none).setQueue qid
              { tq with tail := some prev, nTasks := tq.nTasks - 1 }, some t)

/-- The loop along a free list, for `n` rounds at most: the number of the tasks and the last. -/
def scanFree (next : Nat → Option Nat) : Nat → Int → Nat → Int × Nat
  | 0, i, p => (i, p)
  | n + 1, i, p =>
      match next p with
      | none => (i, p)
      | some p' => scanFree next n (i + 1) p'

/-- The body of `get_task`: some tasks of a shared free list become the local free list. -/
def func7 (s : State P) (qid : Nat) (processId : P) : State P :=
  let tq := s.queue qid
  match tq.free with
  | none => s
  | some free =>
      let (i, p) := scanFree s.next (nAllocateLocalTask - 1) 1 free
      ((s.setLocal processId (some free) i).setQueue qid
        { tq with free := s.next p, nFree := tq.nFree - i }).setNext p none

/-- The end of `get_task`: a task is taken from the local free list. -/
def getTask (s : State P) (processId : P) : Option (State P × Nat) := do
  let p ← s.localFreeTask processId
  return ((s.setLocal processId (s.next p) (s.nLocalFreeTask processId - 1)).setNext p none, p)

/-- The loop `p = p->next`. -/
def skip (next : Nat → Option Nat) : Nat → Nat → Option Nat
  | 0, p => some p
  | n + 1, p => do
      let p ← next p
      skip next n p

/-- The beginning of `free_task`: the task is put on the local free list, and if this is too long
then its first tasks are cut off. -/
def freeTask (s : State P) (processId : P) (task : Nat) : Option (State P × Option Batch) := do
  let n := s.nLocalFreeTask processId + 1
  let s := (s.setNext task (s.localFreeTask processId)).setLocal processId (some task) n
  if n ≥ (nAllocateLocalTask : Int) * 2 then
    let p ← skip s.next (nAllocateLocalTask - 1) task
    return (s.setLocal processId (s.next p) (n - nAllocateLocalTask),
      some ⟨task, p, nAllocateLocalTask⟩)
  else
    return (s, none)

/-- The body of `free_task`: the tasks cut off are put on a shared free list. -/
def func8 (s : State P) (qid : Nat) (b : Batch) : State P :=
  let tq := s.queue qid
  (s.setNext b.p tq.free).setQueue qid { tq with free := some b.top, nFree := tq.nFree + b.i }

/-- The loop of `init_taskq` that links the `n` objects from `first` on. -/
def linkTasks (next : Nat → Option Nat) (first n : Nat) : Nat → Option Nat :=
  let next := (List.range (n - 1)).foldl
    (fun next i => Function.update next (first + i) (some (first + i + 1))) next
  Function.update next (first + (n - 1)) none

def taskPerQueue (maxTasks nTaskqueues : Nat) : Nat := (maxTasks + nTaskqueues - 1) / nTaskqueues

/-- The round of `init_taskq` for one queue, which gets the objects from `taskIndex` on. -/
def initQueue (maxTasks nTaskqueues : Nat) (s : State P) (taskIndex qid : Nat) : State P × Nat :=
  let perQueue := taskPerQueue maxTasks nTaskqueues
  let nTasks := if taskIndex + perQueue > maxTasks then maxTasks - taskIndex else perQueue
  let s := { s with next := linkTasks s.next taskIndex nTasks }
  (s.setQueue qid ⟨none, none, 0, some taskIndex, nTasks⟩, taskIndex + nTasks)

/-- The objects are dealt to the queues. -/
def initTaskq (maxTasks nTaskqueues : Nat) (s : State P) (processId : P) : State P :=
  let (s, _) := (List.range nTaskqueues).foldl
    (fun (s, taskIndex) qid => initQueue maxTasks nTaskqueues s taskIndex qid) (s, 0)
  s.setLocal processId none 0

/-! ### The processors -/

/-- A step: of the server for a processor, or of a processor on its local free list. -/
inductive Act (P : Type) where
  | func5 (p : P) (qid task : Nat) (mode : Mode)
  | func6 (p : P) (qid : Nat)
  | func7 (p : P) (qid : Nat)
  | getTask (p : P)
  | freeTask (p : P) (task : Nat)
  | func8 (p : P)

section Exec

variable (maxTasks : Nat) (taskqueueId : P → Nat)

/-- What a step does to the memory and to the tasks in the hands of the processors. -/
def exec (s : State P) : Act P → Option (State P)
  | .func5 p qid task mode => some ((func5 s qid task mode).setFresh p ((s.fresh p).erase task))
  | .func6 p qid => do
      let (s', t) ← func6 maxTasks s qid (qid = taskqueueId p)
      return s'.setTaken p (t.toList ++ s.taken p)
  | .func7 p qid => some (func7 s qid p)
  | .getTask p => do
      let (s', t) ← getTask s p
      return s'.setFresh p (t :: s.fresh p)
  | .freeTask p task => do
      let (s', b) ← freeTask s p task
      return (s'.setTaken p ((s.taken p).erase task)).setBatch p b
  | .func8 p => do
      let b ← s.batch p
      return (func8 s (taskqueueId p) b).setBatch p none

/-- What the processors do: a task is enqueued that has come from `get_task`, and one is freed that
has come from `dequeue_task`; `func7` is asked for when the local free list is empty, and a task is
taken from this when it is not; and while tasks are given back with `func8` nothing else is done. -/
def Allowed (nTaskqueues : Nat) (s : State P) : Act P → Prop
  | .func5 p qid task _ => s.batch p = none ∧ qid < nTaskqueues ∧ task ∈ s.fresh p
  | .func6 p qid => s.batch p = none ∧ qid < nTaskqueues
  | .func7 p qid => s.batch p = none ∧ qid < nTaskqueues ∧ s.localFreeTask p = none
  | .getTask p => s.batch p = none ∧ s.localFreeTask p ≠ none
  | .freeTask p task => s.batch p = none ∧ task ∈ s.taken p
  | .func8 p => s.batch p ≠ none

end Exec

/-! ### The places of the objects -/

/-- The places of a task object: a task queue, a shared or a local free list, or the hands of a
processor that has got it from `get_task` or from `dequeue_task` or is about to give it back. -/
inductive Place (P : Type) where
  | queued (q : Nat)
  | freed (q : Nat)
  | loc (p : P)
  | fresh (p : P)
  | taken (p : P)
  | batch (p : P)
  deriving DecidableEq

def Place.Valid (nTaskqueues : Nat) : Place P → Prop
  | .queued q => q < nTaskqueues
  | .freed q => q < nTaskqueues
  | _ => True

/-- The tasks of a place are those of the list. -/
def State.Holds (s : State P) : Place P → List Nat → Prop
  | .queued q, l =>
      Chain s.next (s.queue q).top l ∧ (s.queue q).tail = l.getLast? ∧ (s.queue q).nTasks = l.length
  | .freed q, l => Chain s.next (s.queue q).free l ∧ (s.queue q).nFree = l.length
  | .loc p, l => Chain s.next (s.localFreeTask p) l ∧ s.nLocalFreeTask p = l.length
  | .fresh p, l => s.fresh p = l ∧ ∀ t ∈ l, s.next t = none
  | .taken p, l => s.taken p = l
  | .batch p, l =>
      match s.batch p with
      | none => l = []
      | some b =>
          Chain (Function.update s.next b.p none) (some b.top) l ∧ l.getLast? = some b.p ∧
            b.i = l.length

/-- Every task object is in exactly one place. -/
structure State.Consistent (maxTasks nTaskqueues : Nat) (s : State P) (L : Place P → List Nat) :
    Prop where
  placed : Placed L (· < maxTasks)
  holds : ∀ pl, pl.Valid nTaskqueues → s.Holds pl (L pl)
  invalid : ∀ pl, ¬pl.Valid nTaskqueues → L pl = []

/-- What a place has in the memory beside `next` is the same. -/
def State.Same (s s' : State P) : Place P → Prop
  | .queued q => (s'.queue q).top = (s.queue q).top ∧ (s'.queue q).tail = (s.queue q).tail ∧
      (s'.queue q).nTasks = (s.queue q).nTasks
  | .freed q => (s'.queue q).free = (s.queue q).free ∧ (s'.queue q).nFree = (s.queue q).nFree
  | .loc p => s'.localFreeTask p = s.localFreeTask p ∧ s'.nLocalFreeTask p = s.nLocalFreeTask p
  | .fresh p => s'.fresh p = s.fresh p
  | .taken p => s'.taken p = s.taken p
  | .batch p => s'.batch p = s.batch p

variable {s s' : State P} {L : Place P → List Nat} {maxTasks nTaskqueues : Nat}

section Same

variable {pl : Place P}

omit [DecidableEq P] in
theorem State.Same.refl (s : State P) (pl : Place P) :
  s.Same s pl
  := by
  cases pl <;> simp [State.Same]

omit [DecidableEq P] in
theorem State.Same.setNext {a : Nat} {o : Option Nat} (h : s.Same s' pl) :
  s.Same (s'.setNext a o) pl
  := by
  cases pl <;> exact h

omit [DecidableEq P] in
/-- The task queue changes, and the free list beside it does not. -/
theorem State.Same.setQueue
    {q : Nat} {tq : TaskQueue} (h : s.Same s' pl) (hpl : pl ≠ .queued q)
    (hfree : tq.free = (s'.queue q).free) (hn : tq.nFree = (s'.queue q).nFree) :
  s.Same (s'.setQueue q tq) pl
  := by
  cases pl with
  | queued q' =>
      have hq : q' ≠ q := by
        rintro rfl
        exact hpl rfl
      simp only [State.Same, State.setQueue, Function.update_of_ne hq]
      exact h
  | freed q' =>
      by_cases hq : q' = q
      · subst hq
        simp only [State.Same, State.setQueue, Function.update_self]
        exact ⟨hfree.trans h.1, hn.trans h.2⟩
      · simp only [State.Same, State.setQueue, Function.update_of_ne hq]
        exact h
  | loc p => exact h
  | fresh p => exact h
  | taken p => exact h
  | batch p => exact h

omit [DecidableEq P] in
/-- The free list changes, and the task queue beside it does not. -/
theorem State.Same.setFree
    {q : Nat} {tq : TaskQueue} (h : s.Same s' pl) (hpl : pl ≠ .freed q)
    (htop : tq.top = (s'.queue q).top) (htail : tq.tail = (s'.queue q).tail)
    (hn : tq.nTasks = (s'.queue q).nTasks) :
  s.Same (s'.setQueue q tq) pl
  := by
  cases pl with
  | queued q' =>
      by_cases hq : q' = q
      · subst hq
        simp only [State.Same, State.setQueue, Function.update_self]
        exact ⟨htop.trans h.1, htail.trans h.2.1, hn.trans h.2.2⟩
      · simp only [State.Same, State.setQueue, Function.update_of_ne hq]
        exact h
  | freed q' =>
      have hq : q' ≠ q := by
        rintro rfl
        exact hpl rfl
      simp only [State.Same, State.setQueue, Function.update_of_ne hq]
      exact h
  | loc p => exact h
  | fresh p => exact h
  | taken p => exact h
  | batch p => exact h

theorem State.Same.setLocal
    {p : P} {o : Option Nat} {n : Int} (h : s.Same s' pl) (hpl : pl ≠ .loc p) :
  s.Same (s'.setLocal p o n) pl
  := by
  cases pl with
  | loc p' =>
      have hp : p' ≠ p := by
        rintro rfl
        exact hpl rfl
      simp only [State.Same, State.setLocal, Function.update_of_ne hp]
      exact h
  | _ => exact h

theorem State.Same.setFresh {p : P} {l : List Nat} (h : s.Same s' pl) (hpl : pl ≠ .fresh p) :
  s.Same (s'.setFresh p l) pl
  := by
  cases pl with
  | fresh p' =>
      have hp : p' ≠ p := by
        rintro rfl
        exact hpl rfl
      simp only [State.Same, State.setFresh, Function.update_of_ne hp]
      exact h
  | _ => exact h

theorem State.Same.setTaken {p : P} {l : List Nat} (h : s.Same s' pl) (hpl : pl ≠ .taken p) :
  s.Same (s'.setTaken p l) pl
  := by
  cases pl with
  | taken p' =>
      have hp : p' ≠ p := by
        rintro rfl
        exact hpl rfl
      simp only [State.Same, State.setTaken, Function.update_of_ne hp]
      exact h
  | _ => exact h

theorem State.Same.setBatch {p : P} {b : Option Batch} (h : s.Same s' pl) (hpl : pl ≠ .batch p) :
  s.Same (s'.setBatch p b) pl
  := by
  cases pl with
  | batch p' =>
      have hp : p' ≠ p := by
        rintro rfl
        exact hpl rfl
      simp only [State.Same, State.setBatch, Function.update_of_ne hp]
      exact h
  | _ => exact h

end Same

omit [DecidableEq P] in
theorem State.Holds.frame
    {pl : Place P} {l : List Nat} (h : s.Holds pl l) (hsame : s.Same s' pl)
    (hnext : ∀ a ∈ l, s'.next a = s.next a) :
  s'.Holds pl l
  := by
  cases pl with
  | queued q =>
      obtain ⟨htop, htail, hn⟩ := hsame
      obtain ⟨hchain, hlast, hlength⟩ := h
      refine ⟨?_, htail.trans hlast, hn.trans hlength⟩
      rw [htop]
      exact hchain.congr hnext
  | freed q =>
      obtain ⟨hfree, hn⟩ := hsame
      obtain ⟨hchain, hlength⟩ := h
      refine ⟨?_, hn.trans hlength⟩
      rw [hfree]
      exact hchain.congr hnext
  | loc p =>
      obtain ⟨hlocal, hn⟩ := hsame
      obtain ⟨hchain, hlength⟩ := h
      refine ⟨?_, hn.trans hlength⟩
      rw [hlocal]
      exact hchain.congr hnext
  | fresh p =>
      obtain ⟨hfresh, hnone⟩ := h
      refine ⟨Eq.trans hsame hfresh, ?_⟩
      intro t ht
      rw [hnext t ht]
      exact hnone t ht
  | taken p => exact Eq.trans hsame h
  | batch p =>
      have hsame : s'.batch p = s.batch p := hsame
      simp only [State.Holds, hsame] at h ⊢
      cases hbatch : s.batch p with
      | none =>
          rw [hbatch] at h
          exact h
      | some b =>
          rw [hbatch] at h
          obtain ⟨hchain, hlast, hlength⟩ := h
          refine ⟨hchain.congr ?_, hlast, hlength⟩
          intro a ha
          by_cases hab : a = b.p
          · rw [hab, Function.update_self, Function.update_self]
          · rw [Function.update_of_ne hab, Function.update_of_ne hab]
            exact hnext a ha

/-- A step that moves tasks from the place `A` to the place `B`. -/
theorem State.Consistent.move
    (h : s.Consistent maxTasks nTaskqueues L) (A B : Place P) (moved rest new : List Nat)
    (hne : A ≠ B) (hA : (L A).Perm (moved ++ rest)) (hB : new.Perm (moved ++ L B))
    (hvalidA : A.Valid nTaskqueues) (hvalidB : B.Valid nTaskqueues) (hholdsA : s'.Holds A rest)
    (hholdsB : s'.Holds B new) (hsame : ∀ pl, pl ≠ A → pl ≠ B → s.Same s' pl)
    (hnext : ∀ a, a ∉ L A → a ∉ L B → s'.next a = s.next a) :
  s'.Consistent maxTasks nTaskqueues (Function.update (Function.update L A rest) B new)
  := by
  refine ⟨h.placed.move hne hA hB, ?_, ?_⟩
  · intro pl hpl
    by_cases hplB : pl = B
    · subst hplB
      rw [Function.update_self]
      exact hholdsB
    · rw [Function.update_of_ne hplB]
      by_cases hplA : pl = A
      · subst hplA
        rw [Function.update_self]
        exact hholdsA
      · rw [Function.update_of_ne hplA]
        apply (h.holds pl hpl).frame (hsame pl hplA hplB)
        intro a ha
        exact hnext a (h.placed.notMem ha hplA) (h.placed.notMem ha hplB)
  · intro pl hpl
    rw [Function.update_of_ne, Function.update_of_ne]
    · exact h.invalid pl hpl
    · rintro rfl
      exact hpl hvalidA
    · rintro rfl
      exact hpl hvalidB

omit [DecidableEq P] in
theorem State.Consistent.length_le (h : s.Consistent maxTasks nTaskqueues L) (pl : Place P) :
  (L pl).length ≤ maxTasks
  := by
  have hsub : L pl ⊆ List.range maxTasks := by
    intro a ha
    exact List.mem_range.mpr ((h.placed.mem_iff a).mpr ⟨pl, ha⟩)
  have := ((h.placed.nodup pl).subperm hsub).length_le
  rwa [List.length_range] at this

/-! ### The steps -/

/-- What `enqueue_task` does to the list of the tasks of a queue. -/
def Mode.enqueue {α : Type} (mode : Mode) (task : α) (l : List α) : List α :=
  match mode with
  | .append => l ++ [task]
  | .insert => task :: l

/-- What `dequeue_task` does to the list of the tasks of a queue, and the task it takes. -/
def dequeue {α : Type} (own : Bool) (l : List α) : List α × Option α :=
  if own then (l.tail, l.head?) else (l.dropLast, l.getLast?)

section Steps

variable {p : P} {qid task : Nat} (h : s.Consistent maxTasks nTaskqueues L)
include h

/-- A fresh task goes into a queue. -/
theorem State.Consistent.put
    {new : List Nat} (hqid : qid < nTaskqueues) (htask : task ∈ s.fresh p)
    (hperm : new.Perm ([task] ++ L (.queued qid))) (hholds : s'.Holds (.queued qid) new)
    (hsame : ∀ pl, pl ≠ .queued qid → s.Same s' pl)
    (hnext : ∀ a, a ≠ task → a ∉ L (.queued qid) → s'.next a = s.next a) :
  ∃ L', (s'.setFresh p ((s.fresh p).erase task)).Consistent maxTasks nTaskqueues L' ∧
    L' (.queued qid) = new ∧ ∀ pl, pl ≠ .queued qid → pl ≠ .fresh p → L' pl = L pl
  := by
  obtain ⟨hfresh, hnone⟩ := h.holds (.fresh p) trivial
  rw [hfresh] at htask ⊢
  refine ⟨_, h.move (.fresh p) (.queued qid) [task] ((L (.fresh p)).erase task) new (by simp)
    (List.perm_cons_erase htask) hperm trivial hqid ?_ hholds ?_ ?_, Function.update_self _ _ _, ?_⟩
  · refine ⟨Function.update_self _ _ _, ?_⟩
    intro t ht
    have hmem := List.mem_of_mem_erase ht
    have hne : t ≠ task := ((h.placed.nodup (.fresh p)).mem_erase_iff.mp ht).1
    exact (hnext t hne (h.placed.notMem hmem (by simp))).trans (hnone t hmem)
  · exact fun pl hA hB => (hsame pl hB).setFresh hA
  · intro a ha hnot
    apply hnext a _ hnot
    rintro rfl
    exact ha htask
  · intro pl hB hA
    rw [Function.update_of_ne hB, Function.update_of_ne hA]

/-- A task is put into a task queue. -/
theorem State.Consistent.func5 (mode : Mode) (hqid : qid < nTaskqueues) (htask : task ∈ s.fresh p) :
  ∃ L', ((func5 s qid task mode).setFresh p ((s.fresh p).erase task)).Consistent maxTasks
      nTaskqueues L' ∧
    L' (.queued qid) = mode.enqueue task (L (.queued qid)) ∧
    ∀ pl, pl ≠ .queued qid → pl ≠ .fresh p → L' pl = L pl
  := by
  obtain ⟨hfresh, hnone⟩ := h.holds (.fresh p) trivial
  obtain ⟨hchain, htail, hn⟩ := h.holds (.queued qid) hqid
  have hmem : task ∈ L (.fresh p) := hfresh ▸ htask
  have hnotMem : task ∉ L (.queued qid) := h.placed.notMem hmem (by simp)
  apply h.put hqid htask
  · cases mode with
    | append => exact List.perm_append_comm
    | insert => exact List.Perm.refl _
  · cases hlast : (s.queue qid).tail with
    | none =>
        rw [hlast, eq_comm, List.getLast?_eq_none_iff] at htail
        have hnew : mode.enqueue task (L (.queued qid)) = [task] := by
          rw [htail]
          cases mode <;> rfl
        simp only [Radiosity.func5, hlast, hnew, State.Holds, State.setQueue, Function.update_self]
        exact ⟨⟨rfl, hnone task hmem⟩, rfl, rfl⟩
    | some tail =>
        rw [hlast] at htail
        obtain ⟨l, hl⟩ := List.getLast?_eq_some_iff.mp htail.symm
        cases mode with
        | append =>
            simp only [Radiosity.func5, hlast, Mode.enqueue, State.Holds, State.setQueue,
              State.setNext, Function.update_self]
            refine ⟨?_, ?_, ?_⟩
            · rw [hl] at hchain hnotMem ⊢
              have hself : Function.update s.next task none = s.next :=
                Function.update_eq_self_iff.mpr (hnone task hmem).symm
              have happend := hchain.append hnotMem
              rw [hself] at happend
              exact happend
            · simp
            · rw [hn]
              simp
        | insert =>
            simp only [Radiosity.func5, hlast, Mode.enqueue, State.Holds, State.setQueue,
              State.setNext, Function.update_self]
            refine ⟨hchain.cons hnotMem, ?_, ?_⟩
            · rw [hl]
              simp [List.getLast?_cons]
            · rw [hn]
              simp
  · intro pl hpl
    simp only [Radiosity.func5]
    split
    · exact (State.Same.refl s pl).setQueue hpl rfl rfl
    · exact (State.Same.refl s pl).setNext.setQueue hpl rfl rfl
    · exact (State.Same.refl s pl).setNext.setQueue hpl rfl rfl
  · intro a ha hnot
    simp only [Radiosity.func5]
    cases hlast : (s.queue qid).tail with
    | none => rfl
    | some tail =>
        cases mode with
        | append =>
            apply Function.update_of_ne
            rintro rfl
            apply hnot
            rw [hlast] at htail
            exact List.mem_of_getLast? htail.symm
        | insert => exact Function.update_of_ne ha _ _

omit h in
/-- The loop finds the last task of a chain. -/
theorem findTail_eq
    {next : Nat → Option Nat} {l : List Nat} {t u : Nat} {n : Nat} (prev : Option Nat)
    (hchain : Chain next (some t) (l ++ [u])) (hn : l.length ≤ n) :
  findTail next n prev t = some (l.getLast?.or prev, u)
  := by
  induction l generalizing t n prev with
  | nil =>
      obtain ⟨⟨rfl⟩, hend⟩ := hchain
      have hend : next u = none := hend
      unfold findTail
      rw [hend]
      rfl
  | cons a l ih =>
      obtain ⟨⟨rfl⟩, hrest⟩ := hchain
      obtain ⟨n, rfl⟩ : ∃ n', n = n' + 1 := ⟨n - 1, by simp at hn; omega⟩
      have hnext : ∃ t', next a = some t' := by
        cases l with
        | nil => exact ⟨_, hrest.1⟩
        | cons b l => exact ⟨_, hrest.1⟩
      obtain ⟨t', ht'⟩ := hnext
      rw [ht'] at hrest
      unfold findTail
      rw [ht']
      simp only
      rw [ih (some a) hrest (Nat.le_of_succ_le_succ hn)]
      cases l <;> simp [List.getLast?_cons]

/-- A task goes from a queue into the hands of a processor. -/
theorem State.Consistent.take
    {t : Nat} {l : List Nat} (hqid : qid < nTaskqueues) (hperm : (L (.queued qid)).Perm ([t] ++ l))
    (hholds : s'.Holds (.queued qid) l) (hsame : ∀ pl, pl ≠ .queued qid → s.Same s' pl)
    (hnext : ∀ a, a ∉ L (.queued qid) → s'.next a = s.next a) :
  ∃ L', (s'.setTaken p (t :: s.taken p)).Consistent maxTasks nTaskqueues L' ∧
    L' (.queued qid) = l ∧ ∀ pl, pl ≠ .queued qid → pl ≠ .taken p → L' pl = L pl
  := by
  have htaken : s.taken p = L (.taken p) := h.holds (.taken p) trivial
  refine ⟨_, h.move (.queued qid) (.taken p) [t] l (t :: s.taken p) (by simp) hperm ?_ hqid trivial
    hholds ?_ ?_ ?_, ?_, ?_⟩
  · rw [htaken]
    exact List.Perm.refl _
  · exact Function.update_self _ _ _
  · exact fun pl hA hB => (hsame pl hA).setTaken hB
  · exact fun a ha _ => hnext a ha
  · rw [Function.update_of_ne (by simp), Function.update_self]
  · intro pl hA hB
    rw [Function.update_of_ne hB, Function.update_of_ne hA]

/-- The first task is taken from a queue. -/
theorem State.Consistent.func6_own {top : Nat} (hqid : qid < nTaskqueues)
    (htop : (s.queue qid).top = some top) :
  ∃ s' L', func6 maxTasks s qid true = some (s', some top) ∧
    (s'.setTaken p (top :: s.taken p)).Consistent maxTasks nTaskqueues L' ∧
    (L' (.queued qid), some top) = dequeue true (L (.queued qid)) ∧
    ∀ pl, pl ≠ .queued qid → pl ≠ .taken p → L' pl = L pl
  := by
  obtain ⟨hchain, htail, hn⟩ := h.holds (.queued qid) hqid
  rw [htop] at hchain
  obtain ⟨l, hl⟩ := hchain.exists_cons
  rw [hl] at hchain htail hn
  obtain ⟨s', hs'⟩ : ∃ s', s' = s.setQueue qid
      { s.queue qid with
        top := s.next top
        tail := if s.next top = none then none else (s.queue qid).tail
        nTasks := (s.queue qid).nTasks - 1 } := ⟨_, rfl⟩
  have hexec : Radiosity.func6 maxTasks s qid true = some (s', some top) := by
    rw [Radiosity.func6, htop, hs']
    rfl
  have htake : ∃ L', (s'.setTaken p (top :: s.taken p)).Consistent maxTasks nTaskqueues L' ∧
      L' (.queued qid) = l ∧ ∀ pl, pl ≠ .queued qid → pl ≠ .taken p → L' pl = L pl := by
    apply h.take hqid
    · rw [hl]
      exact List.Perm.refl _
    · simp only [hs', State.Holds, State.setQueue, Function.update_self]
      refine ⟨hchain.2, ?_, ?_⟩
      · rw [htail]
        cases l with
        | nil =>
            have hend : s.next top = none := hchain.2
            rw [hend]
            rfl
        | cons a l =>
            have hnext : s.next top = some a := hchain.2.1
            rw [hnext]
            simp [List.getLast?_cons]
      · rw [hn]
        simp
    · intro pl hpl
      rw [hs']
      exact (State.Same.refl s pl).setQueue hpl rfl rfl
    · intro a _
      rw [hs']
      rfl
  obtain ⟨L', hL', hqueued, hframe⟩ := htake
  refine ⟨s', L', hexec, hL', ?_, hframe⟩
  rw [hqueued, hl]
  rfl

/-- The last task is taken from a queue. -/
theorem State.Consistent.func6_other {top : Nat} (hqid : qid < nTaskqueues)
    (htop : (s.queue qid).top = some top) :
  ∃ s' t L', func6 maxTasks s qid false = some (s', some t) ∧
    (s'.setTaken p (t :: s.taken p)).Consistent maxTasks nTaskqueues L' ∧
    (L' (.queued qid), some t) = dequeue false (L (.queued qid)) ∧
    ∀ pl, pl ≠ .queued qid → pl ≠ .taken p → L' pl = L pl
  := by
  obtain ⟨hchain, htail, hn⟩ := h.holds (.queued qid) hqid
  rw [htop] at hchain
  obtain ⟨l, t, hl⟩ : ∃ l t, L (.queued qid) = l ++ [t] := by
    rcases List.eq_nil_or_concat (L (.queued qid)) with hnil | ⟨l, t, hl⟩
    · rw [hnil] at hchain
      cases hchain
    · exact ⟨l, t, by rw [hl, List.concat_eq_append]⟩
  have hlength := h.length_le (.queued qid)
  rw [hl] at hchain hn hlength
  have hfind := findTail_eq none hchain (n := maxTasks) (by simp at hlength; omega)
  rw [Option.or_none] at hfind
  have htake : ∃ s', Radiosity.func6 maxTasks s qid false = some (s', some t) ∧
      s'.Holds (.queued qid) l ∧ (∀ pl, pl ≠ .queued qid → s.Same s' pl) ∧
      ∀ a, a ∉ L (.queued qid) → s'.next a = s.next a := by
    cases hprev : l.getLast? with
    | none =>
        rw [List.getLast?_eq_none_iff] at hprev
        subst hprev
        refine ⟨s.setQueue qid
          { s.queue qid with
            top := none
            tail := none
            nTasks := (s.queue qid).nTasks - 1 }, ?_, ?_, ?_, fun a _ => rfl⟩
        · simp [Radiosity.func6, htop, hfind]
        · simp only [State.Holds, State.setQueue, Function.update_self]
          refine ⟨rfl, rfl, ?_⟩
          rw [hn]
          simp
        · exact fun pl hpl => (State.Same.refl s pl).setQueue hpl rfl rfl
    | some prev =>
        obtain ⟨l₀, hl₀⟩ := List.getLast?_eq_some_iff.mp hprev
        refine ⟨(s.setNext prev none).setQueue qid
          { s.queue qid with
            tail := some prev
            nTasks := (s.queue qid).nTasks - 1 }, ?_, ?_, ?_, ?_⟩
        · simp [Radiosity.func6, htop, hfind, hprev]
        · simp only [State.Holds, State.setQueue, State.setNext, Function.update_self]
          refine ⟨?_, hprev.symm, ?_⟩
          · rw [hl₀, List.append_assoc, List.singleton_append] at hchain
            rw [htop, hl₀]
            exact hchain.cut
          · rw [hn]
            simp
        · exact fun pl hpl => (State.Same.refl s pl).setNext.setQueue hpl rfl rfl
        · intro a ha
          apply Function.update_of_ne
          rintro rfl
          apply ha
          rw [hl, hl₀]
          simp
  obtain ⟨s', hexec, hholds, hsame, hnext⟩ := htake
  have hperm : (L (.queued qid)).Perm ([t] ++ l) := by
    rw [hl]
    exact List.perm_append_comm
  obtain ⟨L', hL', hqueued, hframe⟩ := h.take (p := p) hqid hperm hholds hsame hnext
  refine ⟨s', t, L', hexec, hL', ?_, hframe⟩
  rw [hqueued, hl]
  simp [dequeue]

/-- A task is taken from a task queue. -/
theorem State.Consistent.func6 (own : Bool) (hqid : qid < nTaskqueues) :
  ∃ s' t L', func6 maxTasks s qid own = some (s', t) ∧
    (s'.setTaken p (t.toList ++ s.taken p)).Consistent maxTasks nTaskqueues L' ∧
    (L' (.queued qid), t) = dequeue own (L (.queued qid)) ∧
    ∀ pl, pl ≠ .queued qid → pl ≠ .taken p → L' pl = L pl
  := by
  cases htop : (s.queue qid).top with
  | none =>
      refine ⟨s, none, L, ?_, ?_, ?_, fun _ _ _ => rfl⟩
      · rw [Radiosity.func6, htop]
      · have hself : s.setTaken p (none.toList ++ s.taken p) = s := by
          simp [State.setTaken]
        rw [hself]
        exact h
      · obtain ⟨hchain, -⟩ := h.holds (.queued qid) hqid
        rw [htop] at hchain
        have hempty : L (.queued qid) = [] := hchain.unique rfl
        rw [hempty]
        cases own <;> rfl
  | some top =>
      cases own with
      | true =>
          obtain ⟨s', L', hexec, hL'⟩ := h.func6_own (p := p) hqid htop
          exact ⟨s', some top, L', hexec, hL'⟩
      | false =>
          obtain ⟨s', t, L', hexec, hL'⟩ := h.func6_other (p := p) hqid htop
          exact ⟨s', some t, L', hexec, hL'⟩

omit h in
/-- The loop along a free list stops at its end, or after `n` rounds. -/
theorem scanFree_eq
    {next : Nat → Option Nat} {l : List Nat} {a n : Nat} (i : Int)
    (hchain : Chain next (some a) (a :: l)) :
  ∃ l₁ l₂ b, a :: l = l₁ ++ b :: l₂ ∧ scanFree next n i a = (i + l₁.length, b)
  := by
  induction n generalizing a l i with
  | zero => exact ⟨[], l, a, rfl, by simp [scanFree]⟩
  | succ n ih =>
      cases l with
      | nil =>
          have hend : next a = none := hchain.2
          exact ⟨[], [], a, rfl, by simp [scanFree, hend]⟩
      | cons c l =>
          have hnext : next a = some c := hchain.2.1
          obtain ⟨l₁, l₂, b, hl, hscan⟩ := ih (i + 1) ⟨rfl, hchain.2.2⟩
          refine ⟨a :: l₁, l₂, b, ?_, ?_⟩
          · rw [hl]
            rfl
          · simp only [scanFree, hnext, hscan, List.length_cons, Prod.mk.injEq, and_true]
            push_cast
            ring

/-- Tasks of a shared free list become the local free list. -/
theorem State.Consistent.func7 (hqid : qid < nTaskqueues) (hlocal : s.localFreeTask p = none) :
  ∃ L', (func7 s qid p).Consistent maxTasks nTaskqueues L' ∧
    (L (.freed qid) ≠ [] → (L' (.freed qid)).length < (L (.freed qid)).length) ∧
    ∀ pl, pl ≠ .freed qid → pl ≠ .loc p → L' pl = L pl
  := by
  obtain ⟨hchain, hn⟩ := h.holds (.freed qid) hqid
  obtain ⟨hlocal', -⟩ := h.holds (.loc p) trivial
  have hempty : L (.loc p) = [] := by
    rw [hlocal] at hlocal'
    exact hlocal'.unique rfl
  cases hfree : (s.queue qid).free with
  | none =>
      rw [hfree] at hchain
      refine ⟨L, ?_, fun hne => absurd (hchain.none_iff.mp rfl) hne, fun _ _ _ => rfl⟩
      rw [Radiosity.func7, hfree]
      exact h
  | some free =>
      rw [hfree] at hchain
      obtain ⟨l, hl⟩ := hchain.exists_cons
      rw [hl] at hchain hn
      obtain ⟨l₁, l₂, b, hsplit, hscan⟩ := scanFree_eq (n := nAllocateLocalTask - 1) 1 hchain
      rw [hsplit] at hl hchain hn
      simp only [Radiosity.func7, hfree, hscan]
      have hb : b ∉ l₂ := by
        have := hchain.nodup
        rw [List.nodup_append, List.nodup_cons] at this
        exact this.2.1.1
      refine ⟨_, h.move (.freed qid) (.loc p) (l₁ ++ [b]) l₂ (l₁ ++ [b])
        (by simp) ?_ ?_ hqid trivial ?_ ?_ ?_ ?_, ?_, ?_⟩
      · rw [hl]
        simp
      · rw [hempty, List.append_nil]
      · simp only [State.Holds, State.setQueue, State.setNext, State.setLocal,
          Function.update_self]
        refine ⟨hchain.drop.update hb none, ?_⟩
        rw [hn]
        simp
        ring
      · simp only [State.Holds, State.setQueue, State.setNext, State.setLocal,
          Function.update_self]
        refine ⟨hchain.cut, ?_⟩
        simp
        ring
      · intro pl hA hB
        refine (((State.Same.refl s pl).setLocal hB).setFree hA ?_ ?_ ?_).setNext
        · rfl
        · rfl
        · rfl
      · intro a ha _
        apply Function.update_of_ne
        rintro rfl
        apply ha
        rw [hl]
        simp
      · intro _
        rw [Function.update_of_ne (by simp), Function.update_self, hl]
        simp
        omega
      · intro pl hA hB
        rw [Function.update_of_ne hB, Function.update_of_ne hA]

/-- A task is taken from the local free list. -/
theorem State.Consistent.getTask (hlocal : s.localFreeTask p ≠ none) :
  ∃ s' t L', getTask s p = some (s', t) ∧
    (s'.setFresh p (t :: s.fresh p)).Consistent maxTasks nTaskqueues L' ∧
    L (.loc p) = t :: L' (.loc p) ∧ ∀ pl, pl ≠ .loc p → pl ≠ .fresh p → L' pl = L pl
  := by
  obtain ⟨hfresh, hnone⟩ := h.holds (.fresh p) trivial
  obtain ⟨hchain, hn⟩ := h.holds (.loc p) trivial
  obtain ⟨t, ht⟩ := Option.ne_none_iff_exists'.mp hlocal
  rw [ht] at hchain
  obtain ⟨l, hl⟩ := hchain.exists_cons
  have hnodup := h.placed.nodup (.loc p)
  rw [hl] at hchain hn hnodup
  obtain ⟨htl, -⟩ := List.nodup_cons.mp hnodup
  have hexec : Radiosity.getTask s p = some
      ((s.setLocal p (s.next t) (s.nLocalFreeTask p - 1)).setNext t none, t) := by
    rw [Radiosity.getTask, ht]
    rfl
  refine ⟨_, _, _, hexec, h.move (.loc p) (.fresh p) [t] l (t :: s.fresh p)
    (by simp) ?_ ?_ trivial trivial ?_ ?_ ?_ ?_, ?_, ?_⟩
  · rw [hl]
    rfl
  · rw [hfresh]
    rfl
  · simp only [State.Holds, State.setNext, State.setLocal, State.setFresh, Function.update_self]
    refine ⟨hchain.2.update htl none, ?_⟩
    rw [hn]
    simp
  · refine ⟨Function.update_self _ _ _, ?_⟩
    intro u hu
    simp only [State.setNext, State.setLocal, State.setFresh]
    by_cases hut : u = t
    · rw [hut, Function.update_self]
    · rw [Function.update_of_ne hut]
      rw [hfresh] at hu
      exact hnone u ((List.mem_cons.mp hu).resolve_left hut)
  · intro pl hA hB
    exact ((State.Same.refl s pl).setLocal hA).setNext.setFresh hB
  · intro a ha _
    apply Function.update_of_ne
    rintro rfl
    apply ha
    rw [hl]
    exact List.mem_cons_self
  · rw [Function.update_of_ne (by simp), Function.update_self, hl]
  · intro pl hA hB
    rw [Function.update_of_ne hB, Function.update_of_ne hA]

omit h in
theorem skip_eq
    {next : Nat → Option Nat} {l : List Nat} {a n : Nat} (hchain : Chain next (some a) (a :: l))
    (hn : n ≤ l.length) :
  ∃ l₁ l₂ b, a :: l = l₁ ++ b :: l₂ ∧ l₁.length = n ∧ skip next n a = some b
  := by
  induction n generalizing a l with
  | zero => exact ⟨[], l, a, rfl, rfl, rfl⟩
  | succ n ih =>
      cases l with
      | nil => simp at hn
      | cons c l =>
          have hnext : next a = some c := hchain.2.1
          obtain ⟨l₁, l₂, b, hl, hlength, hskip⟩ :=
            ih ⟨rfl, hchain.2.2⟩ (Nat.le_of_succ_le_succ hn)
          refine ⟨a :: l₁, l₂, b, ?_, ?_, ?_⟩
          · rw [hl]
            rfl
          · rw [List.length_cons, hlength]
          · rw [skip, hnext]
            exact hskip

/-- A task is put on the local free list. -/
theorem State.Consistent.push (htask : task ∈ s.taken p) :
  ∃ L', (((s.setNext task (s.localFreeTask p)).setLocal p (some task)
      (s.nLocalFreeTask p + 1)).setTaken p ((s.taken p).erase task)).Consistent maxTasks
      nTaskqueues L'
  := by
  have htaken : s.taken p = L (.taken p) := h.holds (.taken p) trivial
  obtain ⟨hchain, hn⟩ := h.holds (.loc p) trivial
  rw [htaken] at htask ⊢
  refine ⟨_, h.move (.taken p) (.loc p) [task] ((L (.taken p)).erase task) (task :: L (.loc p))
    (by simp)
    (List.perm_cons_erase htask) (List.Perm.refl _) trivial trivial ?_ ?_ ?_ ?_⟩
  · exact Function.update_self _ _ _
  · simp only [State.Holds, State.setNext, State.setLocal, State.setTaken, Function.update_self]
    refine ⟨hchain.cons (h.placed.notMem htask (by simp)), ?_⟩
    rw [hn]
    simp
  · intro pl hA hB
    exact ((State.Same.refl s pl).setNext.setLocal hB).setTaken hA
  · intro a ha _
    apply Function.update_of_ne
    rintro rfl
    exact ha htask

/-- The first tasks of the local free list are cut off. -/
theorem State.Consistent.export
    {top : Nat} (hbatch : s.batch p = none) (hlocal : s.localFreeTask p = some top)
    (hn : s.nLocalFreeTask p ≥ (nAllocateLocalTask : Int) * 2) :
  ∃ b L', skip s.next (nAllocateLocalTask - 1) top = some b ∧
    ((s.setLocal p (s.next b) (s.nLocalFreeTask p - nAllocateLocalTask)).setBatch p
      (some ⟨top, b, nAllocateLocalTask⟩)).Consistent maxTasks nTaskqueues L'
  := by
  obtain ⟨hchain, hlength⟩ := h.holds (.loc p) trivial
  have hempty : L (.batch p) = [] := by
    have := h.holds (.batch p) trivial
    simp only [State.Holds, hbatch] at this
    exact this
  rw [hlocal] at hchain
  obtain ⟨l, hl⟩ := hchain.exists_cons
  rw [hl] at hchain hlength
  obtain ⟨l₁, l₂, b, hsplit, hl₁, hskip⟩ := skip_eq (n := nAllocateLocalTask - 1) hchain (by
    rw [hlength] at hn
    simp only [nAllocateLocalTask, List.length_cons] at hn ⊢
    omega)
  rw [hsplit] at hl hchain hlength
  refine ⟨b, _, hskip, h.move (.loc p) (.batch p) (l₁ ++ [b]) l₂ (l₁ ++ [b])
    (by simp) ?_ ?_ trivial trivial ?_ ?_ ?_ ?_⟩
  · rw [hl]
    simp
  · rw [hempty, List.append_nil]
  · simp only [State.Holds, State.setLocal, State.setBatch, Function.update_self]
    refine ⟨hchain.drop, ?_⟩
    rw [hlength]
    simp only [nAllocateLocalTask, List.length_append, List.length_cons] at hl₁ ⊢
    omega
  · simp only [State.Holds, State.setLocal, State.setBatch, Function.update_self]
    refine ⟨hchain.cut, by simp, ?_⟩
    simp only [nAllocateLocalTask, List.length_append, List.length_cons, List.length_nil] at hl₁ ⊢
    omega
  · intro pl hA hB
    exact ((State.Same.refl s pl).setLocal hA).setBatch hB
  · intro a _ _
    rfl

theorem State.Consistent.freeTask (hbatch : s.batch p = none) (htask : task ∈ s.taken p) :
  ∃ s' b L', freeTask s p task = some (s', b) ∧
    ((s'.setTaken p ((s.taken p).erase task)).setBatch p b).Consistent maxTasks nTaskqueues L'
  := by
  obtain ⟨L', hpush⟩ := h.push htask
  obtain ⟨s₁, hs₁⟩ : ∃ s₁, s₁ = (s.setNext task (s.localFreeTask p)).setLocal p (some task)
    (s.nLocalFreeTask p + 1) := ⟨_, rfl⟩
  have hn : s₁.nLocalFreeTask p = s.nLocalFreeTask p + 1 := by
    rw [hs₁]
    exact Function.update_self _ _ _
  have htop : s₁.localFreeTask p = some task := by
    rw [hs₁]
    exact Function.update_self _ _ _
  have hbatch₁ : s₁.batch p = none := by
    rw [hs₁]
    exact hbatch
  rw [← hs₁] at hpush
  simp only [Radiosity.freeTask, ← hs₁]
  by_cases hlong : s.nLocalFreeTask p + 1 ≥ (nAllocateLocalTask : Int) * 2
  · obtain ⟨b, L', hskip, hexport⟩ := hpush.export hbatch₁ htop (by
      rw [← hn] at hlong
      exact hlong)
    have hskip : skip s₁.next (nAllocateLocalTask - 1) task = some b := hskip
    refine ⟨s₁.setLocal p (s₁.next b) (s.nLocalFreeTask p + 1 - nAllocateLocalTask),
      some ⟨task, b, nAllocateLocalTask⟩, L', ?_, ?_⟩
    · rw [if_pos hlong, hskip]
      rfl
    · rw [← hn]
      exact hexport
  · refine ⟨s₁, none, L', ?_, ?_⟩
    · rw [if_neg hlong]
      rfl
    · have hself : (s₁.setTaken p ((s.taken p).erase task)).setBatch p none =
          s₁.setTaken p ((s.taken p).erase task) := by
        simp only [State.setBatch, State.setTaken]
        congr 1
        exact Function.update_eq_self_iff.mpr hbatch₁.symm
      rw [hself]
      exact hpush

/-- Tasks are put on a shared free list. -/
theorem State.Consistent.func8 {b : Batch} (hqid : qid < nTaskqueues) (hbatch : s.batch p = some b) :
  ∃ L', ((func8 s qid b).setBatch p none).Consistent maxTasks nTaskqueues L'
  := by
  obtain ⟨hchain, hn⟩ := h.holds (.freed qid) hqid
  have hbatch' := h.holds (.batch p) trivial
  simp only [State.Holds, hbatch] at hbatch'
  obtain ⟨hsegment, hlast, hlength⟩ := hbatch'
  obtain ⟨l₁, hl₁⟩ := List.getLast?_eq_some_iff.mp hlast
  have hmem : b.p ∈ L (.batch p) := by
    rw [hl₁]
    simp
  rw [hl₁] at hsegment
  refine ⟨_, h.move (.batch p) (.freed qid) (L (.batch p)) [] (L (.batch p) ++ L (.freed qid))
    (by simp) (by simp) (List.Perm.refl _) trivial hqid
    ?_ ?_ ?_ ?_⟩
  · simp [State.Holds, State.setBatch]
  · simp only [State.Holds, Radiosity.func8, State.setQueue, State.setNext, State.setBatch,
      Function.update_self]
    refine ⟨?_, ?_⟩
    · rw [hl₁, List.append_assoc, List.singleton_append]
      exact hsegment.join hchain (h.placed.notMem hmem (by simp))
    · rw [hn, hlength]
      simp
      ring
  · intro pl hA hB
    refine ((State.Same.refl s pl).setNext.setFree hB ?_ ?_ ?_).setBatch hA
    · rfl
    · rfl
    · rfl
  · intro a ha _
    apply Function.update_of_ne
    rintro rfl
    exact ha hmem

end Steps

/-! ### The start -/

/-- The memory before `init_taskq`. -/
def State.zero : State P where
  next _ := none
  queue _ := ⟨none, none, 0, none, 0⟩
  localFreeTask _ := none
  nLocalFreeTask _ := 0
  fresh _ := []
  taken _ := []
  batch _ := none

theorem linkTasks_apply (next : Nat → Option Nat) {first n : Nat} (hn : 1 ≤ n) (a : Nat) :
  linkTasks next first n a =
    if first ≤ a ∧ a < first + n then (if a + 1 < first + n then some (a + 1) else none)
    else next a
  := by
  have hfold : ∀ k, (List.range k).foldl
      (fun next i => Function.update next (first + i) (some (first + i + 1))) next a =
      if first ≤ a ∧ a < first + k then some (a + 1) else next a := by
    intro k
    induction k with
    | zero =>
        rw [if_neg (by omega)]
        rfl
    | succ k ih =>
        rw [List.range_succ, List.foldl_append, List.foldl_cons, List.foldl_nil]
        by_cases ha : a = first + k
        · rw [ha, Function.update_self, if_pos (by omega)]
        · rw [Function.update_of_ne ha, ih]
          split_ifs <;> first | rfl | omega
  rw [linkTasks]
  by_cases ha : a = first + (n - 1)
  · rw [ha, Function.update_self, if_pos (by omega), if_neg (by omega)]
  · rw [Function.update_of_ne ha, hfold]
    split_ifs <;> first | rfl | omega

theorem chain_range'
    {next : Nat → Option Nat} {first n : Nat} (hn : 1 ≤ n)
    (hnext : ∀ a, first ≤ a → a < first + n →
      next a = if a + 1 < first + n then some (a + 1) else none) :
  Chain next (some first) (List.range' first n)
  := by
  induction n generalizing first with
  | zero => omega
  | succ n ih =>
      rw [List.range'_succ]
      refine ⟨rfl, ?_⟩
      rw [hnext first (Nat.le_refl _) (by omega)]
      by_cases hzero : n = 0
      · subst hzero
        rw [if_neg (by omega)]
        rfl
      · rw [if_pos (by omega)]
        apply ih (by omega)
        intro a ha ha'
        rw [hnext a (by omega) (by omega), Nat.add_right_comm, Nat.add_assoc]

section Init

variable (maxTasks nTaskqueues)

/-- The number of the objects a queue gets. -/
def tasksOf (q : Nat) : Nat :=
  min (taskPerQueue maxTasks nTaskqueues) (maxTasks - q * taskPerQueue maxTasks nTaskqueues)

/-- The memory after some queues have been initialised. -/
structure State.Dealt (s : State P) (m : Nat) : Prop where
  queue : ∀ q < m, s.queue q =
    ⟨none, none, 0, some (q * taskPerQueue maxTasks nTaskqueues),
      tasksOf maxTasks nTaskqueues q⟩
  next : ∀ q < m, ∀ a, q * taskPerQueue maxTasks nTaskqueues ≤ a →
    a < q * taskPerQueue maxTasks nTaskqueues + tasksOf maxTasks nTaskqueues q →
    s.next a = if a + 1 < q * taskPerQueue maxTasks nTaskqueues + tasksOf maxTasks nTaskqueues q
      then some (a + 1) else none
  localFreeTask : ∀ p, s.localFreeTask p = none
  nLocalFreeTask : ∀ p, s.nLocalFreeTask p = 0
  fresh : ∀ p, s.fresh p = []
  taken : ∀ p, s.taken p = []
  batch : ∀ p, s.batch p = none

variable {maxTasks nTaskqueues}

omit [DecidableEq P] in
/-- One more queue is initialised. -/
theorem State.Dealt.initQueue
    {m : Nat} (h : s.Dealt maxTasks nTaskqueues m)
    (hfill : m * taskPerQueue maxTasks nTaskqueues < maxTasks)
    (hpos : 1 ≤ taskPerQueue maxTasks nTaskqueues) :
  (initQueue maxTasks nTaskqueues s (m * taskPerQueue maxTasks nTaskqueues) m).1.Dealt maxTasks
      nTaskqueues (m + 1) ∧
    (initQueue maxTasks nTaskqueues s (m * taskPerQueue maxTasks nTaskqueues) m).2 =
      min ((m + 1) * taskPerQueue maxTasks nTaskqueues) maxTasks
  := by
  have hn : (if m * taskPerQueue maxTasks nTaskqueues + taskPerQueue maxTasks nTaskqueues > maxTasks
      then maxTasks - m * taskPerQueue maxTasks nTaskqueues
      else taskPerQueue maxTasks nTaskqueues) = tasksOf maxTasks nTaskqueues m := by
    rw [tasksOf]
    split <;> omega
  have hn_pos : 1 ≤ tasksOf maxTasks nTaskqueues m := by
    rw [tasksOf]
    omega
  have hsucc : (m + 1) * taskPerQueue maxTasks nTaskqueues =
      m * taskPerQueue maxTasks nTaskqueues + taskPerQueue maxTasks nTaskqueues := by
    ring
  simp only [Radiosity.initQueue, hn]
  refine ⟨⟨?_, ?_, h.localFreeTask, h.nLocalFreeTask, h.fresh, h.taken, h.batch⟩, ?_⟩
  · intro q hq
    simp only [State.setQueue]
    by_cases hqm : q = m
    · rw [hqm, Function.update_self]
    · rw [Function.update_of_ne hqm, h.queue q (by omega)]
  · intro q hq a ha ha'
    simp only [State.setQueue]
    rw [linkTasks_apply _ hn_pos]
    by_cases hqm : q = m
    · subst hqm
      rw [if_pos ⟨ha, ha'⟩]
    · have hle : (q + 1) * taskPerQueue maxTasks nTaskqueues ≤
          m * taskPerQueue maxTasks nTaskqueues := Nat.mul_le_mul_right _ (by omega)
      have hq_succ : (q + 1) * taskPerQueue maxTasks nTaskqueues =
          q * taskPerQueue maxTasks nTaskqueues + taskPerQueue maxTasks nTaskqueues := by
        ring
      have hq_le : tasksOf maxTasks nTaskqueues q ≤ taskPerQueue maxTasks nTaskqueues :=
        Nat.min_le_left _ _
      rw [if_neg (by omega), h.next q (by omega) a ha ha']
  · rw [hsucc, tasksOf]
    omega

theorem dealt_initTaskq
    (processId : P) (hpos : 1 ≤ taskPerQueue maxTasks nTaskqueues)
    (hfill : ∀ q < nTaskqueues, q * taskPerQueue maxTasks nTaskqueues < maxTasks) :
  (initTaskq maxTasks nTaskqueues State.zero processId).Dealt maxTasks nTaskqueues nTaskqueues
  := by
  have hfold : ∀ m ≤ nTaskqueues, ∃ s : State P,
      (List.range m).foldl (fun (t : State P × Nat) qid =>
        Radiosity.initQueue maxTasks nTaskqueues t.1 t.2 qid) (State.zero, 0) =
        (s, min (m * taskPerQueue maxTasks nTaskqueues) maxTasks) ∧
      s.Dealt maxTasks nTaskqueues m := by
    intro m hm
    induction m with
    | zero =>
        refine ⟨State.zero, ?_, ⟨nofun, nofun, fun _ => rfl, fun _ => rfl, fun _ => rfl,
          fun _ => rfl, fun _ => rfl⟩⟩
        rw [Nat.zero_mul, Nat.zero_min]
        rfl
    | succ m ih =>
        obtain ⟨s, hs, hdealt⟩ := ih (by omega)
        have hlt := hfill m (by omega)
        obtain ⟨hdealt', hindex⟩ := hdealt.initQueue hlt hpos
        refine ⟨_, ?_, hdealt'⟩
        rw [List.range_succ, List.foldl_append, hs, List.foldl_cons, List.foldl_nil,
          Nat.min_eq_left (Nat.le_of_lt hlt), ← hindex]
  obtain ⟨s, hs, hdealt⟩ := hfold nTaskqueues (Nat.le_refl _)
  have hinit : initTaskq maxTasks nTaskqueues State.zero processId = s.setLocal processId none 0 := by
    have : initTaskq maxTasks nTaskqueues State.zero processId =
        ((List.range nTaskqueues).foldl (fun (t : State P × Nat) qid =>
          Radiosity.initQueue maxTasks nTaskqueues t.1 t.2 qid)
          (State.zero, 0)).1.setLocal processId none 0 := rfl
    rw [this, hs]
  rw [hinit]
  refine ⟨hdealt.queue, hdealt.next, ?_, ?_, hdealt.fresh, hdealt.taken, hdealt.batch⟩
  · intro p
    simp only [State.setLocal, Function.update_apply, hdealt.localFreeTask p, ite_self]
  · intro p
    simp only [State.setLocal, Function.update_apply, hdealt.nLocalFreeTask p, ite_self]

/-- The places of the objects at the start. -/
def startPlaces (maxTasks nTaskqueues : Nat) : Place P → List Nat
  | .freed q =>
      if q < nTaskqueues then
        List.range' (q * taskPerQueue maxTasks nTaskqueues) (tasksOf maxTasks nTaskqueues q)
      else []
  | _ => []

theorem taskPerQueue_pos (hn : 1 ≤ nTaskqueues) (hmax : 0 < maxTasks) :
  1 ≤ taskPerQueue maxTasks nTaskqueues
  := by
  rw [taskPerQueue, Nat.le_div_iff_mul_le hn]
  omega

theorem le_mul_taskPerQueue (hn : 1 ≤ nTaskqueues) :
  maxTasks ≤ nTaskqueues * taskPerQueue maxTasks nTaskqueues
  := by
  have hlt := Nat.lt_mul_div_succ (maxTasks + nTaskqueues - 1) hn
  rw [taskPerQueue]
  rw [Nat.mul_succ] at hlt
  omega

omit [DecidableEq P] in
theorem mem_startPlaces {pl : Place P} {a : Nat} :
  a ∈ startPlaces maxTasks nTaskqueues pl ↔ ∃ q < nTaskqueues, pl = .freed q ∧
    q * taskPerQueue maxTasks nTaskqueues ≤ a ∧
    a < q * taskPerQueue maxTasks nTaskqueues + tasksOf maxTasks nTaskqueues q
  := by
  cases pl with
  | freed q =>
      rw [startPlaces]
      by_cases hq : q < nTaskqueues
      · rw [if_pos hq, List.mem_range'_1]
        constructor
        · intro h
          exact ⟨q, hq, rfl, h⟩
        · rintro ⟨q', -, ⟨rfl⟩, h⟩
          exact h
      · rw [if_neg hq]
        constructor
        · nofun
        · rintro ⟨q', hq', ⟨rfl⟩, -⟩
          exact absurd hq' hq
  | _ => simp [startPlaces]

omit [DecidableEq P] in
/-- At the start every object is on one shared free list. -/
theorem placed_start
    (hn : 1 ≤ nTaskqueues)
    (hfill : ∀ q < nTaskqueues, q * taskPerQueue maxTasks nTaskqueues < maxTasks) :
  Placed (startPlaces (P := P) maxTasks nTaskqueues) (· < maxTasks)
  := by
  have hpos : 1 ≤ taskPerQueue maxTasks nTaskqueues :=
    taskPerQueue_pos hn (Nat.lt_of_le_of_lt (Nat.zero_le _) (hfill 0 hn))
  have hdiv : ∀ q a, q * taskPerQueue maxTasks nTaskqueues ≤ a →
      a < q * taskPerQueue maxTasks nTaskqueues + tasksOf maxTasks nTaskqueues q →
      a / taskPerQueue maxTasks nTaskqueues = q := by
    intro q a ha ha'
    have hle : tasksOf maxTasks nTaskqueues q ≤ taskPerQueue maxTasks nTaskqueues :=
      Nat.min_le_left _ _
    apply Nat.div_eq_of_lt_le ha
    rw [Nat.succ_mul]
    omega
  constructor
  · intro pl
    cases pl with
    | freed q =>
        rw [startPlaces]
        split
        · exact List.nodup_range'
        · exact List.nodup_nil
    | _ => exact List.nodup_nil
  · intro pl pl' a ha ha'
    rw [mem_startPlaces] at ha ha'
    obtain ⟨q, -, rfl, hle, hlt⟩ := ha
    obtain ⟨q', -, rfl, hle', hlt'⟩ := ha'
    rw [← hdiv q a hle hlt, ← hdiv q' a hle' hlt']
  · intro a
    simp only [mem_startPlaces]
    constructor
    · intro ha
      have hq : a / taskPerQueue maxTasks nTaskqueues < nTaskqueues := by
        rw [Nat.div_lt_iff_lt_mul hpos]
        exact Nat.lt_of_lt_of_le ha (le_mul_taskPerQueue hn)
      refine ⟨.freed (a / taskPerQueue maxTasks nTaskqueues), _, hq, rfl,
        Nat.div_mul_le_self _ _, ?_⟩
      have hlt := Nat.lt_mul_div_succ a hpos
      rw [Nat.mul_succ, Nat.mul_comm] at hlt
      rw [tasksOf]
      omega
    · rintro ⟨pl, q, hq, -, hle, hlt⟩
      rw [tasksOf] at hlt
      omega

theorem consistent_initTaskq
    (processId : P) (hn : 1 ≤ nTaskqueues)
    (hfill : ∀ q < nTaskqueues, q * taskPerQueue maxTasks nTaskqueues < maxTasks) :
  (initTaskq maxTasks nTaskqueues State.zero processId).Consistent maxTasks nTaskqueues
    (startPlaces maxTasks nTaskqueues)
  := by
  have hpos : 1 ≤ taskPerQueue maxTasks nTaskqueues :=
    taskPerQueue_pos hn (Nat.lt_of_le_of_lt (Nat.zero_le _) (hfill 0 hn))
  have hdealt := dealt_initTaskq processId hpos hfill
  refine ⟨placed_start hn hfill, ?_, ?_⟩
  · intro pl hpl
    cases pl with
    | queued q =>
        simp only [State.Holds, startPlaces, hdealt.queue q hpl]
        exact ⟨rfl, rfl, rfl⟩
    | freed q =>
        have hq : q < nTaskqueues := hpl
        have hfill := hfill q hq
        simp only [State.Holds, startPlaces, hdealt.queue q hq, if_pos hq, List.length_range']
        refine ⟨chain_range' ?_ (hdealt.next q hq), trivial⟩
        rw [tasksOf]
        omega
    | loc p =>
        simp only [State.Holds, startPlaces, hdealt.localFreeTask p, hdealt.nLocalFreeTask p]
        exact ⟨rfl, rfl⟩
    | fresh p => exact ⟨hdealt.fresh p, nofun⟩
    | taken p => exact hdealt.taken p
    | batch p =>
        simp only [State.Holds, startPlaces, hdealt.batch p]
  · intro pl hpl
    cases pl with
    | freed q => exact if_neg hpl
    | _ => rfl

end Init

/-! ### The runs -/

section Runs

variable (maxTasks nTaskqueues) (taskqueueId : P → Nat)

/-- A step that is allowed can be done, and every object is in one place again. -/
theorem State.Consistent.exec
    (h : s.Consistent maxTasks nTaskqueues L) (hid : ∀ p, taskqueueId p < nTaskqueues) {a : Act P}
    (ha : Allowed nTaskqueues s a) :
  ∃ s' L', exec maxTasks taskqueueId s a = some s' ∧ s'.Consistent maxTasks nTaskqueues L'
  := by
  cases a with
  | func5 p qid task mode =>
      obtain ⟨-, hqid, htask⟩ := ha
      obtain ⟨L', hL', -⟩ := h.func5 mode hqid htask
      exact ⟨_, L', rfl, hL'⟩
  | func6 p qid =>
      obtain ⟨-, hqid⟩ := ha
      obtain ⟨s', t, L', hexec, hL', -⟩ := h.func6 (p := p) (qid = taskqueueId p) hqid
      refine ⟨_, L', ?_, hL'⟩
      rw [Radiosity.exec, hexec]
      rfl
  | func7 p qid =>
      obtain ⟨-, hqid, hlocal⟩ := ha
      obtain ⟨L', hL', -⟩ := h.func7 hqid hlocal
      exact ⟨_, L', rfl, hL'⟩
  | getTask p =>
      obtain ⟨-, hlocal⟩ := ha
      obtain ⟨s', t, L', hexec, hL', -⟩ := h.getTask hlocal
      refine ⟨_, L', ?_, hL'⟩
      rw [Radiosity.exec, hexec]
      rfl
  | freeTask p task =>
      obtain ⟨hbatch, htask⟩ := ha
      obtain ⟨s', b, L', hexec, hL'⟩ := h.freeTask hbatch htask
      refine ⟨_, L', ?_, hL'⟩
      rw [Radiosity.exec, hexec]
      rfl
  | func8 p =>
      obtain ⟨b, hb⟩ := Option.ne_none_iff_exists'.mp ha
      obtain ⟨L', hL'⟩ := h.func8 (hid p) hb
      refine ⟨_, L', ?_, hL'⟩
      rw [Radiosity.exec, hb]
      rfl

/-- The runs of the processors from the start. -/
inductive Run (processId : P) : State P → Prop where
  | init : Run processId (initTaskq maxTasks nTaskqueues State.zero processId)
  | step {s s' : State P} (a : Act P) (hrun : Run processId s) (ha : Allowed nTaskqueues s a)
      (hs' : Radiosity.exec maxTasks taskqueueId s a = some s') : Run processId s'

theorem Run.consistent
    {processId : P} (hn : 1 ≤ nTaskqueues)
    (hfill : ∀ q < nTaskqueues, q * taskPerQueue maxTasks nTaskqueues < maxTasks)
    (hid : ∀ p, taskqueueId p < nTaskqueues)
    (hrun : Run maxTasks nTaskqueues taskqueueId processId s) :
  ∃ L, s.Consistent maxTasks nTaskqueues L
  := by
  induction hrun with
  | init => exact ⟨_, consistent_initTaskq processId hn hfill⟩
  | step a _ ha hs' ih =>
      obtain ⟨L, hL⟩ := ih
      obtain ⟨s'', L', hexec, hL'⟩ := hL.exec maxTasks nTaskqueues taskqueueId hid ha
      rw [hs'] at hexec
      obtain rfl := Option.some.inj hexec
      exact ⟨L', hL'⟩

/-- In every state of every run each of the task objects is in exactly one place, the queues and
the free lists are lists and their counters are the lengths of them, and whatever a processor may
do next can be done. -/
theorem tasks_conserved
    (hn : 1 ≤ nTaskqueues)
    (hfill : ∀ q < nTaskqueues, q * taskPerQueue maxTasks nTaskqueues < maxTasks)
    (hid : ∀ p, taskqueueId p < nTaskqueues) (processId : P)
    (hrun : Run maxTasks nTaskqueues taskqueueId processId s) :
  (∃ L, s.Consistent maxTasks nTaskqueues L) ∧
    (∀ q < nTaskqueues, (s.queue q).tail = none ↔ (s.queue q).top = none) ∧
    ∀ a, Allowed nTaskqueues s a → (Radiosity.exec maxTasks taskqueueId s a).isSome
  := by
  have hconsistent := hrun.consistent maxTasks nTaskqueues taskqueueId hn hfill hid
  refine ⟨hconsistent, ?_, ?_⟩
  · obtain ⟨L, hL⟩ := hconsistent
    intro q hq
    obtain ⟨hchain, htail, -⟩ := hL.holds (.queued q) hq
    rw [htail, List.getLast?_eq_none_iff]
    exact hchain.none_iff.symm
  · obtain ⟨L, hL⟩ := hconsistent
    intro a ha
    obtain ⟨s', L', hexec, -⟩ := hL.exec maxTasks nTaskqueues taskqueueId hid ha
    rw [hexec]
    rfl

end Runs

/-- Two processors with three task objects: the first gets a task and enqueues it in the queue of
the other, which takes it. -/
theorem tasks_conserved_handedOver :
  (∀ q < 2, q * taskPerQueue 3 2 < 3) ∧
    ∃ s : State (Fin 2), Run 3 2 Fin.val 0 s ∧ s.taken 1 = [0] ∧ ∃ L, s.Consistent 3 2 L
  := by
  have hfill : ∀ q < 2, q * taskPerQueue 3 2 < 3 := by decide
  have hinit : Run 3 2 Fin.val (0 : Fin 2) (initTaskq 3 2 State.zero 0) := .init
  have hrun := hinit
    |>.step (.func7 0 0) ⟨rfl, by decide, rfl⟩ rfl
    |>.step (.getTask 0) ⟨rfl, by decide⟩ rfl
    |>.step (.func5 0 1 0 .append) ⟨rfl, by decide, by decide⟩ rfl
    |>.step (.func6 1 1) ⟨rfl, by decide⟩ rfl
  exact ⟨hfill, _, hrun, rfl, (tasks_conserved 3 2 Fin.val (by decide) hfill (by decide) 0 hrun).1⟩

end Radiosity
