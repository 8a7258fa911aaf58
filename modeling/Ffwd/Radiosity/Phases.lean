import Ffwd.Lib.Counting
import Ffwd.Radiosity.TaskQueue

/-!
# Phases

The processors of the radiosity program in `process_tasks`: they take tasks from the queues,
execute them and put new ones into their own queue, and when there is nothing left they count
themselves in `pbar_count` and wait, looking at the queues again from time to time. Here a task
queue is the list of its tasks, and the server works on it by `Mode.enqueue` and `dequeue`;
`System.Represents.func5` and `System.Represents.func6` say that these are what its functions do to the
queues of pointers. A processor *attends* to the
queues if it is sure to look at all of them again, or has seen the ones empty that it has passed; as
long as a queue has a task, some processor does, so at the barrier there are no tasks.
-/

namespace Radiosity

open Placement

/-! ### Looking for a task -/

/-- The variables of the loop of `dequeue_task`. -/
structure Scan where
  qid : Int
  visitCount : Int
  sign : Int
  deriving DecidableEq

def Scan.start (qid : Int) : Scan := ⟨qid, 0, -1⟩

/-- The next queue to be visited. -/
def Scan.next (nTaskqueues : Int) (v : Scan) : Scan :=
  let visitCount := v.visitCount + 1
  let offset := if v.sign > 0 then visitCount else -visitCount
  let qid := v.qid + offset
  { qid := if qid < 0 then qid + nTaskqueues
      else if qid ≥ nTaskqueues then qid - nTaskqueues else qid
    visitCount := visitCount
    sign := -v.sign }

/-- The distance from the first queue to the one that is visited at last. -/
def zigzag (k : Nat) : Int := if k % 2 = 0 then k / 2 else -((k + 1) / 2)

theorem zigzag_succ (k : Nat) :
  zigzag (k + 1) = zigzag k + if k % 2 = 0 then -((k : Int) + 1) else (k : Int) + 1
  := by
  rw [zigzag, zigzag]
  push_cast
  split_ifs <;> omega

/-- The number of a queue is brought back into its range. -/
theorem wrap_eq_emod {n x d : Int} (hx : 0 ≤ x) (hxn : x < n) (hd : -n < d) (hdn : d < n) :
  (if x + d < 0 then x + d + n else if x + d ≥ n then x + d - n else x + d) = (x + d) % n
  := by
  split_ifs with hneg hge
  · rw [← Int.add_emod_right (a := x + d), Int.emod_eq_of_lt (by omega) (by omega)]
  · rw [← Int.sub_emod_right (a := x + d), Int.emod_eq_of_lt (by omega) (by omega)]
  · rw [Int.emod_eq_of_lt (by omega) (by omega)]

theorem iterate_next
    {n q : Int} (hq : 0 ≤ q) (hqn : q < n) {k : Nat} (hk : (k : Int) < n) :
  (Scan.next n)^[k] (Scan.start q) =
    ⟨(q + zigzag k) % n, k, if k % 2 = 0 then -1 else 1⟩
  := by
  induction k with
  | zero =>
      rw [Function.iterate_zero_apply, Scan.start, zigzag, if_pos rfl, if_pos rfl]
      simp [Int.emod_eq_of_lt hq hqn]
  | succ k ih =>
      push_cast at hk
      have hlt := Int.emod_lt_of_pos (q + zigzag k) (show 0 < n by omega)
      have hnonneg := Int.emod_nonneg (q + zigzag k) (show n ≠ 0 by omega)
      rw [Function.iterate_succ_apply', ih (by omega), Scan.next, zigzag_succ]
      by_cases heven : k % 2 = 0
      · have hodd : ¬(k + 1) % 2 = 0 := by omega
        simp only [if_pos heven, if_neg hodd, show ¬(-1 : Int) > 0 by decide, if_false]
        rw [wrap_eq_emod hnonneg hlt (by omega) (by omega), Int.emod_add_emod, Int.add_assoc]
        push_cast
        rfl
      · have hodd : (k + 1) % 2 = 0 := by omega
        simp only [if_neg heven, if_pos hodd, show (1 : Int) > 0 by decide, if_true]
        rw [wrap_eq_emod hnonneg hlt (by omega) (by omega), Int.emod_add_emod, Int.add_assoc]
        push_cast
        rfl

/-- The loop visits all queues. -/
theorem exists_iterate_next
    {n q r : Int} (hq : 0 ≤ q) (hqn : q < n) (hr : 0 ≤ r) (hrn : r < n) :
  ∃ k : Nat, (k : Int) < n ∧ ((Scan.next n)^[k] (Scan.start q)).qid = r
  := by
  have hn : 0 < n := by omega
  obtain ⟨d, hd, hdn, hdr⟩ : ∃ d : Int, 0 ≤ d ∧ d < n ∧ (q + d) % n = r := by
    refine ⟨(r - q) % n, Int.emod_nonneg _ (by omega), Int.emod_lt_of_pos _ hn, ?_⟩
    rw [Int.add_emod_emod, show q + (r - q) = r by ring, Int.emod_eq_of_lt hr hrn]
  obtain ⟨k, hk, hzig⟩ : ∃ k : Nat, (k : Int) < n ∧ (zigzag k = d ∨ zigzag k = d - n) := by
    by_cases hhalf : 2 * d < n
    · refine ⟨(2 * d).toNat, by omega, .inl ?_⟩
      rw [zigzag, if_pos (by omega)]
      omega
    · refine ⟨(2 * (n - d) - 1).toNat, by omega, .inr ?_⟩
      rw [zigzag, if_neg (by omega)]
      omega
  refine ⟨k, hk, ?_⟩
  rw [iterate_next hq hqn hk]
  show (q + zigzag k) % n = r
  rcases hzig with hzig | hzig
  · rw [hzig, hdr]
  · rw [hzig, show q + (d - n) = q + d - n by ring, Int.sub_emod_right, hdr]

/-! ### The processors -/

/-- Where a processor is: outside of `process_tasks`, in `dequeue_task`, about to read `n_tasks` or
to let the server take a task, with a task or about to take itself out of the count with one, about
to count itself, reading `pbar_count` in the loop behind or in `_process_task_wait_loop`, or at the
barrier. In `dequeue_task` the flag says that the processor is counted. -/
inductive Stage where
  | outside
  | scanning (counted : Bool) (v : Scan)
  | taking (counted : Bool) (v : Scan)
  | leaving (t : Nat)
  | running (t : Nat)
  | arriving
  | spinning
  | waiting (reads : Nat)
  | barrier
  deriving DecidableEq

/-- The queues, which are lists of tasks, the processors, and the processor that makes the tasks a
phase starts with; the tasks are numbered as they are enqueued. -/
structure System (P : Type) where
  queue : Int → List Nat
  pbarCount : Int
  stage : P → Stage
  creator : P
  created : Nat
  executed : List Nat

variable {P : Type} [DecidableEq P]

def System.start (creator : P) : System P where
  queue _ := []
  pbarCount := 0
  stage _ := .outside
  creator := creator
  created := 0
  executed := []

/-- A new task is enqueued. -/
def System.enqueue (s : System P) (qid : Int) (mode : Mode) : System P :=
  { s with
    queue := Function.update s.queue qid (mode.enqueue s.created (s.queue qid))
    created := s.created + 1 }

/-- The server takes a task from a queue. -/
def System.dequeue (s : System P) (qid : Int) (own : Bool) : System P :=
  { s with queue := Function.update s.queue qid (Radiosity.dequeue own (s.queue qid)).1 }

def System.go (s : System P) (p : P) (stage : Stage) : System P :=
  { s with stage := Function.update s.stage p stage }

/-- What follows when `dequeue_task` returns a task, or none. -/
def afterDequeue (counted : Bool) : Option Nat → Stage
  | none => if counted then .spinning else .arriving
  | some t => if counted then .leaving t else .running t

def func3 (nProcessors pbarCount : Int) : Int :=
  (if pbarCount ≥ nProcessors then 0 else pbarCount) + 1

def func4 (pbarCount : Int) : Int := pbarCount - 1

section Step

variable [Fintype P] (nTaskqueues : Int) (taskqueueId : P → Int)

/-- A step of a processor, or of the server for it, or the release of the barrier. -/
inductive System.Step (s : System P) : System P → Prop where
  | create (qid : Int) (mode : Mode) (hqid : 0 ≤ qid ∧ qid < nTaskqueues)
      (hstage : s.stage s.creator = .outside) : Step s (s.enqueue qid mode)
  | enter (p : P) (hstage : s.stage p = .outside) :
      Step s (s.go p (.scanning false (.start (taskqueueId p))))
  | visit (p : P) (counted : Bool) (v : Scan) (hstage : s.stage p = .scanning counted v)
      (hvisit : v.visitCount < nTaskqueues) :
      Step s (s.go p (if 0 < (s.queue v.qid).length then .taking counted v
        else .scanning counted (v.next nTaskqueues)))
  | giveUp (p : P) (counted : Bool) (v : Scan) (hstage : s.stage p = .scanning counted v)
      (hvisit : ¬v.visitCount < nTaskqueues) : Step s (s.go p (afterDequeue counted none))
  | func6 (p : P) (counted : Bool) (v : Scan) (hstage : s.stage p = .taking counted v) :
      Step s ((s.dequeue v.qid (v.qid = taskqueueId p)).go p
        (afterDequeue counted (Radiosity.dequeue (v.qid = taskqueueId p) (s.queue v.qid)).2))
  | func4 (p : P) (t : Nat) (hstage : s.stage p = .leaving t) :
      Step s ({ s with pbarCount := func4 s.pbarCount }.go p (.running t))
  | spawn (p : P) (t : Nat) (mode : Mode) (hstage : s.stage p = .running t) :
      Step s (s.enqueue (taskqueueId p) mode)
  | finish (p : P) (t : Nat) (hstage : s.stage p = .running t) :
      Step s ({ s with executed := s.executed ++ [t] }.go p
        (.scanning false (.start (taskqueueId p))))
  | func3 (p : P) (hstage : s.stage p = .arriving) :
      Step s ({ s with pbarCount := func3 (Fintype.card P) s.pbarCount }.go p .spinning)
  | poll (p : P) (hstage : s.stage p = .spinning) :
      Step s (s.go p (if s.pbarCount < Fintype.card P then .waiting 0 else .barrier))
  | wait (p : P) (reads : Nat) (hstage : s.stage p = .waiting reads) (hreads : reads < 4) :
      Step s (s.go p (if s.pbarCount ≥ Fintype.card P then .barrier else .waiting (reads + 1)))
  | again (p : P) (reads : Nat) (hstage : s.stage p = .waiting reads) (hreads : ¬reads < 4) :
      Step s (s.go p (.scanning true (.start (taskqueueId p))))
  | release (creator : P) (hstage : ∀ p, s.stage p = .barrier) :
      Step s { s with stage := fun _ => .outside, creator := creator }

end Step

/-! ### The tasks -/

/-- The places of a task: a queue, the hands of a processor, or among the tasks executed. -/
inductive Spot (P : Type) where
  | queue (qid : Int)
  | hand (p : P)
  | executed
  deriving DecidableEq

def Stage.tasks : Stage → List Nat
  | .leaving t => [t]
  | .running t => [t]
  | _ => []

def System.places (s : System P) : Spot P → List Nat
  | .queue qid => s.queue qid
  | .hand p => (s.stage p).tasks
  | .executed => s.executed

variable {s s' : System P}

/-- A step that leaves the tasks where they are. -/
theorem System.places_go {p : P} {stage : Stage} (htasks : stage.tasks = (s.stage p).tasks) :
  (s.go p stage).places = s.places
  := by
  funext spot
  cases spot with
  | hand p' =>
      simp only [System.places, System.go]
      by_cases hp : p' = p
      · rw [hp, Function.update_self, htasks]
      · rw [Function.update_of_ne hp]
  | _ => rfl

theorem System.places_enqueue (qid : Int) (mode : Mode) :
  (s.enqueue qid mode).places =
    Function.update s.places (.queue qid) (mode.enqueue s.created (s.queue qid))
  := by
  funext spot
  cases spot with
  | queue qid' =>
      by_cases hqid : qid' = qid
      · rw [hqid, Function.update_self]
        exact Function.update_self _ _ _
      · rw [Function.update_of_ne (by simpa using hqid)]
        exact Function.update_of_ne hqid _ _
  | _ => rw [Function.update_of_ne (by simp)]; rfl

theorem placed_enqueue (h : Placed s.places (· < s.created)) (qid : Int) (mode : Mode) :
  Placed (s.enqueue qid mode).places (· < s.created + 1)
  := by
  rw [System.places_enqueue]
  apply h.add (Nat.lt_irrefl _)
  · intro t
    omega
  · cases mode with
    | append => exact List.perm_append_comm
    | insert => exact List.Perm.refl _

/-- The server takes nothing from an empty queue, and otherwise one of its tasks. -/
theorem dequeue_cases (own : Bool) (l : List Nat) :
  (l = [] ∧ dequeue own l = ([], none)) ∨
    ∃ t rest, l.Perm ([t] ++ rest) ∧ dequeue own l = (rest, some t)
  := by
  cases own with
  | true =>
      cases l with
      | nil => exact .inl ⟨rfl, rfl⟩
      | cons t rest => exact .inr ⟨t, rest, List.Perm.refl _, rfl⟩
  | false =>
      rcases List.eq_nil_or_concat l with hnil | ⟨rest, t, hl⟩
      · rw [hnil]
        exact .inl ⟨rfl, rfl⟩
      · rw [hl, List.concat_eq_append]
        refine .inr ⟨t, rest, List.perm_append_comm, ?_⟩
        simp [dequeue]

/-- A task is moved from a queue into the hands of a processor. -/
theorem placed_take
    {p : P} {qid : Int} {t : Nat} {rest : List Nat} {stage : Stage}
    (h : Placed s.places (· < s.created)) (hp : (s.stage p).tasks = [])
    (hqueue : (s.queue qid).Perm ([t] ++ rest)) (hstage : stage.tasks = [t]) :
  Placed ({ s with queue := Function.update s.queue qid rest }.go p stage).places (· < s.created)
  := by
  have hplaces : ({ s with queue := Function.update s.queue qid rest }.go p stage).places =
      Function.update (Function.update s.places (.queue qid) rest) (.hand p) [t] := by
    funext spot
    cases spot with
    | queue qid' =>
        rw [Function.update_of_ne (by simp)]
        by_cases hqid : qid' = qid
        · rw [hqid, Function.update_self]
          exact Function.update_self _ _ _
        · rw [Function.update_of_ne (by simpa using hqid)]
          exact Function.update_of_ne hqid _ _
    | hand p' =>
        by_cases hp' : p' = p
        · rw [hp', Function.update_self]
          simpa [System.places, System.go] using hstage
        · rw [Function.update_of_ne (by simpa using hp'), Function.update_of_ne (by simp)]
          simp [System.places, System.go, Function.update_of_ne hp']
    | executed =>
        rw [Function.update_of_ne (by simp), Function.update_of_ne (by simp)]
        rfl
  have hfrom : (s.places (.queue qid)).Perm ([t] ++ rest) := hqueue
  rw [hplaces]
  apply h.move (by simp) hfrom
  simp [System.places, hp]

/-- A processor has executed its task. -/
theorem placed_finish
    {p : P} {t : Nat} {stage : Stage} (h : Placed s.places (· < s.created))
    (hp : s.stage p = .running t) (hstage : stage.tasks = []) :
  Placed ({ s with executed := s.executed ++ [t] }.go p stage).places (· < s.created)
  := by
  have hplaces : ({ s with executed := s.executed ++ [t] }.go p stage).places =
      Function.update (Function.update s.places (.hand p) []) .executed (s.executed ++ [t]) := by
    funext spot
    cases spot with
    | queue qid =>
        rw [Function.update_of_ne (by simp), Function.update_of_ne (by simp)]
        rfl
    | hand p' =>
        rw [Function.update_of_ne (by simp)]
        by_cases hp' : p' = p
        · rw [hp', Function.update_self]
          simpa [System.places, System.go] using hstage
        · rw [Function.update_of_ne (by simpa using hp')]
          simp [System.places, System.go, Function.update_of_ne hp']
    | executed =>
        rw [Function.update_self]
        rfl
  rw [hplaces]
  apply h.move (by simp)
  · show (s.stage p).tasks.Perm ([t] ++ [])
    rw [hp]
    exact List.Perm.refl _
  · exact List.perm_append_comm

/-! ### The queues of pointers -/

/-- The queues of pointers have the tasks of the system, each at its address. -/
def System.Represents (s : System P) (addr : Nat → Nat) (nTaskqueues : Nat) (L : Place P → List Nat) :
    Prop :=
  ∀ qid < nTaskqueues, L (.queued qid) = (s.queue qid).map addr

theorem dequeue_map {α β : Type} (f : α → β) (own : Bool) (l : List α) :
  dequeue own (l.map f) = ((dequeue own l).1.map f, (dequeue own l).2.map f)
  := by
  cases own with
  | true => simp [dequeue]
  | false => simp [dequeue]

section Represents

variable {st : State P} {L : Place P → List Nat} {addr : Nat → Nat} {maxTasks nTaskqueues qid task : Nat}
  {p : P}

/-- `func5` enqueues a task of the system, and its address is that of the task object. -/
theorem System.Represents.func5
    (hrep : s.Represents addr nTaskqueues L) (hplaced : Placed s.places (· < s.created))
    (h : st.Consistent maxTasks nTaskqueues L) (mode : Mode) (hqid : qid < nTaskqueues)
    (htask : task ∈ st.fresh p) :
  ∃ L', ((Radiosity.func5 st qid task mode).setFresh p ((st.fresh p).erase task)).Consistent maxTasks
      nTaskqueues L' ∧
    (s.enqueue qid mode).Represents (Function.update addr s.created task) nTaskqueues L'
  := by
  obtain ⟨L', hL', hqueued, hframe⟩ := h.func5 mode hqid htask
  refine ⟨L', hL', ?_⟩
  intro q hq
  have hmap : (s.queue q).map (Function.update addr s.created task) = (s.queue q).map addr := by
    apply List.map_congr_left
    intro t ht
    have hlt : t < s.created := (hplaced.mem_iff t).mpr ⟨.queue q, ht⟩
    exact Function.update_of_ne (Nat.ne_of_lt hlt) _ _
  by_cases hqq : q = qid
  · subst hqq
    simp only [System.enqueue, Function.update_self]
    rw [hqueued, hrep q hq, ← hmap]
    cases mode with
    | append => simp [Mode.enqueue]
    | insert => simp [Mode.enqueue]
  · have hne : (q : Int) ≠ qid := by omega
    simp only [System.enqueue, Function.update_of_ne hne]
    rw [hframe _ (by simpa using hqq) (by simp), hrep q hq, hmap]

/-- `func6` returns, and takes the task that is taken from the system. -/
theorem System.Represents.func6
    (hrep : s.Represents addr nTaskqueues L) (h : st.Consistent maxTasks nTaskqueues L) (own : Bool)
    (hqid : qid < nTaskqueues) :
  ∃ st' t L', Radiosity.func6 maxTasks st qid own = some (st', t) ∧
    (st'.setTaken p (t.toList ++ st.taken p)).Consistent maxTasks nTaskqueues L' ∧
    t = (Radiosity.dequeue own (s.queue qid)).2.map addr ∧
    (s.dequeue qid own).Represents addr nTaskqueues L'
  := by
  obtain ⟨st', t, L', hexec, hL', hqueued, hframe⟩ := h.func6 (p := p) own hqid
  rw [hrep qid hqid, dequeue_map] at hqueued
  obtain ⟨hqueue, rfl⟩ := Prod.mk.inj hqueued
  refine ⟨st', _, L', hexec, hL', rfl, ?_⟩
  intro q hq
  by_cases hqq : q = qid
  · subst hqq
    simp only [System.dequeue, Function.update_self]
    exact hqueue
  · have hne : (q : Int) ≠ qid := by omega
    simp only [System.dequeue, Function.update_of_ne hne]
    rw [hframe _ (by simpa using hqq) (by simp), hrep q hq]

end Represents

section Invariant

variable [Fintype P] {nTaskqueues : Int} {taskqueueId : P → Int}

theorem placed_step
    (h : Placed s.places (· < s.created)) (hstep : s.Step nTaskqueues taskqueueId s') :
  Placed s'.places (· < s'.created)
  := by
  cases hstep with
  | create qid mode _ _ => exact placed_enqueue h qid mode
  | enter p hstage =>
      rw [System.places_go (by rw [hstage]; rfl)]
      exact h
  | visit p counted v hstage _ =>
      rw [System.places_go (by rw [hstage]; split_ifs <;> rfl)]
      exact h
  | giveUp p counted v hstage _ =>
      rw [System.places_go (by rw [hstage]; cases counted <;> rfl)]
      exact h
  | func6 p counted v hstage =>
      have hp : (s.stage p).tasks = [] := by rw [hstage]; rfl
      rcases dequeue_cases (v.qid = taskqueueId p) (s.queue v.qid) with
        ⟨hnil, hdequeue⟩ | ⟨t, rest, hperm, hdequeue⟩
      · rw [System.dequeue, hdequeue, ← hnil, Function.update_eq_self,
          System.places_go (by rw [hp]; cases counted <;> rfl)]
        exact h
      · rw [System.dequeue, hdequeue]
        exact placed_take h hp hperm (by cases counted <;> rfl)
  | func4 p t hstage =>
      have hplaces : ({ s with pbarCount := func4 s.pbarCount }.go p (.running t)).places =
          s.places := by
        apply System.places_go
        show _ = (s.stage p).tasks
        rw [hstage]
        rfl
      rw [hplaces]
      exact h
  | spawn p t mode _ => exact placed_enqueue h _ mode
  | finish p t hstage => exact placed_finish h hstage rfl
  | func3 p hstage =>
      have hplaces : ({ s with pbarCount := func3 (Fintype.card P) s.pbarCount }.go p
          .spinning).places = s.places := by
        apply System.places_go
        show _ = (s.stage p).tasks
        rw [hstage]
        rfl
      rw [hplaces]
      exact h
  | poll p hstage =>
      rw [System.places_go (by rw [hstage]; split_ifs <;> rfl)]
      exact h
  | wait p reads hstage _ =>
      rw [System.places_go (by rw [hstage]; split_ifs <;> rfl)]
      exact h
  | again p reads hstage _ =>
      rw [System.places_go (by rw [hstage]; rfl)]
      exact h
  | release creator hstage =>
      have hplaces : { s with stage := fun _ => .outside, creator := creator }.places =
          s.places := by
        funext spot
        cases spot with
        | hand p =>
            show [] = (s.stage p).tasks
            rw [hstage p]
            rfl
        | _ => rfl
      rw [hplaces]
      exact h

/-! ### The count -/

def Stage.counted : Stage → Bool
  | .scanning counted _ => counted
  | .taking counted _ => counted
  | .leaving _ => true
  | .spinning => true
  | .waiting _ => true
  | .barrier => true
  | _ => false

/-- The number of processors that are counted. -/
def System.counted (s : System P) : Nat := ∑ p, (s.stage p).counted.toNat

omit [DecidableEq P] in
theorem System.counted_le (s : System P) :
  s.counted ≤ Fintype.card P
  := by
  have hle := Finset.sum_le_card_nsmul Finset.univ (fun p => (s.stage p).counted.toNat) 1
    (fun p _ => Bool.toNat_le _)
  simpa [System.counted] using hle

theorem System.counted_go (s : System P) (p : P) (stage : Stage) :
  (s.go p stage).counted + (s.stage p).counted.toNat = s.counted + stage.counted.toNat
  :=
  Counting.sum_update (fun _ stage => stage.counted.toNat) s.stage p stage

/-- A processor counts itself, or takes itself out of the count. -/
theorem System.counted_count (s : System P) (pbarCount : Int) (p : P) (stage : Stage) :
  ({ s with pbarCount := pbarCount }.go p stage).counted + (s.stage p).counted.toNat =
    s.counted + stage.counted.toNat
  :=
  { s with pbarCount := pbarCount }.counted_go p stage

/-- `pbar_count` is the number of processors that are counted; if there are none, it may still be
what it was at the last barrier. -/
structure System.CountOk (s : System P) : Prop where
  zero : s.counted = 0 → s.pbarCount = 0 ∨ s.pbarCount = Fintype.card P
  pos : 0 < s.counted → s.pbarCount = s.counted

theorem System.CountOk.go
    {p : P} {stage : Stage} (h : s.CountOk) (hstage : stage.counted = (s.stage p).counted) :
  (s.go p stage).CountOk
  := by
  have hcounted := s.counted_go p stage
  rw [hstage] at hcounted
  have heq : (s.go p stage).counted = s.counted := by omega
  constructor
  · rw [heq]
    exact h.zero
  · rw [heq]
    exact h.pos

theorem System.CountOk.func3 {p : P} (h : s.CountOk) (hp : (s.stage p).counted = false) :
  ({ s with pbarCount := func3 (Fintype.card P) s.pbarCount }.go p .spinning).CountOk
  := by
  have hcounted := s.counted_count (Radiosity.func3 (Fintype.card P) s.pbarCount) p .spinning
  have hle := ({ s with pbarCount := Radiosity.func3 (Fintype.card P) s.pbarCount }.go p
    .spinning).counted_le
  rw [hp, Bool.toNat_false, show Stage.spinning.counted.toNat = 1 from rfl] at hcounted
  have hfunc3 : Radiosity.func3 (Fintype.card P) s.pbarCount = s.counted + 1 := by
    rw [Radiosity.func3]
    rcases Nat.eq_zero_or_pos s.counted with hzero | hpos
    · rcases h.zero hzero with hpbar | hpbar
      · rw [hpbar, if_neg (by omega), hzero]
        rfl
      · rw [hpbar, if_pos (by omega), hzero]
        rfl
    · rw [h.pos hpos, if_neg (by omega)]
  constructor
  · intro hzero
    omega
  · intro _
    refine hfunc3.trans ?_
    omega

theorem System.CountOk.func4
    {p : P} {t : Nat} (h : s.CountOk) (hp : (s.stage p).counted = true) :
  ({ s with pbarCount := func4 s.pbarCount }.go p (.running t)).CountOk
  := by
  have hcounted := s.counted_count (Radiosity.func4 s.pbarCount) p (.running t)
  rw [hp, Bool.toNat_true, show (Stage.running t).counted.toNat = 0 from rfl] at hcounted
  have hfunc4 : Radiosity.func4 s.pbarCount = s.counted - 1 := by
    rw [Radiosity.func4, h.pos (by omega)]
  constructor
  · intro hzero
    refine .inl (hfunc4.trans ?_)
    omega
  · intro _
    refine hfunc4.trans ?_
    omega

omit [DecidableEq P] in
theorem System.counted_barrier (hstage : ∀ p, s.stage p = .barrier) :
  s.counted = Fintype.card P
  := by
  simp [System.counted, hstage, Stage.counted]

omit [DecidableEq P] in
/-- At the barrier, all processors are counted. -/
theorem System.CountOk.barrier (h : s.CountOk) (hstage : ∀ p, s.stage p = .barrier) :
  s.pbarCount = Fintype.card P
  := by
  have hpos : 0 < Fintype.card P := Fintype.card_pos_iff.mpr ⟨s.creator⟩
  rw [h.pos (by rw [System.counted_barrier hstage]; exact hpos), System.counted_barrier hstage]

theorem countOk_step (h : s.CountOk) (hstep : s.Step nTaskqueues taskqueueId s') :
  s'.CountOk
  := by
  cases hstep with
  | create qid mode _ _ => exact ⟨h.zero, h.pos⟩
  | enter p hstage => exact h.go (by rw [hstage]; rfl)
  | visit p counted v hstage _ => exact h.go (by rw [hstage]; split_ifs <;> rfl)
  | giveUp p counted v hstage _ => exact h.go (by rw [hstage]; cases counted <;> rfl)
  | func6 p counted v hstage =>
      have hdequeue : (s.dequeue v.qid (v.qid = taskqueueId p)).CountOk := ⟨h.zero, h.pos⟩
      apply hdequeue.go
      show _ = (s.stage p).counted
      rw [hstage]
      cases (Radiosity.dequeue (decide (v.qid = taskqueueId p)) (s.queue v.qid)).2 <;>
        cases counted <;> rfl
  | func4 p t hstage => exact h.func4 (by rw [hstage]; rfl)
  | spawn p t mode _ => exact ⟨h.zero, h.pos⟩
  | finish p t hstage =>
      have hfinish : { s with executed := s.executed ++ [t] }.CountOk := ⟨h.zero, h.pos⟩
      apply hfinish.go
      show _ = (s.stage p).counted
      rw [hstage]
      rfl
  | func3 p hstage => exact h.func3 (by rw [hstage]; rfl)
  | poll p hstage => exact h.go (by rw [hstage]; split_ifs <;> rfl)
  | wait p reads hstage _ => exact h.go (by rw [hstage]; split_ifs <;> rfl)
  | again p reads hstage _ => exact h.go (by rw [hstage]; rfl)
  | release creator hstage =>
      constructor
      · intro _
        exact .inr (h.barrier hstage)
      · intro hpos
        simp [System.counted, Stage.counted] at hpos

/-! ### The queues are attended to -/

theorem visitCount_iterate (n q : Int) (k : Nat) :
  ((Scan.next n)^[k] (Scan.start q)).visitCount = k
  := by
  induction k with
  | zero => rfl
  | succ k ih =>
      rw [Function.iterate_succ_apply']
      show ((Scan.next n)^[k] (Scan.start q)).visitCount + 1 = _
      rw [ih]
      push_cast
      rfl

/-- The processor will look for tasks, or, in `dequeue_task`, the queues it has visited are still
empty. -/
def System.Attends (nTaskqueues : Int) (taskqueueId : P → Int) (s : System P) (p : P) : Prop :=
  match s.stage p with
  | .outside => p = s.creator
  | .scanning _ v => ∃ k : Nat, v = (Scan.next nTaskqueues)^[k] (.start (taskqueueId p)) ∧
      ∀ j < k, s.queue ((Scan.next nTaskqueues)^[j] (.start (taskqueueId p))).qid = []
  | .taking _ v => s.queue v.qid ≠ []
  | .leaving _ => True
  | .running _ => True
  | _ => False

/-- If there is a task in a queue, some processor attends to the queues. -/
structure System.Attended (nTaskqueues : Int) (taskqueueId : P → Int) (s : System P) : Prop where
  outside : ∀ qid, ¬(0 ≤ qid ∧ qid < nTaskqueues) → s.queue qid = []
  attends : (∃ qid, s.queue qid ≠ []) → ∃ p, s.Attends nTaskqueues taskqueueId p

omit [DecidableEq P] [Fintype P] in
theorem System.Attends.congr
    {p : P} (h : s.Attends nTaskqueues taskqueueId p) (hstage : s'.stage p = s.stage p)
    (hqueue : s'.queue = s.queue) (hcreator : s'.creator = s.creator) :
  s'.Attends nTaskqueues taskqueueId p
  := by
  rw [System.Attends] at h ⊢
  rw [hstage, hqueue, hcreator]
  exact h

omit [Fintype P] in
/-- A processor goes on, and attends to the queues if it did. -/
theorem System.Attended.go
    {p : P} {stage : Stage} (h : s.Attended nTaskqueues taskqueueId)
    (hstage : s'.stage = Function.update s.stage p stage) (hqueue : s'.queue = s.queue)
    (hcreator : s'.creator = s.creator)
    (hp : (∃ qid, s.queue qid ≠ []) → s.Attends nTaskqueues taskqueueId p →
      s'.Attends nTaskqueues taskqueueId p) :
  s'.Attended nTaskqueues taskqueueId
  := by
  constructor
  · rw [hqueue]
    exact h.outside
  · rw [hqueue]
    intro hne
    obtain ⟨p', hp'⟩ := h.attends hne
    refine ⟨p', ?_⟩
    by_cases heq : p' = p
    · subst heq
      exact hp hne hp'
    · apply hp'.congr _ hqueue hcreator
      rw [hstage, Function.update_of_ne heq]

omit [DecidableEq P] [Fintype P] in
/-- A processor starts to look for a task. -/
theorem System.attends_start
    {p : P} {counted : Bool}
    (hstage : s.stage p = .scanning counted (.start (taskqueueId p))) :
  s.Attends nTaskqueues taskqueueId p
  := by
  rw [System.Attends, hstage]
  refine ⟨0, rfl, ?_⟩
  intro j hj
  exact absurd hj (Nat.not_lt_zero j)

omit [DecidableEq P] [Fintype P] in
/-- A task is enqueued while a processor attends to the queues. -/
theorem System.Attended.enqueue
    {p : P} {qid : Int} {mode : Mode} (h : s.Attended nTaskqueues taskqueueId)
    (hqid : 0 ≤ qid ∧ qid < nTaskqueues)
    (hp : (s.enqueue qid mode).Attends nTaskqueues taskqueueId p) :
  (s.enqueue qid mode).Attended nTaskqueues taskqueueId
  := by
  constructor
  · intro qid' hqid'
    have hne : qid' ≠ qid := by
      rintro rfl
      exact hqid' hqid
    exact (Function.update_of_ne hne _ _).trans (h.outside qid' hqid')
  · intro _
    exact ⟨p, hp⟩

omit [Fintype P] in
/-- A processor visits a queue. -/
theorem System.Attended.visit
    {p : P} {counted : Bool} {v : Scan} (h : s.Attended nTaskqueues taskqueueId)
    (hstage : s.stage p = .scanning counted v) :
  (s.go p (if 0 < (s.queue v.qid).length then .taking counted v
    else .scanning counted (v.next nTaskqueues))).Attended nTaskqueues taskqueueId
  := by
  refine h.go rfl rfl rfl ?_
  intro _ hattends
  rw [System.Attends, hstage] at hattends
  obtain ⟨k, hv, hempty⟩ := hattends
  rw [System.Attends, System.go]
  simp only [Function.update_self]
  split_ifs with hlength
  · exact List.length_pos_iff.mp hlength
  · refine ⟨k + 1, ?_, ?_⟩
    · rw [Function.iterate_succ_apply', hv]
    · intro j hj
      rcases Nat.lt_succ_iff_lt_or_eq.mp hj with hlt | rfl
      · exact hempty j hlt
      · rw [← hv]
        exact List.length_eq_zero_iff.mp (Nat.eq_zero_of_not_pos hlength)

omit [Fintype P] in
/-- A processor that has visited all queues has found them empty, or does not attend to them. -/
theorem System.Attended.giveUp
    {p : P} {counted : Bool} {v : Scan} {stage : Stage} (h : s.Attended nTaskqueues taskqueueId)
    (htaskqueueId : 0 ≤ taskqueueId p ∧ taskqueueId p < nTaskqueues)
    (hstage : s.stage p = .scanning counted v) (hvisit : ¬v.visitCount < nTaskqueues) :
  (s.go p stage).Attended nTaskqueues taskqueueId
  := by
  refine h.go rfl rfl rfl ?_
  rintro ⟨qid, hne⟩ hattends
  rw [System.Attends, hstage] at hattends
  obtain ⟨k, rfl, hempty⟩ := hattends
  rw [visitCount_iterate] at hvisit
  by_cases hqid : 0 ≤ qid ∧ qid < nTaskqueues
  · obtain ⟨j, hj, hjq⟩ := exists_iterate_next htaskqueueId.1 htaskqueueId.2 hqid.1 hqid.2
    rw [← hjq] at hne
    exact absurd (hempty j (by omega)) hne
  · exact absurd (h.outside qid hqid) hne

omit [Fintype P] in
/-- The server takes a task for a processor, or finds the queue empty. -/
theorem System.Attended.func6
    {p : P} {counted own : Bool} {v : Scan} (h : s.Attended nTaskqueues taskqueueId)
    (hstage : s.stage p = .taking counted v) :
  ((s.dequeue v.qid own).go p
    (afterDequeue counted (Radiosity.dequeue own (s.queue v.qid)).2)).Attended
      nTaskqueues taskqueueId
  := by
  rcases dequeue_cases own (s.queue v.qid) with ⟨hnil, hdequeue⟩ | ⟨t, rest, hperm, hdequeue⟩
  · rw [System.dequeue, hdequeue, ← hnil, Function.update_eq_self]
    refine h.go rfl rfl rfl ?_
    intro _ hattends
    rw [System.Attends, hstage] at hattends
    exact absurd hnil hattends
  · rw [System.dequeue, hdequeue]
    constructor
    · intro qid hqid
      have hne : qid ≠ v.qid := by
        rintro rfl
        rw [h.outside _ hqid] at hperm
        simp at hperm
      exact (Function.update_of_ne hne _ _).trans (h.outside qid hqid)
    · intro _
      refine ⟨p, ?_⟩
      rw [System.Attends, System.go]
      simp only [Function.update_self]
      cases counted <;> trivial

theorem attended_step
    (htaskqueueId : ∀ p, 0 ≤ taskqueueId p ∧ taskqueueId p < nTaskqueues)
    (h : s.Attended nTaskqueues taskqueueId) (hstep : s.Step nTaskqueues taskqueueId s') :
  s'.Attended nTaskqueues taskqueueId
  := by
  cases hstep with
  | create qid mode hqid hstage =>
      apply h.enqueue (p := s.creator) hqid
      rw [System.Attends, System.enqueue]
      simp only [hstage]
  | enter p hstage =>
      refine h.go rfl rfl rfl ?_
      intro _ _
      exact System.attends_start (Function.update_self _ _ _)
  | visit p counted v hstage _ => exact h.visit hstage
  | giveUp p counted v hstage hvisit => exact h.giveUp (htaskqueueId p) hstage hvisit
  | func6 p counted v hstage => exact h.func6 hstage
  | func4 p t hstage =>
      refine h.go rfl rfl rfl ?_
      intro _ _
      rw [System.Attends, System.go]
      simp only [Function.update_self]
  | spawn p t mode hstage =>
      apply h.enqueue (p := p) (htaskqueueId p)
      rw [System.Attends, System.enqueue]
      simp only [hstage]
  | finish p t hstage =>
      refine h.go rfl rfl rfl ?_
      intro _ _
      exact System.attends_start (Function.update_self _ _ _)
  | func3 p hstage =>
      refine h.go rfl rfl rfl ?_
      intro _ hattends
      rw [System.Attends, hstage] at hattends
      exact hattends.elim
  | poll p hstage =>
      refine h.go rfl rfl rfl ?_
      intro _ hattends
      rw [System.Attends, hstage] at hattends
      exact hattends.elim
  | wait p reads hstage _ =>
      refine h.go rfl rfl rfl ?_
      intro _ hattends
      rw [System.Attends, hstage] at hattends
      exact hattends.elim
  | again p reads hstage _ =>
      refine h.go rfl rfl rfl ?_
      intro _ _
      exact System.attends_start (Function.update_self _ _ _)
  | release creator hstage =>
      constructor
      · exact h.outside
      · intro hne
        obtain ⟨p, hp⟩ := h.attends hne
        rw [System.Attends, hstage p] at hp
        exact hp.elim

/-! ### The barrier -/

/-- The invariant of the runs. -/
structure System.Inv (nTaskqueues : Int) (taskqueueId : P → Int) (s : System P) : Prop where
  placed : Placed s.places (· < s.created)
  countOk : s.CountOk
  attended : s.Attended nTaskqueues taskqueueId

omit [DecidableEq P] in
theorem System.inv_start (creator : P) :
  (System.start creator).Inv nTaskqueues taskqueueId
  := by
  constructor
  · constructor
    · intro spot
      cases spot <;> exact List.nodup_nil
    · intro spot spot' t ht _
      cases spot <;> exact absurd ht List.not_mem_nil
    · intro t
      constructor
      · intro ht
        exact absurd ht (Nat.not_lt_zero t)
      · rintro ⟨spot, ht⟩
        cases spot <;> exact absurd ht List.not_mem_nil
  · constructor
    · intro _
      exact .inl rfl
    · intro hpos
      simp [System.counted, System.start, Stage.counted] at hpos
  · constructor
    · intro _ _
      rfl
    · rintro ⟨qid, hne⟩
      exact absurd rfl hne

/-- The runs, over any number of phases. -/
def System.Reachable
    (nTaskqueues : Int) (taskqueueId : P → Int) (creator : P) (s : System P) : Prop :=
  Relation.ReflTransGen (System.Step nTaskqueues taskqueueId) (System.start creator) s

theorem System.Reachable.inv
    {creator : P} (htaskqueueId : ∀ p, 0 ≤ taskqueueId p ∧ taskqueueId p < nTaskqueues)
    (h : s.Reachable nTaskqueues taskqueueId creator) :
  s.Inv nTaskqueues taskqueueId
  := by
  induction h with
  | refl => exact System.inv_start creator
  | tail _ hstep ih =>
      exact ⟨placed_step ih.placed hstep, countOk_step ih.countOk hstep,
        attended_step htaskqueueId ih.attended hstep⟩

/-- Whenever all processors are at the barrier at the end of `process_tasks`, in this phase or a
later one, every task that has been enqueued has been executed, and only once, there are no tasks in
the queues, and `pbar_count` is the number of processors. -/
theorem phases_terminate
    {creator : P} (htaskqueueId : ∀ p, 0 ≤ taskqueueId p ∧ taskqueueId p < nTaskqueues)
    (h : s.Reachable nTaskqueues taskqueueId creator) (hbarrier : ∀ p, s.stage p = .barrier) :
  s.executed.Perm (List.range s.created) ∧ (∀ qid, s.queue qid = []) ∧
    s.pbarCount = Fintype.card P
  := by
  have hinv := h.inv htaskqueueId
  have hempty : ∀ qid, s.queue qid = [] := by
    by_contra hne
    obtain ⟨p, hp⟩ := hinv.attended.attends (not_forall.mp hne)
    rw [System.Attends, hbarrier p] at hp
    exact hp
  refine ⟨?_, hempty, hinv.countOk.barrier hbarrier⟩
  have hnodup : s.executed.Nodup := hinv.placed.nodup .executed
  rw [List.perm_ext_iff_of_nodup hnodup List.nodup_range]
  intro t
  rw [List.mem_range, hinv.placed.mem_iff]
  constructor
  · intro ht
    exact ⟨.executed, ht⟩
  · rintro ⟨spot, ht⟩
    cases spot with
    | queue qid =>
        rw [System.places, hempty] at ht
        exact absurd ht List.not_mem_nil
    | hand p =>
        rw [System.places, hbarrier p] at ht
        exact absurd ht List.not_mem_nil
    | executed => exact ht

/-- Two processors with one queue: the second one takes a task while it is counted, and the first
one comes to the barrier before it is taken out of the count. -/
theorem phases_terminate_transient :
  ∃ s : System Bool, s.Reachable 1 (fun _ => 0) true ∧ (∀ p, s.stage p = .barrier) ∧
    s.created = 2 ∧ s.executed.Perm (List.range 2) ∧ (∀ qid, s.queue qid = []) ∧ s.pbarCount = 2
  := by
  have h : (System.start true).Reachable 1 (fun _ => 0) true := .refl
  have h := h.tail (.create 0 .append (by decide) rfl)
  have h := h.tail (.enter true rfl)
  have h := h.tail (.visit true false _ rfl (by decide))
  have h := h.tail (.func6 true false _ rfl)
  have h := h.tail (.enter false rfl)
  have h := h.tail (.visit false false _ rfl (by decide))
  have h := h.tail (.giveUp false false _ rfl (by decide))
  have h := h.tail (.func3 false rfl)
  have h := h.tail (.poll false rfl)
  have h := h.tail (.spawn true 0 .insert rfl)
  have h := h.tail (.wait false 0 rfl (by decide))
  have h := h.tail (.wait false 1 rfl (by decide))
  have h := h.tail (.wait false 2 rfl (by decide))
  have h := h.tail (.wait false 3 rfl (by decide))
  have h := h.tail (.again false 4 rfl (by decide))
  have h := h.tail (.visit false true _ rfl (by decide))
  have h := h.tail (.func6 false true _ rfl)
  have h := h.tail (.finish true 0 rfl)
  have h := h.tail (.visit true false _ rfl (by decide))
  have h := h.tail (.giveUp true false _ rfl (by decide))
  have h := h.tail (.func3 true rfl)
  have h := h.tail (.poll true rfl)
  have h := h.tail (.func4 false 1 rfl)
  have h := h.tail (.finish false 1 rfl)
  have h := h.tail (.visit false false _ rfl (by decide))
  have h := h.tail (.giveUp false false _ rfl (by decide))
  have h := h.tail (.func3 false rfl)
  have h := h.tail (.poll false rfl)
  have hbarrier := by
    refine phases_terminate (by decide) h ?_
    intro p
    cases p <;> rfl
  refine ⟨_, h, ?_, rfl, hbarrier.1, hbarrier.2.1, hbarrier.2.2⟩
  intro p
  cases p <;> rfl

end Invariant

end Radiosity
