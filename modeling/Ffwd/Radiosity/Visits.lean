import Ffwd.Radiosity.Phases

/-!
# Looking through the queues

The two loops over the task queues, run without interference: `dequeue_task` looks for a task in the
queues around the first, alternately on both sides of it, and `get_task` looks for free task objects
in one queue after the other. The first comes to every queue once; the second gives up after a fixed
number of queues.
-/

namespace Radiosity

open Linked Placement

variable {P : Type} [DecidableEq P]

/-! ### Dequeuing -/

section Loop

variable (maxTasks : Nat) (nTaskqueues : Int) (taskqueueId : P → Nat)

/-- The loop of `dequeue_task` with the number of rounds that are left; it also gives the numbers of
the queues that it indexes. -/
def dequeueLoop (s : State P) (p : P) : Nat → Scan → Option (State P × Option Nat × List Int)
  | 0, _ => some (s, none, [])
  | rounds + 1, v =>
      if (s.queue v.qid.toNat).nTasks > 0 then do
        let (s', t) ← func6 maxTasks s v.qid.toNat (v.qid = taskqueueId p)
        return (s', t, [v.qid])
      else do
        let (s', t, visited) ← dequeueLoop s p rounds (v.next nTaskqueues)
        return (s', t, v.qid :: visited)

def dequeueTask (s : State P) (qid maxVisit : Int) (p : P) :
    Option (State P × Option Nat × List Int) :=
  let maxVisit := if maxVisit > nTaskqueues then nTaskqueues else maxVisit
  dequeueLoop maxTasks nTaskqueues taskqueueId s p maxVisit.toNat (.start qid)

end Loop

/-- The queue that is visited after `k` others. -/
def visit (nTaskqueues qid : Int) (k : Nat) : Int :=
  ((Scan.next nTaskqueues)^[k] (.start qid)).qid

theorem qid_iterate (n q : Int) (k : Nat) :
  ((Scan.next n)^[k] (.start q)).qid = visit n q k
  := rfl

section Visit

variable {n q : Int} (hq : 0 ≤ q) (hqn : q < n)
include hq hqn

theorem visit_range {k : Nat} (hk : (k : Int) < n) :
  0 ≤ visit n q k ∧ visit n q k < n
  := by
  rw [visit, iterate_next hq hqn hk]
  exact ⟨Int.emod_nonneg _ (by omega), Int.emod_lt_of_pos _ (by omega)⟩

/-- No queue is visited twice: there are as many visits as queues, and every queue is visited. -/
theorem visit_injective {j k : Nat} (hj : (j : Int) < n) (hk : (k : Int) < n)
    (heq : visit n q j = visit n q k) :
  j = k
  := by
  obtain ⟨m, rfl⟩ := Int.eq_ofNat_of_zero_le (show 0 ≤ n by omega)
  let f : Fin m → Fin m := fun k => ⟨(visit m q k).toNat, by
    have hrange := visit_range hq hqn (k := k) (by have := k.isLt; omega)
    omega⟩
  have hsurjective : Function.Surjective f := by
    intro r
    obtain ⟨k, hk, hr⟩ := exists_iterate_next hq hqn (r := r) (by omega) (by have := r.isLt; omega)
    refine ⟨⟨k, by omega⟩, ?_⟩
    apply Fin.ext
    show (visit m q k).toNat = r
    rw [visit, hr]
    exact Int.toNat_natCast _
  have hinjective := Finite.injective_iff_surjective.mpr hsurjective
  have hf : f ⟨j, by omega⟩ = f ⟨k, by omega⟩ := Fin.ext (congrArg Int.toNat heq)
  exact congrArg Fin.val (hinjective hf)

end Visit

section Loop

variable {maxTasks : Nat} {n q : Int} {taskqueueId : P → Nat} {s : State P} {p : P}

omit [DecidableEq P] in
/-- The loop finds all queues from the `k`-th on empty. -/
theorem dequeueLoop_empty
    {k rounds : Nat}
    (hempty : ∀ j, k ≤ j → j < k + rounds → ¬(s.queue (visit n q j).toNat).nTasks > 0) :
  dequeueLoop maxTasks n taskqueueId s p rounds ((Scan.next n)^[k] (.start q)) =
    some (s, none, (List.range' k rounds).map (visit n q))
  := by
  induction rounds generalizing k with
  | zero => rfl
  | succ rounds ih =>
      have hk := hempty k (Nat.le_refl k) (by omega)
      have hrest := @ih (k + 1) (by
        intro j hj hlt
        exact hempty j (by omega) (by omega))
      rw [Function.iterate_succ_apply'] at hrest
      rw [dequeueLoop, qid_iterate, if_neg hk, hrest]
      rfl

omit [DecidableEq P] in
/-- The loop finds a task in the `m`-th queue. -/
theorem dequeueLoop_found
    {k rounds m : Nat} (hkm : k ≤ m) (hm : m < k + rounds)
    (hempty : ∀ j, k ≤ j → j < m → ¬(s.queue (visit n q j).toNat).nTasks > 0)
    (hfound : (s.queue (visit n q m).toNat).nTasks > 0) :
  dequeueLoop maxTasks n taskqueueId s p rounds ((Scan.next n)^[k] (.start q)) =
    (func6 maxTasks s (visit n q m).toNat (visit n q m = taskqueueId p)).map
      (fun r => (r.1, r.2, (List.range' k (m - k)).map (visit n q) ++ [visit n q m]))
  := by
  induction rounds generalizing k with
  | zero => omega
  | succ rounds ih =>
      rw [dequeueLoop, qid_iterate]
      rcases Nat.eq_or_lt_of_le hkm with rfl | hlt
      · rw [if_pos hfound, Nat.sub_self]
        cases func6 maxTasks s (visit n q k).toNat (visit n q k = taskqueueId p) <;> rfl
      · have hrest := @ih (k + 1) hlt (by omega) (by
          intro j hj hjm
          exact hempty j (by omega) hjm)
        rw [Function.iterate_succ_apply'] at hrest
        rw [if_neg (hempty k (Nat.le_refl k) hlt), hrest]
        obtain ⟨d, hd⟩ : ∃ d, m - k = d + 1 := ⟨m - k - 1, by omega⟩
        rw [show m - (k + 1) = d by omega, hd, List.range'_succ]
        cases func6 maxTasks s (visit n q m).toNat (visit n q m = taskqueueId p) <;> rfl

end Loop

section Dequeue

variable {maxTasks nTaskqueues qid : Nat} {taskqueueId : P → Nat} {s : State P}
    {L : Place P → List Nat}

omit [DecidableEq P] in
/-- The counter tells whether a queue is empty. -/
theorem State.Consistent.nTasks_pos
    {r : Nat} (h : s.Consistent maxTasks nTaskqueues L) (hr : r < nTaskqueues) :
  (s.queue r).nTasks > 0 ↔ L (.queued r) ≠ []
  := by
  obtain ⟨-, -, hn⟩ := h.holds (.queued r) hr
  rw [hn, ← List.length_pos_iff]
  omega

/-- The task taken from a queue that is not empty. -/
theorem dequeue_some (own : Bool) {l : List Nat} (hl : l ≠ []) :
  ∃ task rest, dequeue own l = (rest, some task) ∧
    l = if own = true then task :: rest else rest ++ [task]
  := by
  cases own with
  | true =>
      obtain ⟨task, rest, rfl⟩ := List.exists_cons_of_ne_nil hl
      exact ⟨task, rest, rfl, rfl⟩
  | false =>
      rcases List.eq_nil_or_concat l with hnil | ⟨rest, task, hconcat⟩
      · exact absurd hnil hl
      · rw [List.concat_eq_append] at hconcat
        refine ⟨task, rest, ?_, hconcat⟩
        rw [hconcat]
        simp [dequeue]

/-- `dequeue_task` indexes no queue but those there are and looks at none of them twice. It returns
nothing only if it has looked at all of them and they are empty, and otherwise takes one task from
the first queue that is not empty in the order of its visits: the top of the caller's own queue, or
the last task of another. -/
theorem dequeueTask_visits
    (h : s.Consistent maxTasks nTaskqueues L) (hqid : qid < nTaskqueues) (p : P) :
  ∃ s' t visited L', dequeueTask maxTasks nTaskqueues taskqueueId s qid nTaskqueues p =
      some (s', t, visited) ∧
    (s'.setTaken p (t.toList ++ s.taken p)).Consistent maxTasks nTaskqueues L' ∧
    (∀ r ∈ visited, 0 ≤ r ∧ r < nTaskqueues) ∧ visited.Nodup ∧
    (t = none ↔ ∀ r < nTaskqueues, L (.queued r) = []) ∧
    (t = none → s' = s ∧ ∀ r < nTaskqueues, (r : Int) ∈ visited) ∧
    ∀ task, t = some task → ∃ (before : List Int) (r : Nat) (rest : List Nat),
      visited = before ++ [(r : Int)] ∧
      (∀ b ∈ before, L (.queued b.toNat) = []) ∧
      L (.queued r) = (if r = taskqueueId p then task :: rest else rest ++ [task]) ∧
      L' (.queued r) = rest ∧ ∀ r', r' ≠ r → L' (.queued r') = L (.queued r')
  := by
  have hq : (0 : Int) ≤ qid := by omega
  have hqn : (qid : Int) < nTaskqueues := by omega
  have hrange : ∀ k < nTaskqueues, 0 ≤ visit nTaskqueues qid k ∧
      visit nTaskqueues qid k < nTaskqueues := by
    intro k hk
    exact visit_range hq hqn (by omega)
  have hpos : ∀ k < nTaskqueues, (s.queue (visit nTaskqueues qid k).toNat).nTasks > 0 ↔
      L (.queued (visit nTaskqueues qid k).toNat) ≠ [] := by
    intro k hk
    have := hrange k hk
    exact h.nTasks_pos (by omega)
  have hnodup : ∀ k ≤ nTaskqueues, ((List.range' 0 k).map (visit nTaskqueues qid)).Nodup := by
    intro k hk
    apply List.Nodup.map_on
    · intro i hi j hj heq
      rw [List.mem_range'_1] at hi hj
      exact visit_injective hq hqn (by omega) (by omega) heq
    · exact List.nodup_range'
  have hall : ∀ r < nTaskqueues, ∃ k < nTaskqueues, visit nTaskqueues qid k = r := by
    intro r hr
    obtain ⟨k, hk, hkr⟩ := exists_iterate_next hq hqn (r := r) (by omega) (by omega)
    exact ⟨k, by omega, hkr⟩
  have hloop : dequeueTask maxTasks nTaskqueues taskqueueId s qid nTaskqueues p =
      dequeueLoop maxTasks nTaskqueues taskqueueId s p nTaskqueues (.start qid) := by
    rw [dequeueTask, if_neg (Int.lt_irrefl _), Int.toNat_natCast]
  rw [hloop]
  by_cases hsome : ∃ k, k < nTaskqueues ∧ L (.queued (visit nTaskqueues qid k).toNat) ≠ []
  · obtain ⟨hm, hne⟩ := Nat.find_spec hsome
    have hmin := fun k (hk : k < Nat.find hsome) => Nat.find_min hsome hk
    generalize Nat.find hsome = m at hm hne hmin
    have hbefore : ∀ j < m, L (.queued (visit nTaskqueues qid j).toNat) = [] := by
      intro j hj
      by_contra hnot
      exact hmin j hj ⟨by omega, hnot⟩
    have hexec : dequeueLoop maxTasks nTaskqueues taskqueueId s p nTaskqueues
        ((Scan.next nTaskqueues)^[0] (.start qid)) = _ :=
      dequeueLoop_found (Nat.zero_le m) (by omega) (by
        intro j _ hj
        rw [hpos j (by omega), hbefore j hj]
        exact not_not.mpr rfl) ((hpos m hm).mpr hne)
    obtain ⟨hm0, hmn⟩ := hrange m hm
    obtain ⟨r, hr⟩ := Int.eq_ofNat_of_zero_le hm0
    rw [hr, Int.toNat_natCast] at hne hexec
    obtain ⟨s', t, L', hfunc6, hconsistent, hdequeue, hframe⟩ :=
      h.func6 (p := p) ((r : Int) = taskqueueId p) (show r < nTaskqueues by omega)
    rw [hfunc6, Option.map_some] at hexec
    obtain ⟨task, rest, htask, hL⟩ := dequeue_some ((r : Int) = taskqueueId p) hne
    rw [htask, Prod.mk.injEq] at hdequeue
    obtain ⟨hrest, rfl⟩ := hdequeue
    have hvisited : ((List.range' 0 (m - 0)).map (visit nTaskqueues qid) ++ [(r : Int)]) =
        (List.range' 0 (m + 1)).map (visit nTaskqueues qid) := by
      rw [Nat.sub_zero, List.range'_1_concat, List.map_append, Nat.zero_add, ← hr]
      rfl
    refine ⟨s', some task, _, L', hexec, hconsistent, ?_, ?_, ?_, nofun, ?_⟩
    · intro b hb
      rw [hvisited] at hb
      obtain ⟨k, hk, rfl⟩ := List.mem_map.mp hb
      rw [List.mem_range'_1] at hk
      exact hrange k (by omega)
    · rw [hvisited]
      exact hnodup (m + 1) hm
    · refine ⟨nofun, fun hempty => ?_⟩
      exact absurd (hempty r (by omega)) hne
    · rintro _ ⟨⟩
      refine ⟨_, r, rest, rfl, ?_, ?_, hrest, ?_⟩
      · intro b hb
        obtain ⟨k, hk, rfl⟩ := List.mem_map.mp hb
        rw [List.mem_range'_1] at hk
        exact hbefore k (by omega)
      · rw [hL]
        simp only [decide_eq_true_eq, Nat.cast_inj]
      · intro r' hr'
        exact hframe _ (by simpa using hr') (by simp)
  · have hempty : ∀ k < nTaskqueues, L (.queued (visit nTaskqueues qid k).toNat) = [] := by
      intro k hk
      by_contra hne
      exact hsome ⟨k, hk, hne⟩
    have hexec : dequeueLoop maxTasks nTaskqueues taskqueueId s p nTaskqueues
        ((Scan.next nTaskqueues)^[0] (.start qid)) = _ := dequeueLoop_empty (by
      intro j _ hj
      rw [hpos j (by omega), hempty j (by omega)]
      exact not_not.mpr rfl)
    refine ⟨s, none, _, L, hexec, ?_, ?_, hnodup _ (Nat.le_refl _), ?_, ?_, nofun⟩
    · have hself : s.setTaken p (none.toList ++ s.taken p) = s := by
        simp [State.setTaken]
      rw [hself]
      exact h
    · intro r hr
      obtain ⟨k, hk, rfl⟩ := List.mem_map.mp hr
      rw [List.mem_range'_1] at hk
      exact hrange k (by omega)
    · refine ⟨fun _ r hr => ?_, fun _ => rfl⟩
      obtain ⟨k, hk, hkr⟩ := hall r hr
      have := hempty k hk
      rwa [hkr, Int.toNat_natCast] at this
    · refine fun _ => ⟨rfl, fun r hr => ?_⟩
      obtain ⟨k, hk, hkr⟩ := hall r hr
      rw [← hkr]
      apply List.mem_map_of_mem
      rw [List.mem_range'_1]
      omega

end Dequeue

/-- The first processor has put a task into the queue of the other, and finds it there. -/
theorem dequeueTask_visits_other :
  ∃ (s : State (Fin 2)) (L : Place (Fin 2) → List Nat), s.Consistent 3 2 L ∧
    ∃ s' visited, dequeueTask 3 2 Fin.val s (0 : Nat) (2 : Nat) 0 = some (s', some 0, visited) ∧
      visited = [0, 1] ∧ visited.Nodup
  := by
  have hinit : Run 3 2 Fin.val (0 : Fin 2) (initTaskq 3 2 State.zero 0) := .init
  have hrun := hinit
    |>.step (.func7 0 0) ⟨rfl, by decide, rfl⟩ rfl
    |>.step (.getTask 0) ⟨rfl, by decide⟩ rfl
    |>.step (.func5 0 1 0 .append) ⟨rfl, by decide, by decide⟩ rfl
  obtain ⟨L, hL⟩ := hrun.consistent 3 2 Fin.val (by decide) (by decide) (by decide)
  obtain ⟨s', t, visited, L', hexec, -, -, hnodup, -⟩ :=
    @dequeueTask_visits _ _ 3 2 0 Fin.val _ L hL (by decide) (0 : Fin 2)
  have hvisited : some (some 0, [0, 1]) = some (t, visited) :=
    congrArg (Option.map Prod.snd) hexec
  obtain ⟨rfl, rfl⟩ := Prod.mk.inj (Option.some.inj hvisited)
  exact ⟨_, L, hL, s', _, hexec, rfl, hnodup⟩

/-! ### Getting a free task object -/

def maxTaskgetRetry : Nat := 32

/-- The loop of `get_task` at a queue, with the number of retries that are left. There is nothing at
the exit for no free task. -/
def getTaskLoop (nTaskqueues : Nat) (s : State P) (p : P) (left qId : Nat) : Option (State P) :=
  if (s.queue qId).nFree > 0 ∧ (s.queue qId).free ≠ none then some (func7 s qId p)
  else
    match left with
    | 0 => none
    | left + 1 =>
        getTaskLoop nTaskqueues s p left (if qId + 1 ≥ nTaskqueues then 0 else qId + 1)

/-- All of `get_task`. -/
def getTaskCall (nTaskqueues : Nat) (taskqueueId : P → Nat) (s : State P) (p : P) :
    Option (State P × Nat) :=
  if s.localFreeTask p = none then do
    let s ← getTaskLoop nTaskqueues s p maxTaskgetRetry (taskqueueId p)
    getTask s p
  else getTask s p

section GetTask

variable {maxTasks nTaskqueues : Nat} {taskqueueId : P → Nat} {s : State P} {p : P}
    {L : Place P → List Nat}

omit [DecidableEq P] in
/-- The counter and the list of the free objects of a queue. -/
theorem State.Consistent.nFree_pos
    {r : Nat} (h : s.Consistent maxTasks nTaskqueues L) (hr : r < nTaskqueues) :
  ((s.queue r).nFree > 0 ∧ (s.queue r).free ≠ none) ↔ L (.freed r) ≠ []
  := by
  obtain ⟨hchain, hn⟩ := h.holds (.freed r) hr
  rw [hn]
  cases hL : L (.freed r) with
  | nil => simp
  | cons a l =>
      rw [hL] at hchain
      have hfree : (s.queue r).free = some a := hchain.1
      rw [hfree]
      simp

/-- The next queue. -/
theorem next_queue {q n : Nat} (hq : q < n) :
  (if q + 1 ≥ n then 0 else q + 1) = (q + 1) % n
  := by
  split_ifs with hge
  · rw [show q + 1 = n by omega, Nat.mod_self]
  · rw [Nat.mod_eq_of_lt (by omega)]

theorem getTaskLoop_eq
    (h : s.Consistent maxTasks nTaskqueues L) {left q : Nat} (hq : q < nTaskqueues) :
  (getTaskLoop nTaskqueues s p left q = none ∧
      ∀ d ≤ left, L (.freed ((q + d) % nTaskqueues)) = []) ∨
    ∃ d ≤ left, L (.freed ((q + d) % nTaskqueues)) ≠ [] ∧
      getTaskLoop nTaskqueues s p left q = some (func7 s ((q + d) % nTaskqueues) p)
  := by
  have hself : (q + 0) % nTaskqueues = q := Nat.mod_eq_of_lt hq
  induction left generalizing q with
  | zero =>
      rw [getTaskLoop]
      by_cases hfree : L (.freed q) = []
      · rw [if_neg ((h.nFree_pos hq).not.mpr (not_not.mpr hfree))]
        refine .inl ⟨rfl, ?_⟩
        intro d hd
        rw [Nat.le_zero.mp hd, hself]
        exact hfree
      · rw [if_pos ((h.nFree_pos hq).mpr hfree)]
        refine .inr ⟨0, Nat.le_refl 0, ?_, ?_⟩
        · rw [hself]
          exact hfree
        · rw [hself]
  | succ left ih =>
      rw [getTaskLoop]
      by_cases hfree : L (.freed q) = []
      · have hlt : (q + 1) % nTaskqueues < nTaskqueues := Nat.mod_lt _ (by omega)
        have hadd : ∀ d, ((q + 1) % nTaskqueues + d) % nTaskqueues = (q + (d + 1)) % nTaskqueues := by
          intro d
          rw [Nat.mod_add_mod, Nat.add_assoc, Nat.add_comm 1 d]
        rw [if_neg ((h.nFree_pos hq).not.mpr (not_not.mpr hfree))]
        simp only [next_queue hq]
        rcases ih hlt (Nat.mod_eq_of_lt hlt) with ⟨hnone, hempty⟩ | ⟨d, hd, hne, hsome⟩
        · refine .inl ⟨hnone, ?_⟩
          intro d hd
          cases d with
          | zero =>
              rw [hself]
              exact hfree
          | succ d =>
              rw [← hadd]
              exact hempty d (by omega)
        · rw [hadd] at hne hsome
          exact .inr ⟨d + 1, by omega, hne, hsome⟩
      · rw [if_pos ((h.nFree_pos hq).mpr hfree)]
        refine .inr ⟨0, Nat.zero_le _, ?_, ?_⟩
        · rw [hself]
          exact hfree
        · rw [hself]

/-- The task object that `get_task` returns after `func7` is the first of the shared free list. -/
theorem getTask_func7
    {r : Nat} (h : s.Consistent maxTasks nTaskqueues L) (hr : r < nTaskqueues)
    (hne : L (.freed r) ≠ []) :
  ∃ s' t, getTask (func7 s r p) p = some (s', t) ∧ t ∈ L (.freed r)
  := by
  obtain ⟨t, l, hL⟩ := List.exists_cons_of_ne_nil hne
  obtain ⟨hchain, -⟩ := h.holds (.freed r) hr
  rw [hL] at hchain
  have hfree : (s.queue r).free = some t := hchain.1
  have hlocal : (func7 s r p).localFreeTask p = some t := by
    rw [func7, hfree]
    exact Function.update_self _ _ _
  have hget : getTask (func7 s r p) p = some (((func7 s r p).setLocal p ((func7 s r p).next t)
      ((func7 s r p).nLocalFreeTask p - 1)).setNext t none, t) := by
    rw [getTask, hlocal]
    rfl
  refine ⟨_, t, hget, ?_⟩
  rw [hL]
  exact List.mem_cons_self

/-- With nothing in its local free list, and when there is a free task object in some queue, a
processor gets one if and only if there is one in its own queue or in one of the next 32. -/
theorem getTask_iff
    (h : s.Consistent maxTasks nTaskqueues L) (hid : taskqueueId p < nTaskqueues)
    (hlocal : s.localFreeTask p = none) (hfree : ∃ r < nTaskqueues, L (.freed r) ≠ []) :
  (∃ s' t, getTaskCall nTaskqueues taskqueueId s p = some (s', t) ∧
      ∃ r < nTaskqueues, t ∈ L (.freed r)) ↔
    ∃ d ≤ maxTaskgetRetry, L (.freed ((taskqueueId p + d) % nTaskqueues)) ≠ []
  := by
  rw [getTaskCall, if_pos hlocal]
  rcases getTaskLoop_eq (p := p) h hid with ⟨hnone, hempty⟩ | ⟨d, hd, hne, hsome⟩
  · rw [hnone]
    constructor
    · rintro ⟨s', t, hcall, -⟩
      exact absurd hcall nofun
    · rintro ⟨d, hd, hne⟩
      exact absurd (hempty d hd) hne
  · have hlt : (taskqueueId p + d) % nTaskqueues < nTaskqueues := Nat.mod_lt _ (by omega)
    obtain ⟨s', t, hget, ht⟩ := getTask_func7 (p := p) h hlt hne
    rw [hsome]
    refine iff_of_true ⟨s', t, hget, _, hlt, ht⟩ ⟨d, hd, hne⟩

end GetTask

/-! ### Queues without free task objects -/

section Drain

variable {maxTasks nTaskqueues : Nat} {taskqueueId : P → Nat} {processId : P} {s : State P} {p : P}
    {L : Place P → List Nat}

omit [DecidableEq P] in
theorem State.Consistent.loc_eq_nil (h : s.Consistent maxTasks nTaskqueues L) :
  s.localFreeTask p = none ↔ L (.loc p) = []
  := (h.holds (.loc p) trivial).1.none_iff

omit [DecidableEq P] in
theorem State.Consistent.batch_eq_nil (h : s.Consistent maxTasks nTaskqueues L) :
  s.batch p = none ↔ L (.batch p) = []
  := by
  have hholds := h.holds (.batch p) trivial
  cases hb : s.batch p with
  | none =>
      simp only [State.Holds, hb] at hholds
      exact iff_of_true rfl hholds
  | some b =>
      simp only [State.Holds, hb] at hholds
      apply iff_of_false (Option.some_ne_none b)
      intro hnil
      rw [hnil] at hholds
      exact Option.some_ne_none b.p hholds.2.1.symm

variable (maxTasks nTaskqueues taskqueueId processId) in
/-- A state of a run in which the processor gives nothing back. -/
structure Quiet (p : P) (s : State P) (L : Place P → List Nat) : Prop where
  run : Run maxTasks nTaskqueues taskqueueId processId s
  consistent : s.Consistent maxTasks nTaskqueues L
  batch : L (.batch p) = []

/-- A processor enqueues all tasks of its local free list. -/
theorem Quiet.exists_loc_empty
    (h : Quiet maxTasks nTaskqueues taskqueueId processId p s L) (hn : 0 < nTaskqueues) :
  ∃ s' L', Quiet maxTasks nTaskqueues taskqueueId processId p s' L' ∧ L' (.loc p) = [] ∧
    ∀ pl, pl ≠ .loc p → pl ≠ .fresh p → pl ≠ .queued 0 → L' pl = L pl
  := by
  obtain ⟨l, hl⟩ : ∃ l, l = L (.loc p) := ⟨_, rfl⟩
  induction l generalizing s L with
  | nil => exact ⟨s, L, h, hl.symm, fun _ _ _ _ => rfl⟩
  | cons t l ih =>
      obtain ⟨hrun, hL, hbatch⟩ := h
      have hlocal : s.localFreeTask p ≠ none := by
        rw [Ne, hL.loc_eq_nil, ← hl]
        exact List.cons_ne_nil t l
      obtain ⟨s₁, t₁, L₁, hexec, hL₁, hloc, hframe₁⟩ := hL.getTask hlocal
      have hrun₁ := hrun.step (.getTask p) ⟨hL.batch_eq_nil.mpr hbatch, hlocal⟩
        (by rw [exec, hexec]; rfl)
      have hbatch₁ : L₁ (.batch p) = [] := (hframe₁ _ (by simp) (by simp)).trans hbatch
      have htask : t₁ ∈ (s₁.setFresh p (t₁ :: s.fresh p)).fresh p := by
        simp [State.setFresh]
      obtain ⟨L₂, hL₂, -, hframe₂⟩ := hL₁.func5 .append hn htask
      have hrun₂ := hrun₁.step (.func5 p 0 t₁ .append) ⟨hL₁.batch_eq_nil.mpr hbatch₁, hn, htask⟩ rfl
      have hl₂ : l = L₂ (.loc p) := by
        rw [hloc] at hl
        rw [hframe₂ _ (by simp) (by simp)]
        exact (List.cons.inj hl).2
      have hbatch₂ : L₂ (.batch p) = [] := (hframe₂ _ (by simp) (by simp)).trans hbatch₁
      obtain ⟨s', L', h', hempty, hframe⟩ := ih ⟨hrun₂, hL₂, hbatch₂⟩ hl₂
      refine ⟨s', L', h', hempty, ?_⟩
      intro pl hA hB hC
      rw [hframe pl hA hB hC, hframe₂ pl hC hB, hframe₁ pl hA hB]

/-- A processor takes all free task objects of a queue. -/
theorem Quiet.exists_freed_empty
    {q : Nat} (h : Quiet maxTasks nTaskqueues taskqueueId processId p s L) (hlocal : L (.loc p) = [])
    (hq : q < nTaskqueues) :
  ∃ s' L', Quiet maxTasks nTaskqueues taskqueueId processId p s' L' ∧ L' (.loc p) = [] ∧
    L' (.freed q) = [] ∧
    ∀ pl, pl ≠ .freed q → pl ≠ .loc p → pl ≠ .fresh p → pl ≠ .queued 0 → L' pl = L pl
  := by
  obtain ⟨n, hn⟩ : ∃ n, n = (L (.freed q)).length := ⟨_, rfl⟩
  induction n using Nat.strong_induction_on generalizing s L with
  | h n ih =>
      by_cases hnil : L (.freed q) = []
      · exact ⟨s, L, h, hlocal, hnil, fun _ _ _ _ _ => rfl⟩
      · obtain ⟨hrun, hL, hbatch⟩ := h
        have hnone := hL.loc_eq_nil.mpr hlocal
        obtain ⟨L₁, hL₁, hlt, hframe₁⟩ := hL.func7 hq hnone
        have hrun₁ := hrun.step (.func7 p q) ⟨hL.batch_eq_nil.mpr hbatch, hq, hnone⟩ rfl
        have hbatch₁ : L₁ (.batch p) = [] := (hframe₁ _ (by simp) (by simp)).trans hbatch
        obtain ⟨s₂, L₂, h₂, hlocal₂, hframe₂⟩ :=
          Quiet.exists_loc_empty ⟨hrun₁, hL₁, hbatch₁⟩ (Nat.zero_lt_of_lt hq)
        have hfreed : L₂ (.freed q) = L₁ (.freed q) := hframe₂ _ (by simp) (by simp) (by simp)
        have hless : (L₂ (.freed q)).length < n := by
          rw [hfreed, hn]
          exact hlt hnil
        obtain ⟨s', L', h', hlocal', hempty, hframe⟩ := ih _ hless h₂ hlocal₂ rfl
        refine ⟨s', L', h', hlocal', hempty, ?_⟩
        intro pl hA hB hC hD
        rw [hframe pl hA hB hC hD, hframe₂ pl hB hC hD, hframe₁ pl hA hB]

/-- A processor takes all free task objects of the first queues. -/
theorem Quiet.exists_drained
    {m : Nat} (h : Quiet maxTasks nTaskqueues taskqueueId processId p s L) (hlocal : L (.loc p) = [])
    (hm : m ≤ nTaskqueues) :
  ∃ s' L', Quiet maxTasks nTaskqueues taskqueueId processId p s' L' ∧ L' (.loc p) = [] ∧
    (∀ q < m, L' (.freed q) = []) ∧
    ∀ pl, (∀ q < m, pl ≠ .freed q) → pl ≠ .loc p → pl ≠ .fresh p → pl ≠ .queued 0 → L' pl = L pl
  := by
  induction m with
  | zero =>
      exact ⟨s, L, h, hlocal, fun q hq => absurd hq (Nat.not_lt_zero q), fun _ _ _ _ _ => rfl⟩
  | succ m ih =>
      obtain ⟨s₁, L₁, h₁, hlocal₁, hempty₁, hframe₁⟩ := ih (Nat.le_of_succ_le hm)
      obtain ⟨s', L', h', hlocal', hempty, hframe⟩ := h₁.exists_freed_empty hlocal₁ hm
      refine ⟨s', L', h', hlocal', ?_, ?_⟩
      · intro q hq
        by_cases hqm : q = m
        · rw [hqm]
          exact hempty
        · rw [hframe _ (by simpa using hqm) (by simp) (by simp) (by simp)]
          exact hempty₁ q (by omega)
      · intro pl hA hB hC hD
        rw [hframe pl (hA m (Nat.lt_succ_self m)) hB hC hD,
          hframe₁ pl (fun q hq => hA q (by omega)) hB hC hD]

end Drain

/-- With 34 queues, and no free task object in the others, the first processor does not look at the
last queue. -/
theorem getTaskCall_eq_none
    {maxTasks : Nat} {s : State (Fin 34)} {L : Place (Fin 34) → List Nat}
    (h : s.Consistent maxTasks 34 L) (hlocal : s.localFreeTask 0 = none)
    (hempty : ∀ q < 33, L (.freed q) = []) :
  getTaskCall 34 Fin.val s 0 = none
  := by
  rw [getTaskCall, if_pos hlocal]
  rcases getTaskLoop_eq h (by decide : Fin.val (0 : Fin 34) < 34) with ⟨hnone, -⟩ | ⟨d, hd, hne, -⟩
  · rw [hnone]
    rfl
  · exfalso
    apply hne
    rw [maxTaskgetRetry] at hd
    rw [Fin.val_zero, Nat.zero_add, Nat.mod_eq_of_lt (by omega)]
    exact hempty d (by omega)

/-- There are such states in the runs from `init_taskq`. -/
theorem exists_run_misses_last :
  ∃ s L, Run 32768 34 Fin.val (0 : Fin 34) s ∧ s.Consistent 32768 34 L ∧
    s.localFreeTask 0 = none ∧ L (.freed 33) ≠ [] ∧ getTaskCall 34 Fin.val s 0 = none
  := by
  have hinit : Quiet 32768 34 Fin.val (0 : Fin 34) 1 (initTaskq 32768 34 State.zero 0)
      (startPlaces 32768 34) :=
    ⟨.init, consistent_initTaskq 0 (by decide) (by decide), rfl⟩
  obtain ⟨s, L, ⟨hrun, hL, -⟩, -, hempty, hframe⟩ := hinit.exists_drained rfl (by decide : 33 ≤ 34)
  have hlocal : s.localFreeTask 0 = none := by
    rw [hL.loc_eq_nil, hframe _ (by simp) (by simp) (by simp) (by simp)]
    rfl
  refine ⟨s, L, hrun, hL, hlocal, ?_, getTaskCall_eq_none hL hlocal hempty⟩
  rw [hframe _ (fun q hq => by simp; omega) (by simp) (by simp) (by simp), startPlaces, if_pos (by decide)]
  simp [tasksOf, taskPerQueue]

/-- All task objects but one are in the first queue, and this one is the only free one. -/
def crowded : State (Fin 34) where
  next a := if 1 ≤ a ∧ a + 1 < 32768 then some (a + 1) else none
  queue q := if q = 0 then ⟨some 1, some 32767, 32767, none, 0⟩
    else if q = 33 then ⟨none, none, 0, some 0, 1⟩ else ⟨none, none, 0, none, 0⟩
  localFreeTask _ := none
  nLocalFreeTask _ := 0
  fresh _ := []
  taken _ := []
  batch _ := none

/-- The places of the objects in `crowded`. -/
def crowdedPlaces : Place (Fin 34) → List Nat
  | .queued q => if q = 0 then List.range' 1 32767 else []
  | .freed q => if q = 33 then [0] else []
  | _ => []

theorem mem_crowdedPlaces {pl : Place (Fin 34)} {a : Nat} :
  a ∈ crowdedPlaces pl ↔ (pl = .queued 0 ∧ 1 ≤ a ∧ a < 32768) ∨ (pl = .freed 33 ∧ a = 0)
  := by
  cases pl with
  | queued q =>
      rw [crowdedPlaces]
      split_ifs with hq
      · rw [List.mem_range'_1]
        simp [hq]
      · simp [hq]
  | freed q =>
      rw [crowdedPlaces]
      split_ifs with hq <;> simp [hq]
  | _ => simp [crowdedPlaces]

theorem consistent_crowded :
  crowded.Consistent 32768 34 crowdedPlaces
  := by
  refine ⟨⟨?_, ?_, ?_⟩, ?_, ?_⟩
  · intro pl
    cases pl with
    | queued q =>
        rw [crowdedPlaces]
        split_ifs
        · exact List.nodup_range'
        · exact List.nodup_nil
    | freed q =>
        rw [crowdedPlaces]
        split_ifs
        · exact List.nodup_singleton 0
        · exact List.nodup_nil
    | _ => exact List.nodup_nil
  · intro pl pl' a ha ha'
    rw [mem_crowdedPlaces] at ha ha'
    rcases ha with ⟨rfl, ha⟩ | ⟨rfl, ha⟩ <;> rcases ha' with ⟨rfl, ha'⟩ | ⟨rfl, ha'⟩ <;>
      first | rfl | omega
  · intro a
    simp only [mem_crowdedPlaces]
    constructor
    · intro ha
      rcases Nat.eq_zero_or_pos a with hzero | hpos
      · exact ⟨.freed 33, .inr ⟨rfl, hzero⟩⟩
      · exact ⟨.queued 0, .inl ⟨rfl, hpos, ha⟩⟩
    · rintro ⟨pl, ⟨-, -, ha⟩ | ⟨-, ha⟩⟩
      · exact ha
      · omega
  · intro pl _
    cases pl with
    | queued q =>
        rw [crowdedPlaces]
        by_cases hq : q = 0
        · rw [if_pos hq]
          simp only [State.Holds, crowded, if_pos hq, List.length_range']
          refine ⟨?_, ?_, rfl⟩
          · apply chain_range' (by decide)
            intro a ha hlt
            by_cases hlast : a + 1 < 1 + 32767
            · rw [if_pos ⟨ha, by omega⟩, if_pos hlast]
            · rw [if_neg (by omega), if_neg hlast]
          · rw [List.getLast?_range', if_neg (by decide)]
        · rw [if_neg hq]
          simp only [State.Holds, crowded, if_neg hq]
          split_ifs <;> exact ⟨rfl, rfl, rfl⟩
    | freed q =>
        rw [crowdedPlaces]
        by_cases hq : q = 33
        · rw [if_pos hq]
          have hq0 : ¬q = 0 := by omega
          simp only [State.Holds, crowded, if_neg hq0, if_pos hq]
          exact ⟨⟨rfl, rfl⟩, rfl⟩
        · rw [if_neg hq]
          simp only [State.Holds, crowded, if_neg hq]
          split_ifs <;> exact ⟨rfl, rfl⟩
    | loc p => exact ⟨rfl, rfl⟩
    | fresh p =>
        refine ⟨rfl, ?_⟩
        rintro _ ⟨⟩
    | taken p => rfl
    | batch p => rfl
  · intro pl hpl
    cases pl with
    | queued q =>
        rw [crowdedPlaces, if_neg]
        rintro rfl
        exact hpl (by decide : 0 < 34)
    | freed q =>
        rw [crowdedPlaces, if_neg]
        rintro rfl
        exact hpl (by decide : 33 < 34)
    | _ => rfl

/-- With 34 queues, and a free task object in the last one only, the first processor gives up. -/
theorem getTask_misses_last :
  crowded.Consistent 32768 34 crowdedPlaces ∧ crowded.localFreeTask 0 = none ∧
    crowdedPlaces (.freed 33) = [0] ∧ getTaskCall 34 Fin.val crowded 0 = none
  := by
  refine ⟨consistent_crowded, rfl, rfl, getTaskCall_eq_none consistent_crowded rfl ?_⟩
  intro q hq
  rw [crowdedPlaces, if_neg (by omega)]

/-- The processor next to the last queue does get it. -/
theorem getTask_iff_near :
  ∃ s' t, getTaskCall 34 Fin.val crowded 1 = some (s', t) ∧
    ∃ r < 34, t ∈ crowdedPlaces (.freed r)
  :=
  (getTask_iff consistent_crowded (by decide) rfl ⟨33, by decide, by decide⟩).mpr
    ⟨32, by decide, by decide⟩

end Radiosity
