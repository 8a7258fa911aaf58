import Ffwd.Synchro.LazyList

/-!
# Membership in the lazy list

`parse_find` reads the pointers of the list one by one while the server changes them, and it goes
on through nodes that have been unlinked. A node that is not in the list any more keeps the
successor it had when it was; so what the walk finds was in the list, or was missing from it, at
some instant since the walk began. A deletion takes effect with its second write.
-/

namespace LazyList

variable {C : Type} [DecidableEq C]

/-- A run of the system from a list that the main thread has filled. -/
structure Run (m : Memory) (run : Nat → State C) (n : Nat) : Prop where
  start : run 0 = State.start m
  step : ∀ k < n, (run k).Step (run (k + 1))

section Run

variable {m : Memory} {run : Nat → State C} {n : Nat}

theorem Run.reachable (h : Run m run n) {k : Nat} (hk : k ≤ n) :
  Reachable m (run k)
  := by
  induction k with
  | zero =>
      rw [h.start]
      exact .refl
  | succ k ih => exact (ih (Nat.le_of_succ_le hk)).tail (h.step k hk)

/-- A list of states, each a step after the one before, is a run. -/
theorem Run.of_isChain {l : List (State C)} (h : (State.start m :: l).IsChain State.Step) :
  Run m (fun k => (State.start m :: l).getD k (State.start m)) l.length
  := by
  constructor
  · rfl
  · intro k hk
    have hstep := List.isChain_iff_getElem.mp h k (by simpa using hk)
    rw [List.getD_eq_getElem _ _ (by simp; omega), List.getD_eq_getElem _ _ (by simp; omega)]
    exact hstep

/-- The invariant along a run, with the same last node all the time. -/
theorem Run.inv (h : Run m run n) (hm : Filled m) :
  ∃ initial tail, ∀ k ≤ n, ∃ l, (run k).Inv initial l tail
  := by
  obtain ⟨l, tail, hordered, hmarks⟩ := hm.ordered
  refine ⟨l.length, tail, ?_⟩
  intro k hk
  exact (h.reachable hk).inv hordered hmarks

variable {initial : Nat} {tail : Addr}

theorem Run.evolves
    (h : Run m run n) (hinv : ∀ k ≤ n, ∃ l, (run k).Inv initial l tail) {k : Nat} (hk : k < n) :
  (run k).mem.Evolves (run (k + 1)).mem
  := by
  obtain ⟨l, hl⟩ := hinv k (Nat.le_of_lt hk)
  exact (hl.step (h.step k hk)).evolves

/-- The nodes are kept with their values. -/
theorem Run.frame
    (h : Run m run n) (hinv : ∀ k ≤ n, ∃ l, (run k).Inv initial l tail) {i k : Nat} {a : Addr}
    (hik : i ≤ k) (hk : k ≤ n) (ha : a ∈ (run i).mem.used) :
  a ∈ (run k).mem.used ∧ (run k).mem.val a = (run i).mem.val a
  := by
  induction k, hik using Nat.le_induction with
  | base => exact ⟨ha, rfl⟩
  | succ k hik ih =>
      obtain ⟨hused, hval⟩ := ih (Nat.le_of_succ_le hk)
      have hevolves := h.evolves hinv hk
      exact ⟨hevolves.used hused, (hevolves.val a hused).trans hval⟩

/-- The successor of a node that was in the list at some instant is the successor it had at that
instant, or at a later one when it was still there. -/
theorem Run.succ_of_list
    (h : Run m run n) (hinv : ∀ k ≤ n, ∃ l, (run k).Inv initial l tail) {i k : Nat} {a : Addr}
    (hik : i ≤ k) (hk : k ≤ n) (ha : a ∈ (run i).mem.list) :
  ∃ t, i ≤ t ∧ t ≤ k ∧ a ∈ (run t).mem.list ∧ (run t).mem.succ a = (run k).mem.succ a
  := by
  have hused : a ∈ (run i).mem.used := by
    obtain ⟨l, hl⟩ := hinv i (Nat.le_trans hik hk)
    rw [hl.ordered.list_eq] at ha
    exact hl.ordered.used a ha
  induction k, hik using Nat.le_induction with
  | base => exact ⟨i, Nat.le_refl i, Nat.le_refl i, ha, rfl⟩
  | succ k hik ih =>
      by_cases hlist : a ∈ (run (k + 1)).mem.list
      · exact ⟨k + 1, Nat.le_succ_of_le hik, Nat.le_refl _, hlist, rfl⟩
      · obtain ⟨t, hit, htk, htlist, htsucc⟩ := ih (Nat.le_of_succ_le hk)
        have hkused := (h.frame hinv hik (Nat.le_of_succ_le hk) hused).1
        refine ⟨t, hit, Nat.le_succ_of_le htk, htlist, ?_⟩
        rw [htsucc, (h.evolves hinv hk).succ a hkused hlist]

end Run

/-! ### The walk -/

/-- What a client in `parse_find` may do next. -/
theorem State.Step.find_cases
    {s s' : State C} {c : C} {val : Int} {a : Addr} (h : s.Step s')
    (hclient : s.client c = .finding val a) :
  s'.client c = .finding val a ∨
    (s.mem.val a < val ∧ s'.client c = .finding val (s.mem.succ a)) ∨
    (¬s.mem.val a < val ∧
      s'.client c = .found val (s.mem.val a = val && !isMarkedRef a) ∧ s'.mem = s.mem)
  := by
  have hother : ∀ {c' : C} {client : Client} {t : State C}, t.client = s.client →
      (∀ x, s.client c' ≠ .finding val x) → (t.go c' client).client c = .finding val a := by
    intro c' client t ht hc'
    have hne : c ≠ c' := by
      rintro rfl
      exact hc' a hclient
    rw [State.go_of_ne hne, ht, hclient]
  cases h with
  | invoke c' op v hclient' _ => exact .inl (hother rfl (by rw [hclient']; nofun))
  | advance c' op v pred curr hclient' _ => exact .inl (hother rfl (by rw [hclient']; nofun))
  | delegate c' op v pred curr hclient' _ => exact .inl (hother rfl (by rw [hclient']; nofun))
  | insert c' v pred curr new _ hclient' _ => exact .inl (hother rfl (by rw [hclient']; nofun))
  | refuse c' v pred curr _ hclient' _ => exact .inl (hother rfl (by rw [hclient']; nofun))
  | mark c' v pred curr _ _ _ _ => exact .inl hclient
  | unlink c' v pred curr _ hclient' => exact .inl (hother rfl (by rw [hclient']; nofun))
  | find c' v hclient' _ => exact .inl (hother rfl (by rw [hclient']; nofun))
  | look c' v curr hclient' hv =>
      by_cases hc : c = c'
      · subst hc
        obtain ⟨rfl, rfl⟩ : val = v ∧ a = curr := by simpa [hclient] using hclient'
        exact .inr (.inl ⟨hv, State.go_self⟩)
      · exact .inl ((State.go_of_ne hc).trans hclient)
  | answer c' v curr hclient' hv =>
      by_cases hc : c = c'
      · subst hc
        obtain ⟨rfl, rfl⟩ : val = v ∧ a = curr := by simpa [hclient] using hclient'
        exact .inr (.inr ⟨hv, State.go_self, rfl⟩)
      · exact .inl ((State.go_of_ne hc).trans hclient)
  | backUpdate c' op v result hclient' => exact .inl (hother rfl (by rw [hclient']; nofun))
  | backFind c' v result hclient' => exact .inl (hother rfl (by rw [hclient']; nofun))

/-- There is nothing in the list between a node and its successor. -/
theorem Memory.Ordered.succ_mem
    {m : Memory} {l : List Addr} {tail a : Addr} (h : m.Ordered l tail) (ha : a ∈ m.list)
    (hne : a ≠ tail) :
  m.succ a ∈ m.list ∧ ∀ x ∈ m.list, m.val x < m.val (m.succ a) → m.val x ≤ m.val a
  := by
  have hlist := h.list_eq
  rw [← List.cons_append] at hlist
  rw [hlist] at ha ⊢
  have ha := (List.mem_append.mp ha).resolve_right (fun htail => hne (List.mem_singleton.mp htail))
  obtain ⟨l₁, l₂, rfl, hlast, hfirst⟩ := h.split ha
  have hsorted := h.sorted
  rw [List.append_assoc, ← List.cons_append] at hsorted
  obtain ⟨hsorted₁, hsorted₂, -⟩ := List.pairwise_append.mp hsorted
  rw [List.cons_append, List.append_assoc, ← List.cons_append, ← hfirst]
  constructor
  · apply List.mem_append_right
    cases l₂ <;> simp
  · intro x hx hlt
    rcases List.mem_append.mp hx with hx | hx
    · rw [← hlast]
      rcases Linked.rel_last hsorted₁ hx with rfl | hxlast
      · exact Int.le_refl _
      · exact Int.le_of_lt hxlast
    · exfalso
      cases l₂ with
      | nil =>
          rw [List.mem_singleton.mp hx] at hlt
          exact Int.lt_irrefl _ hlt
      | cons b l₂ =>
          rcases List.mem_cons.mp hx with rfl | hx
          · exact Int.lt_irrefl _ hlt
          · exact Int.lt_asymm hlt ((List.pairwise_cons.mp hsorted₂).1 x hx)

/-- At some instant since the walk began the node was in the list, and all values before it were
less than the one that is looked for. -/
def Seen (run : Nat → State C) (i k : Nat) (val : Int) (a : Addr) : Prop :=
  ∃ t, i ≤ t ∧ t ≤ k ∧ a ∈ (run t).mem.list ∧
    ∀ x ∈ (run t).mem.list, (run t).mem.val x < (run t).mem.val a → (run t).mem.val x < val

section Find

variable {m : Memory} {run : Nat → State C} {n initial i k : Nat} {tail a : Addr} {val : Int}
    {c : C}

omit [DecidableEq C] in
theorem Seen.mono (h : Seen run i k val a) :
  Seen run i (k + 1) val a
  := by
  obtain ⟨t, hit, htk, ht⟩ := h
  exact ⟨t, hit, Nat.le_succ_of_le htk, ht⟩

omit [DecidableEq C] in
theorem Run.seen_used
    (hinv : ∀ k ≤ n, ∃ l, (run k).Inv initial l tail) {t : Nat} (ht : t ≤ n)
    (ha : a ∈ (run t).mem.list) :
  a ∈ (run t).mem.used
  := by
  obtain ⟨l, hl⟩ := hinv t ht
  rw [hl.ordered.list_eq] at ha
  exact hl.ordered.used a ha

/-- The walk goes on to the next node. -/
theorem Run.seen_succ
    (h : Run m run n) (hinv : ∀ k ≤ n, ∃ l, (run k).Inv initial l tail) (hk : k ≤ n)
    (hseen : Seen run i k val a) (hlt : (run k).mem.val a < val) (hmax : val < valMax) :
  Seen run i k val ((run k).mem.succ a)
  := by
  obtain ⟨t, hit, htk, hlist, -⟩ := hseen
  obtain ⟨t', htt', ht'k, hlist', hsucc⟩ := h.succ_of_list hinv htk hk hlist
  obtain ⟨l, hl⟩ := hinv t' (Nat.le_trans ht'k hk)
  have hused := Run.seen_used hinv (Nat.le_trans ht'k hk) hlist'
  have hval := (h.frame hinv ht'k hk hused).2
  rw [hval] at hlt
  obtain ⟨hmem, hbefore⟩ := hl.ordered.succ_mem hlist' (hl.ordered.ne_tail (Int.lt_trans hlt hmax))
  refine ⟨t', Nat.le_trans hit htt', ht'k, ?_, ?_⟩
  · rw [← hsucc]
    exact hmem
  · intro x hx hxlt
    rw [← hsucc] at hxlt
    exact Int.lt_of_le_of_lt (hbefore x hx hxlt) hlt

/-- The node a walk has come to. -/
theorem Run.seen
    (h : Run m run n) (hinv : ∀ k ≤ n, ∃ l, (run k).Inv initial l tail)
    (hinvoke : (run i).client c = .finding val (run i).mem.head) (hik : i ≤ k) (hk : k ≤ n)
    (hfind : ∀ t, i ≤ t → t ≤ k → ∃ b, (run t).client c = .finding val b)
    (hclient : (run k).client c = .finding val a) :
  Seen run i k val a
  := by
  induction k, hik using Nat.le_induction generalizing a with
  | base =>
      obtain ⟨l, hl⟩ := hinv i hk
      obtain rfl : (run i).mem.head = a := by
        rw [hinvoke] at hclient
        simpa using hclient
      refine ⟨i, Nat.le_refl i, Nat.le_refl i, ?_, ?_⟩
      · rw [hl.ordered.list_eq]
        exact List.mem_cons_self
      · intro x hx hlt
        rw [hl.ordered.list_eq] at hx
        rcases List.mem_cons.mp hx with rfl | hx
        · exact absurd hlt (Int.lt_irrefl _)
        · have hhead := (List.pairwise_cons.mp hl.ordered.sorted).1 x hx
          exact absurd hlt (Int.lt_asymm hhead)
  | succ k hik ih =>
      obtain ⟨b, hb⟩ := hfind k hik (Nat.le_succ k)
      have hk' := Nat.le_of_succ_le hk
      have hseen := ih hk' (fun t hit htk => hfind t hit (Nat.le_succ_of_le htk)) hb
      obtain ⟨l, hl⟩ := hinv k hk'
      have hok := hl.client c
      rw [hb] at hok
      rcases (h.step k hk).find_cases hb with hstay | ⟨hlt, hgo⟩ | ⟨-, hfound, -⟩
      · obtain rfl : b = a := by
          rw [hstay] at hclient
          simpa using hclient
        exact hseen.mono
      · obtain rfl : (run k).mem.succ b = a := by
          rw [hgo] at hclient
          simpa using hclient
        exact (h.seen_succ hinv hk' hseen hlt hok.2.1).mono
      · rw [hfound] at hclient
        exact absurd hclient nofun

/-- What the last node tells of the set at the instant it was seen. -/
theorem Run.seen_answer
    (h : Run m run n) (hinv : ∀ k ≤ n, ∃ l, (run k).Inv initial l tail) (hk : k ≤ n)
    (hseen : Seen run i k val a) (hle : ¬(run k).mem.val a < val)
    (hval : valMin < val ∧ val < valMax) :
  ∃ t, i ≤ t ∧ t ≤ k ∧ ((run k).mem.val a = val ↔ val ∈ (run t).mem.set)
  := by
  obtain ⟨t, hit, htk, hlist, hbefore⟩ := hseen
  have hused := Run.seen_used hinv (Nat.le_trans htk hk) hlist
  rw [(h.frame hinv htk hk hused).2] at hle ⊢
  refine ⟨t, hit, htk, ?_⟩
  rw [Memory.set, Finset.mem_filter, List.mem_toFinset, List.mem_map]
  constructor
  · intro heq
    exact ⟨⟨a, hlist, heq⟩, hval⟩
  · rintro ⟨⟨x, hx, rfl⟩, -⟩
    by_contra hne
    have hlt := hbefore x hx (by omega)
    exact Int.lt_irrefl _ hlt

/-- The answer of `parse_find` is the one the set had for the value at some instant between its
invocation and its return, where the set changes only when an insertion or a deletion is completed
that returns 1. -/
theorem find_linearizable
    {j : Nat} {result : Bool} (hm : Filled m) (h : Run m run n) (hij : i < j) (hj : j ≤ n)
    (hinvoke : (run i).client c = .finding val (run i).mem.head)
    (hfind : ∀ k, i ≤ k → k < j → ∃ a, (run k).client c = .finding val a)
    (hreturn : (run j).client c = .found val result) :
  (∃ k, i ≤ k ∧ k ≤ j ∧ (result = true ↔ val ∈ (run k).mem.set)) ∧
    ∀ k < n, (run k).SetStep (run (k + 1))
  := by
  obtain ⟨initial, tail, hinv⟩ := h.inv hm
  constructor
  · obtain ⟨j, rfl⟩ : ∃ j', j = j' + 1 := ⟨j - 1, by omega⟩
    have hj' := Nat.le_of_succ_le hj
    have hij := Nat.le_of_lt_succ hij
    obtain ⟨a, ha⟩ := hfind j hij (Nat.lt_succ_self j)
    have hseen := h.seen hinv hinvoke hij hj'
      (fun t hit htj => hfind t hit (Nat.lt_succ_of_le htj)) ha
    obtain ⟨l, hl⟩ := hinv j hj'
    have hok := hl.client c
    rw [ha] at hok
    rcases (h.step j hj).find_cases ha with hstay | ⟨-, hgo⟩ | ⟨hle, hfound, -⟩
    · rw [hstay] at hreturn
      exact absurd hreturn nofun
    · rw [hgo] at hreturn
      exact absurd hreturn nofun
    · obtain ⟨t, hit, htj, hiff⟩ := h.seen_answer hinv hj' hseen hle ⟨hok.1, hok.2.1⟩
      refine ⟨t, hit, Nat.le_succ_of_le htj, ?_⟩
      rw [hfound] at hreturn
      have hresult : (decide ((run j).mem.val a = val) && !isMarkedRef a) = result := by
        simpa using hreturn
      rw [← hresult, isMarkedRef_of_aligned (hl.ordered.aligned a hok.2.2), ← hiff]
      simp
  · intro k hk
    obtain ⟨l, hl⟩ := hinv k (Nat.le_of_lt hk)
    exact (hl.step (h.step k hk)).set

end Find

/-- The walk comes to the node of 5 after it has been marked, and finds it after it has been
unlinked. -/
theorem find_linearizable_marked :
  ∃ (m : Memory) (run : Nat → State Bool), Filled m ∧ Run m run 7 ∧
    (run 7).client true = .found 5 true ∧ 5 ∉ (run 7).mem.set ∧
    ∃ k, 1 ≤ k ∧ k ≤ 7 ∧ 5 ∈ (run k).mem.set
  := by
  have hm : Filled (setNewL 16 32) := .new 16 32 (by decide) (by decide) (by decide)
  have hm : Filled ((newNodeL (setNewL 16 32) 48 5 16).setNext 32 48) :=
    hm.add 2 48 5 true (by decide) (by decide) (by rfl)
  have h := Run.of_isChain (C := Bool) (m := (newNodeL (setNewL 16 32) 48 5 16).setNext 32 48) <|
    .cons_cons (.find true 5 rfl (by decide)) <|
    .cons_cons (.invoke false .remove 5 rfl (by decide)) <|
    .cons_cons (.delegate false .remove 5 32 48 rfl (by decide)) <|
    .cons_cons (.mark false 5 32 48 rfl rfl (by decide) (by decide)) <|
    .cons_cons (.look true 5 32 rfl (by decide)) <|
    .cons_cons (.unlink false 5 32 48 rfl rfl) <|
    .cons_cons (.answer true 5 48 rfl (by decide)) <|
    .singleton _
  refine ⟨_, _, hm, h, rfl, by decide, ?_⟩
  have hfind := find_linearizable (c := true) (i := 1) (j := 7) hm h (by decide) (Nat.le_refl 7)
    (rfl : _ = Client.finding 5 _) (by
      intro k hik hkj
      interval_cases k <;> exact ⟨_, rfl⟩) (rfl : _ = Client.found 5 true)
  obtain ⟨k, hik, hkj, hiff⟩ := hfind.1
  exact ⟨k, hik, hkj, hiff.mp rfl⟩

end LazyList
