import Ffwd.Micro.SkipList

/-!
# The search of the skip list with a lock

In the builds with a mutex or the MCS lock an operation on the skip list is a critical section.
`skiplist_search` releases the lock when it has arrived at the node before the one it looks for,
and reads the pointer to the node it returns only then. Between the two another thread may complete
an insertion or a deletion.
-/

namespace Micro.SkipSearch

open Linked

variable {T Addr : Type} [DecidableEq T] [DecidableEq Addr]

/-! ### The threads -/

/-- What `skiplist_search` does before it releases the lock: the node before that of the key, if the
key is there. -/
def searchLocked (s : SkipList Addr) (key : Int) : Option (Option Addr) := do
  let (x, _) ← descend s key s.level s.header (fun _ => s.header)
  if s.key (s.forward x 1) = key then
    return some x
  else
    return none

/-- A thread outside of `skiplist_search`, in it before the critical section, after the critical
section with the key found behind `x`, and about to return. -/
inductive Stage (Addr : Type) where
  | idle
  | called (key : Int)
  | found (key : Int) (x : Addr)
  | returned (key : Int) (node : Option Addr)
  deriving DecidableEq

structure State (T Addr : Type) where
  list : SkipList Addr
  thread : T → Stage Addr

/-- What the threads do, with the arguments of `SkipListOp` for the insertions and deletions. -/
inductive Event (T Addr : Type) where
  | insert (p : T) (key value : Int) (update : Nat → Addr) (coins : List Bool) (new : Addr)
  | delete (p : T) (key : Int) (update : Nat → Addr)
  | call (p : T) (key : Int)
  | search (p : T)
  | read (p : T)
  | back (p : T)

def State.go (s : State T Addr) (p : T) (stage : Stage Addr) : State T Addr :=
  { s with thread := Function.update s.thread p stage }

def State.exec (levelmax : Nat) (s : State T Addr) : Event T Addr → Option (State T Addr)
  | .insert p key value update coins new =>
      if s.thread p = .idle ∧ key < intMax ∧ new ∉ s.list.used then do
        let (list, _) ← skiplistInsert s.list levelmax update coins new key value
        return { s with list := list }
      else none
  | .delete p key update =>
      if s.thread p = .idle ∧ key < intMax then do
        let (list, _) ← skiplistDelete s.list update key
        return { s with list := list }
      else none
  | .call p key => if s.thread p = .idle ∧ key < intMax then some (s.go p (.called key)) else none
  | .search p =>
      match s.thread p with
      | .called key => do
          match ← searchLocked s.list key with
          | some x => return s.go p (.found key x)
          | none => return s.go p (.returned key none)
      | _ => none
  | .read p =>
      match s.thread p with
      | .found key x => some (s.go p (.returned key (some (s.list.forward x 1))))
      | _ => none
  | .back p =>
      match s.thread p with
      | .returned _ _ => some (s.go p .idle)
      | _ => none

/-- A run of `n` steps from the list as `skiplist_init` makes it; the insertions of the main thread
are the first of its steps. Every step is one that is allowed in the state before it. -/
structure Run (levelmax : Nat) (allowed : State T Addr → Event T Addr → Prop)
    (list : SkipList Addr) (run : Nat → State T Addr) (n : Nat) : Prop where
  start : run 0 = ⟨list, fun _ => .idle⟩
  step : ∀ k < n, ∃ e, allowed (run k) e ∧ (run k).exec levelmax e = some (run (k + 1))

/-- The node can be reached from the header on the lowest level. -/
def InList (s : SkipList Addr) (a : Addr) : Prop :=
  a ≠ s.header ∧ Relation.ReflTransGen (fun x y => s.forward x 1 = y) s.header a

/-- What `skiplist_search` returns at `j` is a node that had the key and was in the list at some
instant since the call at `i`, or `NULL` if at some instant no node of the list had the key. -/
def Linearizable (run : Nat → State T Addr) (n : Nat) : Prop :=
  ∀ p key node i j, i < j → j ≤ n → (run i).thread p = .called key →
    (∀ k, i ≤ k → k < j →
      (run k).thread p = .called key ∨ ∃ x, (run k).thread p = .found key x) →
    (run j).thread p = .returned key node →
    ∃ k, i ≤ k ∧ k ≤ j ∧
      match node with
      | some a => InList (run k).list a ∧ (run k).list.key a = key
      | none => ∀ a, InList (run k).list a → (run k).list.key a ≠ key

/-- Nobody has released the lock before reading the pointer from `x` to the node of a key `k` when
an insertion puts a node between the two, or a deletion takes one of them away. -/
def State.Quiet (s : State T Addr) : Event T Addr → Prop
  | .insert _ key _ _ _ _ => ∀ q k x, s.thread q = .found k x →
      ¬((x = s.list.header ∨ s.list.key x < key) ∧ key < k)
  | .delete _ key _ => ∀ q k x, s.thread q = .found k x →
      key ≠ k ∧ (x = s.list.header ∨ s.list.key x ≠ key)
  | _ => True

/-! ### The list between the release of the lock and the return -/

omit [DecidableEq Addr] in
theorem inList_iff
    {s : SkipList Addr} {levelmax : Nat} {l : List Addr} {height : Addr → Nat} {a : Addr}
    (h : s.Levels levelmax l height) :
  InList s a ↔ a ∈ l
  := by
  have hring := h.rings 1 (Nat.le_refl 1) (Nat.le_trans h.level.1 h.level.2)
  have hall : l.filter (1 ≤ height ·) = l := by
    rw [List.filter_eq_self]
    intro b hb
    exact decide_eq_true (h.heights b hb).1
  rw [hall] at hring
  rw [InList, ← hring.mem_iff_reachable, List.mem_cons]
  constructor
  · rintro ⟨hne, rfl | ha⟩
    · exact absurd rfl hne
    · exact ha
  · intro ha
    refine ⟨?_, .inr ha⟩
    rintro rfl
    exact (List.nodup_cons.mp h.nodup).1 ha

omit [DecidableEq Addr] in
/-- The search when nothing happens between the release of the lock and the return. -/
theorem skiplistSearch_eq (s : SkipList Addr) (key : Int) :
  skiplistSearch s key = (searchLocked s key).map (Option.map (s.forward · 1))
  := by
  rw [skiplistSearch, searchLocked]
  cases descend s key s.level s.header (fun _ => s.header) with
  | none => rfl
  | some r =>
      obtain ⟨x, update⟩ := r
      by_cases hkey : s.key (s.forward x 1) = key
      · simp [hkey]
      · simp [hkey]

/-- A thread that has released the lock has a node of the list, and the next one has the key. -/
structure Window (s : SkipList Addr) (l : List Addr) (key : Int) (x : Addr) : Prop where
  mem : x ∈ s.header :: l
  next : s.forward x 1 ∈ l
  key : s.key (s.forward x 1) = key

/-- The critical section ends with such a node, or the key is not there. -/
theorem searchLocked_spec
    {s : SkipList Addr} {levelmax : Nat} {map : Int → Option Int} {l : List Addr}
    {height : Addr → Nat} {key : Int} (h : s.Holds levelmax map l height) (hkey : key < intMax) :
  (∃ x, searchLocked s key = some (some x) ∧ Window s l key x) ∨
    (searchLocked s key = some none ∧ ∀ a ∈ l, s.key a ≠ key)
  := by
  obtain ⟨l₁, l₂, x, update', rfl, hl₁, hl₂, hdescend, hx, hforward, -⟩ :=
    h.levels.located hkey (fun _ => s.header)
  rcases h.cases_key hkey hl₁ hl₂ with ⟨a, l₂', rfl, ha, -⟩ | ⟨hne, -, hlt⟩
  · left
    have hforward : s.forward x 1 = a := hforward
    refine ⟨x, ?_, ?_, ?_, ?_⟩
    · rw [searchLocked, hdescend]
      simp [hforward, ha]
    · rw [hx]
      rcases List.mem_cons.mp (last_mem (b := s.header) (l := l₁)) with hlast | hlast
      · rw [hlast]
        exact List.mem_cons_self
      · exact List.mem_cons_of_mem _ (List.mem_append_left _ hlast)
    · rw [hforward]
      simp
    · rw [hforward, ha]
  · right
    constructor
    · rw [searchLocked, hdescend]
      simp [hforward, hne]
    · intro a ha
      rcases List.mem_append.mp ha with ha | ha
      · have := hl₁ a ha
        omega
      · have := hlt a ha
        omega

structure State.Inv (s : State T Addr) (levelmax : Nat) (map : Int → Option Int) (l : List Addr)
    (height : Addr → Nat) : Prop where
  holds : s.list.Holds levelmax map l height
  called : ∀ p key, s.thread p = .called key → key < intMax
  window : ∀ p key x, s.thread p = .found key x → Window s.list l key x

section Step

variable {s s' : State T Addr} {levelmax : Nat} {map : Int → Option Int} {l : List Addr}
  {height : Addr → Nat} {p : T}

omit [DecidableEq Addr] in
@[simp]
theorem State.go_self {stage : Stage Addr} :
  (s.go p stage).thread p = stage
  := by
  simp [State.go]

omit [DecidableEq Addr] in
theorem State.go_of_ne {q : T} {stage : Stage Addr} (hq : q ≠ p) :
  (s.go p stage).thread q = s.thread q
  := by
  simp [State.go, hq]

omit [DecidableEq Addr] in
theorem State.Inv.go
    {stage : Stage Addr} (h : s.Inv levelmax map l height)
    (hcalled : ∀ key, stage = .called key → key < intMax)
    (hwindow : ∀ key x, stage = .found key x → Window s.list l key x) :
  (s.go p stage).Inv levelmax map l height
  := by
  refine ⟨h.holds, ?_, ?_⟩
  · intro q key hq
    by_cases hqp : q = p
    · subst hqp
      rw [State.go_self] at hq
      exact hcalled key hq
    · rw [State.go_of_ne hqp] at hq
      exact h.called q key hq
  · intro q key x hq
    by_cases hqp : q = p
    · subst hqp
      rw [State.go_self] at hq
      exact hwindow key x hq
    · rw [State.go_of_ne hqp] at hq
      exact h.window q key x hq

omit [DecidableEq T] in
theorem State.Inv.insert
    {key value : Int} {update : Nat → Addr} {coins : List Bool} {new : Addr}
    (h : s.Inv levelmax map l height) (hquiet : s.Quiet (.insert p key value update coins new))
    (hkey : key < intMax) (hnew : new ∉ s.list.used) :
  ∃ list l' height', skiplistInsert s.list levelmax update coins new key value = some (list, 0) ∧
    State.Inv { s with list := list } levelmax (Function.update map key (some value)) l' height'
  := by
  obtain ⟨list, l', height', hinsert, hholds, hheader, hframe⟩ :=
    h.holds.skiplistInsert hkey hnew update coins value
  refine ⟨list, l', height', hinsert, hholds, h.called, ?_⟩
  intro q k x hq
  obtain ⟨hmem, hnext, hk⟩ := h.window q k x hq
  obtain ⟨hx, -, hforward⟩ := hframe x hmem
  have hsame : list.forward x 1 = s.list.forward x 1 := by
    rcases hforward with hsame | ⟨hbefore, hafter⟩
    · exact hsame
    · rw [hk] at hafter
      exact absurd ⟨hbefore, hafter⟩ (hquiet q k x hq)
  obtain ⟨hnext', hkeys, -⟩ := hframe _ (List.mem_cons_of_mem _ hnext)
  constructor
  · rw [hheader]
    exact hx
  · rw [hsame]
    rcases List.mem_cons.mp hnext' with heq | hmem'
    · rw [heq] at hnext
      exact absurd hnext (List.nodup_cons.mp h.holds.levels.nodup).1
    · exact hmem'
  · rw [hsame, hkeys, hk]

omit [DecidableEq T] in
theorem State.Inv.delete
    {key : Int} {update : Nat → Addr} (h : s.Inv levelmax map l height)
    (hquiet : s.Quiet (.delete p key update)) (hkey : key < intMax) :
  ∃ list r l', skiplistDelete s.list update key = some (list, r) ∧
    State.Inv { s with list := list } levelmax (Function.update map key none) l' height
  := by
  obtain ⟨list, l', hdelete, hholds, hheader, hkeys, hframe⟩ :=
    h.holds.skiplistDelete hkey update
  refine ⟨list, _, l', hdelete, hholds, h.called, ?_⟩
  intro q k x hq
  obtain ⟨hmem, hnext, hk⟩ := h.window q k x hq
  obtain ⟨hne, hbefore⟩ := hquiet q k x hq
  obtain ⟨hx, hforward⟩ := hframe x hmem hbefore
  have hsame : list.forward x 1 = s.list.forward x 1 := by
    rcases hforward with hsame | hgone
    · exact hsame
    · rw [hk] at hgone
      exact absurd hgone.symm hne
  obtain ⟨hnext', -⟩ := hframe _ (List.mem_cons_of_mem _ hnext) (.inr (by rw [hk]; exact hne.symm))
  constructor
  · rw [hheader]
    exact hx
  · rw [hsame]
    rcases List.mem_cons.mp hnext' with heq | hmem'
    · rw [heq] at hnext
      exact absurd hnext (List.nodup_cons.mp h.holds.levels.nodup).1
    · exact hmem'
  · rw [hsame, hkeys, hk]

theorem State.Inv.step
    {e : Event T Addr} (h : s.Inv levelmax map l height) (hquiet : s.Quiet e)
    (hexec : s.exec levelmax e = some s') :
  ∃ map' l' height', s'.Inv levelmax map' l' height'
  := by
  cases e with
  | insert p key value update coins new =>
      rw [State.exec] at hexec
      split at hexec
      · case isTrue hguard =>
          obtain ⟨list, l', height', hinsert, hinv⟩ := h.insert hquiet hguard.2.1 hguard.2.2
          rw [hinsert] at hexec
          obtain rfl := Option.some.inj hexec
          exact ⟨_, _, _, hinv⟩
      · cases hexec
  | delete p key update =>
      rw [State.exec] at hexec
      split at hexec
      · case isTrue hguard =>
          obtain ⟨list, r, l', hdelete, hinv⟩ := h.delete hquiet hguard.2
          rw [hdelete] at hexec
          obtain rfl := Option.some.inj hexec
          exact ⟨_, _, _, hinv⟩
      · cases hexec
  | call p key =>
      rw [State.exec] at hexec
      split at hexec
      · case isTrue hguard =>
          obtain rfl := Option.some.inj hexec
          refine ⟨_, _, _, h.go ?_ nofun⟩
          rintro k ⟨⟩
          exact hguard.2
      · cases hexec
  | search p =>
      rw [State.exec] at hexec
      split at hexec
      · case h_1 key hthread =>
          rcases searchLocked_spec h.holds (h.called p key hthread) with
            ⟨x, hlocked, hwindow⟩ | ⟨hlocked, -⟩
          · rw [hlocked] at hexec
            obtain rfl := Option.some.inj hexec
            refine ⟨_, _, _, h.go nofun ?_⟩
            rintro k y ⟨⟩
            exact hwindow
          · rw [hlocked] at hexec
            obtain rfl := Option.some.inj hexec
            exact ⟨_, _, _, h.go nofun nofun⟩
      · cases hexec
  | read p =>
      rw [State.exec] at hexec
      split at hexec
      · obtain rfl := Option.some.inj hexec
        exact ⟨_, _, _, h.go nofun nofun⟩
      · cases hexec
  | back p =>
      rw [State.exec] at hexec
      split at hexec
      · obtain rfl := Option.some.inj hexec
        exact ⟨_, _, _, h.go nofun nofun⟩
      · cases hexec

/-- How a thread comes to return. -/
theorem State.exec_returned
    {e : Event T Addr} {key : Int} {node : Option Addr} (hexec : s.exec levelmax e = some s')
    (hthread : s.thread p = .called key ∨ ∃ x, s.thread p = .found key x)
    (hreturned : s'.thread p = .returned key node) :
  (s.thread p = .called key ∧ searchLocked s.list key = some none ∧ node = none) ∨
    ∃ x, s.thread p = .found key x ∧ node = some (s.list.forward x 1)
  := by
  have hstay : s'.thread p ≠ s.thread p := by
    rw [hreturned]
    rcases hthread with hthread | ⟨x, hthread⟩
    · rw [hthread]
      nofun
    · rw [hthread]
      nofun
  have hgo : ∀ {q : T} {stage : Stage Addr}, s' = s.go q stage →
      q = p ∧ stage = .returned key node := by
    rintro q stage rfl
    by_cases hqp : p = q
    · subst hqp
      rw [State.go_self] at hreturned
      exact ⟨rfl, hreturned⟩
    · exact absurd (State.go_of_ne hqp) hstay
  cases e with
  | insert q k value update coins new =>
      rw [State.exec] at hexec
      split at hexec
      · obtain ⟨r, -, hr⟩ := Option.bind_eq_some_iff.mp hexec
        obtain rfl := Option.some.inj hr
        exact absurd rfl hstay
      · cases hexec
  | delete q k update =>
      rw [State.exec] at hexec
      split at hexec
      · obtain ⟨r, -, hr⟩ := Option.bind_eq_some_iff.mp hexec
        obtain rfl := Option.some.inj hr
        exact absurd rfl hstay
      · cases hexec
  | call q k =>
      rw [State.exec] at hexec
      split at hexec
      · obtain ⟨-, hstage⟩ := hgo (Option.some.inj hexec).symm
        cases hstage
      · cases hexec
  | search q =>
      rw [State.exec] at hexec
      split at hexec
      · case h_1 k hq =>
          obtain ⟨r, hlocked, hr⟩ := Option.bind_eq_some_iff.mp hexec
          cases r with
          | none =>
              obtain ⟨rfl, hstage⟩ := hgo (Option.some.inj hr).symm
              obtain ⟨rfl, rfl⟩ := Stage.returned.inj hstage
              exact .inl ⟨hq, hlocked, rfl⟩
          | some x =>
              obtain ⟨-, hstage⟩ := hgo (Option.some.inj hr).symm
              cases hstage
      · cases hexec
  | read q =>
      rw [State.exec] at hexec
      split at hexec
      · case h_1 k x hq =>
          obtain ⟨rfl, hstage⟩ := hgo (Option.some.inj hexec).symm
          obtain ⟨rfl, rfl⟩ := Stage.returned.inj hstage
          exact .inr ⟨x, hq, rfl⟩
      · cases hexec
  | back q =>
      rw [State.exec] at hexec
      split at hexec
      · obtain ⟨-, hstage⟩ := hgo (Option.some.inj hexec).symm
        cases hstage
      · cases hexec

end Step

/-! ### Runs -/

theorem Run.inv
    {levelmax : Nat} {s : SkipList Addr} {header : Addr} {run : Nat → State T Addr} {n : Nat}
    (h : Run levelmax State.Quiet (skiplistInit s levelmax header) run n)
    (hlevelmax : 1 ≤ levelmax) {k : Nat} (hk : k ≤ n) :
  ∃ map l height, (run k).Inv levelmax map l height
  := by
  induction k with
  | zero =>
      rw [h.start]
      exact ⟨_, _, _, holds_init s header hlevelmax, nofun, nofun⟩
  | succ k ih =>
      obtain ⟨map, l, height, hinv⟩ := ih (Nat.le_of_succ_le hk)
      obtain ⟨e, hquiet, hexec⟩ := h.step k hk
      exact hinv.step hquiet hexec

/-- States, each of which a step leads to from the one before, are a run. -/
theorem Run.of_isChain
    (levelmax : Nat) (allowed : State T Addr → Event T Addr → Prop) (list : SkipList Addr)
    {l : List (State T Addr)}
    (h : (⟨list, fun _ => .idle⟩ :: l).IsChain
      (fun s s' => ∃ e, allowed s e ∧ s.exec levelmax e = some s')) :
  Run levelmax allowed list
    (fun k => (⟨list, fun _ => .idle⟩ :: l).getD k ⟨list, fun _ => .idle⟩) l.length
  := by
  constructor
  · rfl
  · intro k hk
    have hstep := List.isChain_iff_getElem.mp h k (by simpa using hk)
    rw [List.getD_eq_getElem _ _ (by simp; omega), List.getD_eq_getElem _ _ (by simp; omega)]
    exact hstep

/-- In a run without an insertion or a deletion next to a node that a thread is about to read,
`skiplist_search` is linearizable. -/
theorem search_linearizable
    (levelmax : Nat) (hlevelmax : 1 ≤ levelmax) (s : SkipList Addr) (header : Addr)
    (run : Nat → State T Addr) (n : Nat)
    (h : Run levelmax State.Quiet (skiplistInit s levelmax header) run n) :
  Linearizable run n
  := by
  intro p key node i j hij hj hcall hduring hreturned
  obtain ⟨j, rfl⟩ : ∃ j', j = j' + 1 := ⟨j - 1, by omega⟩
  have hij := Nat.le_of_lt_succ hij
  obtain ⟨map, l, height, hinv⟩ := h.inv hlevelmax (Nat.le_of_succ_le hj)
  obtain ⟨e, -, hexec⟩ := h.step j hj
  refine ⟨j, hij, Nat.le_succ j, ?_⟩
  rcases State.exec_returned hexec (hduring j hij (Nat.lt_succ_self j)) hreturned with
    ⟨hthread, hlocked, rfl⟩ | ⟨x, hthread, rfl⟩
  · intro a ha
    rw [inList_iff hinv.holds.levels] at ha
    rcases searchLocked_spec hinv.holds (hinv.called p key hthread) with
      ⟨x, hfound, -⟩ | ⟨-, habsent⟩
    · rw [hfound] at hlocked
      cases hlocked
    · exact habsent a ha
  · obtain ⟨-, hnext, hkey⟩ := hinv.window p key x hthread
    exact ⟨(inList_iff hinv.holds.levels).mpr hnext, hkey⟩

/-- A node with the key 7 is inserted behind that with the key 5 when the lock has been released, and
it is deleted again. -/
theorem search_linearizable_behind :
  ∃ run : Nat → State Bool Nat,
    Run 1 State.Quiet (skiplistInit ⟨fun _ => 0, fun _ => 0, fun _ _ => 0, 0, 0, ∅⟩ 1 0) run 6 ∧
    (run 6).thread true = .returned 5 (some 1) ∧ Linearizable run 6
  := by
  have hquiet : ∀ (s : State Bool Nat) (p : Bool) (key : Int), 5 < key → s.list.header = 0 →
      s.thread false = .idle → s.thread true = .found 5 0 →
      (∀ value update coins new, s.Quiet (.insert p key value update coins new)) ∧
        ∀ update, s.Quiet (.delete p key update) := by
    intro s p key hkey hheader hfalse htrue
    have hfound : ∀ q k x, s.thread q = .found k x → k = 5 ∧ x = 0 := by
      intro q k x hq
      cases q with
      | false =>
          rw [hfalse] at hq
          cases hq
      | true =>
          rw [htrue] at hq
          cases hq
          exact ⟨rfl, rfl⟩
    constructor
    · intro value update coins new q k x hq
      obtain ⟨rfl, -⟩ := hfound q k x hq
      omega
    · intro update q k x hq
      obtain ⟨rfl, rfl⟩ := hfound q k x hq
      exact ⟨by omega, .inl hheader.symm⟩
  have h := Run.of_isChain 1 (State.Quiet : State Bool Nat → Event Bool Nat → Prop)
    (skiplistInit ⟨fun _ => 0, fun _ => 0, fun _ _ => 0, 0, 0, ∅⟩ 1 0) <|
    .cons_cons ⟨.insert false 5 50 (fun _ => 9) [] 1, nofun, rfl⟩ <|
    .cons_cons ⟨.call true 5, trivial, rfl⟩ <|
    .cons_cons ⟨.search true, trivial, rfl⟩ <|
    .cons_cons ⟨.insert false 7 70 (fun _ => 9) [] 2,
      (hquiet _ false 7 (by decide) rfl rfl rfl).1 _ _ _ _, rfl⟩ <|
    .cons_cons ⟨.delete false 7 (fun _ => 9),
      (hquiet _ false 7 (by decide) rfl rfl rfl).2 _, rfl⟩ <|
    .cons_cons ⟨.read true, trivial, rfl⟩ <|
    .singleton _
  exact ⟨_, h, rfl, search_linearizable 1 (by decide) _ 0 _ 6 h⟩

/-- A node with the key 3 is inserted before that with the key 5 when the lock has been released,
and it is the one that is returned. -/
theorem search_returns_other :
  ∃ run : Nat → State Bool Nat,
    Run 1 (fun _ _ => True) (skiplistInit ⟨fun _ => 0, fun _ => 0, fun _ _ => 0, 0, 0, ∅⟩ 1 0) run
      5 ∧
    ¬Linearizable run 5
  := by
  have h := Run.of_isChain 1 (fun (_ : State Bool Nat) (_ : Event Bool Nat) => True)
    (skiplistInit ⟨fun _ => 0, fun _ => 0, fun _ _ => 0, 0, 0, ∅⟩ 1 0) <|
    .cons_cons ⟨.insert false 5 50 (fun _ => 9) [] 1, trivial, rfl⟩ <|
    .cons_cons ⟨.call true 5, trivial, rfl⟩ <|
    .cons_cons ⟨.search true, trivial, rfl⟩ <|
    .cons_cons ⟨.insert false 3 30 (fun _ => 9) [] 2, trivial, rfl⟩ <|
    .cons_cons ⟨.read true, trivial, rfl⟩ <|
    .singleton _
  refine ⟨_, h, ?_⟩
  intro hlin
  obtain ⟨k, hik, hkj, -, hkey⟩ := hlin true 5 (some 2) 2 5 (by decide) (Nat.le_refl 5) rfl (by
    intro k hik hkj
    interval_cases k
    · exact .inl rfl
    · exact .inr ⟨0, rfl⟩
    · exact .inr ⟨0, rfl⟩) rfl
  interval_cases k
  all_goals exact absurd hkey (by decide)

end Micro.SkipSearch
