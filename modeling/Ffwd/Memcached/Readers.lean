import Ffwd.Memcached.ServerRuns

/-!
# Readers

A response is sent from the memory of the items themselves, long after they have been asked for. What
protects an item is its `refcount`. As long as it counts the references, no item is changed, freed or
reused while a connection refers to it; it stops to count them when there are `65536` of them, since it
is an unsigned short, and when the repair of a tail takes an item that is in use.
-/

namespace Memcached

open Linked Counting Runs

variable {ι : Type} [Fintype ι] {hash : Key → BitVec 32} {started : Int}

/-! ### The references are counted -/

/-- A state in which the server may allocate an item: the one before a step, or the one in which the
step has taken a reference to the item under a key. -/
def Server.Allocates (hash : Key → BitVec 32) (v : Server ι) (s : State) : Prop :=
  s = v.state ∨
    ∃ k, (∀ a, assocFind hash v.state.key v.state.assoc k = some a → v.refs a + 1 < 2 ^ 16) ∧
      s = (doItemGetDel hash v.state k).1

/-- `refcount` is the number of references. An item with a reference is in use, and it is not chosen
when memory is needed. -/
structure Server.Counted (hash : Key → BitVec 32) (v : Server ι) : Prop where
  refcount : ∀ a, (v.state.mem a).slabsClsid ≠ 0 → (v.state.mem a).refcount = v.refs a
  held : ∀ a, v.refs a ≠ 0 → (v.state.mem a).refcount ≠ 0
  used : ∀ a, v.refs a ≠ 0 → (v.state.mem a).slabsClsid ≠ 0 ∧ ∀ id, a ∉ v.state.slabs.unused id
  alloc : ∀ s, v.Allocates hash s → ∀ k flags exptime nbytes, allocRepair hash s k flags nbytes = none →
    ∀ a, v.refs a ≠ 0 → (doItemAllocDel hash s k flags exptime nbytes).2 ≠ some a ∧
      ((s.mem a).linked = true → ((doItemAllocDel hash s k flags exptime nbytes).1.mem a).linked = true)

variable {v : Server ι} {A : Finset Addr} {ls : Nat → List Addr} {s : State} {a : Addr}

/-- There is an account of the references in the states in which the server allocates. -/
theorem Server.Inv.lifecycle_allocates (h : v.Inv hash A ls) (hs : v.Allocates hash s) :
  ∃ refs A' ls', Lifecycle hash s refs A' ls' ∧ ∀ a, v.refs a ≠ 0 → refs a ≠ 0
  := by
  obtain rfl | ⟨k, hwrap, rfl⟩ := hs
  · exact ⟨v.refs, A, ls, h.lifecycle, fun _ ha => ha⟩
  · obtain ⟨A', ls', hl, -⟩ := h.lifecycle.doItemGetDel (k := k) (by
      intro a ha hk
      apply hwrap
      exact (assocFind_eq_some_iff h.lifecycle.table).mpr ⟨ha, hk⟩)
    refine ⟨_, A', ls', hl, ?_⟩
    intro a ha
    cases (doItemGetDel hash v.state k).2 with
    | none => exact ha
    | some b => exact Refs.take_ne_zero b ha

theorem Server.Inv.counted (h : v.Inv hash A ls) :
  v.Counted hash
  where
  refcount := h.lifecycle.refcount
  held a ha := by
    rw [h.lifecycle.refcount a (h.lifecycle.used_refs a ha).1]
    exact ha
  used a ha := by
    have hused := (h.lifecycle.used_refs a ha).1
    exact ⟨hused, fun id hmem => hused (h.lifecycle.unused id a hmem)⟩
  alloc s hs k flags exptime nbytes hrepair a ha := by
    obtain ⟨refs, A', ls', hl, hrefs⟩ := h.lifecycle_allocates hs
    obtain ⟨A₁, ls₁, hcreated⟩ := hl.doItemAllocDel k flags exptime nbytes
    rw [hrepair] at hcreated
    constructor
    · intro hret
      exact hrefs a ha (hcreated.refs a hret)
    · intro hlinked
      exact (hcreated.lifecycle.linked a).mp (hcreated.held a ((hl.linked a).mpr hlinked) (hrefs a ha))

/-- The references are counted in every run in which no item in use is released by the repair of a
tail, and none gets `65536` references. -/
theorem references_counted
    (hash : Key → BitVec 32) (started : Int) (ι : Type) [Fintype ι] [DecidableEq ι] (config : Config)
    (es : List (Event ι)) (hcalm : (Server.init ι config).CalmRun hash started es) :
  ((Server.init ι config).run hash started es).Counted hash
  := by
  obtain ⟨A, ls, h⟩ := (inv_init hash ι config).run hcalm
  exact h.counted

/-! ### Too many references -/

/-- The item under a key is found alive, and has been accessed within the last minute. -/
structure Recent (hash : Key → BitVec 32) (s : State) (k : Key) (a : Addr) : Prop where
  find : assocFind hash s.key s.assoc k = some a
  live : live s a = true
  time : ¬(s.mem a).time < (s.currentTime + 2 ^ 32 - itemUpdateInterval) % 2 ^ 32

theorem Recent.setRefcount {k : Key} (h : Recent hash s k a) (n : Nat) :
  Recent hash (s.modify a fun it => { it with refcount := n }) k a
  := by
  have hkey : (s.modify a fun it => { it with refcount := n }).key = s.key := by
    funext b
    simp only [State.key, State.mem_modify]
    split
    · next hb => rw [hb]
    · rfl
  have hmem : ((s.modify a fun it => { it with refcount := n }).mem a) = { s.mem a with refcount := n } :=
    State.mem_modify_self s a _
  constructor
  · rw [hkey]
    exact h.find
  · have hlive := h.live
    simp only [Memcached.live, flushed, hmem] at hlive ⊢
    exact hlive
  · rw [hmem]
    exact h.time

/-- A step of the only connection. -/
theorem exec_unit (s : State) (c : Client) (choice : Bool) (behind : Nat) :
  (⟨s, fun _ => c⟩ : Server Unit).exec hash started (.step () choice behind) =
    ⟨(c.step hash s choice behind).1, fun _ => (c.step hash s choice behind).2⟩
  := by
  rw [Server.exec]
  congr 1

/-- A `get` command takes a reference for each of its keys, also when they are all the same. -/
theorem Recent.get_run
    {k : Key} {n r : Nat} {keys : List Key} {kept : List Addr} {held own : Multiset Addr}
    (h : Recent hash s k a) (hr : r < 2 ^ 16) (hcount : (s.mem a).refcount = r) :
  ∃ s', (⟨s, fun _ => ⟨getScript (List.replicate n k ++ keys) kept, held, own⟩⟩ : Server Unit).run hash
      started (List.replicate (3 * n) (.step () true 0)) =
        ⟨s', fun _ => ⟨getScript keys (kept ++ List.replicate n a), Multiset.replicate n a + held, own⟩⟩ ∧
    (s'.mem a).refcount = (r + n) % 2 ^ 16 ∧ (s'.mem a).slabsClsid = (s.mem a).slabsClsid
  := by
  induction n generalizing s kept held r with
  | zero =>
      refine ⟨s, ?_, ?_, rfl⟩
      · simp [Server.run]
      · rw [hcount, Nat.add_zero, Nat.mod_eq_of_lt hr]
  | succ n ih =>
      set s₁ := s.modify a fun it => { it with refcount := (r + 1) % 2 ^ 16 } with hs₁
      have hget : doItemGetDel hash s k = (s₁, some a) := by
        rw [doItemGetDel_of_live h.find h.live, hs₁]
        simp only [State.modify, hcount]
      have h₁ : Recent hash s₁ k a := h.setRefcount _
      have hupdate : doItemUpdate s₁ a = s₁ := by
        rw [doItemUpdate, if_neg h₁.time]
      have hcount₁ : (s₁.mem a).refcount = (r + 1) % 2 ^ 16 := by
        rw [hs₁, State.mem_modify_self]
      obtain ⟨s', hrun, hrefcount, hclsid⟩ := @ih s₁ ((r + 1) % 2 ^ 16) (kept ++ [a]) (a ::ₘ held) h₁
        (Nat.mod_lt _ (by decide)) hcount₁
      have hthree : (⟨s, fun _ => ⟨getScript (List.replicate (n + 1) k ++ keys) kept, held, own⟩⟩ :
          Server Unit).run hash started (List.replicate 3 (.step () true 0)) =
            ⟨s₁, fun _ => ⟨getScript (List.replicate n k ++ keys) (kept ++ [a]), a ::ₘ held, own⟩⟩ := by
        simp only [Server.run, List.replicate_succ, List.replicate_zero, List.foldl_cons, List.foldl_nil,
          List.cons_append, exec_unit, getScript, Client.step, hget, Client.take, hupdate, if_true]
      have hsteps : List.replicate (3 * (n + 1)) (Event.step () true 0) =
          List.replicate 3 (Event.step () true 0) ++ List.replicate (3 * n) (Event.step () true 0) := by
        rw [← List.replicate_add, Nat.mul_succ, Nat.add_comm]
      refine ⟨s', ?_, ?_, ?_⟩
      · rw [hsteps, Server.run_append, hthree, hrun, List.append_assoc, Multiset.replicate_succ,
          Multiset.add_cons, Multiset.cons_add]
        rfl
      · rw [hrefcount, Nat.mod_add_mod, Nat.add_assoc, Nat.add_comm 1 n]
      · rw [hclsid, hs₁, State.mem_modify_self]

/-- An item is stored. -/
def getsBefore : List (Event Unit) :=
  .tick 100 :: Event.execute () (.update [1] 0 0 1 0 .set (textOf 53 1)) 8

/-- Then the connection asks for it `n` times in one command. -/
def getsRun (n : Nat) : List (Event Unit) :=
  getsBefore ++ .start () (.get (List.replicate n [1])) :: List.replicate (3 * n) (.step () true 0)

/-- There are `n` references to the item, of which its `refcount` has the low 16 bits. -/
theorem refcount_getsRun (n : Nat) :
  ((Server.init Unit (smallConfig 0)).run (fun _ => 0) 0 (getsRun n)).refs 8 = n ∧
    (((Server.init Unit (smallConfig 0)).run (fun _ => 0) 0 (getsRun n)).state.mem 8).refcount = n % 2 ^ 16
  := by
  set v := (Server.init Unit (smallConfig 0)).run (fun _ => 0) 0 getsBefore with hv
  have hrecent : Recent (fun _ => 0) v.state [1] 8 := by
    constructor <;> decide +kernel
  have hheld : (v.clients ()).held = 0 ∧ (v.clients ()).own = 0 := by decide +kernel
  obtain ⟨answer, hscript⟩ : ∃ answer, (v.clients ()).script = .done answer := ⟨_, rfl⟩
  have hstart : v.exec (fun _ => 0) 0 (.start () (.get (List.replicate n [1]))) =
      ⟨v.state, fun _ => ⟨getScript (List.replicate n [1] ++ []) [], 0, 0⟩⟩ := by
    simp only [Server.exec, Client.start, hscript, hheld, List.append_nil]
    congr 1
  obtain ⟨s', hrun, hcount, -⟩ := @Recent.get_run _ 0 v.state 8 [1] n 0 [] [] 0 0 hrecent (by decide)
    (by decide +kernel)
  have hend : (Server.init Unit (smallConfig 0)).run (fun _ => 0) 0 (getsRun n) =
      ⟨s', fun _ => ⟨getScript [] ([] ++ List.replicate n 8), Multiset.replicate n 8 + 0, 0⟩⟩ := by
    rw [getsRun, Server.run_append, ← hv, ← hrun, ← hstart]
    rfl
  rw [hend]
  constructor
  · simp [Server.refs]
  · rw [hcount, Nat.zero_add]

/-- One `get` command with the same key `2 ^ 16` times. -/
theorem references_wrapped :
  ((Server.init Unit (smallConfig 0)).run (fun _ => 0) 0 (getsRun (2 ^ 16))).refs 8 = 2 ^ 16 ∧
    (((Server.init Unit (smallConfig 0)).run (fun _ => 0) 0 (getsRun (2 ^ 16))).state.mem 8).refcount = 0 ∧
    ¬((Server.init Unit (smallConfig 0)).run (fun _ => 0) 0 (getsRun (2 ^ 16))).Counted fun _ => 0
  := by
  obtain ⟨hrefs, hcount⟩ := refcount_getsRun (2 ^ 16)
  rw [Nat.mod_self] at hcount
  refine ⟨hrefs, hcount, ?_⟩
  intro h
  apply h.held 8 _ hcount
  rw [hrefs]
  decide

/-! ### The repair of a tail -/

/-- An item is stored, and a connection asks for it twice in one command. Three hours later another
one stores an item. -/
def repairRun : List (Event Bool) :=
  Event.execute false (.update [1] 0 0 198 0 .set (textOf 65 198)) 8 ++ Event.execute false (.get [[1], [1]]) 4 ++
    [.tick 20000] ++ Event.execute true (.update [2] 0 0 198 0 .set (textOf 66 198)) 3

/-- When there is no other memory, the item becomes that of the other connection, and the references
of the first one are forgotten. -/
theorem references_forgotten :
  ¬((Server.init Bool (smallConfig 1)).run (fun _ => 0) 0 repairRun).Counted fun _ => 0
  := by
  intro h
  have hcount := h.refcount 8 (by decide +kernel)
  exact absurd hcount (by decide +kernel)

/-- With more memory they are counted. -/
theorem references_counted_repairRun :
  (Server.init Bool (smallConfig 0)).CalmRun (fun _ => 0) 0 repairRun ∧
    ((Server.init Bool (smallConfig 0)).run (fun _ => 0) 0 repairRun).Counted fun _ => 0
  := by
  have hcalm : (Server.init Bool (smallConfig 0)).CalmRun (fun _ => 0) 0 repairRun := by
    decide +kernel
  exact ⟨hcalm, references_counted _ _ _ _ _ hcalm⟩

/-! ### Readers are isolated -/

/-- An item, in a state `v` and a later one, `w`, that a connection refers to all the time: it has the
same key, data, length, flags, expiry time and CAS id, its memory is not free, it is nobody's new item, and
an increment of it does not write in place. -/
structure Server.Isolated (hash : Key → BitVec 32) (v w : Server ι) (a : Addr) : Prop where
  content : (w.state.mem a).content = (v.state.mem a).content
  used : (w.state.mem a).slabsClsid ≠ 0
  notFree : ∀ id, a ∉ w.state.slabs.unused id
  notNew : ∀ c, a ∉ (w.clients c).own
  notInPlace : ∀ k buf, w.refs a + 1 < 2 ^ 16 → (doItemGetDel hash w.state k).2 = some a →
    needsRealloc ((doItemGetDel hash w.state k).1.mem a) buf

variable [DecidableEq ι] {w : Server ι} {c : ι}

theorem Server.Inv.isolated
    (h : w.Inv hash A ls) (hreads : w.Reads c a)
    (hcontent : (w.state.mem a).content = (v.state.mem a).content) :
  v.Isolated hash w a
  where
  content := hcontent
  used := (h.counted.used a (refs_ne_zero hreads.1)).1
  notFree := (h.counted.used a (refs_ne_zero hreads.1)).2
  notNew := h.not_own hreads
  notInPlace k buf hwrap hget := by
    have hrefs := refs_ne_zero hreads.1
    obtain ⟨-, hnone, -⟩ | ⟨b, -, -, -, hsome⟩ := h.lifecycle.doItemGetDel_cases k
    · rw [hnone] at hget
      cases hget
    · rw [hsome] at hget ⊢
      obtain rfl := Option.some.inj hget
      rw [Nat.mod_eq_of_lt hwrap, State.mem_modify_self]
      right
      simp only
      omega

/-- A connection that keeps its reference during a run finds the item unchanged. -/
theorem Server.Inv.content_run
    {es : List (Event ι)} (h : v.Inv hash A ls) (hcalm : v.CalmRun hash started es)
    (hreads : ∀ es₁ es₂, es = es₁ ++ es₂ → (v.run hash started es₁).Reads c a) :
  ∃ A' ls', (v.run hash started es).Inv hash A' ls' ∧
    ((v.run hash started es).state.mem a).content = (v.state.mem a).content
  := by
  induction es generalizing v A ls with
  | nil => exact ⟨A, ls, h, rfl⟩
  | cons e es ih =>
      obtain ⟨A₁, ls₁, h₁, hmoves⟩ := h.step started e hcalm.1
      have hkept := hmoves.held a (h.kept started e (hreads [] (e :: es) rfl) (hreads [e] es rfl))
      obtain ⟨A', ls', h', hcontent⟩ := ih h₁ hcalm.2 (by
        rintro es₁ es₂ rfl
        exact hreads (e :: es₁) es₂ rfl)
      exact ⟨A', ls', h', hcontent.trans hkept⟩

/-- An item does not change while a connection refers to it that has got it by `item_get`, whatever
the connections do, and its memory is not reused. -/
theorem readers_isolated
    (hash : Key → BitVec 32) (started : Int) (ι : Type) [Fintype ι] [DecidableEq ι] (config : Config)
    (es es' : List (Event ι)) (c : ι) (a : Addr)
    (hcalm : (Server.init ι config).CalmRun hash started (es ++ es'))
    (hreads : ∀ es₁ es₂, es' = es₁ ++ es₂ →
      ((Server.init ι config).run hash started (es ++ es₁)).Reads c a) :
  ((Server.init ι config).run hash started es).Isolated hash
    ((Server.init ι config).run hash started (es ++ es')) a
  := by
  obtain ⟨hbefore, hafter⟩ := Server.calmRun_append.mp hcalm
  obtain ⟨A, ls, h⟩ := (inv_init hash ι config).run hbefore
  have hend := hreads es' [] (List.append_nil es').symm
  rw [Server.run_append] at hend ⊢
  obtain ⟨A', ls', h', hcontent⟩ := h.content_run hafter (by
    intro es₁ es₂ heq
    rw [← Server.run_append]
    exact hreads es₁ es₂ heq)
  exact h'.isolated hend hcontent

/-- An item is stored, and a connection asks for it. -/
def readBefore : List (Event Bool) :=
  Event.execute false (.update [1] 0 0 1 0 .set (textOf 53 1)) 8 ++ Event.execute false (.get [[1]]) 1

/-- Another connection increments it, and deletes what is under the key then. -/
def readAfter : List (Event Bool) :=
  Event.execute true (.arithmetic [1] true 1) 1 ++ [.tick 100] ++ Event.execute true (.delete [1]) 3

theorem readers_isolated_readAfter :
  ((Server.init Bool (smallConfig 0)).run (fun _ => 0) 0 readBefore).Isolated (fun _ => 0)
    ((Server.init Bool (smallConfig 0)).run (fun _ => 0) 0 (readBefore ++ readAfter)) 8
  := by
  have hreads : ∀ n < 8, ((Server.init Bool (smallConfig 0)).run (fun _ => 0) 0
      (readBefore ++ readAfter.take n)).Reads false 8 := by
    decide +kernel
  apply readers_isolated _ _ _ _ _ _ false
  · decide +kernel
  · intro es₁ es₂ heq
    have hlen := congrArg List.length heq
    have htake : es₁ = readAfter.take es₁.length := by
      rw [heq, List.take_left]
    rw [List.length_append] at hlen
    rw [htake]
    apply hreads
    have hseven : readAfter.length = 7 := rfl
    omega

end Memcached
