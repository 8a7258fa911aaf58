import Ffwd.Memcached.Allocation
import Ffwd.Memcached.ListArrays

/-!
# Runs of the delegated operations on items

The server executes one operation at a time, in any order, and time passes between them.
Callers release the references they took, and no others, and link only items of absent
keys. Every such run keeps the items consistent, as long as it allocates no item of a class
that the arrays of the lists have no entry for.
-/

namespace Memcached

open Linked

/-- What the server executes, or a caller does to an item that it fills, or what changes
the clock and the settings. -/
inductive ItemOp where
  | alloc (k : Key) (flags : Int) (exptime nbytes : Nat)
  | link (a : Addr)
  | get (k : Key)
  | remove (a : Addr)
  | unlink (a : Addr)
  | update (a : Addr)
  | replace (a b : Addr)
  | flushExpired
  | stats
  | fill (a : Addr) (data : Nat → UInt8)
  | setCas (a : Addr) (v : Nat)
  | tick (now : Nat)
  | setOldestLive (v : Nat)

/-- The state after an operation, and the references that callers then have. -/
def ItemOp.exec (hash : Key → BitVec 32) (s : State) (refs : Refs) : ItemOp → State × Refs
  | alloc k flags exptime nbytes =>
      let r := doItemAllocDel hash s k flags exptime nbytes
      (r.1, refs.take r.2)
  | link a => (doItemLinkDel hash s a, refs)
  | get k =>
      let r := doItemGetDel hash s k
      (r.1, refs.take r.2)
  | remove a => (doItemRemoveDel s a, Function.update refs a (refs a - 1))
  | unlink a => (doItemUnlinkDel hash s a, refs)
  | update a => (doItemUpdate s a, refs)
  | replace a b => (doItemReplaceDel hash s a b, refs)
  | flushExpired => (doItemFlushExpiredDel hash s, refs)
  | stats => (doItemStatsDel hash s, refs)
  | fill a data => (s.modify a fun it => { it with data := data }, refs)
  | setCas a v => (s.modify a fun it => it.setCas v, refs)
  | tick now => ({ s with currentTime := now }, refs)
  | setOldestLive v => ({ s with settings := { s.settings with oldestLive := v } }, refs)

/-- The item is not linked, a caller refers to it, and at most `old` is linked under its key. -/
def Linkable (hash : Key → BitVec 32) (s : State) (refs : Refs) (a : Addr) (old : Option Addr) : Prop :=
  (s.mem a).linked = false ∧ refs a ≠ 0 ∧
    (assocFind hash s.key s.assoc (s.key a) = none ∨ assocFind hash s.key s.assoc (s.key a) = old)

/-- The discipline of the callers: an item in use is not taken from them, there are fewer
than `65536` references to an item, only references that were taken are released, only
absent keys are linked, and the clock does not run backwards. -/
def ItemOp.Allowed (hash : Key → BitVec 32) (s : State) (refs : Refs) : ItemOp → Prop
  | alloc k flags _ nbytes => allocRepair hash s k flags nbytes = none
  | link a => Linkable hash s refs a none
  | get k => ∀ a, assocFind hash s.key s.assoc k = some a → refs a + 1 < 2 ^ 16
  | remove a => refs a ≠ 0
  | replace a b => Linkable hash s refs b (some a)
  | tick now => s.currentTime ≤ now
  | _ => True

instance (hash : Key → BitVec 32) (s : State) (refs : Refs) (a : Addr) (old : Option Addr) :
    Decidable (Linkable hash s refs a old) :=
  inferInstanceAs (Decidable (_ ∧ _ ∧ (_ ∨ _)))

instance (hash : Key → BitVec 32) (s : State) (refs : Refs) :
    (op : ItemOp) → Decidable (op.Allowed hash s refs)
  | .alloc .. => inferInstanceAs (Decidable (_ = _))
  | .link a => inferInstanceAs (Decidable (Linkable hash s refs a none))
  | .get k => decidable_of_iff (∀ a ∈ assocFind hash s.key s.assoc k, refs a + 1 < 2 ^ 16) Iff.rfl
  | .remove a => inferInstanceAs (Decidable (refs a ≠ 0))
  | .replace a b => inferInstanceAs (Decidable (Linkable hash s refs b (some a)))
  | .tick now => inferInstanceAs (Decidable (s.currentTime ≤ now))
  | .unlink _ | .update _ | .flushExpired | .stats | .fill .. | .setCas .. | .setOldestLive _ =>
      isTrue trivial

/-- The item that an operation links. -/
def ItemOp.links : ItemOp → Option Addr
  | link a => some a
  | replace _ b => some b
  | _ => none

/-- A sequence of operations executed. -/
def itemRun (hash : Key → BitVec 32) (s : State) (refs : Refs) : List ItemOp → State × Refs
  | [] => (s, refs)
  | op :: ops => itemRun hash (op.exec hash s refs).1 (op.exec hash s refs).2 ops

/-- Every operation of a sequence is allowed when it is executed. -/
def AllowedRun (hash : Key → BitVec 32) (s : State) (refs : Refs) : List ItemOp → Prop
  | [] => True
  | op :: ops =>
      op.Allowed hash s refs ∧ AllowedRun hash (op.exec hash s refs).1 (op.exec hash s refs).2 ops

instance AllowedRun.decidable (hash : Key → BitVec 32) :
    (s : State) → (refs : Refs) → (ops : List ItemOp) → Decidable (AllowedRun hash s refs ops)
  | _, _, [] => isTrue trivial
  | s, refs, op :: ops =>
      have := AllowedRun.decidable hash (op.exec hash s refs).1 (op.exec hash s refs).2 ops
      inferInstanceAs (Decidable (op.Allowed hash s refs ∧ _))

variable {hash : Key → BitVec 32} {s : State} {refs : Refs} {A : Finset Addr}
  {ls : Nat → List Addr}

/-- A change of an item that the invariant does not look at. -/
theorem Lifecycle.modify
    (h : Lifecycle hash s refs A ls) (a : Addr) {f : Item → Item} (hf : ∀ it : Item, it.Same (f it)) :
  Lifecycle hash (s.modify a f) refs A ls
  := by
  have hassoc : (s.modify a f).assoc = s.assoc := rfl
  apply h.congr hassoc rfl (Slabs.Quiet.refl _) rfl rfl le_rfl
  intro b
  rw [State.mem_modify]
  split
  · next hb =>
    rw [hb]
    exact hf _
  · exact ⟨rfl, rfl, rfl, rfl, rfl, rfl, rfl⟩

theorem Item.same_setCas (it : Item) (v : Nat) :
  it.Same (it.setCas v)
  := by
  simp only [Item.setCas]
  split
  · exact ⟨rfl, rfl, rfl, rfl, rfl, rfl, rfl⟩
  · exact ⟨rfl, rfl, rfl, rfl, rfl, rfl, rfl⟩

theorem Lifecycle.tick (h : Lifecycle hash s refs A ls) {now : Nat} (hnow : s.currentTime ≤ now) :
  Lifecycle hash { s with currentTime := now } refs A ls
  := by
  set s' : State := { s with currentTime := now } with hs'
  have hassoc : s'.assoc = s.assoc := rfl
  apply h.congr hassoc rfl (Slabs.Quiet.refl _) rfl rfl hnow
  exact fun a => ⟨rfl, rfl, rfl, rfl, rfl, rfl, rfl⟩

theorem Lifecycle.setOldestLive (h : Lifecycle hash s refs A ls) (v : Nat) :
  Lifecycle hash { s with settings := { s.settings with oldestLive := v } } refs A ls
  := by
  set s' : State := { s with settings := { s.settings with oldestLive := v } } with hs'
  have hassoc : s'.assoc = s.assoc := rfl
  apply h.congr hassoc rfl (Slabs.Quiet.refl _) rfl rfl le_rfl
  exact fun a => ⟨rfl, rfl, rfl, rfl, rfl, rfl, rfl⟩

/-- One operation keeps the invariant, and links only what it is to link. -/
theorem Lifecycle.exec
    (h : Lifecycle hash s refs A ls) {op : ItemOp} (hop : op.Allowed hash s refs) :
  ∃ A' ls', Lifecycle hash (op.exec hash s refs).1 (op.exec hash s refs).2 A' ls' ∧
    ∀ a ∈ A', a ∈ A ∨ op.links = some a
  := by
  have hnot : ∀ {a}, (s.mem a).linked = false → a ∉ A := by
    intro a hlinked ha
    rw [h.linked, hlinked] at ha
    cases ha
  have hsub : ∀ {A' : Finset Addr}, A' ⊆ A → ∀ a ∈ A', a ∈ A ∨ op.links = some a :=
    fun hsub a ha => .inl (hsub ha)
  cases op with
  | alloc k flags exptime nbytes =>
      have hrepair : allocRepair hash s k flags nbytes = none := hop
      obtain ⟨A', ls', hnew⟩ := h.doItemAllocDel k flags exptime nbytes
      rw [hrepair] at hnew
      exact ⟨A', ls', hnew.lifecycle, hsub hnew.drops.sub⟩
  | link a =>
      obtain ⟨hlinked, hrefs, habsent⟩ := hop
      rw [or_self] at habsent
      refine ⟨_, _, h.doItemLinkDel (hnot hlinked) hrefs ((assocFind_eq_none_iff h.table).mp habsent), ?_⟩
      intro b hb
      obtain rfl | hb := Finset.mem_insert.mp hb
      · exact .inr rfl
      · exact .inl hb
  | get k =>
      simp only [ItemOp.exec]
      obtain ⟨A', ls', h', hsubset⟩ := h.doItemGetDel (k := k) (by
        intro a ha hk
        apply hop
        exact (assocFind_eq_some_iff h.table).mpr ⟨ha, hk⟩)
      exact ⟨A', ls', h', hsub hsubset⟩
  | remove a => exact ⟨_, _, h.doItemRemoveDel hop, hsub (Finset.Subset.refl A)⟩
  | unlink a => exact ⟨_, _, h.doItemUnlinkDel a, hsub (Finset.erase_subset a A)⟩
  | update a =>
      obtain ⟨ls', h'⟩ := h.doItemUpdate a
      use A, ls'
      simp only [ItemOp.exec]
      exact ⟨h', hsub (Finset.Subset.refl A)⟩
  | replace a b =>
      obtain ⟨hlinked, hrefs, hkey⟩ := hop
      obtain ⟨ls', h'⟩ := h.doItemReplaceDel (hnot hlinked) hrefs (by
        intro c hc hca hk
        have hfind := (assocFind_eq_some_iff h.table).mpr ⟨hc, hk⟩
        rw [hfind] at hkey
        obtain hkey | hkey := hkey
        · cases hkey
        · exact hca (Option.some.inj hkey))
      refine ⟨_, ls', h', ?_⟩
      intro c hc
      obtain rfl | hc := Finset.mem_insert.mp hc
      · exact .inr rfl
      · exact .inl (Finset.mem_of_mem_erase hc)
  | flushExpired =>
      obtain ⟨A', ls', h', hdrops⟩ := h.doItemFlushExpiredDel
      exact ⟨A', ls', h', hsub hdrops.sub⟩
  | stats =>
      obtain ⟨A', ls', h', hdrops⟩ := h.doItemStatsDel
      use A', ls'
      simp only [ItemOp.exec]
      exact ⟨h', hsub hdrops.sub⟩
  | fill a data =>
      have hf : ∀ it : Item, it.Same { it with data := data } :=
        fun it => ⟨rfl, rfl, rfl, rfl, rfl, rfl, rfl⟩
      exact ⟨A, ls, h.modify a hf, hsub (Finset.Subset.refl A)⟩
  | setCas a v =>
      use A, ls
      simp only [ItemOp.exec]
      exact ⟨h.modify a fun it => it.same_setCas v, hsub (Finset.Subset.refl A)⟩
  | tick now => exact ⟨A, ls, h.tick hop, hsub (Finset.Subset.refl A)⟩
  | setOldestLive v => exact ⟨A, ls, h.setOldestLive v, hsub (Finset.Subset.refl A)⟩

/-- A run keeps the invariant, and only what it links is linked. -/
theorem Lifecycle.itemRun
    (h : Lifecycle hash s refs A ls) {ops : List ItemOp} (hops : AllowedRun hash s refs ops) :
  ∃ A' ls', Lifecycle hash (itemRun hash s refs ops).1 (itemRun hash s refs ops).2 A' ls' ∧
    ∀ a ∈ A', a ∈ A ∨ a ∈ ops.filterMap ItemOp.links
  := by
  induction ops generalizing s refs A ls with
  | nil => exact ⟨A, ls, h, fun a ha => .inl ha⟩
  | cons op ops ih =>
      obtain ⟨A₁, ls₁, h₁, hlinks₁⟩ := h.exec hops.1
      obtain ⟨A', ls', h', hlinks⟩ := ih h₁ hops.2
      refine ⟨A', ls', h', ?_⟩
      intro a ha
      rw [List.mem_filterMap]
      obtain ha | ha := hlinks a ha
      · obtain ha | ha := hlinks₁ a ha
        · exact .inl ha
        · exact .inr ⟨op, List.mem_cons_self, ha⟩
      · obtain ⟨op', hop', ha⟩ := List.mem_filterMap.mp ha
        exact .inr ⟨op', List.mem_cons_of_mem op hop', ha⟩

/-! ### The arrays -/

/-- The slab class of the item that an operation allocates. Operations that allocate none have
the class `0`, which is that of no item. -/
def ItemOp.clsid (s : State) : ItemOp → Nat
  | alloc k flags _ nbytes => (itemSize s k flags nbytes).2.2
  | _ => 0

/-- An operation accesses only the entries of the classes of items, and of that of a new one. -/
theorem ItemOp.tame (hash : Key → BitVec 32) (s : State) (refs : Refs) (op : ItemOp) :
  Tame (op.clsid s) s (op.exec hash s refs).1
  := by
  cases op with
  | alloc k flags exptime nbytes => exact (tame_doItemAllocDel hash s k flags exptime nbytes).1
  | link a => exact tame_doItemLinkDel 0 hash s a
  | get k => exact tame_doItemGetDel 0 hash s k
  | remove a => exact tame_doItemRemoveDel 0 s a
  | unlink a => exact tame_doItemUnlinkDel 0 hash s a
  | update a =>
      simp only [ItemOp.exec]
      exact tame_doItemUpdate 0 s a
  | replace a b => exact tame_doItemReplaceDel 0 hash s a b
  | flushExpired =>
      simp only [ItemOp.exec]
      exact tame_doItemFlushExpiredDel 0 hash s
  | stats =>
      simp only [ItemOp.exec]
      exact tame_doItemStatsDel 0 hash s
  | fill a data =>
      simp only [ItemOp.exec]
      exact .modify s a (.inl rfl)
  | setCas a v =>
      simp only [ItemOp.exec]
      exact .modify s a (.inl ((s.mem a).same_setCas v).slabsClsid)
  | tick now => exact .of_lru (Slabs.Alike.refl _) rfl rfl fun _ => .inl rfl
  | setOldestLive v => exact .of_lru (Slabs.Alike.refl _) rfl rfl fun _ => .inl rfl

/-- An allocation leaves the arrays if they have no entry for the class of the new item. -/
theorem ItemOp.clsid_lt
    {op : ItemOp} (h : (op.exec hash s refs).1.lru.inside = true) :
  op.clsid s < largestId
  := by
  cases op with
  | alloc k flags exptime nbytes => exact (tame_doItemAllocDel hash s k flags exptime nbytes).2 h
  | _ => exact Nat.zero_lt_succ _

theorem ItemOp.clsid_eq {id : Nat} {s' : State} (h : Tame id s s') (op : ItemOp) :
  op.clsid s' = op.clsid s
  := by
  cases op with
  | alloc k flags exptime nbytes => exact congrArg (·.2.2) (h.itemSize_eq k flags nbytes)
  | _ => rfl

/-- Once the arrays have been left, this is so in all later states. -/
theorem inside_of_itemRun
    {ops : List ItemOp} (h : (itemRun hash s refs ops).1.lru.inside = true) :
  s.lru.inside = true
  := by
  induction ops generalizing s refs with
  | nil => exact h
  | cons op ops ih => exact (op.tame hash s refs).before (ih h)

/-- A run leaves the arrays if and only if it allocates an item of a class that they have no entry
for. -/
theorem inside_itemRun
    (hs : s.Classed) (hinside : s.lru.inside = true) (refs : Refs) (ops : List ItemOp) :
  (itemRun hash s refs ops).1.lru.inside = true ↔ ∀ op ∈ ops, op.clsid s < largestId
  := by
  induction ops generalizing s refs with
  | nil => exact ⟨fun _ => nofun, fun _ => hinside⟩
  | cons op ops ih =>
      have htame := op.tame hash s refs
      have hnext : op.clsid s < largestId →
          ((itemRun hash s refs (op :: ops)).1.lru.inside = true ↔
            ∀ op ∈ ops, op.clsid s < largestId) := by
        intro hop
        rw [itemRun, ih (htame.classed hop hs) (htame.inside hop hs hinside)]
        simp only [ItemOp.clsid_eq htame]
      rw [List.forall_mem_cons]
      constructor
      · intro h
        have hop := ItemOp.clsid_lt (inside_of_itemRun h)
        exact ⟨hop, (hnext hop).mp h⟩
      · rintro ⟨hop, hops⟩
        exact (hnext hop).mpr hops

/-! ### The start -/

/-- The options the server is started with. -/
structure Config where
  hashpower : Nat
  calloc : Nat → Bool
  slabs : SlabsConfig
  useCas : Bool
  evictToFree : Bool
  now : Nat

/-- The state the server starts with. -/
def State.init (c : Config) : State where
  mem _ := Item.zero
  assoc := assocInit c.hashpower c.calloc
  lru :=
    { next := fun _ => none
      prev := fun _ => none
      heads := fun _ => none
      tails := fun _ => none
      sizes := fun _ => 0
      inside := true }
  slabs := slabsInit c.slabs
  stats := ⟨0, 0, 0, 0, 0⟩
  itemstats _ := ⟨0, 0, 0, 0, 0, 0⟩
  settings :=
    { useCas := c.useCas
      evictToFree := c.evictToFree
      oldestLive := 0 }
  currentTime := c.now
  casId := 0

theorem lifecycle_init (hash : Key → BitVec 32) (c : Config) :
  Lifecycle hash (State.init c) (fun _ => 0) ∅ fun _ => []
  where
  linked a := by simp [State.init, Item.zero]
  table := assocInit_holds hash _ _ _
  lists := ⟨fun _ => rfl, fun _ => rfl, fun _ => trivial, fun _ => List.nodup_nil, nofun, fun _ => rfl⟩
  listed id a := by simp
  sorted _ := List.Pairwise.nil
  past a ha := nomatch ha
  currItems := rfl
  currBytes := rfl
  slabs := slabsInit_wf c.slabs
  unused _ _ _ := rfl
  used_lt _ ha := absurd rfl ha
  used_linked a ha := nomatch ha
  used_refs _ ha := absurd rfl ha
  refcount _ ha := absurd rfl ha

/-! ### Consistency -/

/-- The items are consistent: the linked items are those of the hash table and those of the
LRU lists `ls`, which are doubly linked and ordered by time, the counters count them, and
the free lists hold no item that is linked or referred to. -/
structure Consistent (hash : Key → BitVec 32) (s : State) (refs : Refs) (ls : Nat → List Addr) :
    Prop where
  table : ∀ a, (s.mem a).linked = true ↔ assocFind hash s.key s.assoc (s.key a) = some a
  key : ∀ k a, assocFind hash s.key s.assoc k = some a → s.key a = k
  once : ∀ a, (s.mem a).linked = true ↔ (ls (s.mem a).slabsClsid).count a = 1
  nowhereElse : ∀ a id, id ≠ (s.mem a).slabsClsid → a ∉ ls id
  heads : ∀ id, s.lru.heads id = (ls id).head?
  tails : ∀ id, s.lru.tails id = (ls id).getLast?
  links : ∀ id, DSeg s.lru.next s.lru.prev none (ls id) none
  sizes : ∀ id, s.lru.sizes id = (ls id).length
  sorted : ∀ id, (ls id).Pairwise fun a b => (s.mem b).time ≤ (s.mem a).time
  currItems : s.stats.currItems = { a | (s.mem a).linked = true }.ncard
  currBytes : s.stats.currBytes = ∑ᶠ a ∈ { a | (s.mem a).linked = true }, (s.mem a).ntotal
  free : ∀ id, ∀ a ∈ (s.slabs.slabclass id).slots, (s.mem a).linked = false ∧ refs a = 0
  freeNodup : ∀ id, (s.slabs.slabclass id).slots.Nodup
  freeDisjoint : ∀ id id' a, a ∈ (s.slabs.slabclass id).slots → a ∈ (s.slabs.slabclass id').slots →
    id = id'
  refcount : ∀ a, refs a ≠ 0 ∨ (s.mem a).linked = true → (s.mem a).refcount = refs a

theorem Lifecycle.consistent (h : Lifecycle hash s refs A ls) :
  Consistent hash s refs ls
  := by
  have hset : { a | (s.mem a).linked = true } = (A : Set Addr) := by
    ext a
    rw [Finset.mem_coe, h.linked]
    rfl
  have hslots : ∀ id a, a ∈ (s.slabs.slabclass id).slots → a ∈ s.slabs.unused id :=
    fun id a ha => List.mem_append_left _ ha
  constructor
  · intro a
    rw [assocFind_eq_some_iff h.table, ← h.linked]
    exact ⟨fun ha => ⟨ha, rfl⟩, fun ha => ha.1⟩
  · intro k a hfind
    exact ((assocFind_eq_some_iff h.table).mp hfind).2
  · intro a
    rw [← h.linked]
    constructor
    · intro ha
      exact List.count_eq_one_of_mem (h.lists.nodup _) (h.mem_list ha)
    · intro hcount
      have hmem : a ∈ ls (s.mem a).slabsClsid := by
        rw [← List.count_pos_iff, hcount]
        exact one_pos
      exact ((h.listed _ a).mp hmem).1
  · intro a id hid ha
    exact hid ((h.listed id a).mp ha).2.symm
  · exact h.lists.heads
  · exact h.lists.tails
  · exact h.lists.links
  · exact h.lists.sizes
  · exact h.sorted
  · rw [hset, Set.ncard_coe_finset, h.currItems]
  · rw [hset, finsum_mem_coe_finset, h.currBytes]
  · intro id a ha
    have hzero := h.unused id a (hslots id a ha)
    constructor
    · rw [← Bool.not_eq_true, ← h.linked]
      intro hmem
      exact (h.used_linked a hmem).1 hzero
    · by_contra hrefs
      exact (h.used_refs a hrefs).1 hzero
  · intro id
    exact (List.nodup_append.mp (h.slabs.nodup id)).1
  · intro id id' a ha ha'
    exact h.slabs.disjoint id id' a (hslots id a ha) (hslots id' a ha')
  · rintro a (hrefs | hlinked)
    · exact h.refcount a (h.used_refs a hrefs).1
    · exact h.refcount a (h.used_linked a ((h.linked a).mpr hlinked)).1

/-- The items are consistent after every run of the operations on items. -/
theorem items_consistent
    (hash : Key → BitVec 32) (c : Config) (ops : List ItemOp)
    (hops : AllowedRun hash (State.init c) (fun _ => 0) ops) :
  ∃ ls, Consistent hash (itemRun hash (State.init c) (fun _ => 0) ops).1
    (itemRun hash (State.init c) (fun _ => 0) ops).2 ls
  := by
  obtain ⟨A', ls', h, -⟩ := (lifecycle_init hash c).itemRun hops
  exact ⟨ls', h.consistent⟩

/-- With fewer than `largestId` slab classes the arrays have entries for all items. -/
theorem ItemOp.clsid_init_lt {c : Config} (hc : c.slabs.sizes.length + 1 < largestId) (op : ItemOp) :
  op.clsid (State.init c) < largestId
  := by
  cases op with
  | alloc k flags exptime nbytes =>
      rcases hsize : itemSize (State.init c) k flags nbytes with ⟨ntotal, suffix, id⟩
      have hid : slabsClsid (State.init c).slabs ntotal = id := by
        simp only [itemSize, Prod.mk.injEq] at hsize
        rw [← hsize.1]
        exact hsize.2.2
      rw [ItemOp.clsid, hsize]
      by_cases hzero : id = 0
      · rw [hzero]
        exact Nat.zero_lt_succ _
      · rw [← hid] at hzero ⊢
        exact lt_of_le_of_lt (slabsClsid_le hzero).2 hc
  | _ => exact Nat.zero_lt_succ _

/-- A run of the operations on items stays inside the arrays and leaves the items consistent, if
and only if it allocates no item of a class that the arrays have no entry for. -/
theorem items_consistent_iff
    (hash : Key → BitVec 32) (c : Config) (ops : List ItemOp)
    (hops : AllowedRun hash (State.init c) (fun _ => 0) ops) :
  ((itemRun hash (State.init c) (fun _ => 0) ops).1.lru.inside = true ∧
      ∃ ls, Consistent hash (itemRun hash (State.init c) (fun _ => 0) ops).1
        (itemRun hash (State.init c) (fun _ => 0) ops).2 ls) ↔
    ∀ op ∈ ops, op.clsid (State.init c) < largestId
  := by
  have hclassed : (State.init c).Classed := fun _ => Nat.zero_lt_succ _
  rw [← @inside_itemRun hash _ hclassed rfl (fun _ => 0) ops]
  exact ⟨And.left, fun h => ⟨h, items_consistent hash c ops hops⟩⟩

/-- Two classes of chunks, in pages of a kilobyte. -/
def smallSlabs (limit : Nat) : SlabsConfig where
  limit := limit
  itemSizeMax := 1024
  sizes := [128]
  memBase := none
  sys _ := some 8
  itemSizeMax_pos := by decide
  sizes_le := by decide

def smallConfig (limit : Nat) : Config where
  hashpower := 1
  calloc _ := true
  slabs := smallSlabs limit
  useCas := true
  evictToFree := true
  now := 2

/-- An item is stored, read, moved to the head of its list, replaced by another, which
then expires and whose memory a third one takes over. -/
def smallRun : List ItemOp :=
  [.alloc [1] 0 0 5, .fill 8 fun _ => 65, .link 8, .remove 8, .tick 70, .get [1], .update 8,
    .alloc [1] 0 80 7, .replace 8 136, .remove 8, .remove 136, .tick 90, .alloc [2] 0 0 3,
    .link 136, .stats, .setOldestLive 91, .tick 92, .get [2], .flushExpired, .remove 136]

theorem items_consistent_iff_smallRun :
  AllowedRun (fun _ => 0) (State.init (smallConfig 0)) (fun _ => 0) smallRun ∧
    (itemRun (fun _ => 0) (State.init (smallConfig 0)) (fun _ => 0) smallRun).1.lru.inside = true ∧
    ∃ ls, Consistent (fun _ => 0)
      (itemRun (fun _ => 0) (State.init (smallConfig 0)) (fun _ => 0) smallRun).1
      (itemRun (fun _ => 0) (State.init (smallConfig 0)) (fun _ => 0) smallRun).2 ls
  := by
  have hallowed : AllowedRun (fun _ => 0) (State.init (smallConfig 0)) (fun _ => 0) smallRun := by
    decide +kernel
  have hclasses : ∀ op ∈ smallRun, op.clsid (State.init (smallConfig 0)) < largestId :=
    fun op _ => op.clsid_init_lt (by decide)
  exact ⟨hallowed, (items_consistent_iff _ _ _ hallowed).mpr hclasses⟩

/-- The sizes of the chunks of `n` classes for the growth factor `1.04`, the first of which is for
objects of `size` bytes. -/
def slowSizes : Nat → Nat → List Nat
  | 0, _ => []
  | n + 1, size =>
      let size := (size + 7) / 8 * 8
      size :: slowSizes n (size * 104 / 100)

/-- As many classes as there can be, the last of which is the class `largestId`. -/
def slowConfig : Config where
  hashpower := 1
  calloc _ := true
  slabs :=
    { limit := 0
      itemSizeMax := 2 ^ 20
      sizes := slowSizes (largestId - 1) 96
      memBase := none
      sys _ := some 8
      itemSizeMax_pos := by decide
      sizes_le := by decide +kernel }
  useCas := true
  evictToFree := true
  now := 2

/-- An item of the last class leaves the arrays. -/
theorem items_beyond_arrays :
  AllowedRun (fun _ => 0) (State.init slowConfig) (fun _ => 0) [.alloc [1] 0 0 900000, .link 8] ∧
    (itemRun (fun _ => 0) (State.init slowConfig) (fun _ => 0)
      [.alloc [1] 0 0 900000, .link 8]).1.lru.inside = false
  := by decide +kernel

end Memcached
