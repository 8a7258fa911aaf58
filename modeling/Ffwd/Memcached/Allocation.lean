import Ffwd.Memcached.Lifecycle

/-!
# Allocation, access and flushing

The operations that make room for new items, or that meet dead ones: they drop items from
the cache. `Drops` says what they leave alone, which is every item that stays linked and
every item a caller refers to. An allocation also leaves linked what a caller refers to,
unless it repairs the tail of a list: then it releases an item in use, and the references
to that item are void.
-/

namespace Memcached

open Linked

/-- An item, but for its being linked. -/
def Item.unlinked (it : Item) : Item := { it with linked := false }

/-- The state `s'` is `s` with all but the items `A'` of `A` dropped from the cache. -/
structure Drops (s s' : State) (refs : Refs) (A A' : Finset Addr) : Prop where
  sub : A' ⊆ A
  kept : ∀ b, b ∈ A' ∨ refs b ≠ 0 → (s'.mem b).unlinked = (s.mem b).unlinked
  settings : s'.settings = s.settings
  currentTime : s'.currentTime = s.currentTime
  casId : s'.casId = s.casId

variable {hash : Key → BitVec 32} {s s' s'' : State} {refs : Refs} {A A' A'' : Finset Addr}
  {ls : Nat → List Addr} {a b : Addr}

theorem Drops.refl (s : State) (refs : Refs) (A : Finset Addr) : Drops s s refs A A where
  sub := Finset.Subset.refl A
  kept _ _ := rfl
  settings := rfl
  currentTime := rfl
  casId := rfl

theorem Drops.trans (h : Drops s s' refs A A') (h' : Drops s' s'' refs A' A'') :
  Drops s s'' refs A A''
  where
  sub := h'.sub.trans h.sub
  kept b hb := by
    rw [h'.kept b hb]
    apply h.kept b
    apply hb.imp_left
    intro hmem
    exact h'.sub hmem
  settings := h'.settings.trans h.settings
  currentTime := h'.currentTime.trans h.currentTime
  casId := h'.casId.trans h.casId

/-- The items that callers refer to may be fewer. -/
theorem Drops.mono {refs' : Refs} (h : Drops s s' refs A A') (hrefs : ∀ b, refs' b ≠ 0 → refs b ≠ 0) :
  Drops s s' refs' A A'
  where
  sub := h.sub
  kept b hb := h.kept b (hb.imp_right (hrefs b))
  settings := h.settings
  currentTime := h.currentTime
  casId := h.casId

theorem Drops.key (h : Drops s s' refs A A') (hb : b ∈ A' ∨ refs b ≠ 0) :
  s'.key b = s.key b
  := by
  have hkey := congrArg Item.key (h.kept b hb)
  exact hkey

/-! ### Counters -/

/-- Only counters differ that the invariant does not look at. -/
structure Counts (s s' : State) : Prop where
  mem : s'.mem = s.mem
  assoc : s'.assoc = s.assoc
  lru : s'.lru = s.lru
  slabs : s.slabs.Quiet s'.slabs
  currItems : s'.stats.currItems = s.stats.currItems
  currBytes : s'.stats.currBytes = s.stats.currBytes
  settings : s'.settings = s.settings
  currentTime : s'.currentTime = s.currentTime
  casId : s'.casId = s.casId

theorem Counts.lifecycle (hc : Counts s s') (h : Lifecycle hash s refs A ls) :
  Lifecycle hash s' refs A ls
  := by
  apply h.congr hc.assoc hc.lru hc.slabs hc.currItems hc.currBytes (le_of_eq hc.currentTime.symm)
  intro a
  rw [hc.mem]
  exact ⟨rfl, rfl, rfl, rfl, rfl, rfl, rfl⟩

theorem Counts.drops (hc : Counts s s') (refs : Refs) (A : Finset Addr) :
  Drops s s' refs A A
  where
  sub := Finset.Subset.refl A
  kept b _ := by rw [hc.mem]
  settings := hc.settings
  currentTime := hc.currentTime
  casId := hc.casId

theorem counts_outOfMemory (s : State) (id : Nat) :
  Counts s (outOfMemory s id)
  := ⟨rfl, rfl, rfl, Slabs.Quiet.refl _, rfl, rfl, rfl, rfl, rfl⟩

/-! ### Unlinking -/

theorem unlinkItem_frame (hash : Key → BitVec 32) (s : State) (a : Addr) :
  (unlinkItem hash s a).settings = s.settings ∧ (unlinkItem hash s a).currentTime = s.currentTime ∧
    (unlinkItem hash s a).casId = s.casId
  := ⟨rfl, rfl, rfl⟩

theorem doItemUnlinkDel_frame (hash : Key → BitVec 32) (s : State) (a : Addr) :
  (doItemUnlinkDel hash s a).settings = s.settings ∧
    (doItemUnlinkDel hash s a).currentTime = s.currentTime ∧
    (doItemUnlinkDel hash s a).casId = s.casId
  := by
  simp only [doItemUnlinkDel]
  split
  · split <;> exact unlinkItem_frame hash s a
  · exact ⟨rfl, rfl, rfl⟩

theorem doItemUnlinkDel_of_ne (hash : Key → BitVec 32) (s : State) (h : b ≠ a) :
  (doItemUnlinkDel hash s a).mem b = s.mem b
  := by
  simp only [doItemUnlinkDel, itemFreeDel]
  split
  · split
    · rw [State.mem_modify_of_ne _ _ _ _ h, unlinkItem_mem, Function.update_of_ne h]
    · rw [unlinkItem_mem, Function.update_of_ne h]
  · rfl

/-- An item in use is not freed. -/
theorem doItemUnlinkDel_self (hash : Key → BitVec 32) (h : (s.mem a).refcount ≠ 0) :
  (doItemUnlinkDel hash s a).mem a = { s.mem a with linked := false }
  := by
  simp only [doItemUnlinkDel]
  split
  · rw [if_neg]
    · rw [unlinkItem_mem, Function.update_self]
    · rw [unlinkItem_mem, Function.update_self]
      exact h
  · next hlinked =>
    rw [Bool.not_eq_true] at hlinked
    rw [← hlinked]

/-- A caller's reference shows in the number of references. -/
theorem Lifecycle.refcount_ne_zero (h : Lifecycle hash s refs A ls) (hrefs : refs a ≠ 0) :
  (s.mem a).refcount ≠ 0
  := by
  rw [h.refcount a (h.used_refs a hrefs).1]
  exact hrefs

theorem Lifecycle.drops_doItemUnlinkDel (h : Lifecycle hash s refs A ls) (a : Addr) :
  Drops s (Memcached.doItemUnlinkDel hash s a) refs A (A.erase a)
  := by
  obtain ⟨hsettings, htime, hcas⟩ := doItemUnlinkDel_frame hash s a
  refine ⟨Finset.erase_subset a A, ?_, hsettings, htime, hcas⟩
  intro b hb
  by_cases hba : b = a
  · subst hba
    have hrefs : refs b ≠ 0 := hb.resolve_left (Finset.notMem_erase b A)
    rw [doItemUnlinkDel_self hash (h.refcount_ne_zero hrefs)]
    rfl
  · rw [doItemUnlinkDel_of_ne hash s hba]

/-! ### Stealing and evicting -/

/-- An item that a search from the tail finds is linked. -/
theorem Lifecycle.mem_of_searchTail
    (h : Lifecycle hash s refs A ls) {id : Nat} {test : Item → Bool}
    (hfind : searchTail s id test = some a) :
  a ∈ A ∧ (s.mem a).slabsClsid = id ∧ test (s.mem a) = true
  := by
  obtain ⟨hmem, htest⟩ := h.lists.find_tail hfind
  obtain ⟨ha, hid⟩ := (h.listed id a).mp hmem
  exact ⟨ha, hid, htest⟩

/-- A linked item without references is free of references. -/
theorem Lifecycle.refs_eq_zero (h : Lifecycle hash s refs A ls) (ha : a ∈ A)
    (hcount : (s.mem a).refcount = 0) :
  refs a = 0
  := by
  rw [← h.refcount a (h.used_linked a ha).1]
  exact hcount

theorem Lifecycle.stealItem
    (h : Lifecycle hash s refs A ls) {id : Nat}
    (hfind : searchTail s id (stealable s.currentTime) = some a) (ntotal : Nat) :
  Lifecycle hash (stealItem hash s id a ntotal) refs (A.erase a) (fun id => (ls id).erase a) ∧
    Drops s (stealItem hash s id a ntotal) refs A (A.erase a) ∧
    Fresh (stealItem hash s id a ntotal) refs (A.erase a) a
  := by
  obtain ⟨ha, hid, htest⟩ := h.mem_of_searchTail hfind
  have hcount : (s.mem a).refcount = 0 := by
    simp only [stealable, decide_eq_true_eq] at htest
    exact htest.1
  have hrefs := h.refs_eq_zero ha hcount
  have hused := h.used_linked a ha
  set s₁ := s.modify a fun it => { it with refcount := 1 } with hs₁
  set s₂ : State :=
    { s₁ with
      stats := { s.stats with reclaimed := s.stats.reclaimed + 1 }
      itemstats := Function.update s.itemstats id
        { s.itemstats id with reclaimed := (s.itemstats id).reclaimed + 1 }
      slabs := slabsAdjustMemRequested s.slabs (s₁.mem a).slabsClsid (s₁.mem a).ntotal ntotal } with hs₂
  have hsteal : Memcached.stealItem hash s id a ntotal
      = (Memcached.doItemUnlinkDel hash s₂ a).modify a fun it =>
          { it with slabsClsid := 0, refcount := 0 } := rfl
  have hcounts : Counts s₁ s₂ :=
    ⟨rfl, rfl, rfl, slabsAdjustMemRequested_quiet _ _ _ _, rfl, rfl, rfl, rfl, rfl⟩
  have h₁ := h.setRefcount hused 1
  have h₂ := hcounts.lifecycle h₁
  have h₃ := h₂.doItemUnlinkDel a
  have h₄ := h₃.retire (Finset.notMem_erase a A)
  have hback : Function.update (Function.update refs a 1) a 0 = refs := by
    rw [Function.update_idem, ← hrefs, Function.update_eq_self]
  rw [hback, ← hsteal] at h₄
  have hmem : ∀ b, b ≠ a → (Memcached.stealItem hash s id a ntotal).mem b = s.mem b := by
    intro b hb
    rw [hsteal, State.mem_modify_of_ne _ _ _ _ hb, doItemUnlinkDel_of_ne hash s₂ hb, hcounts.mem]
    exact State.mem_modify_of_ne s a b _ hb
  have hone : (s₂.mem a).refcount ≠ 0 := by
    rw [hcounts.mem, hs₁, State.mem_modify_self]
    exact one_ne_zero
  obtain ⟨hsettings, htime, hcas⟩ := doItemUnlinkDel_frame hash s₂ a
  refine ⟨h₄, ⟨Finset.erase_subset a A, ?_, hsettings, htime, hcas⟩, ?_⟩
  · intro b hb
    rw [hmem b]
    rintro rfl
    apply hb.elim
    · exact Finset.notMem_erase b A
    · exact fun hb => hb hrefs
  · have hslabs : (Memcached.stealItem hash s id a ntotal).slabs = s₂.slabs := by
      rw [hsteal]
      simp only [State.modify, Memcached.doItemUnlinkDel]
      split
      · rw [if_neg]
        · rfl
        · rw [unlinkItem_mem, Function.update_self]
          exact hone
      · rfl
    constructor
    · exact Finset.notMem_erase a A
    · exact hrefs
    · rw [hsteal, State.mem_modify_self]
    · rw [hslabs]
      intro id'
      rw [hcounts.slabs.unused]
      exact h.not_unused hused.1 id'
    · rw [hslabs, hcounts.slabs.top]
      exact h.used_lt a hused.1

/-- An eviction drops an item without references. -/
theorem Lifecycle.evictItem (h : Lifecycle hash s refs A ls) (id : Nat) :
  ∃ A' ls', Lifecycle hash (evictItem hash s id) refs A' ls' ∧
    Drops s (evictItem hash s id) refs A A' ∧ ∀ b ∈ A, refs b ≠ 0 → b ∈ A'
  := by
  rcases hfind : searchTail s id evictable with _ | a
  · use A, ls
    simp only [Memcached.evictItem, hfind]
    exact ⟨h, Drops.refl s refs A, fun b hb _ => hb⟩
  · obtain ⟨ha, -, htest⟩ := h.mem_of_searchTail hfind
    simp only [evictable, decide_eq_true_eq] at htest
    have hrefs := h.refs_eq_zero ha htest
    have hevict : ∃ s₁, Counts s s₁ ∧ Memcached.evictItem hash s id = Memcached.doItemUnlinkDel hash s₁ a := by
      simp only [Memcached.evictItem, hfind]
      split
      · refine ⟨_, ?_, rfl⟩
        exact ⟨rfl, rfl, rfl, Slabs.Quiet.refl _, rfl, rfl, rfl, rfl, rfl⟩
      · refine ⟨_, ?_, rfl⟩
        exact ⟨rfl, rfl, rfl, Slabs.Quiet.refl _, rfl, rfl, rfl, rfl, rfl⟩
    obtain ⟨s₁, hcounts, heq⟩ := hevict
    have h₁ := hcounts.lifecycle h
    rw [heq]
    refine ⟨_, _, h₁.doItemUnlinkDel a, (hcounts.drops refs A).trans (h₁.drops_doItemUnlinkDel a), ?_⟩
    intro b hb hrefsb
    apply Finset.mem_erase_of_ne_of_mem _ hb
    rintro rfl
    exact hrefsb hrefs

/-! ### Allocation -/

theorem Lifecycle.drops_slabsAllocDel (h : Lifecycle hash s refs A ls) (size id : Nat) :
  Drops s (Memcached.slabsAllocDel s size id).1 refs A A
  := by
  obtain ⟨-, -, -, -, hsettings, htime, hcas⟩ := slabsAllocDel_frame s size id
  refine ⟨Finset.Subset.refl A, ?_, hsettings, htime, hcas⟩
  intro b hb
  have hused : (s.mem b).slabsClsid ≠ 0 := by
    obtain hb | hb := hb
    · exact (h.used_linked b hb).1
    · exact (h.used_refs b hb).1
  obtain heq | ⟨hle, -⟩ := slabsAllocDel_mem h.slabs size id b
  · rw [heq]
  · exact absurd (h.beyond hle).2.2 hused

/-- The references without those to an item that has been released although it was in use. -/
def Refs.void (refs : Refs) : Option Addr → Refs
  | none => refs
  | some a => Function.update refs a 0

theorem Refs.void_of_ne {x : Option Addr} (h : x ≠ some b) : refs.void x b = refs b := by
  cases x with
  | none => rfl
  | some a =>
      apply Function.update_of_ne
      rintro rfl
      exact h rfl

theorem Refs.void_ne_zero {x : Option Addr} (h : refs.void x b ≠ 0) : refs b ≠ 0 := by
  cases x with
  | none => exact h
  | some a =>
      rw [Refs.void, Function.update_apply] at h
      split at h
      · exact absurd rfl h
      · exact h

/-- The repair of the tail releases an item in use. -/
theorem Lifecycle.repairItem (h : Lifecycle hash s refs A ls) (id : Nat) :
  ∃ A' ls', Lifecycle hash (repairItem hash s id)
      (refs.void (searchTail s id (repairable s.currentTime))) A' ls' ∧
    Drops s (repairItem hash s id) (refs.void (searchTail s id (repairable s.currentTime))) A A' ∧
    ∀ b ∈ A, refs.void (searchTail s id (repairable s.currentTime)) b ≠ 0 → b ∈ A'
  := by
  rcases hfind : searchTail s id (repairable s.currentTime) with _ | a
  · use A, ls
    simp only [Memcached.repairItem, hfind]
    exact ⟨h, Drops.refl s refs A, fun b hb _ => hb⟩
  · obtain ⟨ha, -, -⟩ := h.mem_of_searchTail hfind
    set s₁ := s.count id fun c => { c with tailrepairs := c.tailrepairs + 1 } with hs₁
    have hcounts : Counts s s₁ := ⟨rfl, rfl, rfl, Slabs.Quiet.refl _, rfl, rfl, rfl, rfl, rfl⟩
    have h₁ := hcounts.lifecycle h
    have h₂ := h₁.setRefcount (h₁.used_linked a ha) 0
    set s₂ := s₁.modify a fun it => { it with refcount := 0 } with hs₂
    have hrepair : Memcached.repairItem hash s id = Memcached.doItemUnlinkDel hash s₂ a := by
      simp only [Memcached.repairItem, hfind, hs₂, hs₁]
    have hne : ∀ b, refs.void (some a) b ≠ 0 → b ≠ a := by
      rintro b hb rfl
      rw [Refs.void, Function.update_self] at hb
      exact hb rfl
    have hdrops := h₂.drops_doItemUnlinkDel a
    rw [hrepair]
    refine ⟨_, _, h₂.doItemUnlinkDel a, ⟨hdrops.sub, ?_, hdrops.settings, hdrops.currentTime,
      hdrops.casId⟩, ?_⟩
    · intro b hb
      have hba : b ≠ a := hb.elim Finset.ne_of_mem_erase (hne b)
      rw [hdrops.kept b hb, hs₂, State.mem_modify_of_ne s₁ a b _ hba, hcounts.mem]
    · intro b hb hrefs
      exact Finset.mem_erase_of_ne_of_mem (hne b hrefs) hb

/-- What an allocation achieves. -/
structure Allocated (hash : Key → BitVec 32) (s : State) (refs : Refs) (A : Finset Addr)
    (r : State × Option Addr) (A' : Finset Addr) (ls' : Nat → List Addr) : Prop where
  lifecycle : Lifecycle hash r.1 refs A' ls'
  drops : Drops s r.1 refs A A'
  held : ∀ b ∈ A, refs b ≠ 0 → b ∈ A'
  fresh : ∀ a, r.2 = some a → Fresh r.1 refs A' a

theorem Lifecycle.allocated_slabsAllocDel (h : Lifecycle hash s refs A ls) (size id : Nat) :
  Allocated hash s refs A (Memcached.slabsAllocDel s size id) A ls
  where
  lifecycle := (h.slabsAllocDel size id).1
  drops := h.drops_slabsAllocDel size id
  held _ hb _ := hb
  fresh := (h.slabsAllocDel size id).2

theorem Allocated.of_drops
    {r : State × Option Addr} {ls' : Nat → List Addr} (hdrops : Drops s s' refs A A')
    (hheld : ∀ b ∈ A, refs b ≠ 0 → b ∈ A') (h : Allocated hash s' refs A' r A'' ls') :
  Allocated hash s refs A r A'' ls'
  where
  lifecycle := h.lifecycle
  drops := hdrops.trans h.drops
  held b hb hrefs := h.held b (hheld b hb hrefs) hrefs
  fresh := h.fresh

theorem Allocated.outOfMemory (h : Lifecycle hash s refs A ls) (id : Nat) :
  Allocated hash s refs A (outOfMemory s id, none) A ls
  where
  lifecycle := (counts_outOfMemory s id).lifecycle h
  drops := (counts_outOfMemory s id).drops refs A
  held _ hb _ := hb
  fresh _ ha := nomatch ha

/-- The last resort of an allocation. -/
theorem Lifecycle.allocated_repair (h : Lifecycle hash s refs A ls) (ntotal id : Nat) :
  ∃ A' ls', Allocated hash s (refs.void (searchTail s id (repairable s.currentTime))) A
    (Memcached.slabsAllocDel (Memcached.repairItem hash (Memcached.outOfMemory s id) id) ntotal id) A' ls'
  := by
  have hcounts := counts_outOfMemory s id
  obtain ⟨A', ls', h', hdrops, hheld⟩ := (hcounts.lifecycle h).repairItem id
  exact ⟨A', ls', Allocated.of_drops ((hcounts.drops _ A).trans hdrops) hheld
    (h'.allocated_slabsAllocDel ntotal id)⟩

theorem Lifecycle.allocChunk (h : Lifecycle hash s refs A ls) (ntotal id : Nat) :
  ∃ A' ls', Allocated hash s (refs.void (tailRepair hash s ntotal id)) A
    (allocChunk hash s ntotal id) A' ls'
  := by
  simp only [Memcached.allocChunk, tailRepair]
  rcases hsteal : searchTail s id (stealable s.currentTime) with _ | a
  · have h₁ := h.allocated_slabsAllocDel ntotal id
    rcases halloc : Memcached.slabsAllocDel s ntotal id with ⟨s₁, ret⟩
    rw [halloc] at h₁
    cases ret with
    | some a => exact ⟨A, ls, h₁⟩
    | none =>
        have hfail := Allocated.of_drops h₁.drops h₁.held (Allocated.outOfMemory h₁.lifecycle id)
        by_cases hevict : s₁.settings.evictToFree = false
        · simp only [if_pos hevict]
          exact ⟨A, ls, hfail⟩
        · by_cases htail : s₁.lru.tails id = none
          · simp only [if_neg hevict, if_pos htail]
            exact ⟨A, ls, hfail⟩
          · simp only [if_neg hevict, if_neg htail]
            obtain ⟨A₂, ls₂, h₂, hdrops₂, hheld₂⟩ := h₁.lifecycle.evictItem id
            have h₃ := Allocated.of_drops (h₁.drops.trans hdrops₂)
              (fun b hb hrefs => hheld₂ b (h₁.held b hb hrefs) hrefs)
              (h₂.allocated_slabsAllocDel ntotal id)
            rcases halloc₂ : Memcached.slabsAllocDel (Memcached.evictItem hash s₁ id) ntotal id
              with ⟨s₃, ret⟩
            rw [halloc₂] at h₃
            cases ret with
            | some a => exact ⟨A₂, ls₂, h₃⟩
            | none =>
                obtain ⟨A₄, ls₄, h₄⟩ := h₃.lifecycle.allocated_repair ntotal id
                refine ⟨A₄, ls₄, Allocated.of_drops (h₃.drops.mono ?_) ?_ h₄⟩
                · exact fun b hb => Refs.void_ne_zero hb
                · exact fun b hb hrefs => h₃.held b hb (Refs.void_ne_zero hrefs)
  · obtain ⟨h₁, hdrops, hfresh⟩ := h.stealItem hsteal ntotal
    refine ⟨_, _, h₁, hdrops, ?_, ?_⟩
    · intro b hb hrefs
      apply Finset.mem_erase_of_ne_of_mem _ hb
      rintro rfl
      exact hrefs hfresh.refs
    · rintro _ ⟨rfl⟩
      exact hfresh

/-- What an allocation releases was linked. -/
theorem Lifecycle.mem_of_tailRepair
    (h : Lifecycle hash s refs A ls) {ntotal id : Nat} (hrepair : tailRepair hash s ntotal id = some a) :
  a ∈ A
  := by
  simp only [tailRepair] at hrepair
  split at hrepair
  · cases hrepair
  · split at hrepair
    · cases hrepair
    · next s₁ halloc =>
      have h₁ := (h.slabsAllocDel ntotal id).1
      rw [halloc] at h₁
      split at hrepair
      · cases hrepair
      · split at hrepair
        · cases hrepair
        · split at hrepair
          · cases hrepair
          · next s₃ halloc₂ =>
            obtain ⟨A₂, ls₂, h₂, hdrops, -⟩ := h₁.evictItem id
            have h₃ := (h₂.slabsAllocDel ntotal id).1
            rw [halloc₂] at h₃
            exact hdrops.sub (h₃.mem_of_searchTail hrepair).1

/-- The references after an operation that takes one to the item it returns. -/
def Refs.take (refs : Refs) : Option Addr → Refs
  | none => refs
  | some a => Function.update refs a (refs a + 1)

/-- What `do_item_alloc_del` achieves: the items that callers refer to stay, and the new
item is one that nothing used. -/
structure Created (hash : Key → BitVec 32) (s : State) (refs : Refs) (A : Finset Addr) (k : Key)
    (flags : Int) (exptime nbytes : Nat) (r : State × Option Addr) (A' : Finset Addr)
    (ls' : Nat → List Addr) : Prop where
  lifecycle : Lifecycle hash r.1 (refs.take r.2) A' ls'
  drops : Drops s r.1 refs A A'
  held : ∀ b ∈ A, refs b ≠ 0 → b ∈ A'
  notMem : ∀ a, r.2 = some a → a ∉ A'
  refs : ∀ a, r.2 = some a → refs a = 0
  item : ∀ a, r.2 = some a → (r.1.mem a).key = k ∧ (r.1.mem a).suffix = suffixOf flags nbytes ∧
    (r.1.mem a).exptime = exptime ∧ (r.1.mem a).nbytes = nbytes ∧
    (r.1.mem a).hasCas = s.settings.useCas

theorem drops_access (s : State) (refs : Refs) (A : Finset Addr) (id : Nat) :
  Drops s (s.access id) refs A A
  where
  sub := Finset.Subset.refl A
  kept _ _ := rfl
  settings := rfl
  currentTime := rfl
  casId := rfl

theorem drops_initItem
    (hfresh : Fresh s refs A a) (id : Nat) (k : Key) (suffix : List UInt8) (exptime nbytes : Nat) :
  Drops s (initItem s a id k suffix exptime nbytes) refs A A
  where
  sub := Finset.Subset.refl A
  kept b hb := by
    have hba : b ≠ a := by
      rintro rfl
      apply hb.elim hfresh.notMem
      exact fun hb => hb hfresh.refs
    simp only [initItem, State.mem_modify_of_ne s a b _ hba]
  settings := rfl
  currentTime := rfl
  casId := rfl

/-- The size and the class of the chunk that `do_item_alloc_del` asks for, and the item it
releases although it is in use, if it comes to that. -/
def allocRepair (hash : Key → BitVec 32) (s : State) (k : Key) (flags : Int) (nbytes : Nat) :
    Option Addr :=
  let (ntotal, _, id) := itemSize s k flags nbytes
  if id = 0 then none else tailRepair hash (s.access id) ntotal id

theorem Lifecycle.mem_of_allocRepair
    (h : Lifecycle hash s refs A ls) {k : Key} {flags : Int} {nbytes : Nat}
    (hrepair : allocRepair hash s k flags nbytes = some a) :
  a ∈ A
  := by
  simp only [allocRepair] at hrepair
  split at hrepair
  · cases hrepair
  · exact (h.access _).mem_of_tailRepair hrepair

theorem Lifecycle.doItemAllocDel
    (h : Lifecycle hash s refs A ls) (k : Key) (flags : Int) (exptime nbytes : Nat) :
  ∃ A' ls', Created hash s (refs.void (allocRepair hash s k flags nbytes)) A k flags exptime nbytes
    (doItemAllocDel hash s k flags exptime nbytes) A' ls'
  := by
  rcases hsize : itemSize s k flags nbytes with ⟨ntotal, suffix, id⟩
  have hsuffix : suffix = suffixOf flags nbytes := by
    simp only [itemSize, itemMakeHeader, Prod.mk.injEq] at hsize
    exact hsize.2.1.symm
  simp only [Memcached.doItemAllocDel, allocRepair, hsize]
  by_cases hid : id = 0
  · simp only [if_pos hid]
    use A, ls
    refine ⟨h, Drops.refl s refs A, fun b hb _ => hb, ?_, ?_, ?_⟩ <;> exact fun a ha => nomatch ha
  · simp only [if_neg hid]
    obtain ⟨A', ls', halloc⟩ := (h.access id).allocChunk ntotal id
    use A', ls'
    rcases hchunk : Memcached.allocChunk hash (s.access id) ntotal id with ⟨s', ret⟩
    rw [hchunk] at halloc
    cases ret with
    | none =>
        refine ⟨halloc.lifecycle, (drops_access s _ A id).trans halloc.drops, halloc.held,
          ?_, ?_, ?_⟩ <;> exact fun a ha => nomatch ha
    | some a =>
        have hfresh := halloc.fresh a rfl
        have htake : (refs.void (tailRepair hash (s.access id) ntotal id)).take (some a)
            = Function.update (refs.void (tailRepair hash (s.access id) ntotal id)) a 1 := by
          rw [Refs.take, hfresh.refs]
        constructor
        · simp only [htake]
          exact halloc.lifecycle.initItem hfresh hid k suffix exptime nbytes
        · exact ((drops_access s _ A id).trans halloc.drops).trans (drops_initItem hfresh id k suffix exptime nbytes)
        · exact halloc.held
        · rintro _ ⟨rfl⟩
          exact hfresh.notMem
        · rintro _ ⟨rfl⟩
          exact hfresh.refs
        · rintro _ ⟨rfl⟩
          have hsettings : s'.settings = s.settings := halloc.drops.settings
          simp [Memcached.initItem, hsuffix, hsettings]

/-! ### Access -/

/-- An access finds dead items and drops them, and takes a reference otherwise. -/
theorem Lifecycle.doItemGetDel
    (h : Lifecycle hash s refs A ls) {k : Key} (hrefs : ∀ a ∈ A, s.key a = k → refs a + 1 < 2 ^ 16) :
  ∃ A' ls', Lifecycle hash (doItemGetDel hash s k).1 (refs.take (doItemGetDel hash s k).2) A' ls' ∧
    A' ⊆ A
  := by
  rcases hfind : assocFind hash s.key s.assoc k with _ | a
  · use A, ls
    simp only [Memcached.doItemGetDel, hfind]
    exact ⟨h, Finset.Subset.refl A⟩
  · simp only [Memcached.doItemGetDel, hfind]
    split
    · exact ⟨_, _, h.doItemUnlinkDel a, Finset.erase_subset a A⟩
    · split
      · exact ⟨_, _, h.doItemUnlinkDel a, Finset.erase_subset a A⟩
      · obtain ⟨ha, hk⟩ := (assocFind_eq_some_iff h.table).mp hfind
        have hused := h.used_linked a ha
        have hcount := h.refcount a hused.1
        have hnext : (s.modify a fun it => { it with refcount := (it.refcount + 1) % 2 ^ 16 })
            = s.modify a fun it => { it with refcount := refs a + 1 } := by
          simp only [State.modify, hcount, Nat.mod_eq_of_lt (hrefs a ha hk)]
        simp only [hnext]
        exact ⟨A, ls, h.setRefcount hused (refs a + 1), Finset.Subset.refl A⟩

theorem Lifecycle.doItemReplaceDel
    (h : Lifecycle hash s refs A ls) (hb : b ∉ A) (hrefs : refs b ≠ 0)
    (hk : ∀ c ∈ A, c ≠ a → s.key c ≠ s.key b) :
  ∃ ls', Lifecycle hash (doItemReplaceDel hash s a b) refs (insert b (A.erase a)) ls'
  := by
  have h₁ := h.doItemUnlinkDel a
  have hdrops := h.drops_doItemUnlinkDel a
  refine ⟨_, h₁.doItemLinkDel ?_ hrefs ?_⟩
  · intro hmem
    exact hb (Finset.mem_of_mem_erase hmem)
  · intro c hc
    rw [hdrops.key (.inl hc), hdrops.key (.inr hrefs)]
    exact hk c (Finset.mem_of_mem_erase hc) (Finset.ne_of_mem_erase hc)

/-! ### Flush and statistics -/

theorem Lifecycle.flushList (h : Lifecycle hash s refs A ls) (n : Nat) (iter : Option Addr) :
  ∃ A' ls', Lifecycle hash (flushList hash s n iter) refs A' ls' ∧
    Drops s (flushList hash s n iter) refs A A'
  := by
  induction n generalizing s A ls iter with
  | zero => exact ⟨A, ls, h, Drops.refl s refs A⟩
  | succ n ih =>
      cases iter with
      | none => exact ⟨A, ls, h, Drops.refl s refs A⟩
      | some a =>
          simp only [Memcached.flushList]
          split
          · split
            · obtain ⟨A', ls', h', hdrops⟩ := ih (h.doItemUnlinkDel a) (s.lru.next a)
              exact ⟨A', ls', h', (h.drops_doItemUnlinkDel a).trans hdrops⟩
            · exact ih h (s.lru.next a)
          · exact ⟨A, ls, h, Drops.refl s refs A⟩

theorem Lifecycle.purgeTail (h : Lifecycle hash s refs A ls) (id n : Nat) :
  ∃ A' ls', Lifecycle hash (purgeTail hash s id n) refs A' ls' ∧
    Drops s (purgeTail hash s id n) refs A A'
  := by
  induction n generalizing s A ls with
  | zero => exact ⟨A, ls, h, Drops.refl s refs A⟩
  | succ n ih =>
      simp only [Memcached.purgeTail]
      split
      · exact ⟨A, ls, h, Drops.refl s refs A⟩
      · next a _ =>
        split
        · split
          · obtain ⟨A', ls', h', hdrops⟩ := ih (h.doItemUnlinkDel a)
            exact ⟨A', ls', h', (h.drops_doItemUnlinkDel a).trans hdrops⟩
          · exact ⟨A, ls, h, Drops.refl s refs A⟩
        · exact ⟨A, ls, h, Drops.refl s refs A⟩

/-- A loop over the slab classes drops items if its body does. -/
theorem Lifecycle.foldl
    {f : State → Nat → State}
    (hf : ∀ {s A ls} id, Lifecycle hash s refs A ls →
      ∃ A' ls', Lifecycle hash (f s id) refs A' ls' ∧ Drops s (f s id) refs A A')
    (h : Lifecycle hash s refs A ls) (ids : List Nat) :
  ∃ A' ls', Lifecycle hash (ids.foldl f s) refs A' ls' ∧ Drops s (ids.foldl f s) refs A A'
  := by
  induction ids generalizing s A ls with
  | nil => exact ⟨A, ls, h, Drops.refl s refs A⟩
  | cons id ids ih =>
      obtain ⟨A₁, ls₁, h₁, hdrops₁⟩ := hf id h
      obtain ⟨A', ls', h', hdrops⟩ := ih h₁
      exact ⟨A', ls', h', hdrops₁.trans hdrops⟩

theorem Lifecycle.doItemFlushExpiredDel (h : Lifecycle hash s refs A ls) :
  ∃ A' ls', Lifecycle hash (doItemFlushExpiredDel hash s) refs A' ls' ∧
    Drops s (doItemFlushExpiredDel hash s) refs A A'
  := by
  simp only [Memcached.doItemFlushExpiredDel]
  split
  · exact ⟨A, ls, h, Drops.refl s refs A⟩
  · apply Lifecycle.foldl _ h
    intro s A ls id h
    exact h.flushList _ _

theorem Lifecycle.doItemStatsDel (h : Lifecycle hash s refs A ls) :
  ∃ A' ls', Lifecycle hash (doItemStatsDel hash s) refs A' ls' ∧
    Drops s (doItemStatsDel hash s) refs A A'
  := by
  apply Lifecycle.foldl _ h
  intro s A ls id h
  exact h.purgeTail id searchTries

end Memcached
