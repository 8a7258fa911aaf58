import Ffwd.Memcached.Items

/-!
# The life of an item

`Lifecycle` is the invariant of the items: which of them are linked, that the hash table
and the LRU lists hold exactly these, that the counters count them, that nothing in use is
on a free list, and that `refcount` is the number of references. The references that
callers have taken are a ghost variable. Every operation of `items.c` keeps the invariant,
for callers that release the references they took and link only absent keys.
-/

namespace Memcached

open Linked

/-- The references taken to each item and not released. -/
abbrev Refs := Addr → Nat

/-- The invariant, for the linked items `A` and the LRU lists `ls`. -/
structure Lifecycle (hash : Key → BitVec 32) (s : State) (refs : Refs) (A : Finset Addr)
    (ls : Nat → List Addr) : Prop where
  linked : ∀ a, a ∈ A ↔ (s.mem a).linked = true
  table : s.assoc.Holds hash s.key A
  lists : s.lru.Lists ls
  listed : ∀ id a, a ∈ ls id ↔ a ∈ A ∧ (s.mem a).slabsClsid = id
  sorted : ∀ id, (ls id).Pairwise fun a b => (s.mem b).time ≤ (s.mem a).time
  past : ∀ a ∈ A, (s.mem a).time ≤ s.currentTime
  currItems : s.stats.currItems = A.card
  currBytes : s.stats.currBytes = ∑ a ∈ A, (s.mem a).ntotal
  slabs : s.slabs.Wf
  unused : ∀ id, ∀ a ∈ s.slabs.unused id, (s.mem a).slabsClsid = 0
  used_lt : ∀ a, (s.mem a).slabsClsid ≠ 0 → a < s.slabs.top
  used_linked : ∀ a ∈ A, (s.mem a).slabsClsid ≠ 0 ∧ (s.mem a).slabbed = false
  used_refs : ∀ a, refs a ≠ 0 → (s.mem a).slabsClsid ≠ 0 ∧ (s.mem a).slabbed = false
  refcount : ∀ a, (s.mem a).slabsClsid ≠ 0 → (s.mem a).refcount = refs a

/-- The fields of an item the invariant looks at. -/
structure Item.Same (it it' : Item) : Prop where
  time : it'.time = it.time
  refcount : it'.refcount = it.refcount
  linked : it'.linked = it.linked
  slabbed : it'.slabbed = it.slabbed
  slabsClsid : it'.slabsClsid = it.slabsClsid
  key : it'.key = it.key
  ntotal : it'.ntotal = it.ntotal

section State

variable (s : State) (a b : Addr) (f : Item → Item)

@[simp] theorem State.mem_modify_self : (s.modify a f).mem a = f (s.mem a) :=
  Function.update_self _ _ _

theorem State.mem_modify_of_ne (h : b ≠ a) : (s.modify a f).mem b = s.mem b :=
  Function.update_of_ne h _ _

theorem State.mem_modify : (s.modify a f).mem b = if b = a then f (s.mem a) else s.mem b :=
  Function.update_apply _ _ _ _

end State

variable {hash : Key → BitVec 32} {s s' : State} {refs : Refs} {A : Finset Addr}
  {ls : Nat → List Addr} {a b : Addr}

/-- A change of what the invariant does not look at. -/
theorem Lifecycle.congr
    (h : Lifecycle hash s refs A ls) (hassoc : s'.assoc = s.assoc) (hlru : s'.lru = s.lru)
    (hslabs : s.slabs.Quiet s'.slabs) (hitems : s'.stats.currItems = s.stats.currItems)
    (hbytes : s'.stats.currBytes = s.stats.currBytes) (htime : s.currentTime ≤ s'.currentTime)
    (hmem : ∀ a, (s.mem a).Same (s'.mem a)) :
  Lifecycle hash s' refs A ls
  := by
  have hkey : s'.key = s.key := funext fun a => (hmem a).key
  constructor
  · intro a
    rw [h.linked, (hmem a).linked]
  · rw [hassoc, hkey]
    exact h.table
  · rw [hlru]
    exact h.lists
  · intro id a
    rw [h.listed, (hmem a).slabsClsid]
  · intro id
    simp only [(hmem _).time]
    exact h.sorted id
  · intro a ha
    rw [(hmem a).time]
    exact le_trans (h.past a ha) htime
  · rw [hitems, h.currItems]
  · simp only [hbytes, h.currBytes, (hmem _).ntotal]
  · exact hslabs.wf h.slabs
  · intro id a ha
    rw [hslabs.unused] at ha
    rw [(hmem a).slabsClsid]
    exact h.unused id a ha
  · intro a
    rw [hslabs.top, (hmem a).slabsClsid]
    exact h.used_lt a
  · intro a
    rw [(hmem a).slabsClsid, (hmem a).slabbed]
    exact h.used_linked a
  · intro a
    rw [(hmem a).slabsClsid, (hmem a).slabbed]
    exact h.used_refs a
  · intro a
    rw [(hmem a).slabsClsid, (hmem a).refcount]
    exact h.refcount a

/-- The invariant does not look at what has been accessed. -/
theorem Lifecycle.access (h : Lifecycle hash s refs A ls) (id : Nat) :
  Lifecycle hash (s.access id) refs A ls
  :=
  { h with lists := h.lists.congr rfl rfl rfl (fun _ _ _ => rfl) (fun _ _ _ => rfl) }

/-! ### Unlinking and freeing -/

theorem Lifecycle.mem_list (h : Lifecycle hash s refs A ls) (ha : a ∈ A) :
  a ∈ ls (s.mem a).slabsClsid
  := (h.listed _ a).mpr ⟨ha, rfl⟩

/-- Taking an item out of its list takes it out of all lists. -/
theorem Lifecycle.erase_lists (h : Lifecycle hash s refs A ls) (a : Addr) :
  Function.update ls (s.mem a).slabsClsid ((ls (s.mem a).slabsClsid).erase a)
    = fun id => (ls id).erase a
  := by
  funext id
  by_cases hid : id = (s.mem a).slabsClsid
  · rw [hid, Function.update_self]
  · rw [Function.update_of_ne hid, List.erase_of_not_mem]
    intro ha
    exact hid ((h.listed id a).mp ha).2.symm

theorem unlinkItem_mem (hash : Key → BitVec 32) (s : State) (a : Addr) :
  (unlinkItem hash s a).mem = Function.update s.mem a { s.mem a with linked := false }
  := rfl

theorem Lifecycle.unlinkItem (h : Lifecycle hash s refs A ls) (ha : a ∈ A) :
  Lifecycle hash (unlinkItem hash s a) refs (A.erase a) fun id => (ls id).erase a
  := by
  have hmem : ∀ b, (Memcached.unlinkItem hash s a).mem b
      = if b = a then { s.mem a with linked := false } else s.mem b := by
    intro b
    rw [unlinkItem_mem, Function.update_apply]
  have hfield : ∀ {β : Type} (g : Item → β), (∀ it, g { it with linked := false } = g it) →
      ∀ b, g ((Memcached.unlinkItem hash s a).mem b) = g (s.mem b) := by
    intro β g hg b
    rw [hmem]
    split
    · next hb => rw [hg, hb]
    · rfl
  have hkey : (Memcached.unlinkItem hash s a).key = s.key := funext (hfield Item.key (fun _ => rfl))
  have hclsid := hfield Item.slabsClsid (fun _ => rfl)
  have htime := hfield Item.time (fun _ => rfl)
  have htotal := hfield Item.ntotal (fun _ => rfl)
  have hslabbed := hfield Item.slabbed (fun _ => rfl)
  have hrefcount := hfield Item.refcount (fun _ => rfl)
  have hsub : ∀ id b, b ∈ (ls id).erase a → b ∈ ls id := fun id b hb => List.mem_of_mem_erase hb
  constructor
  · intro b
    rw [hmem, Finset.mem_erase]
    split
    · next hb => simp [hb]
    · next hb => simp [hb, h.linked]
  · have hassoc : (Memcached.unlinkItem hash s a).assoc = assocDelete hash s.key s.assoc (s.key a) := by
      have : (s.modify a fun it => { it with linked := false }).key = s.key := hkey
      simp only [Memcached.unlinkItem]
      rw [← this]
      rfl
    rw [hassoc, hkey]
    exact h.table.assocDelete ha
  · have hlru : (Memcached.unlinkItem hash s a).lru = itemUnlinkQ s.lru a (s.mem a).slabsClsid := by
      simp [Memcached.unlinkItem, State.modify]
    rw [hlru, ← h.erase_lists]
    exact h.lists.itemUnlinkQ (h.mem_list ha)
  · intro id b
    rw [hclsid, Finset.mem_erase, (h.lists.nodup id).mem_erase_iff, h.listed]
    tauto
  · intro id
    simp only [htime]
    exact (h.sorted id).sublist List.erase_sublist
  · intro b hb
    rw [htime]
    exact h.past b (Finset.mem_of_mem_erase hb)
  · rw [Finset.card_erase_of_mem ha, ← h.currItems]
    rfl
  · have hbytes : (Memcached.unlinkItem hash s a).stats.currBytes
        = s.stats.currBytes - (s.mem a).ntotal := by
      simp [Memcached.unlinkItem, State.modify, Item.ntotal]
    simp only [hbytes, htotal, h.currBytes]
    rw [← Finset.add_sum_erase A _ ha, Nat.add_sub_cancel_left]
  · exact h.slabs
  · intro id b hb
    rw [hclsid]
    exact h.unused id b hb
  · intro b
    rw [hclsid]
    exact h.used_lt b
  · intro b hb
    rw [hclsid, hslabbed]
    exact h.used_linked b (Finset.mem_of_mem_erase hb)
  · intro b
    rw [hclsid, hslabbed]
    exact h.used_refs b
  · intro b
    rw [hclsid, hrefcount]
    exact h.refcount b

/-- A used item is not unused. -/
theorem Lifecycle.not_unused (h : Lifecycle hash s refs A ls) (hused : (s.mem a).slabsClsid ≠ 0) :
  ∀ id, a ∉ s.slabs.unused id
  := fun id ha => hused (h.unused id a ha)

/-- An item that is neither linked nor referred to is freed. -/
theorem Lifecycle.itemFreeDel
    (h : Lifecycle hash s refs A ls) (ha : a ∉ A) (hrefs : refs a = 0)
    (hused : (s.mem a).slabsClsid ≠ 0) :
  Lifecycle hash (itemFreeDel s a) refs A ls
  := by
  obtain ⟨hwf, halike, htop, hunused⟩ := doSlabsFree_spec h.slabs (h.not_unused hused)
    (h.used_lt a hused) (s.mem a).ntotal (s.mem a).slabsClsid
  have hne : ∀ b, b ∈ A → b ≠ a := by
    rintro b hb rfl
    exact ha hb
  have hmem : ∀ b, b ≠ a → (Memcached.itemFreeDel s a).mem b = s.mem b := by
    intro b hb
    simp [Memcached.itemFreeDel, State.mem_modify, hb]
  have hself : (Memcached.itemFreeDel s a).mem a = { s.mem a with slabsClsid := 0, slabbed := true } := by
    simp [Memcached.itemFreeDel]
  have hkey : (Memcached.itemFreeDel s a).key = s.key := by
    funext b
    by_cases hb : b = a
    · simp only [State.key, hb, hself]
    · simp only [State.key, hmem b hb]
  have hlist : ∀ id b, b ∈ ls id → b ≠ a := fun id b hb => hne b ((h.listed id b).mp hb).1
  constructor
  · intro b
    by_cases hb : b = a
    · rw [hb, hself]
      exact h.linked a
    · rw [hmem b hb]
      exact h.linked b
  · rw [hkey]
    exact h.table
  · exact h.lists
  · intro id b
    by_cases hb : b = a
    · subst hb
      constructor
      · exact fun hb => absurd rfl (hlist id b hb)
      · exact fun hb => absurd hb.1 ha
    · rw [hmem b hb]
      exact h.listed id b
  · intro id
    apply (h.sorted id).imp_of_mem
    intro b c hb hc hle
    rw [hmem b (hlist id b hb), hmem c (hlist id c hc)]
    exact hle
  · intro b hb
    rw [hmem b (hne b hb)]
    exact h.past b hb
  · exact h.currItems
  · rw [show (Memcached.itemFreeDel s a).stats = s.stats from rfl, h.currBytes]
    apply Finset.sum_congr rfl
    intro b hb
    rw [hmem b (hne b hb)]
  · exact hwf
  · intro id b hb
    by_cases hba : b = a
    · rw [hba, hself]
    · rw [hmem b hba]
      obtain hb | hb := hunused id b hb
      · exact h.unused id b hb
      · exact absurd hb hba
  · intro b hb
    by_cases hba : b = a
    · rw [hba, hself] at hb
      exact absurd rfl hb
    · rw [hmem b hba] at hb
      exact lt_of_lt_of_eq (h.used_lt b hb) htop.symm
  · intro b hb
    rw [hmem b (hne b hb)]
    exact h.used_linked b hb
  · intro b hb
    have hba : b ≠ a := by
      rintro rfl
      exact hb hrefs
    rw [hmem b hba]
    exact h.used_refs b hb
  · intro b hb
    by_cases hba : b = a
    · rw [hba, hself] at hb
      exact absurd rfl hb
    · rw [hmem b hba] at hb ⊢
      exact h.refcount b hb

theorem Lifecycle.doItemUnlinkDel (h : Lifecycle hash s refs A ls) (a : Addr) :
  Lifecycle hash (doItemUnlinkDel hash s a) refs (A.erase a) fun id => (ls id).erase a
  := by
  simp only [Memcached.doItemUnlinkDel]
  split
  · next hlinked =>
    have ha : a ∈ A := (h.linked a).mpr hlinked
    have hunlinked := h.unlinkItem ha
    have hused : ((Memcached.unlinkItem hash s a).mem a).slabsClsid ≠ 0 := by
      rw [unlinkItem_mem, Function.update_self]
      exact (h.used_linked a ha).1
    split
    · next hzero =>
      apply hunlinked.itemFreeDel (Finset.notMem_erase a A) _ hused
      rw [← hunlinked.refcount a hused, hzero]
    · exact hunlinked
  · next hlinked =>
    have ha : a ∉ A := fun ha => hlinked ((h.linked a).mp ha)
    have hls : (fun id => (ls id).erase a) = ls := by
      funext id
      apply List.erase_of_not_mem
      intro hmem
      exact ha ((h.listed id a).mp hmem).1
    rw [Finset.erase_eq_of_notMem ha, hls]
    exact h

/-! ### References -/

/-- A change of the number of references to a used item. -/
theorem Lifecycle.setRefcount
    (h : Lifecycle hash s refs A ls)
    (hused : (s.mem a).slabsClsid ≠ 0 ∧ (s.mem a).slabbed = false) (n : Nat) :
  Lifecycle hash (s.modify a fun it => { it with refcount := n }) (Function.update refs a n) A ls
  := by
  have hfield : ∀ {β : Type} (g : Item → β), (∀ it, g { it with refcount := n } = g it) →
      ∀ b, g ((s.modify a fun it => { it with refcount := n }).mem b) = g (s.mem b) := by
    intro β g hg b
    rw [State.mem_modify]
    split
    · next hb => rw [hg, hb]
    · rfl
  have hkey : (s.modify a fun it => { it with refcount := n }).key = s.key :=
    funext (hfield Item.key (fun _ => rfl))
  have hlinked := hfield Item.linked (fun _ => rfl)
  have hclsid := hfield Item.slabsClsid (fun _ => rfl)
  have htime := hfield Item.time (fun _ => rfl)
  have htotal := hfield Item.ntotal (fun _ => rfl)
  have hslabbed := hfield Item.slabbed (fun _ => rfl)
  constructor
  · intro b
    rw [hlinked]
    exact h.linked b
  · rw [hkey]
    exact h.table
  · exact h.lists
  · intro id b
    rw [hclsid]
    exact h.listed id b
  · intro id
    simp only [htime]
    exact h.sorted id
  · intro b
    rw [htime]
    exact h.past b
  · exact h.currItems
  · simp only [htotal]
    exact h.currBytes
  · exact h.slabs
  · intro id b
    rw [hclsid]
    exact h.unused id b
  · intro b
    rw [hclsid]
    exact h.used_lt b
  · intro b
    rw [hclsid, hslabbed]
    exact h.used_linked b
  · intro b hb
    rw [hclsid, hslabbed]
    by_cases hba : b = a
    · rw [hba]
      exact hused
    · rw [Function.update_of_ne hba] at hb
      exact h.used_refs b hb
  · intro b
    rw [hclsid, State.mem_modify]
    by_cases hba : b = a
    · subst hba
      simp
    · rw [if_neg hba, Function.update_of_ne hba]
      exact h.refcount b

/-- Releasing a reference. -/
theorem Lifecycle.doItemRemoveDel (h : Lifecycle hash s refs A ls) (hrefs : refs a ≠ 0) :
  Lifecycle hash (doItemRemoveDel s a) (Function.update refs a (refs a - 1)) A ls
  := by
  have hused := h.used_refs a hrefs
  have hcount := h.refcount a hused.1
  have hdrop := h.setRefcount hused (refs a - 1)
  have hs : Memcached.doItemRemoveDel s a =
      let s := s.modify a fun it => { it with refcount := refs a - 1 }
      if (s.mem a).refcount = 0 ∧ (s.mem a).linked = false then Memcached.itemFreeDel s a else s := by
    simp only [Memcached.doItemRemoveDel, hcount, if_pos hrefs]
    rw [show (s.modify a fun it => { it with refcount := it.refcount - 1 })
        = s.modify a fun it => { it with refcount := refs a - 1 } by
      simp only [State.modify, hcount]]
  rw [hs]
  simp only []
  split
  · next hfree =>
    simp only [State.mem_modify_self] at hfree
    apply hdrop.itemFreeDel
    · intro ha
      have := (h.linked a).mp ha
      rw [hfree.2] at this
      cases this
    · rw [Function.update_self]
      exact hfree.1
    · rw [State.mem_modify_self]
      exact hused.1
  · exact hdrop

/-! ### Linking -/

/-- The CAS id an item gets when it is linked or changed in place. -/
def newCas (s : State) (a : Addr) : Nat :=
  if (s.mem a).hasCas then if s.settings.useCas then (s.casId + 1) % 2 ^ 64 else 0
  else (s.mem a).cas

theorem setNewCas_mem (s : State) (a : Addr) :
  (setNewCas s a).mem = Function.update s.mem a { s.mem a with cas := newCas s a }
  := by
  simp only [setNewCas, newCas, getCasId]
  split
  · split <;> rfl
  · rw [Function.update_eq_self]

theorem setNewCas_casId (s : State) (a : Addr) :
  (setNewCas s a).casId
    = if (s.mem a).hasCas ∧ s.settings.useCas then (s.casId + 1) % 2 ^ 64 else s.casId
  := by
  simp only [setNewCas, getCasId]
  split
  · next hcas =>
    split
    · next huse => simp [hcas, huse, State.modify]
    · next huse => simp [hcas, huse, State.modify]
  · next hcas => simp [hcas]

/-- A new CAS id changes neither the structure nor the counters. -/
theorem setNewCas_frame (s : State) (a : Addr) :
  (setNewCas s a).assoc = s.assoc ∧ (setNewCas s a).lru = s.lru ∧ (setNewCas s a).slabs = s.slabs ∧
    (setNewCas s a).stats = s.stats ∧ (setNewCas s a).itemstats = s.itemstats ∧
    (setNewCas s a).settings = s.settings ∧ (setNewCas s a).currentTime = s.currentTime
  := by
  simp only [setNewCas, getCasId]
  split
  · split <;> exact ⟨rfl, rfl, rfl, rfl, rfl, rfl, rfl⟩
  · exact ⟨rfl, rfl, rfl, rfl, rfl, rfl, rfl⟩

/-- What linking does to the memory. -/
theorem doItemLinkDel_mem (hash : Key → BitVec 32) (s : State) (a : Addr) :
  (doItemLinkDel hash s a).mem = Function.update s.mem a
    { s.mem a with linked := true, time := s.currentTime, cas := newCas s a }
  := by
  simp only [doItemLinkDel, setNewCas_mem, State.modify, Function.update_self, Function.update_idem,
    newCas]

theorem doItemLinkDel_frame (hash : Key → BitVec 32) (s : State) (a : Addr) :
  (doItemLinkDel hash s a).assoc = assocInsert hash s.key s.assoc a ∧
    (doItemLinkDel hash s a).lru = itemLinkQ s.lru a (s.mem a).slabsClsid ∧
    (doItemLinkDel hash s a).slabs = s.slabs ∧
    (doItemLinkDel hash s a).stats.currItems = s.stats.currItems + 1 ∧
    (doItemLinkDel hash s a).stats.currBytes = s.stats.currBytes + (s.mem a).ntotal ∧
    (doItemLinkDel hash s a).itemstats = s.itemstats ∧
    (doItemLinkDel hash s a).settings = s.settings ∧
    (doItemLinkDel hash s a).currentTime = s.currentTime
  := by
  have hkey : (s.modify a fun it => { it with linked := true, time := s.currentTime }).key = s.key := by
    funext b
    simp only [State.key, State.mem_modify]
    split
    · next hb => rw [hb]
    · rfl
  simp only [doItemLinkDel, setNewCas_frame, setNewCas_mem, hkey]
  simp [State.modify, Item.ntotal]

/-- Linking an item a caller refers to, under an absent key. -/
theorem Lifecycle.doItemLinkDel
    (h : Lifecycle hash s refs A ls) (ha : a ∉ A) (hrefs : refs a ≠ 0)
    (hk : ∀ b ∈ A, s.key b ≠ s.key a) :
  Lifecycle hash (doItemLinkDel hash s a) refs (insert a A)
    (Function.update ls (s.mem a).slabsClsid (a :: ls (s.mem a).slabsClsid))
  := by
  set v := newCas s a with hv
  obtain ⟨hassoc, hlru, hslabs, hitems, hbytes, -, -, htime⟩ := doItemLinkDel_frame hash s a
  have hused := h.used_refs a hrefs
  have hmem : ∀ b, (Memcached.doItemLinkDel hash s a).mem b
      = if b = a then { s.mem a with linked := true, time := s.currentTime, cas := v }
        else s.mem b := by
    intro b
    rw [doItemLinkDel_mem, Function.update_apply]
  have hfield : ∀ {β : Type} (g : Item → β),
      (∀ it, g { it with linked := true, time := s.currentTime, cas := v } = g it) →
      ∀ b, g ((Memcached.doItemLinkDel hash s a).mem b) = g (s.mem b) := by
    intro β g hg b
    rw [hmem]
    split
    · next hb => rw [hg, hb]
    · rfl
  have hkey : (Memcached.doItemLinkDel hash s a).key = s.key := funext (hfield Item.key (fun _ => rfl))
  have hclsid := hfield Item.slabsClsid (fun _ => rfl)
  have htotal := hfield Item.ntotal (fun _ => rfl)
  have hslabbed := hfield Item.slabbed (fun _ => rfl)
  have hrefcount := hfield Item.refcount (fun _ => rfl)
  have hne : ∀ b ∈ A, b ≠ a := by
    rintro b hb rfl
    exact ha hb
  have hnot : ∀ id, a ∉ ls id := fun id hmem => ha ((h.listed id a).mp hmem).1
  have hold : ∀ id b, b ∈ ls id → (Memcached.doItemLinkDel hash s a).mem b = s.mem b := by
    intro id b hb
    rw [hmem, if_neg (hne b ((h.listed id b).mp hb).1)]
  constructor
  · intro b
    rw [hmem, Finset.mem_insert]
    split
    · next hb => simp [hb]
    · next hb => simp [hb, h.linked]
  · rw [hassoc, hkey]
    exact h.table.assocInsert ha hk
  · rw [hlru]
    exact h.lists.itemLinkQ hnot _
  · intro id b
    rw [hclsid, Finset.mem_insert]
    by_cases hid : id = (s.mem a).slabsClsid
    · subst hid
      rw [Function.update_self, List.mem_cons, h.listed]
      constructor
      · rintro (rfl | ⟨hb, hcls⟩)
        · exact ⟨.inl rfl, rfl⟩
        · exact ⟨.inr hb, hcls⟩
      · rintro ⟨rfl | hb, hcls⟩
        · exact .inl rfl
        · exact .inr ⟨hb, hcls⟩
    · rw [Function.update_of_ne hid, h.listed]
      constructor
      · rintro ⟨hb, hcls⟩
        exact ⟨.inr hb, hcls⟩
      · rintro ⟨rfl | hb, hcls⟩
        · exact absurd hcls.symm hid
        · exact ⟨hb, hcls⟩
  · intro id
    have hsorted : (ls id).Pairwise fun b c =>
        ((Memcached.doItemLinkDel hash s a).mem c).time
          ≤ ((Memcached.doItemLinkDel hash s a).mem b).time := by
      apply (h.sorted id).imp_of_mem
      intro b c hb hc hle
      rw [hold id b hb, hold id c hc]
      exact hle
    by_cases hid : id = (s.mem a).slabsClsid
    · subst hid
      rw [Function.update_self, List.pairwise_cons]
      refine ⟨?_, hsorted⟩
      intro b hb
      rw [hold _ b hb, hmem, if_pos rfl]
      exact h.past b ((h.listed _ b).mp hb).1
    · rw [Function.update_of_ne hid]
      exact hsorted
  · intro b hb
    rw [htime, hmem]
    split
    · exact le_rfl
    · next hba => exact h.past b ((Finset.mem_insert.mp hb).resolve_left hba)
  · rw [hitems, h.currItems, Finset.card_insert_of_notMem ha]
  · simp only [hbytes, htotal, h.currBytes]
    rw [Finset.sum_insert ha, Nat.add_comm]
  · rw [hslabs]
    exact h.slabs
  · intro id b
    rw [hslabs, hclsid]
    exact h.unused id b
  · intro b
    rw [hslabs, hclsid]
    exact h.used_lt b
  · intro b hb
    rw [hclsid, hslabbed]
    obtain rfl | hb := Finset.mem_insert.mp hb
    · exact hused
    · exact h.used_linked b hb
  · intro b
    rw [hclsid, hslabbed]
    exact h.used_refs b
  · intro b
    rw [hclsid, hrefcount]
    exact h.refcount b

/-! ### Moving to the head of the list -/

/-- The time of an item changed, and the item moved to the head of its list. -/
theorem Lifecycle.touch (h : Lifecycle hash s refs A ls) (ha : a ∈ A) :
  ∃ ls', Lifecycle hash
    { s.modify a fun it => { it with time := s.currentTime } with
      lru := itemLinkQ (itemUnlinkQ s.lru a (s.mem a).slabsClsid) a (s.mem a).slabsClsid } refs A ls'
  := by
  set c := (s.mem a).slabsClsid with hc
  set s' : State := { s.modify a fun it => { it with time := s.currentTime } with
    lru := itemLinkQ (itemUnlinkQ s.lru a c) a c } with hs'
  have hmem : ∀ b, s'.mem b = if b = a then { s.mem a with time := s.currentTime } else s.mem b :=
    fun b => State.mem_modify s a b fun it => { it with time := s.currentTime }
  have hfield : ∀ {β : Type} (g : Item → β), (∀ it, g { it with time := s.currentTime } = g it) →
      ∀ b, g (s'.mem b) = g (s.mem b) := by
    intro β g hg b
    rw [hmem]
    split
    · next hb => rw [hg, hb]
    · rfl
  have hkey : s'.key = s.key := funext (hfield Item.key (fun _ => rfl))
  have hlinked := hfield Item.linked (fun _ => rfl)
  have hclsid := hfield Item.slabsClsid (fun _ => rfl)
  have htotal := hfield Item.ntotal (fun _ => rfl)
  have hslabbed := hfield Item.slabbed (fun _ => rfl)
  have hrefcount := hfield Item.refcount (fun _ => rfl)
  have hun := h.lists.itemUnlinkQ (h.mem_list ha)
  rw [h.erase_lists] at hun
  have hnot : ∀ id, a ∉ (ls id).erase a := fun id => (h.lists.nodup id).not_mem_erase
  have hlists := hun.itemLinkQ hnot c
  have hold : ∀ id b, b ∈ (ls id).erase a → s'.mem b = s.mem b := by
    intro id b hb
    rw [hmem, if_neg]
    rintro rfl
    exact hnot id hb
  refine ⟨_, ?_, ?_, hlists, ?_, ?_, ?_, h.currItems, ?_, h.slabs, ?_, ?_, ?_, ?_, ?_⟩
  · intro b
    rw [hlinked]
    exact h.linked b
  · rw [hkey]
    exact h.table
  · intro id b
    rw [hclsid]
    by_cases hid : id = c
    · subst hid
      rw [Function.update_self, List.mem_cons, (h.lists.nodup _).mem_erase_iff, h.listed]
      by_cases hba : b = a
      · subst hba
        simp [ha, hc]
      · simp [hba]
    · rw [Function.update_of_ne hid, (h.lists.nodup _).mem_erase_iff, h.listed]
      constructor
      · exact fun hb => hb.2
      · rintro ⟨hb, hcls⟩
        refine ⟨?_, hb, hcls⟩
        rintro rfl
        exact hid hcls.symm
  · intro id
    have hsorted : ((ls id).erase a).Pairwise fun b d => (s'.mem d).time ≤ (s'.mem b).time := by
      apply ((h.sorted id).sublist List.erase_sublist).imp_of_mem
      intro b d hb hd hle
      rw [hold id b hb, hold id d hd]
      exact hle
    by_cases hid : id = c
    · subst hid
      rw [Function.update_self, List.pairwise_cons]
      refine ⟨?_, hsorted⟩
      intro b hb
      rw [hold _ b hb, hmem, if_pos rfl]
      exact h.past b ((h.listed _ b).mp (List.mem_of_mem_erase hb)).1
    · rw [Function.update_of_ne hid]
      exact hsorted
  · intro b hb
    rw [hmem]
    split
    · exact le_rfl
    · exact h.past b hb
  · simp only [htotal]
    exact h.currBytes
  · intro id b
    rw [hclsid]
    exact h.unused id b
  · intro b
    rw [hclsid]
    exact h.used_lt b
  · intro b
    rw [hclsid, hslabbed]
    exact h.used_linked b
  · intro b
    rw [hclsid, hslabbed]
    exact h.used_refs b
  · intro b
    rw [hclsid, hrefcount]
    exact h.refcount b

theorem Lifecycle.doItemUpdate (h : Lifecycle hash s refs A ls) (a : Addr) :
  ∃ ls', Lifecycle hash (doItemUpdate s a) refs A ls'
  := by
  simp only [Memcached.doItemUpdate]
  split
  · split
    · next hlinked =>
      have := h.touch ((h.linked a).mpr hlinked)
      simpa [State.modify] using this
    · exact ⟨ls, h⟩
  · exact ⟨ls, h⟩

/-! ### Memory for new items -/

/-- A chunk that can become an item: nothing uses it. -/
structure Fresh (s : State) (refs : Refs) (A : Finset Addr) (a : Addr) : Prop where
  notMem : a ∉ A
  refs : refs a = 0
  clsid : (s.mem a).slabsClsid = 0
  notUnused : ∀ id, a ∉ s.slabs.unused id
  lt : a < s.slabs.top

/-- Memory beyond the end of all pages is not in use. -/
theorem Lifecycle.beyond (h : Lifecycle hash s refs A ls) (ha : s.slabs.top ≤ a) :
  a ∉ A ∧ refs a = 0 ∧ (s.mem a).slabsClsid = 0
  := by
  have hzero : (s.mem a).slabsClsid = 0 := by
    by_contra hused
    exact absurd (h.used_lt a hused) (not_lt.mpr ha)
  refine ⟨fun hmem => (h.used_linked a hmem).1 hzero, ?_, hzero⟩
  by_contra hrefs
  exact (h.used_refs a hrefs).1 hzero

theorem slabsAllocDel_frame (s : State) (size id : Nat) :
  (slabsAllocDel s size id).1.assoc = s.assoc ∧ (slabsAllocDel s size id).1.lru = s.lru ∧
    (slabsAllocDel s size id).1.stats = s.stats ∧
    (slabsAllocDel s size id).1.itemstats = s.itemstats ∧
    (slabsAllocDel s size id).1.settings = s.settings ∧
    (slabsAllocDel s size id).1.currentTime = s.currentTime ∧
    (slabsAllocDel s size id).1.casId = s.casId
  := by
  simp only [slabsAllocDel]
  split <;> exact ⟨rfl, rfl, rfl, rfl, rfl, rfl, rfl⟩

/-- An allocation changes no item that is in use, and clears memory beyond the end of all
pages at most. -/
theorem slabsAllocDel_mem (h : s.slabs.Wf) (size id : Nat) (b : Addr) :
  (slabsAllocDel s size id).1.mem b = s.mem b ∨
    s.slabs.top ≤ b ∧ (slabsAllocDel s size id).1.mem b = Item.zero
  := by
  rcases halloc : doSlabsAlloc s.slabs size id with ⟨sl, ret, page⟩
  have hspec := doSlabsAlloc_spec h halloc
  simp only [slabsAllocDel, halloc]
  cases page with
  | none => exact .inl rfl
  | some ptr =>
      simp only [memset]
      split
      · next hin => exact .inr ⟨le_trans (hspec.page_range ptr rfl).1 hin.1, rfl⟩
      · exact .inl rfl

theorem Lifecycle.slabsAllocDel (h : Lifecycle hash s refs A ls) (size id : Nat) :
  Lifecycle hash (slabsAllocDel s size id).1 refs A ls ∧
    ∀ a, (slabsAllocDel s size id).2 = some a → Fresh (slabsAllocDel s size id).1 refs A a
  := by
  rcases halloc : doSlabsAlloc s.slabs size id with ⟨sl, ret, page⟩
  have hspec := doSlabsAlloc_spec h.slabs halloc
  obtain ⟨hassoc, hlru, hstats, -, -, htime, -⟩ := slabsAllocDel_frame s size id
  have hslabs : (Memcached.slabsAllocDel s size id).1.slabs = sl := by
    simp only [Memcached.slabsAllocDel, halloc]
  have hmem := slabsAllocDel_mem h.slabs size id
  have hused : ∀ b, (s.mem b).slabsClsid ≠ 0 →
      (Memcached.slabsAllocDel s size id).1.mem b = s.mem b := by
    intro b hb
    obtain heq | ⟨hle, -⟩ := hmem b
    · exact heq
    · exact absurd (h.beyond hle).2.2 hb
  have hclsid : ∀ b, ((Memcached.slabsAllocDel s size id).1.mem b).slabsClsid
      = (s.mem b).slabsClsid := by
    intro b
    obtain heq | ⟨hle, hzero⟩ := hmem b
    · rw [heq]
    · rw [hzero, (h.beyond hle).2.2]
      rfl
  have hlinked : ∀ b ∈ A, (Memcached.slabsAllocDel s size id).1.mem b = s.mem b :=
    fun b hb => hused b (h.used_linked b hb).1
  have hkey : ∀ b ∈ A, (Memcached.slabsAllocDel s size id).1.key b = s.key b := by
    intro b hb
    rw [State.key, hlinked b hb, State.key]
  refine ⟨⟨?_, ?_, ?_, ?_, ?_, ?_, ?_, ?_, ?_, ?_, ?_, ?_, ?_, ?_⟩, ?_⟩
  · intro b
    obtain heq | ⟨hle, hzero⟩ := hmem b
    · rw [heq]
      exact h.linked b
    · rw [hzero]
      simp [(h.beyond hle).1, Item.zero]
  · rw [hassoc]
    exact h.table.congr hkey
  · rw [hlru]
    exact h.lists
  · intro id' b
    rw [hclsid]
    exact h.listed id' b
  · intro id'
    apply (h.sorted id').imp_of_mem
    intro b c hb hc hle
    rw [hlinked b ((h.listed id' b).mp hb).1, hlinked c ((h.listed id' c).mp hc).1]
    exact hle
  · intro b hb
    rw [hlinked b hb, htime]
    exact h.past b hb
  · rw [hstats]
    exact h.currItems
  · rw [hstats, h.currBytes]
    apply Finset.sum_congr rfl
    intro b hb
    rw [hlinked b hb]
  · rw [hslabs]
    exact hspec.wf
  · intro id' b hb
    rw [hslabs] at hb
    rw [hclsid]
    obtain hb | ⟨ptr, hpage, hle, -⟩ := hspec.unused id' b hb
    · exact h.unused id' b hb
    · exact (h.beyond (le_trans (hspec.page_range ptr hpage).1 hle)).2.2
  · intro b hb
    rw [hclsid] at hb
    rw [hslabs]
    exact lt_of_lt_of_le (h.used_lt b hb) hspec.top
  · intro b hb
    rw [hlinked b hb]
    exact h.used_linked b hb
  · intro b hb
    rw [hused b (h.used_refs b hb).1]
    exact h.used_refs b hb
  · intro b hb
    rw [hclsid] at hb
    rw [hused b hb]
    exact h.refcount b hb
  · intro a ha
    have hret : ret = some a := by
      simpa only [Memcached.slabsAllocDel, halloc] using ha
    obtain ⟨-, hnot, hlt, hfrom⟩ := hspec.ret a hret
    have hfree : a ∉ A ∧ refs a = 0 ∧ (s.mem a).slabsClsid = 0 := by
      obtain hun | ⟨ptr, hpage, hle, -⟩ := hfrom
      · have hzero := h.unused id a hun
        refine ⟨fun hmem => (h.used_linked a hmem).1 hzero, ?_, hzero⟩
        by_contra hrefs
        exact (h.used_refs a hrefs).1 hzero
      · exact h.beyond (le_trans (hspec.page_range ptr hpage).1 hle)
    refine ⟨hfree.1, hfree.2.1, ?_, ?_, ?_⟩
    · rw [hclsid]
      exact hfree.2.2
    · rw [hslabs]
      exact hnot
    · rw [hslabs]
      exact hlt

/-- A new item in memory nothing uses. -/
theorem Lifecycle.initItem
    (h : Lifecycle hash s refs A ls) (hfresh : Fresh s refs A a) {id : Nat} (hid : id ≠ 0) (k : Key)
    (suffix : List UInt8) (exptime nbytes : Nat) :
  Lifecycle hash (initItem s a id k suffix exptime nbytes) (Function.update refs a 1) A ls
  := by
  set s' := Memcached.initItem s a id k suffix exptime nbytes with hs'
  have hself : s'.mem a
      = { s.mem a with
          slabsClsid := id
          refcount := 1
          linked := false
          slabbed := false
          hasCas := s.settings.useCas
          key := k
          nbytes := nbytes
          exptime := exptime
          suffix := suffix } := Function.update_self _ _ _
  have hmem : ∀ b, b ≠ a → s'.mem b = s.mem b := fun b hb => Function.update_of_ne hb _ _
  have hne : ∀ b ∈ A, b ≠ a := by
    rintro b hb rfl
    exact hfresh.notMem hb
  have hlist : ∀ id, ∀ b ∈ ls id, b ≠ a := fun id b hb => hne b ((h.listed id b).mp hb).1
  have hassoc : s'.assoc = s.assoc.setHNext a none := rfl
  constructor
  · intro b
    by_cases hb : b = a
    · rw [hb, hself]
      simp [hfresh.notMem]
    · rw [hmem b hb]
      exact h.linked b
  · rw [hassoc]
    apply (h.table.setHNext hfresh.notMem none).congr
    intro b hb
    rw [State.key, hmem b (hne b hb), State.key]
  · have hheads : s'.lru.heads = s.lru.heads := rfl
    have htails : s'.lru.tails = s.lru.tails := rfl
    have hsizes : s'.lru.sizes = s.lru.sizes := rfl
    apply h.lists.congr hheads htails hsizes
    · intro id b hb
      exact Function.update_of_ne (hlist id b hb) _ _
    · intro id b hb
      exact Function.update_of_ne (hlist id b hb) _ _
  · intro id' b
    by_cases hb : b = a
    · rw [hb]
      constructor
      · exact fun hmem => absurd rfl (hlist id' a hmem)
      · exact fun hmem => absurd hmem.1 hfresh.notMem
    · rw [hmem b hb]
      exact h.listed id' b
  · intro id'
    apply (h.sorted id').imp_of_mem
    intro b c hb hc hle
    rw [hmem b (hlist id' b hb), hmem c (hlist id' c hc)]
    exact hle
  · intro b hb
    rw [hmem b (hne b hb)]
    exact h.past b hb
  · exact h.currItems
  · rw [show s'.stats = s.stats from rfl, h.currBytes]
    apply Finset.sum_congr rfl
    intro b hb
    rw [hmem b (hne b hb)]
  · exact h.slabs
  · intro id' b hb
    have hba : b ≠ a := by
      rintro rfl
      exact hfresh.notUnused id' hb
    rw [hmem b hba]
    exact h.unused id' b hb
  · intro b hb
    by_cases hba : b = a
    · rw [hba]
      exact hfresh.lt
    · rw [hmem b hba] at hb
      exact h.used_lt b hb
  · intro b hb
    rw [hmem b (hne b hb)]
    exact h.used_linked b hb
  · intro b hb
    by_cases hba : b = a
    · rw [hba, hself]
      exact ⟨hid, rfl⟩
    · rw [Function.update_of_ne hba] at hb
      rw [hmem b hba]
      exact h.used_refs b hb
  · intro b hb
    by_cases hba : b = a
    · rw [hba, hself, Function.update_self]
    · rw [hmem b hba] at hb ⊢
      rw [Function.update_of_ne hba]
      exact h.refcount b hb

/-- An item that is not linked is taken out of use. -/
theorem Lifecycle.retire (h : Lifecycle hash s refs A ls) (ha : a ∉ A) :
  Lifecycle hash (s.modify a fun it => { it with slabsClsid := 0, refcount := 0 })
    (Function.update refs a 0) A ls
  := by
  set s' := s.modify a fun it => { it with slabsClsid := 0, refcount := 0 } with hs'
  have hself : s'.mem a = { s.mem a with slabsClsid := 0, refcount := 0 } :=
    State.mem_modify_self s a _
  have hmem : ∀ b, b ≠ a → s'.mem b = s.mem b := fun b hb => State.mem_modify_of_ne s a b _ hb
  have hne : ∀ b ∈ A, b ≠ a := by
    rintro b hb rfl
    exact ha hb
  have hlist : ∀ id, ∀ b ∈ ls id, b ≠ a := fun id b hb => hne b ((h.listed id b).mp hb).1
  constructor
  · intro b
    by_cases hb : b = a
    · rw [hb, hself]
      exact h.linked a
    · rw [hmem b hb]
      exact h.linked b
  · apply h.table.congr
    intro b hb
    rw [State.key, hmem b (hne b hb), State.key]
  · exact h.lists
  · intro id' b
    by_cases hb : b = a
    · rw [hb]
      constructor
      · exact fun hmem => absurd rfl (hlist id' a hmem)
      · exact fun hmem => absurd hmem.1 ha
    · rw [hmem b hb]
      exact h.listed id' b
  · intro id'
    apply (h.sorted id').imp_of_mem
    intro b c hb hc hle
    rw [hmem b (hlist id' b hb), hmem c (hlist id' c hc)]
    exact hle
  · intro b hb
    rw [hmem b (hne b hb)]
    exact h.past b hb
  · exact h.currItems
  · rw [show s'.stats = s.stats from rfl, h.currBytes]
    apply Finset.sum_congr rfl
    intro b hb
    rw [hmem b (hne b hb)]
  · exact h.slabs
  · intro id' b hb
    by_cases hba : b = a
    · rw [hba, hself]
    · rw [hmem b hba]
      exact h.unused id' b hb
  · intro b hb
    by_cases hba : b = a
    · rw [hba, hself] at hb
      exact absurd rfl hb
    · rw [hmem b hba] at hb
      exact h.used_lt b hb
  · intro b hb
    rw [hmem b (hne b hb)]
    exact h.used_linked b hb
  · intro b hb
    by_cases hba : b = a
    · rw [hba, Function.update_self] at hb
      exact absurd rfl hb
    · rw [Function.update_of_ne hba] at hb
      rw [hmem b hba]
      exact h.used_refs b hb
  · intro b hb
    by_cases hba : b = a
    · rw [hba, hself] at hb
      exact absurd rfl hb
    · rw [hmem b hba] at hb ⊢
      rw [Function.update_of_ne hba]
      exact h.refcount b hb

end Memcached
