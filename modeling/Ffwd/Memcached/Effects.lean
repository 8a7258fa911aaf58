import Ffwd.Memcached.ItemRuns

/-!
# What the operations leave alone

A reader sees the items through `State.lookup`: what a key maps to, unless it has expired
or been flushed. `Leaves` says what an operation that stores nothing leaves alone: it may
drop items from the cache and move one to the head of its list, but it changes no item that
stays linked or that is protected. `Effect` allows in addition that an item is stored under
a key. An item that is stored gets a new CAS id.
-/

namespace Memcached

open Linked

/-- An item, but for its being linked and the number of its references. -/
def Item.core (it : Item) : Item := { it with linked := false, refcount := 0 }

/-- What an item holds: everything but its being linked, the number of its references and
the time of the last access. -/
def Item.content (it : Item) : Item := { it with linked := false, refcount := 0, time := 0 }

theorem Item.core_of_unlinked {it it' : Item} (h : it'.unlinked = it.unlinked) :
  it'.core = it.core
  := congrArg (fun it : Item => { it with refcount := 0 }) h

theorem Item.content_of_core {it it' : Item} (h : it'.core = it.core) :
  it'.content = it.content
  := congrArg (fun it : Item => { it with time := 0 }) h

/-- Whatever does not depend on the other fields is the same for items with the same content. -/
theorem Item.eq_of_content
    {β : Type} {it it' : Item} (f : Item → β) (hf : ∀ it : Item, f it.content = f it)
    (h : it'.content = it.content) :
  f it' = f it
  := by
  rw [← hf it', h, hf]

theorem Item.key_of_content {it it' : Item} (h : it'.content = it.content) :
  it'.key = it.key
  := Item.eq_of_content Item.key (fun _ => rfl) h

theorem Item.key_of_core {it it' : Item} (h : it'.core = it.core) :
  it'.key = it.key
  := Item.key_of_content (Item.content_of_core h)

theorem Item.time_of_core {it it' : Item} (h : it'.core = it.core) :
  it'.time = it.time
  := by
  have htime := congrArg Item.time h
  exact htime

/-! ### Reading -/

/-- The flags of an item, as they are recovered from its suffix. -/
def Item.flags (it : Item) : Int := Decimal.toInt32 (Decimal.strtol it.suffix)

/-- What a reader gets to see of an item. -/
structure Entry where
  value : List UInt8
  flags : Int
  exptime : Nat
  cas : Nat

def Item.entry (it : Item) : Entry := ⟨it.value, it.flags, it.exptime, it.getCas⟩

/-- The item has neither expired nor been flushed. -/
def live (s : State) (a : Addr) : Bool :=
  flushed s a = false ∧ ¬((s.mem a).exptime ≠ 0 ∧ (s.mem a).exptime ≤ s.currentTime)

/-- What a key maps to. -/
def State.lookup (hash : Key → BitVec 32) (s : State) (k : Key) : Option Entry :=
  match assocFind hash s.key s.assoc k with
  | none => none
  | some a => if live s a then some (s.mem a).entry else none

theorem Item.entry_of_content {it it' : Item} (h : it'.content = it.content) :
  it'.entry = it.entry
  := Item.eq_of_content Item.entry (fun _ => rfl) h

theorem live_congr
    {s s' : State} {a : Addr} (hsettings : s'.settings = s.settings)
    (htime : s'.currentTime = s.currentTime) (hcore : (s'.mem a).core = (s.mem a).core) :
  live s' a = live s a
  := by
  have ht := Item.time_of_core hcore
  have he := Item.eq_of_content Item.exptime (fun _ => rfl) (Item.content_of_core hcore)
  simp [live, flushed, hsettings, htime, ht, he]

variable {hash : Key → BitVec 32} {s s' s'' : State} {refs : Refs} {A A' A'' : Finset Addr}
  {ls : Nat → List Addr} {a b : Addr} {k : Key}

theorem Lifecycle.lookup_of_mem (h : Lifecycle hash s refs A ls) (ha : a ∈ A) (hk : s.key a = k) :
  s.lookup hash k = if live s a then some (s.mem a).entry else none
  := by
  rw [State.lookup, (assocFind_eq_some_iff h.table).mpr ⟨ha, hk⟩]

theorem Lifecycle.lookup_eq_none (h : Lifecycle hash s refs A ls) (hk : ∀ a ∈ A, s.key a ≠ k) :
  s.lookup hash k = none
  := by
  rw [State.lookup, (assocFind_eq_none_iff h.table).mpr hk]

/-- A key is absent, or it is the key of a linked item. -/
theorem key_cases (s : State) (A : Finset Addr) (k : Key) :
  (∀ a ∈ A, s.key a ≠ k) ∨ ∃ a ∈ A, s.key a = k
  := by
  by_cases hk : ∃ a ∈ A, s.key a = k
  · exact .inr hk
  · left
    intro a ha hka
    exact hk ⟨a, ha, hka⟩

/-- Linked items have different keys. -/
theorem Lifecycle.eq_of_key (h : Lifecycle hash s refs A ls) (ha : a ∈ A) (hb : b ∈ A)
    (hk : s.key a = s.key b) :
  a = b
  := by
  have hfind := (assocFind_eq_some_iff h.table).mpr ⟨ha, hk⟩
  have hfind' := (assocFind_eq_some_iff h.table).mpr ⟨hb, rfl⟩
  rw [hfind] at hfind'
  exact Option.some.inj hfind'

/-! ### Effects -/

/-- The item `b` is as it was: it was linked, it has the same content, and it has been
accessed at most under the key `k`, when it was alive. -/
structure Stays (k : Key) (s s' : State) (A : Finset Addr) (b : Addr) : Prop where
  mem : b ∈ A
  content : (s'.mem b).content = (s.mem b).content
  time : (s'.mem b).time = (s.mem b).time ∨ s.key b = k ∧ live s b = true

/-- Nothing is stored. The items that satisfy `P` are protected. -/
structure Leaves (k : Key) (P : Addr → Prop) (s s' : State) (A A' : Finset Addr) : Prop where
  linked : ∀ b ∈ A', Stays k s s' A b
  held : ∀ b, P b → (s'.mem b).content = (s.mem b).content
  settings : s'.settings = s.settings
  currentTime : s'.currentTime = s.currentTime
  casId : s'.casId = s.casId

/-- An item as `do_item_alloc_del` makes it: the suffix is made from flags and a length, the
data has room for the `\r\n` at its end, and there is room for a CAS id if they are in use. -/
structure Proper (s : State) (a : Addr) : Prop where
  crlf : 2 ≤ (s.mem a).nbytes
  suffix : ∃ flags : Int, -2 ^ 31 ≤ flags ∧ flags < 2 ^ 31 ∧
    (s.mem a).suffix = suffixOf flags (s.mem a).nbytes
  hasCas : (s.mem a).hasCas = s.settings.useCas

/-- The item is stored under the key `k`: it has got a new CAS id. -/
structure Renewed (k : Key) (s s' : State) (b : Addr) : Prop where
  key : s'.key b = k
  proper : Proper s' b
  cas : s.settings.useCas = true →
    s'.casId = (s.casId + 1) % 2 ^ 64 ∧ (s'.mem b).cas = s'.casId

/-- An item may be stored under the key `k`. The items that satisfy `P` are protected: they are not
linked either. -/
structure Effect (k : Key) (P : Addr → Prop) (s s' : State) (A A' : Finset Addr) : Prop where
  linked : ∀ b ∈ A', Stays k s s' A b ∨ Renewed k s s' b
  kept : ∀ b ∈ A', P b → b ∈ A
  held : ∀ b, P b → (s'.mem b).content = (s.mem b).content
  settings : s'.settings = s.settings
  currentTime : s'.currentTime = s.currentTime
  casId : s'.casId = s.casId ∨ s'.casId = (s.casId + 1) % 2 ^ 64

variable {P : Addr → Prop}

theorem Item.core_of_content {it it' : Item} (h : it'.content = it.content) (htime : it'.time = it.time) :
  it'.core = it.core
  := by
  have hcore : { it'.content with time := it'.time } = { it.content with time := it.time } := by
    rw [h, htime]
  exact hcore

theorem Stays.key (h : Stays k s s' A b) :
  s'.key b = s.key b
  := Item.key_of_content h.content

theorem Stays.trans
    (h : Stays k s s' A b) (h' : Stays k s' s'' A' b) (hsettings : s'.settings = s.settings)
    (htime : s'.currentTime = s.currentTime) :
  Stays k s s'' A b
  where
  mem := h.mem
  content := h'.content.trans h.content
  time := by
    obtain hsame | haccess := h.time
    · obtain hsame' | ⟨hk, hlive⟩ := h'.time
      · exact .inl (hsame'.trans hsame)
      · right
        rw [h.key] at hk
        rw [live_congr hsettings htime (Item.core_of_content h.content hsame)] at hlive
        exact ⟨hk, hlive⟩
    · exact .inr haccess

theorem Proper.congr
    (h : Proper s b) (hsettings : s'.settings = s.settings)
    (hcontent : (s'.mem b).content = (s.mem b).content) :
  Proper s' b
  := by
  have hnbytes := Item.eq_of_content Item.nbytes (fun _ => rfl) hcontent
  have hsuffix := Item.eq_of_content Item.suffix (fun _ => rfl) hcontent
  have hcas := Item.eq_of_content Item.hasCas (fun _ => rfl) hcontent
  constructor
  · rw [hnbytes]
    exact h.crlf
  · rw [hnbytes, hsuffix]
    exact h.suffix
  · rw [hcas, hsettings]
    exact h.hasCas

theorem Leaves.trans (h : Leaves k P s s' A A') (h' : Leaves k P s' s'' A' A'') :
  Leaves k P s s'' A A''
  where
  linked b hb :=
    have hstays := h'.linked b hb
    (h.linked b hstays.mem).trans hstays h.settings h.currentTime
  held b hb := (h'.held b hb).trans (h.held b hb)
  settings := h'.settings.trans h.settings
  currentTime := h'.currentTime.trans h.currentTime
  casId := h'.casId.trans h.casId

theorem Leaves.effect (h : Leaves k P s s' A A') :
  Effect k P s s' A A'
  where
  linked b hb := .inl (h.linked b hb)
  kept b hb _ := (h.linked b hb).mem
  held := h.held
  settings := h.settings
  currentTime := h.currentTime
  casId := .inl h.casId

/-- An item that is stored after nothing was. -/
theorem Leaves.renewed (h : Leaves k P s s' A A') (hrenewed : Renewed k s' s'' b) :
  Renewed k s s'' b
  where
  key := hrenewed.key
  proper := hrenewed.proper
  cas := by
    rw [← h.settings, ← h.casId]
    exact hrenewed.cas

/-- An item that is stored and then stays. -/
theorem Renewed.leaves
    (h : Renewed k s s' b) (hleaves : Leaves k P s' s'' A A')
    (hcontent : (s''.mem b).content = (s'.mem b).content) :
  Renewed k s s'' b
  where
  key := (Item.key_of_content hcontent).trans h.key
  proper := h.proper.congr hleaves.settings hcontent
  cas := by
    rw [hleaves.casId, Item.eq_of_content Item.cas (fun _ => rfl) hcontent]
    exact h.cas

theorem Effect.mono {Q : Addr → Prop} (h : Effect k P s s' A A') (hQ : ∀ b, Q b → P b) :
  Effect k Q s s' A A'
  where
  linked := h.linked
  kept b hb hQb := h.kept b hb (hQ b hQb)
  held b hb := h.held b (hQ b hb)
  settings := h.settings
  currentTime := h.currentTime
  casId := h.casId

theorem Leaves.then_effect (h : Leaves k P s s' A A') (h' : Effect k P s' s'' A' A'') :
  Effect k P s s'' A A''
  where
  linked b hb := by
    obtain hstays | hrenewed := h'.linked b hb
    · exact .inl ((h.linked b hstays.mem).trans hstays h.settings h.currentTime)
    · exact .inr (h.renewed hrenewed)
  kept b hb hP := (h.linked b (h'.kept b hb hP)).mem
  held b hb := (h'.held b hb).trans (h.held b hb)
  settings := h'.settings.trans h.settings
  currentTime := h'.currentTime.trans h.currentTime
  casId := by
    rw [← h.casId]
    exact h'.casId

theorem Effect.then_leaves (h : Effect k P s s' A A') (h' : Leaves k P s' s'' A' A'') :
  Effect k P s s'' A A''
  where
  linked b hb := by
    have hstays := h'.linked b hb
    obtain hstays₀ | hrenewed := h.linked b hstays.mem
    · exact .inl (hstays₀.trans hstays h.settings h.currentTime)
    · exact .inr (hrenewed.leaves h' hstays.content)
  kept b hb hP := h.kept b (h'.linked b hb).mem hP
  held b hb := (h'.held b hb).trans (h.held b hb)
  settings := h'.settings.trans h.settings
  currentTime := h'.currentTime.trans h.currentTime
  casId := by
    rw [h'.casId]
    exact h.casId

/-- Other keys map to what they did, or they have been dropped. -/
theorem Effect.lookup
    {refs' : Refs} {ls' : Nat → List Addr} (heffect : Effect k P s s' A A')
    (h : Lifecycle hash s refs A ls) (h' : Lifecycle hash s' refs' A' ls') {k' : Key} (hk : k' ≠ k) :
  s'.lookup hash k' = s.lookup hash k' ∨ s'.lookup hash k' = none
  := by
  obtain habsent | ⟨b, hb, rfl⟩ := key_cases s' A' k'
  · exact .inr (h'.lookup_eq_none habsent)
  · left
    obtain hstays | hrenewed := heffect.linked b hb
    · have htime := hstays.time.resolve_right fun haccess => hk (hstays.key.trans haccess.1)
      rw [h'.lookup_of_mem hb rfl, h.lookup_of_mem hstays.mem hstays.key.symm,
        live_congr heffect.settings heffect.currentTime (Item.core_of_content hstays.content htime),
        Item.entry_of_content hstays.content]
    · exact absurd hrenewed.key hk

/-! ### The operations -/

theorem Leaves.refl (k : Key) (P : Addr → Prop) (s : State) (A : Finset Addr) :
  Leaves k P s s A A
  where
  linked _ hb := ⟨hb, rfl, .inl rfl⟩
  held _ _ := rfl
  settings := rfl
  currentTime := rfl
  casId := rfl

/-- A change of the memory that shows in no item that is linked or protected. -/
theorem Leaves.of_core
    (k : Key) (A : Finset Addr) (hsettings : s'.settings = s.settings)
    (htime : s'.currentTime = s.currentTime) (hcas : s'.casId = s.casId)
    (hcore : ∀ b, b ∈ A ∨ P b → (s'.mem b).core = (s.mem b).core) :
  Leaves k P s s' A A
  where
  linked b hb :=
    have hb' := hcore b (.inl hb)
    ⟨hb, Item.content_of_core hb', .inl (Item.time_of_core hb')⟩
  held b hb := Item.content_of_core (hcore b (.inr hb))
  settings := hsettings
  currentTime := htime
  casId := hcas

theorem Drops.leaves (h : Drops s s' refs A A') (k : Key) (hP : ∀ b, P b → refs b ≠ 0) :
  Leaves k P s s' A A'
  where
  linked b hb :=
    have hcore := Item.core_of_unlinked (h.kept b (.inl hb))
    ⟨h.sub hb, Item.content_of_core hcore, .inl (Item.time_of_core hcore)⟩
  held b hb := Item.content_of_core (Item.core_of_unlinked (h.kept b (.inr (hP b hb))))
  settings := h.settings
  currentTime := h.currentTime
  casId := h.casId

theorem leaves_setRefcount (k : Key) (P : Addr → Prop) (s : State) (A : Finset Addr) (a : Addr) (n : Nat) :
  Leaves k P s (s.modify a fun it => { it with refcount := n }) A A
  := by
  have hsettings : (s.modify a fun it => { it with refcount := n }).settings = s.settings := rfl
  apply Leaves.of_core k A hsettings rfl rfl
  intro b _
  rw [State.mem_modify]
  split
  · next hba =>
    rw [hba]
    rfl
  · rfl

theorem doItemRemoveDel_frame (s : State) (a : Addr) :
  (doItemRemoveDel s a).settings = s.settings ∧ (doItemRemoveDel s a).currentTime = s.currentTime ∧
    (doItemRemoveDel s a).casId = s.casId
  := by
  simp only [doItemRemoveDel]
  split <;> split <;> exact ⟨rfl, rfl, rfl⟩

theorem doItemRemoveDel_of_ne (s : State) (h : b ≠ a) :
  (doItemRemoveDel s a).mem b = s.mem b
  := by
  simp only [doItemRemoveDel, itemFreeDel]
  split <;> split <;> simp [State.mem_modify, h]

/-- Releasing a reference does not free an item that is linked or that has others. -/
theorem doItemRemoveDel_self (h : (s.mem a).linked = true ∨ 1 < (s.mem a).refcount) :
  (doItemRemoveDel s a).mem a = { s.mem a with refcount := (s.mem a).refcount - 1 }
  := by
  have hmem : (if (s.mem a).refcount ≠ 0 then s.modify a fun it => { it with refcount := it.refcount - 1 }
      else s).mem a = { s.mem a with refcount := (s.mem a).refcount - 1 } := by
    split
    · rw [State.mem_modify_self]
    · next hzero =>
      rw [not_not] at hzero
      rw [show (s.mem a).refcount - 1 = (s.mem a).refcount by omega]
  simp only [doItemRemoveDel]
  rw [if_neg, hmem]
  rw [hmem]
  rintro ⟨hzero, hlinked⟩
  obtain h | h := h
  · exact absurd (hlinked.symm.trans h) Bool.false_ne_true
  · exact absurd hzero (by simp only; omega)

/-- Releasing a reference leaves the items alone that are linked or have others. -/
theorem Lifecycle.leaves_doItemRemoveDel
    (h : Lifecycle hash s refs A ls) (k : Key) (hP : P a → a ∈ A ∨ 1 < refs a) :
  Leaves k P s (Memcached.doItemRemoveDel s a) A A
  := by
  obtain ⟨hsettings, htime, hcas⟩ := doItemRemoveDel_frame s a
  apply Leaves.of_core k A hsettings htime hcas
  intro b hb
  by_cases hba : b = a
  · subst hba
    rw [doItemRemoveDel_self]
    · rfl
    · obtain hb | hrefs : b ∈ A ∨ 1 < refs b := hb.elim .inl hP
      · exact .inl ((h.linked b).mp hb)
      · right
        rw [h.refcount b (h.used_refs b (by omega)).1]
        exact hrefs
  · rw [doItemRemoveDel_of_ne s hba]

theorem doItemUpdate_frame (s : State) (a : Addr) :
  (doItemUpdate s a).settings = s.settings ∧ (doItemUpdate s a).currentTime = s.currentTime ∧
    (doItemUpdate s a).casId = s.casId
  := by
  simp only [doItemUpdate]
  split
  · split <;> exact ⟨rfl, rfl, rfl⟩
  · exact ⟨rfl, rfl, rfl⟩

theorem doItemUpdate_of_ne (s : State) (h : b ≠ a) :
  (doItemUpdate s a).mem b = s.mem b
  := by
  simp only [doItemUpdate]
  split
  · split
    · exact Function.update_of_ne h _ _
    · rfl
  · rfl

/-- An access changes the time of an item at most, to the present. -/
theorem doItemUpdate_self (s : State) (a : Addr) :
  (doItemUpdate s a).mem a = s.mem a ∨
    (doItemUpdate s a).mem a = { s.mem a with time := s.currentTime }
  := by
  simp only [doItemUpdate]
  split
  · split
    · right
      exact Function.update_self _ _ _
    · exact .inl rfl
  · exact .inl rfl

theorem doItemUpdate_content (s : State) (a b : Addr) :
  ((doItemUpdate s a).mem b).content = (s.mem b).content
  := by
  by_cases hba : b = a
  · subst hba
    obtain heq | heq := doItemUpdate_self s b
    · rw [heq]
    · rw [heq]
      rfl
  · rw [doItemUpdate_of_ne s hba]

theorem leaves_doItemUpdate (P : Addr → Prop) (A : Finset Addr) (hlive : a ∈ A → live s a = true) :
  Leaves (s.key a) P s (doItemUpdate s a) A A
  := by
  obtain ⟨hsettings, htime, hcas⟩ := doItemUpdate_frame s a
  refine ⟨?_, fun b _ => doItemUpdate_content s a b, hsettings, htime, hcas⟩
  intro b hb
  refine ⟨hb, doItemUpdate_content s a b, ?_⟩
  by_cases hba : b = a
  · subst hba
    exact .inr ⟨rfl, hlive hb⟩
  · left
    rw [doItemUpdate_of_ne s hba]

theorem doItemLinkDel_casId (hash : Key → BitVec 32) (s : State) (a : Addr) :
  (doItemLinkDel hash s a).casId
    = if (s.mem a).hasCas ∧ s.settings.useCas then (s.casId + 1) % 2 ^ 64 else s.casId
  := by
  simp only [doItemLinkDel, setNewCas_casId, State.mem_modify_self]
  rfl

/-- Linking stores an item. -/
theorem effect_doItemLinkDel
    (hash : Key → BitVec 32) (A : Finset Addr) (hproper : Proper s a) (hP : ¬P a) :
  Effect (s.key a) P s (doItemLinkDel hash s a) A (insert a A)
  := by
  obtain ⟨-, -, -, -, -, -, hsettings, htime⟩ := doItemLinkDel_frame hash s a
  have hmem : ∀ b, b ≠ a → (doItemLinkDel hash s a).mem b = s.mem b := by
    intro b hb
    rw [doItemLinkDel_mem, Function.update_of_ne hb]
  refine ⟨?_, ?_, ?_, hsettings, htime, ?_⟩
  · intro b hb
    by_cases hba : b = a
    · subst hba
      have hself : (doItemLinkDel hash s b).mem b
          = { s.mem b with linked := true, time := s.currentTime, cas := newCas s b } := by
        rw [doItemLinkDel_mem, Function.update_self]
      right
      refine ⟨?_, ⟨?_, ?_, ?_⟩, ?_⟩
      · rw [State.key, hself, State.key]
      · rw [hself]
        exact hproper.crlf
      · rw [hself]
        exact hproper.suffix
      · rw [hself, hsettings]
        exact hproper.hasCas
      · intro huse
        have hcas : (s.mem b).hasCas = true := hproper.hasCas.trans huse
        rw [hself, doItemLinkDel_casId, if_pos ⟨hcas, huse⟩]
        simp only [newCas, hcas, huse, if_true, and_self]
    · left
      rw [Finset.mem_insert] at hb
      refine ⟨hb.resolve_left hba, ?_, .inl ?_⟩ <;> rw [hmem b hba]
  · intro b hb hPb
    apply (Finset.mem_insert.mp hb).resolve_left
    rintro rfl
    exact hP hPb
  · intro b hb
    rw [hmem b]
    rintro rfl
    exact hP hb
  · rw [doItemLinkDel_casId]
    split
    · exact .inr rfl
    · exact .inl rfl

theorem Lifecycle.effect_doItemReplaceDel
    (h : Lifecycle hash s refs A ls) (a : Addr) (hrefs : refs b ≠ 0) (hproper : Proper s b)
    (hP : ∀ c, P c → refs c ≠ 0 ∧ c ≠ b) :
  Effect (s.key b) P s (Memcached.doItemReplaceDel hash s a b) A (insert b (A.erase a))
  := by
  have hdrops := h.drops_doItemUnlinkDel a
  have hcontent := Item.content_of_core (Item.core_of_unlinked (hdrops.kept b (.inr hrefs)))
  have hlink := effect_doItemLinkDel (P := P) hash (A.erase a)
    (hproper.congr hdrops.settings hcontent) fun hb => (hP b hb).2 rfl
  rw [hdrops.key (.inr hrefs)] at hlink
  exact (hdrops.leaves _ fun c hc => (hP c hc).1).then_effect hlink

/-! ### Access -/

/-- An access to a key that maps to nothing drops the dead item under it, if there is one;
otherwise it takes a reference to the item. -/
theorem Lifecycle.doItemGetDel_cases (h : Lifecycle hash s refs A ls) (k : Key) :
  (s.lookup hash k = none ∧ (Memcached.doItemGetDel hash s k).2 = none ∧
      ∃ A' ls', Lifecycle hash (Memcached.doItemGetDel hash s k).1 refs A' ls' ∧
        Drops s (Memcached.doItemGetDel hash s k).1 refs A A' ∧ ∀ b ∈ A', s.key b ≠ k) ∨
    ∃ a ∈ A, s.key a = k ∧ live s a = true ∧ Memcached.doItemGetDel hash s k
      = (s.modify a fun it => { it with refcount := (refs a + 1) % 2 ^ 16 }, some a)
  := by
  obtain habsent | ⟨a, ha, hk⟩ := key_cases s A k
  · have hfind := (assocFind_eq_none_iff h.table).mpr habsent
    left
    simp only [Memcached.doItemGetDel, hfind]
    exact ⟨h.lookup_eq_none habsent, trivial, A, ls, h, Drops.refl s refs A, habsent⟩
  · have hfind := (assocFind_eq_some_iff h.table).mpr ⟨ha, hk⟩
    have herase : ∀ b ∈ A.erase a, s.key b ≠ k := by
      intro b hb hkb
      apply Finset.ne_of_mem_erase hb
      exact h.eq_of_key (Finset.mem_of_mem_erase hb) ha (hkb.trans hk.symm)
    have hcount := h.refcount a (h.used_linked a ha).1
    by_cases hlive : live s a = true
    · right
      refine ⟨a, ha, hk, hlive, ?_⟩
      simp only [live, decide_eq_true_eq] at hlive
      simp only [Memcached.doItemGetDel, hfind, hlive.1, if_neg hlive.2, Bool.false_eq_true, if_false,
        State.modify, hcount]
    · left
      have hdead : Memcached.doItemGetDel hash s k = (Memcached.doItemUnlinkDel hash s a, none) := by
        rw [live, decide_eq_true_eq] at hlive
        simp only [Memcached.doItemGetDel, hfind]
        split
        · rfl
        · next hflushed =>
          rw [Bool.not_eq_true] at hflushed
          rw [if_pos]
          by_contra hexpired
          exact hlive ⟨hflushed, hexpired⟩
      rw [hdead, h.lookup_of_mem ha hk, if_neg hlive]
      exact ⟨rfl, rfl, _, _, h.doItemUnlinkDel a, h.drops_doItemUnlinkDel a, herase⟩

end Memcached
