import Ffwd.Memcached.Effects

/-!
# The store commands

`do_store_item_del` stores an item by one of the commands `add`, `set`, `replace`,
`append`, `prepend` and `cas`. It takes a reference to the item already under the key,
and for the concatenation of two items builds a third one. `storeSpec` says what the
commands are for, in terms of what the key maps to.
-/

namespace Memcached

open Linked

/-- The commands, `NREAD_ADD` and so on. -/
inductive Comm where
  | add
  | set
  | replace
  | append
  | prepend
  | cas
  deriving DecidableEq

/-- `enum store_item_type`. -/
inductive StoreItemType where
  | notStored
  | stored
  | exists_
  | notFound
  deriving DecidableEq

/-- `memcpy(dst + off, src, n)`. -/
def memcpy (dst : Nat → UInt8) (off : Nat) (src : Nat → UInt8) (n : Nat) : Nat → UInt8 :=
  fun i => if off ≤ i ∧ i < off + n then src (i - off) else dst i

/-- Data of one item copied to another. -/
def State.copy (s : State) (dst : Addr) (off : Nat) (src : Addr) (n : Nat) : State :=
  s.modify dst fun it => { it with data := memcpy it.data off (s.mem src).data n }

/-- The data of two items, of which the first ends in `\r\n`, copied to a third. -/
def State.join (s : State) (new first second : Addr) : State :=
  let s := s.copy new 0 first (s.mem first).nbytes
  s.copy new ((s.mem first).nbytes - 2) second (s.mem second).nbytes

section

variable (hash : Key → BitVec 32)

/-- The part of `do_store_item_del` that builds the concatenation of the item `old` under
the key and the item `it`, and stores it. -/
def storeJoin (s : State) (it old : Addr) (comm : Comm) : State × StoreItemType × Option Nat :=
  match doItemAllocDel hash s (s.key it) (s.mem old).flags (s.mem old).exptime
      ((s.mem it).nbytes + (s.mem old).nbytes - 2) with
  | (s, none) => (doItemRemoveDel s old, .notStored, none)
  | (s, some new) =>
      let s := if comm = .append then s.join new old it else s.join new it old
      let s := doItemReplaceDel hash s old new
      let s := doItemRemoveDel s old
      let s := doItemRemoveDel s new
      (s, .stored, some (s.mem new).getCas)

/-- The part of `do_store_item_del` that puts the item `it` in the place of `old`. -/
def storeReplace (s : State) (it old : Addr) : State × StoreItemType × Option Nat :=
  let s := doItemReplaceDel hash s old it
  let s := doItemRemoveDel s old
  (s, .stored, some (s.mem it).getCas)

/-- The part of `do_store_item_del` for a key without an item. -/
def storeAbsent (s : State) (it : Addr) (comm : Comm) : State × StoreItemType × Option Nat :=
  match comm with
  | .replace | .append | .prepend => (s, .notStored, none)
  | .cas => (s, .notFound, none)
  | .add | .set =>
      let s := doItemLinkDel hash s it
      (s, .stored, some (s.mem it).getCas)

/-- The CAS id that an item to be appended or prepended carries is not that of `old`. -/
def joinMismatch (s : State) (it old : Addr) : Prop :=
  (s.mem it).getCas ≠ 0 ∧ (s.mem it).getCas ≠ (s.mem old).getCas

instance (s : State) (it old : Addr) : Decidable (joinMismatch s it old) :=
  inferInstanceAs (Decidable (_ ∧ _))

/-- The part of `do_store_item_del` for a key with the item `old`. -/
def storeOver (s : State) (it old : Addr) (comm : Comm) : State × StoreItemType × Option Nat :=
  match comm with
  | .add => (doItemRemoveDel (doItemUpdate s old) old, .notStored, none)
  | .cas =>
      if (s.mem it).getCas = (s.mem old).getCas then storeReplace hash s it old
      else (doItemRemoveDel s old, .exists_, none)
  | .append | .prepend =>
      if joinMismatch s it old then (doItemRemoveDel s old, .exists_, none)
      else storeJoin hash s it old comm
  | .set | .replace => storeReplace hash s it old

/-- `do_store_item_del`. The second result is the new value of `c->cas`, if it is set. -/
def doStoreItemDel (s : State) (it : Addr) (comm : Comm) : State × StoreItemType × Option Nat :=
  match doItemGetDel hash s (s.key it) with
  | (s', none) => storeAbsent hash s' it comm
  | (s', some old) => storeOver hash s' it old comm

end

/-! ### The abstract semantics -/

/-- What is stored under a key: the data, the flags and the expiry time. -/
structure Stored where
  value : List UInt8
  flags : Int
  exptime : Nat

def Entry.toStored (e : Entry) : Stored := ⟨e.value, e.flags, e.exptime⟩

def Item.toStored (it : Item) : Stored := ⟨it.value, it.flags, it.exptime⟩

/-- Data without the `\r\n` at its end. -/
def dropCrlf (l : List UInt8) : List UInt8 := l.take (l.length - 2)

/-- What a command does with the item `new`, for a key that maps to `old`: the answer, and
what is stored under the key if the answer is that something is. The CAS id of `new` is the
one the command carries; `room` says whether there is memory for a concatenation. -/
def storeSpec (comm : Comm) (old : Option Entry) (new : Entry) (room : Bool) :
    StoreItemType × Option Stored :=
  match comm, old with
  | .set, _ => (.stored, some new.toStored)
  | .add, none => (.stored, some new.toStored)
  | .add, some _ => (.notStored, none)
  | .replace, none => (.notStored, none)
  | .replace, some _ => (.stored, some new.toStored)
  | .cas, none => (.notFound, none)
  | .cas, some old => if new.cas = old.cas then (.stored, some new.toStored) else (.exists_, none)
  | .append, none => (.notStored, none)
  | .append, some old =>
      if new.cas ≠ 0 ∧ new.cas ≠ old.cas then (.exists_, none)
      else if room then (.stored, some ⟨dropCrlf old.value ++ new.value, old.flags, old.exptime⟩)
      else (.notStored, none)
  | .prepend, none => (.notStored, none)
  | .prepend, some old =>
      if new.cas ≠ 0 ∧ new.cas ≠ old.cas then (.exists_, none)
      else if room then (.stored, some ⟨dropCrlf new.value ++ old.value, old.flags, old.exptime⟩)
      else (.notStored, none)

theorem storeSpec_stored (comm : Comm) (old : Option Entry) (new : Entry) (room : Bool) :
  (storeSpec comm old new room).1 = .stored ↔ (storeSpec comm old new room).2 ≠ none
  := by
  cases comm <;> cases old <;> simp only [storeSpec] <;> (repeat' split) <;> simp

theorem flags_suffixOf {flags : Int} (h : -2 ^ 31 ≤ flags ∧ flags < 2 ^ 31) (nbytes : Nat) :
  Decimal.toInt32 (Decimal.strtol (suffixOf flags nbytes)) = flags
  := by
  have hblank : ∀ c ∈ (32 :: Decimal.printInt ((nbytes : Int) - 2) ++ [13, 10]).head?,
      Decimal.isDigit c = false := by
    rintro c ⟨rfl⟩
    rfl
  rw [suffixOf, List.append_assoc, Decimal.strtol_printInt _ hblank, Decimal.toInt32_of_int h]
  omega

theorem Proper.flags {s : State} {a : Addr} (h : Proper s a) :
  -2 ^ 31 ≤ (s.mem a).flags ∧ (s.mem a).flags < 2 ^ 31 ∧
    (s.mem a).suffix = suffixOf (s.mem a).flags (s.mem a).nbytes
  := by
  obtain ⟨flags, hmin, hmax, hsuffix⟩ := h.suffix
  have hflags : (s.mem a).flags = flags := by
    rw [Item.flags, hsuffix, flags_suffixOf ⟨hmin, hmax⟩]
  rw [hflags]
  exact ⟨hmin, hmax, hsuffix⟩

/-! ### The data of a concatenation -/

theorem length_value (it : Item) :
  it.value.length = it.nbytes
  := by
  rw [Item.value, List.length_map, List.length_range]

theorem dropCrlf_value (it : Item) :
  dropCrlf it.value = (List.range (it.nbytes - 2)).map it.data
  := by
  rw [dropCrlf, length_value, Item.value, ← List.map_take, List.take_range,
    Nat.min_eq_left (Nat.sub_le _ _)]

/-- One text copied over the last two bytes of another. -/
theorem map_memcpy (dst x y : Nat → UInt8) {n : Nat} (m : Nat) (h : 2 ≤ n) :
  (List.range (m + n - 2)).map (memcpy (memcpy dst 0 x n) (n - 2) y m)
    = (List.range (n - 2)).map x ++ (List.range m).map y
  := by
  have hlen : m + n - 2 = n - 2 + m := by omega
  rw [hlen, List.range_add, List.map_append, List.map_map]
  congr 1
  · apply List.map_congr_left
    intro i hi
    rw [List.mem_range] at hi
    rw [memcpy, if_neg (by omega), memcpy, if_pos (by omega), Nat.sub_zero]
  · apply List.map_congr_left
    intro i hi
    rw [List.mem_range] at hi
    rw [Function.comp_apply, memcpy, if_pos (by omega), Nat.add_sub_cancel_left]

section

variable {s : State} {new first second : Addr}

theorem join_of_ne {b : Addr} (h : b ≠ new) :
  (s.join new first second).mem b = s.mem b
  := by
  simp only [State.join, State.copy, State.mem_modify_of_ne _ _ _ _ h]

/-- Only the data of the new item changes. -/
theorem join_self (hfirst : first ≠ new) (hsecond : second ≠ new) :
  (s.join new first second).mem new
    = { s.mem new with
        data := memcpy (memcpy (s.mem new).data 0 (s.mem first).data (s.mem first).nbytes)
          ((s.mem first).nbytes - 2) (s.mem second).data (s.mem second).nbytes }
  := by
  simp only [State.join, State.copy, State.mem_modify_self, State.mem_modify_of_ne _ _ _ _ hfirst,
    State.mem_modify_of_ne _ _ _ _ hsecond]

theorem value_join
    (hfirst : first ≠ new) (hsecond : second ≠ new) (hcrlf : 2 ≤ (s.mem first).nbytes)
    (hnbytes : (s.mem new).nbytes = (s.mem second).nbytes + (s.mem first).nbytes - 2) :
  ((s.join new first second).mem new).value = dropCrlf (s.mem first).value ++ (s.mem second).value
  := by
  rw [join_self hfirst hsecond, dropCrlf_value, Item.value, Item.value]
  simp only [hnbytes]
  exact map_memcpy _ _ _ _ hcrlf

end

/-! ### The commands -/

/-- The item that the allocation of a concatenation releases although it is in use, if the
command comes to that. -/
def overRepair (hash : Key → BitVec 32) (s : State) (it old : Addr) (comm : Comm) : Option Addr :=
  if (comm = .append ∨ comm = .prepend) ∧ ¬joinMismatch s it old then
    allocRepair hash s (s.key it) (s.mem old).flags ((s.mem it).nbytes + (s.mem old).nbytes - 2)
  else none

/-- The item that `do_store_item_del` releases although it is in use, if it comes to that. -/
def storeRepair (hash : Key → BitVec 32) (s : State) (it : Addr) (comm : Comm) : Option Addr :=
  match doItemGetDel hash s (s.key it) with
  | (_, none) => none
  | (s', some old) => overRepair hash s' it old comm

/-- There is memory for the concatenation of two items. -/
def overRoom (hash : Key → BitVec 32) (s : State) (it old : Addr) : Bool :=
  (doItemAllocDel hash s (s.key it) (s.mem old).flags (s.mem old).exptime
    ((s.mem it).nbytes + (s.mem old).nbytes - 2)).2.isSome

/-- There is memory for the concatenation of an item and the one under its key. -/
def joinRoom (hash : Key → BitVec 32) (s : State) (it : Addr) : Bool :=
  match doItemGetDel hash s (s.key it) with
  | (_, none) => false
  | (s', some old) => overRoom hash s' it old

/-- The answer and the effect of a command are what `spec` says: either the key maps to
what it did, or to what is stored; the other keys map to what they did, or have been
dropped; and the items are in order for the references `refs`. -/
structure StoreCorrect (hash : Key → BitVec 32) (s : State) (refs : Refs) (k : Key)
    (spec : StoreItemType × Option Stored) (r : State × StoreItemType × Option Nat) : Prop where
  answer : r.2.1 = spec.1
  unchanged : spec.2 = none → r.1.lookup hash k = s.lookup hash k
  stored : ∀ e, spec.2 = some e → ∃ a, assocFind hash r.1.key r.1.assoc k = some a ∧
    (r.1.mem a).toStored = e
  others : ∀ k', k' ≠ k → r.1.lookup hash k' = s.lookup hash k' ∨ r.1.lookup hash k' = none
  balanced : ∃ A ls, Lifecycle hash r.1 refs A ls

/-- What the execution of a command for the item `it` does, in full. -/
structure StoreStep (hash : Key → BitVec 32) (s : State) (refs : Refs) (A : Finset Addr) (it : Addr)
    (spec : StoreItemType × Option Stored) (r : State × StoreItemType × Option Nat)
    (A' : Finset Addr) (ls' : Nat → List Addr) : Prop where
  lifecycle : Lifecycle hash r.1 refs A' ls'
  effect : Effect (s.key it) (fun b => refs b ≠ 0 ∧ b ≠ it) s r.1 A A'
  answer : r.2.1 = spec.1
  failed : spec.2 = none → Leaves (s.key it) (fun b => refs b ≠ 0 ∧ b ≠ it) s r.1 A A'
  unchanged : spec.2 = none → r.1.lookup hash (s.key it) = s.lookup hash (s.key it)
  stored : ∀ e, spec.2 = some e → ∃ a ∈ A', Renewed (s.key it) s r.1 a ∧ (r.1.mem a).toStored = e

section

variable {hash : Key → BitVec 32} {s s₀ s' : State} {refs : Refs} {A A₀ A' : Finset Addr}
  {ls ls₀ ls' : Nat → List Addr} {it old : Addr} {k : Key} {cas : Option Nat}

theorem StoreStep.correct
    {spec : StoreItemType × Option Stored} {r : State × StoreItemType × Option Nat} {refs₀ : Refs}
    (h₀ : Lifecycle hash s refs₀ A ls₀) (h : StoreStep hash s refs A it spec r A' ls') :
  StoreCorrect hash s refs (s.key it) spec r
  where
  answer := h.answer
  unchanged := h.unchanged
  stored e he := by
    obtain ⟨a, ha, hrenewed, hstored⟩ := h.stored e he
    exact ⟨a, (assocFind_eq_some_iff h.lifecycle.table).mpr ⟨ha, hrenewed.key⟩, hstored⟩
  others _ hk := h.effect.lookup h₀ h.lifecycle hk
  balanced := ⟨A', ls', h.lifecycle⟩

/-- The item to be stored and the one under its key, to which `do_store_item_del` holds a
reference. -/
structure Holding (s : State) (refs : Refs) (A : Finset Addr) (it old : Addr) : Prop where
  old_mem : old ∈ A
  it_notMem : it ∉ A
  it_refs : refs it ≠ 0
  key : s.key old = s.key it
  proper : Proper s it
  old_proper : Proper s old

theorem Holding.it_ne (h : Holding s refs A it old) :
  it ≠ old
  := by
  rintro rfl
  exact h.it_notMem h.old_mem

theorem Refs.take_self (refs : Refs) (a : Addr) :
  refs.take (some a) a = refs a + 1
  := Function.update_self _ _ _

theorem Refs.take_of_ne (refs : Refs) {a b : Addr} (h : b ≠ a) :
  refs.take (some a) b = refs b
  := Function.update_of_ne h _ _

/-- Every item a caller refers to is still referred to. -/
theorem Refs.take_ne_zero (a : Addr) {b : Addr} (h : refs b ≠ 0) :
  refs.take (some a) b ≠ 0
  := by
  by_cases hba : b = a
  · subst hba
    rw [Refs.take_self]
    exact Nat.succ_ne_zero _
  · rw [Refs.take_of_ne refs hba]
    exact h

theorem Refs.release_take (refs : Refs) (a : Addr) :
  Function.update (refs.take (some a)) a (refs.take (some a) a - 1) = refs
  := by
  rw [Refs.take_self, Nat.add_sub_cancel, Refs.take, Function.update_idem, Function.update_eq_self]

theorem Refs.take_comm (refs : Refs) {a b : Addr} (h : a ≠ b) :
  (refs.take (some a)).take (some b) = (refs.take (some b)).take (some a)
  := by
  simp only [Refs.take, Function.update_of_ne h, Function.update_of_ne h.symm]
  exact Function.update_comm h _ _ _

theorem Refs.void_take {x : Option Addr} {a : Addr} (h : x ≠ some a) :
  (refs.take (some a)).void x = (refs.void x).take (some a)
  := by
  cases x with
  | none => rfl
  | some b =>
      have hne : a ≠ b := by
        rintro rfl
        exact h rfl
      simp only [Refs.void, Refs.take, Function.update_of_ne hne]
      exact Function.update_comm hne _ _ _

/-- The reference is released, with the item linked or not. -/
theorem Lifecycle.release
    {P : Addr → Prop} (h : Lifecycle hash s (refs.take (some old)) A ls) (k : Key)
    (hP : ∀ b, P b → refs b ≠ 0) :
  Lifecycle hash (Memcached.doItemRemoveDel s old) refs A ls ∧
    Leaves k P s (Memcached.doItemRemoveDel s old) A A
  := by
  constructor
  · have hne : refs.take (some old) old ≠ 0 := by
      rw [Refs.take_self]
      exact Nat.succ_ne_zero _
    have hrelease := h.doItemRemoveDel hne
    rw [Refs.release_take] at hrelease
    exact hrelease
  · apply h.leaves_doItemRemoveDel
    intro hold
    right
    rw [Refs.take_self]
    exact Nat.lt_succ_of_le (Nat.one_le_iff_ne_zero.mpr (hP old hold))

/-- The item under the key stays, and its reference is released. -/
theorem Holding.release
    {P : Addr → Prop} (h : Holding s refs A it old)
    (hl : Lifecycle hash s (refs.take (some old)) A ls) (hP : ∀ b, P b → refs b ≠ 0) :
  Lifecycle hash (doItemRemoveDel s old) refs A ls ∧
    Leaves (s.key it) P s (doItemRemoveDel s old) A A ∧
    (doItemRemoveDel s old).lookup hash (s.key it) = s.lookup hash (s.key it)
  := by
  obtain ⟨hrelease, hleaves⟩ := hl.release (s.key it) hP
  refine ⟨hrelease, hleaves, ?_⟩
  have hself := doItemRemoveDel_self (.inl ((hl.linked old).mp h.old_mem))
  have hkey : (doItemRemoveDel s old).key old = s.key it := by
    rw [State.key, hself]
    exact h.key
  have hcore : ((doItemRemoveDel s old).mem old).core = (s.mem old).core := by
    rw [hself]
    rfl
  rw [hrelease.lookup_of_mem h.old_mem hkey, hl.lookup_of_mem h.old_mem h.key,
    live_congr hleaves.settings hleaves.currentTime hcore,
    Item.entry_of_content (Item.content_of_core hcore)]

/-- The other linked items have other keys. -/
theorem Holding.key_ne
    {refs' : Refs} (h : Holding s refs A it old) (hl : Lifecycle hash s refs' A ls) {c : Addr}
    (hc : c ∈ A) (hne : c ≠ old) :
  s.key c ≠ s.key it
  := by
  intro hk
  exact hne (hl.eq_of_key hc h.old_mem (hk.trans h.key.symm))

theorem link_toStored (hash : Key → BitVec 32) (s : State) (a : Addr) :
  ((doItemLinkDel hash s a).mem a).toStored = (s.mem a).toStored
  := by
  rw [doItemLinkDel_mem, Function.update_self]
  rfl

/-- What is stored after an item has been put in the place of another. -/
theorem Lifecycle.replace_toStored
    (h : Lifecycle hash s refs A ls) (old : Addr) (hrefs : refs it ≠ 0) :
  ((Memcached.doItemReplaceDel hash s old it).mem it).toStored = (s.mem it).toStored
  := by
  have hdrops := h.drops_doItemUnlinkDel old
  rw [Memcached.doItemReplaceDel, link_toStored]
  apply Item.eq_of_content Item.toStored (fun _ => rfl)
  exact Item.content_of_core (Item.core_of_unlinked (hdrops.kept it (.inr hrefs)))

/-- The item is put in the place of the one under the key. -/
theorem Holding.storeReplace
    (h : Holding s refs A it old) (hl : Lifecycle hash s (refs.take (some old)) A ls) :
  ∃ A' ls', StoreStep hash s refs A it (.stored, some (s.mem it).toStored)
    (storeReplace hash s it old) A' ls'
  := by
  have hrefs := Refs.take_ne_zero old h.it_refs
  obtain ⟨ls', hreplace⟩ := hl.doItemReplaceDel h.it_notMem hrefs
    fun c hc hne => h.key_ne hl hc hne
  have heffect := hl.effect_doItemReplaceDel (P := fun b => refs b ≠ 0 ∧ b ≠ it) old hrefs
    h.proper fun c hc => ⟨Refs.take_ne_zero old hc.1, hc.2⟩
  obtain ⟨hrelease, hleaves⟩ := hreplace.release (s.key it)
    fun b (hb : refs b ≠ 0 ∧ b ≠ it) => hb.1
  have hfinal := heffect.then_leaves hleaves
  have hmem := Finset.mem_insert_self it (A.erase old)
  refine ⟨_, ls', hrelease, hfinal, rfl, (by rintro ⟨⟩), (by rintro ⟨⟩), ?_⟩
  rintro _ ⟨rfl⟩
  refine ⟨it, hmem, ?_, ?_⟩
  · apply (hfinal.linked it hmem).resolve_left
    exact fun hstays => h.it_notMem hstays.mem
  · rw [Memcached.storeReplace, doItemRemoveDel_of_ne _ h.it_ne]
    exact hl.replace_toStored old hrefs

theorem Lifecycle.join (h : Lifecycle hash s refs A ls) (new first second : Addr) :
  Lifecycle hash (s.join new first second) refs A ls
  := by
  have hcopy : ∀ {s : State} (off : Nat) (src : Addr) (n : Nat), Lifecycle hash s refs A ls →
      Lifecycle hash (s.copy new off src n) refs A ls := by
    intro s off src n h
    apply h.modify new
    exact fun it => ⟨rfl, rfl, rfl, rfl, rfl, rfl, rfl⟩
  exact hcopy _ _ _ (hcopy _ _ _ h)

/-- Building a new item shows in no other. -/
theorem leaves_join
    {P : Addr → Prop} (k : Key) {new : Addr} (first second : Addr) (hnew : new ∉ A) (hP : ¬P new) :
  Leaves k P s (s.join new first second) A A
  := by
  have hsettings : (s.join new first second).settings = s.settings := rfl
  apply Leaves.of_core k A hsettings rfl rfl
  intro b hb
  rw [join_of_ne]
  rintro rfl
  exact hb.elim hnew hP

/-- Items are dropped while `do_store_item_del` holds its reference. -/
theorem Holding.drops
    {refs' : Refs} (h : Holding s refs A it old) (hdrops : Drops s s' (refs'.take (some old)) A A')
    (hold : old ∈ A') (hit : refs' it ≠ 0) :
  Holding s' refs' A' it old ∧ s'.key it = s.key it ∧ (s'.mem old).core = (s.mem old).core
  := by
  have hcore : ∀ b, b ∈ A' ∨ refs' b ≠ 0 → (s'.mem b).core = (s.mem b).core :=
    fun b hb => Item.core_of_unlinked (hdrops.kept b (hb.imp_right (Refs.take_ne_zero old)))
  have hkey := Item.key_of_core (hcore it (.inr hit))
  have holdKey := Item.key_of_core (hcore old (.inl hold))
  have hproper : ∀ b, b ∈ A' ∨ refs' b ≠ 0 → Proper s b → Proper s' b :=
    fun b hb hproper => hproper.congr hdrops.settings (Item.content_of_core (hcore b hb))
  refine ⟨⟨hold, fun hmem => h.it_notMem (hdrops.sub hmem), hit, ?_,
    hproper it (.inr hit) h.proper, hproper old (.inl hold) h.old_proper⟩, hkey,
    hcore old (.inl hold)⟩
  rw [State.key, State.key, holdKey, hkey]
  exact h.key

/-- What the concatenation of two items holds. -/
def joined (comm : Comm) (old new : Item) : Stored :=
  if comm = .append then ⟨dropCrlf old.value ++ new.value, old.flags, old.exptime⟩
  else ⟨dropCrlf new.value ++ old.value, old.flags, old.exptime⟩

/-- The part of `do_store_item_del` after the allocation of the concatenation. -/
theorem Holding.join
    {refs' : Refs} {new : Addr} (h : Holding s refs' A it old) (comm : Comm)
    (h' : Lifecycle hash s ((refs'.take (some old)).take (some new)) A ls) (hnew : new ∉ A)
    (hzero : refs'.take (some old) new = 0) (hkey : s.key new = s.key it)
    (hsuffix : (s.mem new).suffix = suffixOf (s.mem old).flags (s.mem new).nbytes)
    (hexptime : (s.mem new).exptime = (s.mem old).exptime)
    (hnbytes : (s.mem new).nbytes = (s.mem it).nbytes + (s.mem old).nbytes - 2)
    (hcas : (s.mem new).hasCas = s.settings.useCas) :
  let s₁ := if comm = .append then s.join new old it else s.join new it old
  let s₂ := doItemRemoveDel (doItemRemoveDel (doItemReplaceDel hash s₁ old new) old) new
  ∃ A' ls', StoreStep hash s refs' A it (.stored, some (joined comm (s.mem old) (s.mem it)))
    (s₂, .stored, some (s₂.mem new).getCas) A' ls'
  := by
  intro s₁ s₂
  have hne : new ≠ old := by
    rintro rfl
    exact hnew h.old_mem
  rw [Refs.take_of_ne refs' hne] at hzero
  have hneIt : it ≠ new := by
    rintro rfl
    exact h.it_refs hzero
  have hP : ∀ b, refs' b ≠ 0 ∧ b ≠ it → refs'.take (some new) b ≠ 0 ∧ b ≠ new := by
    rintro b ⟨hb, -⟩
    refine ⟨Refs.take_ne_zero new hb, ?_⟩
    rintro rfl
    exact hb hzero
  obtain ⟨hmem, ⟨d, hself⟩, hvalue, h₁, hleaves⟩ : (∀ b, b ≠ new → s₁.mem b = s.mem b) ∧
      (∃ d, s₁.mem new = { s.mem new with data := d }) ∧
      (s₁.mem new).value = (joined comm (s.mem old) (s.mem it)).value ∧
      Lifecycle hash s₁ ((refs'.take (some old)).take (some new)) A ls ∧
      Leaves (s.key it) (fun b => refs' b ≠ 0 ∧ b ≠ it) s s₁ A A := by
    have hunprotected : ¬(refs' new ≠ 0 ∧ new ≠ it) := fun hnew => hnew.1 hzero
    simp only [s₁, joined]
    split
    · exact ⟨fun b hb => join_of_ne hb, ⟨_, join_self hne.symm hneIt⟩,
        value_join hne.symm hneIt h.old_proper.crlf hnbytes, h'.join _ _ _,
        leaves_join _ _ _ hnew hunprotected⟩
    · rw [Nat.add_comm] at hnbytes
      exact ⟨fun b hb => join_of_ne hb, ⟨_, join_self hneIt hne.symm⟩,
        value_join hneIt hne.symm h.proper.crlf hnbytes, h'.join _ _ _,
        leaves_join _ _ _ hnew hunprotected⟩
  have hstored : (s₁.mem new).toStored = joined comm (s.mem old) (s.mem it) := by
    have hflags : (s₁.mem new).flags = (s.mem old).flags := by
      obtain ⟨hmin, hmax, -⟩ := h.old_proper.flags
      rw [Item.flags, hself, hsuffix, flags_suffixOf ⟨hmin, hmax⟩]
    have hexp : (s₁.mem new).exptime = (s.mem old).exptime := by
      rw [hself, hexptime]
    rw [Item.toStored, hvalue, hflags, hexp, joined]
    split <;> rfl
  have hnewKey : s₁.key new = s.key it := by
    rw [State.key, hself]
    exact hkey
  rw [Refs.take_comm refs' hne.symm] at h₁
  have hholding : Holding s₁ (refs'.take (some new)) A new old := by
    refine ⟨h.old_mem, hnew, ?_, ?_, ⟨?_, ?_, ?_⟩, ?_⟩
    · rw [Refs.take_self]
      exact Nat.succ_ne_zero _
    · rw [hnewKey, State.key, hmem old hne.symm]
      exact h.key
    · rw [hself, hnbytes]
      have := h.proper.crlf
      have := h.old_proper.crlf
      omega
    · obtain ⟨hmin, hmax, -⟩ := h.old_proper.flags
      rw [hself]
      exact ⟨_, hmin, hmax, hsuffix⟩
    · rw [hself, hleaves.settings]
      exact hcas
    · apply h.old_proper.congr hleaves.settings
      rw [hmem old hne.symm]
  obtain ⟨A', ls', hstep⟩ := hholding.storeReplace h₁
  obtain ⟨hrelease, hleaves₂⟩ := hstep.lifecycle.release (s.key it)
    fun b (hb : refs' b ≠ 0 ∧ b ≠ it) => hb.1
  have heffect := hstep.effect.mono hP
  rw [hnewKey] at heffect
  refine ⟨A', ls', hrelease, (hleaves.then_effect heffect).then_leaves hleaves₂, rfl,
    (by rintro ⟨⟩), (by rintro ⟨⟩), ?_⟩
  rintro _ ⟨rfl⟩
  obtain ⟨a, ha, hrenewed, htoStored⟩ := hstep.stored _ rfl
  rw [hnewKey] at hrenewed
  have hcontent := (hleaves₂.linked a ha).content
  refine ⟨a, ha, (hleaves.renewed hrenewed).leaves hleaves₂ hcontent, ?_⟩
  rw [← hstored, ← htoStored]
  exact Item.eq_of_content Item.toStored (fun _ => rfl) hcontent

/-- The concatenation is stored if there is memory for it, and the key keeps its value
otherwise. -/
theorem Holding.storeJoin
    (h : Holding s refs A it old) (hl : Lifecycle hash s (refs.take (some old)) A ls) (comm : Comm)
    {x : Option Addr} {room : Bool}
    (hx : allocRepair hash s (s.key it) (s.mem old).flags ((s.mem it).nbytes + (s.mem old).nbytes - 2) = x)
    (hroom : (doItemAllocDel hash s (s.key it) (s.mem old).flags (s.mem old).exptime
      ((s.mem it).nbytes + (s.mem old).nbytes - 2)).2.isSome = room)
    (hold : x ≠ some old) :
  ∃ A' ls', StoreStep hash s (refs.void x) A it
    (if room then (.stored, some (joined comm (s.mem old) (s.mem it))) else (.notStored, none))
    (storeJoin hash s it old comm) A' ls'
  := by
  have hxIt : x ≠ some it := by
    rintro rfl
    exact h.it_notMem (hl.mem_of_allocRepair hx)
  obtain ⟨A₁, ls₁, hcreated⟩ := hl.doItemAllocDel (s.key it) (s.mem old).flags
    (s.mem old).exptime ((s.mem it).nbytes + (s.mem old).nbytes - 2)
  rw [hx, Refs.void_take hold] at hcreated
  simp only [Memcached.storeJoin]
  rcases halloc : doItemAllocDel hash s (s.key it) (s.mem old).flags (s.mem old).exptime
    ((s.mem it).nbytes + (s.mem old).nbytes - 2) with ⟨s₁, ret⟩
  rw [halloc] at hcreated hroom
  have holdRefs : (refs.void x).take (some old) old ≠ 0 := by
    rw [Refs.take_self]
    exact Nat.succ_ne_zero _
  have hold₁ : old ∈ A₁ := hcreated.held old h.old_mem holdRefs
  have hit : refs.void x it ≠ 0 := by
    rw [Refs.void_of_ne hxIt]
    exact h.it_refs
  have hprotect : ∀ b, refs.void x b ≠ 0 ∧ b ≠ it → (refs.void x).take (some old) b ≠ 0 :=
    fun b hb => Refs.take_ne_zero old hb.1
  have hleaves := hcreated.drops.leaves (s.key it) hprotect
  obtain ⟨hholding, hkeyIt, hcore⟩ := h.drops hcreated.drops hold₁ hit
  have hkeyOld : s₁.key old = s.key it := (Item.key_of_core hcore).trans h.key
  cases ret with
  | none =>
      have hlookup : s₁.lookup hash (s.key it) = s.lookup hash (s.key it) := by
        rw [hcreated.lifecycle.lookup_of_mem hold₁ hkeyOld, hl.lookup_of_mem h.old_mem h.key,
          live_congr hleaves.settings hleaves.currentTime hcore,
          Item.entry_of_content (Item.content_of_core hcore)]
      obtain ⟨hrelease, hleaves₂, hlookup₂⟩ := hholding.release hcreated.lifecycle
        fun b (hb : refs.void x b ≠ 0 ∧ b ≠ it) => hb.1
      rw [hkeyIt] at hleaves₂ hlookup₂
      rw [← hroom]
      have hfailed := hleaves.trans hleaves₂
      refine ⟨A₁, ls₁, hrelease, hfailed.effect, rfl, fun _ => hfailed, ?_, (by rintro _ ⟨⟩)⟩
      exact fun _ => hlookup₂.trans hlookup
  | some new =>
      have hcontent := Item.content_of_core hcore
      have hcontentIt := Item.content_of_core (Item.core_of_unlinked
        (hcreated.drops.kept it (.inr (Refs.take_ne_zero old hit))))
      have hnbytesOld := Item.eq_of_content Item.nbytes (fun _ => rfl) hcontent
      have hnbytesIt := Item.eq_of_content Item.nbytes (fun _ => rfl) hcontentIt
      have hflags := Item.eq_of_content Item.flags (fun _ => rfl) hcontent
      have hexptimeOld := Item.eq_of_content Item.exptime (fun _ => rfl) hcontent
      have hjoined : joined comm (s₁.mem old) (s₁.mem it) = joined comm (s.mem old) (s.mem it) := by
        rw [joined, joined, hflags, hexptimeOld, Item.eq_of_content Item.value (fun _ => rfl) hcontent,
          Item.eq_of_content Item.value (fun _ => rfl) hcontentIt]
      obtain ⟨hkey, hsuffix, hexptime, hnbytes, hcas⟩ := hcreated.item new rfl
      obtain ⟨A', ls', hstep⟩ := hholding.join comm hcreated.lifecycle (hcreated.notMem new rfl)
        (hcreated.refs new rfl) (hkey.trans hkeyIt.symm) (by rw [hsuffix, hflags, hnbytes])
        (hexptime.trans hexptimeOld.symm) (by rw [hnbytes, hnbytesOld, hnbytesIt])
        (hcas.trans (congrArg Settings.useCas hcreated.drops.settings).symm)
      have heffect := hstep.effect
      rw [hkeyIt] at heffect
      rw [← hroom]
      refine ⟨A', ls', hstep.lifecycle, hleaves.then_effect heffect, rfl,
        (by rintro ⟨⟩), (by rintro ⟨⟩), ?_⟩
      rintro _ ⟨rfl⟩
      obtain ⟨a, ha, hrenewed, hstored⟩ := hstep.stored _ rfl
      rw [hkeyIt] at hrenewed
      rw [← hjoined]
      exact ⟨a, ha, hleaves.renewed hrenewed, hstored⟩

/-- A command is executed in a state that differs in what it does not look at. -/
theorem StoreStep.after
    {spec : StoreItemType × Option Stored} {r : State × StoreItemType × Option Nat}
    (h : StoreStep hash s' refs A' it spec r A₀ ls₀)
    (hleaves : Leaves (s.key it) (fun b => refs b ≠ 0 ∧ b ≠ it) s s' A A') (hkey : s'.key it = s.key it)
    (hlookup : s'.lookup hash (s.key it) = s.lookup hash (s.key it)) :
  StoreStep hash s refs A it spec r A₀ ls₀
  := by
  have heffect := h.effect
  have hfailed := h.failed
  have hunchanged := h.unchanged
  have hstored := h.stored
  rw [hkey] at heffect hfailed hunchanged hstored
  refine ⟨h.lifecycle, hleaves.then_effect heffect, h.answer, fun hnone => hleaves.trans (hfailed hnone),
    fun hnone => ?_, ?_⟩
  · rw [hunchanged hnone, hlookup]
  · intro e he
    obtain ⟨a, ha, hrenewed, htoStored⟩ := hstored e he
    exact ⟨a, ha, hleaves.renewed hrenewed, htoStored⟩

/-- An access does not make a live item die. -/
theorem live_doItemUpdate {a : Addr} (hlive : live s a = true) (hpast : (s.mem a).time ≤ s.currentTime) :
  live (doItemUpdate s a) a = true
  := by
  obtain ⟨hsettings, htime, -⟩ := doItemUpdate_frame s a
  have hexptime := Item.eq_of_content Item.exptime (fun _ => rfl) (doItemUpdate_content s a a)
  have hlater : (s.mem a).time ≤ ((doItemUpdate s a).mem a).time := by
    obtain heq | heq := doItemUpdate_self s a
    · rw [heq]
    · rw [heq]
      exact hpast
  simp only [live, flushed, decide_eq_true_eq, decide_eq_false_iff_not, hsettings, htime, hexptime]
    at hlive ⊢
  refine ⟨?_, hlive.2⟩
  rintro ⟨hne, hle, hold⟩
  exact hlive.1 ⟨hne, hle, le_trans hlater hold⟩

/-- The item under the key stays as it is, but for an access. -/
theorem Holding.keep
    (h : Holding s refs A it old) (hl : Lifecycle hash s (refs.take (some old)) A ls)
    (hl' : Lifecycle hash s' (refs.take (some old)) A ls')
    (hleaves : Leaves (s.key it) (fun b => refs b ≠ 0 ∧ b ≠ it) s s' A A)
    (hcontent : ∀ b, (s'.mem b).content = (s.mem b).content) (hlive : live s' old = live s old)
    (answer : StoreItemType) :
  StoreStep hash s refs A it (answer, none) (doItemRemoveDel s' old, answer, none) A ls'
  := by
  have hkey : ∀ b, s'.key b = s.key b := fun b => Item.key_of_content (hcontent b)
  have hholding : Holding s' refs A it old := by
    refine ⟨h.old_mem, h.it_notMem, h.it_refs, ?_, h.proper.congr hleaves.settings (hcontent it),
      h.old_proper.congr hleaves.settings (hcontent old)⟩
    rw [hkey, hkey, h.key]
  obtain ⟨hrelease, hleaves₂, hlookup⟩ := hholding.release hl'
    fun b (hb : refs b ≠ 0 ∧ b ≠ it) => hb.1
  rw [hkey] at hleaves₂ hlookup
  have hfailed := hleaves.trans hleaves₂
  refine ⟨hrelease, hfailed.effect, rfl, fun _ => hfailed, fun _ => ?_, (by rintro _ ⟨⟩)⟩
  rw [hlookup, hl'.lookup_of_mem h.old_mem ((hkey old).trans h.key),
    hl.lookup_of_mem h.old_mem h.key, Item.entry_of_content (hcontent old), hlive]

/-- Nothing is stored under an absent key. -/
theorem StoreStep.absent (h : Lifecycle hash s refs A ls) (it : Addr) (answer : StoreItemType) :
  StoreStep hash s refs A it (answer, none) (s, answer, none) A ls
  := by
  have hfailed := Leaves.refl (s.key it) (fun b => refs b ≠ 0 ∧ b ≠ it) s A
  exact ⟨h, hfailed.effect, rfl, fun _ => hfailed, fun _ => rfl, by rintro _ ⟨⟩⟩

/-- The item is stored under an absent key. -/
theorem StoreStep.link
    (h : Lifecycle hash s refs A ls) (hit : it ∉ A) (hrefs : refs it ≠ 0) (hproper : Proper s it)
    (hk : ∀ b ∈ A, s.key b ≠ s.key it) (cas : Option Nat) :
  ∃ ls', StoreStep hash s refs A it (.stored, some (s.mem it).toStored)
    (doItemLinkDel hash s it, .stored, cas) (insert it A) ls'
  := by
  have heffect := effect_doItemLinkDel (P := fun b => refs b ≠ 0 ∧ b ≠ it) hash A hproper
    fun hb => hb.2 rfl
  have hmem := Finset.mem_insert_self it A
  refine ⟨_, h.doItemLinkDel hit hrefs hk, heffect, rfl, (by rintro ⟨⟩), (by rintro ⟨⟩), ?_⟩
  rintro _ ⟨rfl⟩
  refine ⟨it, hmem, ?_, link_toStored hash s it⟩
  apply (heffect.linked it hmem).resolve_left
  exact fun hstays => hit hstays.mem

/-- A command for a key without an item. -/
theorem StoreStep.storeAbsent
    (h : Lifecycle hash s refs A ls) (hit : it ∉ A) (hrefs : refs it ≠ 0) (hproper : Proper s it)
    (hk : ∀ b ∈ A, s.key b ≠ s.key it) (comm : Comm) (room : Bool) :
  ∃ A' ls', StoreStep hash s refs A it (storeSpec comm none (s.mem it).entry room)
    (storeAbsent hash s it comm) A' ls'
  := by
  cases comm with
  | replace | append | prepend | cas => exact ⟨A, ls, StoreStep.absent h it _⟩
  | add | set =>
      obtain ⟨ls', hstep⟩ := StoreStep.link h hit hrefs hproper hk
        (some ((doItemLinkDel hash s it).mem it).getCas)
      exact ⟨_, ls', hstep⟩

/-- A command for a key with the item `old`. -/
theorem Holding.storeOver
    (h : Holding s refs A it old) (hl : Lifecycle hash s (refs.take (some old)) A ls)
    (hlive : live s old = true) (comm : Comm) (hold : overRepair hash s it old comm ≠ some old) :
  ∃ A' ls', StoreStep hash s (refs.void (overRepair hash s it old comm)) A it
    (storeSpec comm (some (s.mem old).entry) (s.mem it).entry (overRoom hash s it old))
    (storeOver hash s it old comm) A' ls'
  := by
  have hjoin : ∀ comm, (comm = .append ∨ comm = .prepend) → overRepair hash s it old comm ≠ some old →
      ¬joinMismatch s it old → ∃ A' ls', StoreStep hash s (refs.void (overRepair hash s it old comm)) A it
        (if overRoom hash s it old then (.stored, some (joined comm (s.mem old) (s.mem it)))
          else (.notStored, none)) (Memcached.storeJoin hash s it old comm) A' ls' := by
    intro comm hcomm hold hmatch
    have hrepair : overRepair hash s it old comm = allocRepair hash s (s.key it) (s.mem old).flags
        ((s.mem it).nbytes + (s.mem old).nbytes - 2) := if_pos ⟨hcomm, hmatch⟩
    exact h.storeJoin hl comm hrepair.symm rfl hold
  have hnone : ¬((comm = .append ∨ comm = .prepend) ∧ ¬joinMismatch s it old) →
      overRepair hash s it old comm = none := fun hcomm => if_neg hcomm
  have hkeep : ∀ answer, StoreStep hash s refs A it (answer, none)
      (doItemRemoveDel s old, answer, none) A ls :=
    fun answer => h.keep hl hl (Leaves.refl _ _ s A) (fun _ => rfl) rfl answer
  cases comm with
  | add =>
      obtain ⟨ls', hl'⟩ := hl.doItemUpdate old
      have hleaves := leaves_doItemUpdate (s := s) (a := old) (fun b => refs b ≠ 0 ∧ b ≠ it) A
        fun _ => hlive
      rw [h.key] at hleaves
      have hlive' : live (doItemUpdate s old) old = live s old := by
        rw [hlive, live_doItemUpdate hlive (hl.past old h.old_mem)]
      exact ⟨A, ls', h.keep hl hl' hleaves (doItemUpdate_content s old) hlive' _⟩
  | set | replace => exact h.storeReplace hl
  | cas =>
      rw [hnone (by simp)]
      simp only [Memcached.storeOver, storeSpec]
      by_cases hcas : (s.mem it).getCas = (s.mem old).getCas
      · have hentry : (s.mem it).entry.cas = (s.mem old).entry.cas := hcas
        rw [if_pos hcas, if_pos hentry]
        exact h.storeReplace hl
      · have hentry : ¬(s.mem it).entry.cas = (s.mem old).entry.cas := hcas
        rw [if_neg hcas, if_neg hentry]
        exact ⟨A, ls, hkeep _⟩
  | append | prepend =>
      simp only [Memcached.storeOver, storeSpec]
      by_cases hmatch : joinMismatch s it old
      · have hentry : (s.mem it).entry.cas ≠ 0 ∧ (s.mem it).entry.cas ≠ (s.mem old).entry.cas := hmatch
        rw [if_pos hmatch, if_pos hentry, hnone fun hcomm => hcomm.2 hmatch]
        exact ⟨A, ls, hkeep _⟩
      · have hentry : ¬((s.mem it).entry.cas ≠ 0 ∧ (s.mem it).entry.cas ≠ (s.mem old).entry.cas) :=
          hmatch
        rw [if_neg hmatch, if_neg hentry]
        exact hjoin _ (by simp) hold hmatch

/-- The execution of a command. -/
theorem Lifecycle.doStoreItemDel
    (h : Lifecycle hash s refs A ls) (hit : it ∉ A) (hrefs : refs it ≠ 0) (hproper : Proper s it)
    (hlinked : ∀ a ∈ A, Proper s a) (comm : Comm)
    (hold : ∀ a, assocFind hash s.key s.assoc (s.key it) = some a → live s a = true →
      refs a + 1 < 2 ^ 16 ∧ storeRepair hash s it comm ≠ some a) :
  ∃ A' ls', StoreStep hash s (refs.void (storeRepair hash s it comm)) A it
    (storeSpec comm (s.lookup hash (s.key it)) (s.mem it).entry (joinRoom hash s it))
    (doStoreItemDel hash s it comm) A' ls'
  := by
  obtain ⟨hlookup, hret, A₁, ls₁, h₁, hdrops, habsent⟩ | ⟨old, hmem, hkey, hlive, hget⟩ :=
    h.doItemGetDel_cases (s.key it)
  · rcases hget : Memcached.doItemGetDel hash s (s.key it) with ⟨s₁, ret⟩
    rw [hget] at hret h₁ hdrops
    subst hret
    simp only at h₁ hdrops
    have hkey := hdrops.key (.inr hrefs)
    have hkeys : ∀ b ∈ A₁, s₁.key b ≠ s₁.key it := by
      intro b hb
      rw [hdrops.key (.inl hb), hkey]
      exact habsent b hb
    have hcontent := Item.content_of_core (Item.core_of_unlinked (hdrops.kept it (.inr hrefs)))
    have hnone : s₁.lookup hash (s.key it) = s.lookup hash (s.key it) := by
      rw [hlookup, ← hkey, h₁.lookup_eq_none hkeys]
    have hleaves := hdrops.leaves (P := fun b => refs b ≠ 0 ∧ b ≠ it) (s.key it) fun b hb => hb.1
    obtain ⟨A', ls', hstep⟩ := StoreStep.storeAbsent h₁ (fun hb => hit (hdrops.sub hb)) hrefs
      (hproper.congr hdrops.settings hcontent) hkeys comm false
    rw [Item.entry_of_content hcontent] at hstep
    simp only [Memcached.doStoreItemDel, storeRepair, joinRoom, hget, hlookup]
    exact ⟨A', ls', hstep.after hleaves hkey hnone⟩
  · obtain ⟨hwrap, hrepair⟩ := hold old ((assocFind_eq_some_iff h.table).mpr ⟨hmem, hkey⟩) hlive
    have hne : it ≠ old := by
      rintro rfl
      exact hit hmem
    rw [Nat.mod_eq_of_lt hwrap] at hget
    have h₁ := h.setRefcount (h.used_linked old hmem) (refs old + 1)
    have hleaves := leaves_setRefcount (s.key it)
      (fun b => refs.void (storeRepair hash s it comm) b ≠ 0 ∧ b ≠ it) s A old (refs old + 1)
    have hitem := State.mem_modify_of_ne s old it (fun it => { it with refcount := refs old + 1 }) hne
    have hcore : ((s.modify old fun it => { it with refcount := refs old + 1 }).mem old).core
        = (s.mem old).core := by
      rw [State.mem_modify_self]
      rfl
    obtain ⟨s₁, hs₁⟩ : ∃ s₁, s₁ = s.modify old fun it => { it with refcount := refs old + 1 } := ⟨_, rfl⟩
    rw [← hs₁] at hget h₁ hleaves hitem hcore
    have hkeyIt : s₁.key it = s.key it := congrArg Item.key hitem
    have hkeyOld : s₁.key old = s.key it := (Item.key_of_core hcore).trans hkey
    have hcontent := Item.content_of_core hcore
    have hholding : Holding s₁ refs A it old :=
      ⟨hmem, hit, hrefs, hkeyOld.trans hkeyIt.symm,
        hproper.congr hleaves.settings (congrArg Item.content hitem),
        (hlinked old hmem).congr hleaves.settings hcontent⟩
    have hlive₁ : live s₁ old = true := by
      rw [live_congr hleaves.settings hleaves.currentTime hcore, hlive]
    have hlookup : s.lookup hash (s.key it) = some (s.mem old).entry := by
      rw [h.lookup_of_mem hmem hkey, hlive, if_pos rfl]
    have hlookup₁ : s₁.lookup hash (s.key it) = s.lookup hash (s.key it) := by
      rw [h₁.lookup_of_mem hmem hkeyOld, hlive₁, if_pos rfl, hlookup, Item.entry_of_content hcontent]
    have hover : storeRepair hash s it comm = overRepair hash s₁ it old comm := by
      rw [storeRepair, hget]
    rw [hover] at hleaves hrepair
    obtain ⟨A', ls', hstep⟩ := hholding.storeOver h₁ hlive₁ comm hrepair
    rw [Item.entry_of_content hcontent, hitem] at hstep
    rw [hover, hlookup, Memcached.doStoreItemDel, joinRoom, hget]
    exact ⟨A', ls', hstep.after hleaves hkeyIt hlookup₁⟩

/-- The commands behave as the abstract semantics says, in every state that the invariant
allows, for an item that its caller has and that is not linked yet, provided that the item
under its key has fewer than `65535` references and is not the one that the allocation of a
concatenation releases. -/
theorem store_refines_spec
    (hash : Key → BitVec 32) (s : State) (refs : Refs) (A : Finset Addr) (ls : Nat → List Addr)
    (it : Addr) (comm : Comm) (h : Lifecycle hash s refs A ls) (hit : it ∉ A) (hrefs : refs it ≠ 0)
    (hproper : Proper s it) (hlinked : ∀ a ∈ A, Proper s a)
    (hold : ∀ a, assocFind hash s.key s.assoc (s.key it) = some a → live s a = true →
      refs a < 65535 ∧ storeRepair hash s it comm ≠ some a) :
  StoreCorrect hash s (refs.void (storeRepair hash s it comm)) (s.key it)
    (storeSpec comm (s.lookup hash (s.key it)) (s.mem it).entry (joinRoom hash s it))
    (doStoreItemDel hash s it comm)
  := by
  obtain ⟨A', ls', hstep⟩ := h.doStoreItemDel hit hrefs hproper hlinked comm (by
    intro a hfind hlive
    obtain ⟨hlt, hrepair⟩ := hold a hfind hlive
    exact ⟨by omega, hrepair⟩)
  exact hstep.correct h

end

/-! ### Two runs -/

/-- A text of `n` bytes `c` and `\r\n`. -/
def textOf (c : UInt8) (n : Nat) : Nat → UInt8 :=
  fun i => if i = n then 13 else if i = n + 1 then 10 else c

/-- A large item is stored. Later, an item is made that is to be appended to it. -/
def appendRun (now : Nat) : List ItemOp :=
  [.alloc [1] 7 0 200, .fill 8 (textOf 65 198), .link 8, .remove 8, .tick now, .alloc [1] 0 0 5,
    .fill 1040 (textOf 66 3)]

def appendState (limit now : Nat) : State × Refs :=
  itemRun (fun _ => 0) (State.init (smallConfig limit)) (fun _ => 0) (appendRun now)

def appendSpec (limit now : Nat) : StoreItemType × Option Stored :=
  storeSpec .append ((appendState limit now).1.lookup (fun _ => 0) [1])
    ((appendState limit now).1.mem 1040).entry (joinRoom (fun _ => 0) (appendState limit now).1 1040)

/-- When there is no other memory, and the item has been stored for more than three hours,
its memory becomes that of the concatenation before its data has been copied. -/
theorem append_overwrites_old :
  AllowedRun (fun _ => 0) (State.init (smallConfig 1)) (fun _ => 0) (appendRun 20000) ∧
    ¬StoreCorrect (fun _ => 0) (appendState 1 20000).1
      ((appendState 1 20000).2.void (storeRepair (fun _ => 0) (appendState 1 20000).1 1040 .append)) [1]
      (appendSpec 1 20000) (doStoreItemDel (fun _ => 0) (appendState 1 20000).1 1040 .append)
  := by
  refine ⟨by decide +kernel, ?_⟩
  intro h
  have hsome : (appendSpec 1 20000).2.isSome = true := by decide +kernel
  have hne : (assocFind (fun _ => 0)
      (doStoreItemDel (fun _ => 0) (appendState 1 20000).1 1040 .append).1.key
      (doStoreItemDel (fun _ => 0) (appendState 1 20000).1 1040 .append).1.assoc [1]).map
        (fun a => ((doStoreItemDel (fun _ => 0) (appendState 1 20000).1 1040 .append).1.mem a).value)
      ≠ (appendSpec 1 20000).2.map Stored.value := by
    decide +kernel
  obtain ⟨e, he⟩ := Option.isSome_iff_exists.mp hsome
  obtain ⟨a, ha, hstored⟩ := h.stored e he
  apply hne
  rw [ha, he, Option.map_some, Option.map_some, ← hstored]
  rfl

/-- With more memory the concatenation is stored. -/
theorem store_refines_spec_append :
  StoreCorrect (fun _ => 0) (appendState 0 20000).1
    ((appendState 0 20000).2.void (storeRepair (fun _ => 0) (appendState 0 20000).1 1040 .append)) [1]
    (appendSpec 0 20000) (doStoreItemDel (fun _ => 0) (appendState 0 20000).1 1040 .append)
  := by
  have hallowed : AllowedRun (fun _ => 0) (State.init (smallConfig 0)) (fun _ => 0) (appendRun 20000) := by
    decide +kernel
  obtain ⟨A, ls, h, hlinks⟩ := (lifecycle_init (fun _ => 0) (smallConfig 0)).itemRun hallowed
  have hA : ∀ a ∈ A, a = 8 := by
    intro a ha
    obtain ha | ha := hlinks a ha
    · cases ha
    · simpa [appendRun, ItemOp.links, eq_comm] using ha
  have hproper : Proper (appendState 0 20000).1 8 ∧ Proper (appendState 0 20000).1 1040 := by
    refine ⟨⟨?_, ⟨7, ?_⟩, ?_⟩, ⟨?_, ⟨0, ?_⟩, ?_⟩⟩ <;> decide +kernel
  have hkey : (appendState 0 20000).1.key 1040 = [1] := by decide +kernel
  have hroom : (appendState 0 20000).2 8 < 65535 ∧
      storeRepair (fun _ => 0) (appendState 0 20000).1 1040 .append ≠ some 8 := by
    decide +kernel
  have hcorrect := store_refines_spec (fun _ => 0) (appendState 0 20000).1 (appendState 0 20000).2 A ls
    1040 .append h (fun hmem => absurd (hA 1040 hmem) (by decide)) (by decide +kernel) hproper.2
    (fun a ha => by rw [hA a ha]; exact hproper.1)
    (by
      intro a hfind _
      rw [hA a ((assocFind_eq_some_iff h.table).mp hfind).1]
      exact hroom)
  rw [hkey] at hcorrect
  exact hcorrect

end Memcached
