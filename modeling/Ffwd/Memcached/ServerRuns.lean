import Ffwd.Lib.Runs
import Ffwd.Memcached.Server

/-!
# Runs of the server

As long as no item has `65536` references, and no item in use is released by the repair of a tail,
the counts of references are right in every run, whatever the order of the steps, and a step changes
no item that a connection refers to, but for those that it has allocated and not stored.
-/

namespace Memcached

open Linked Counting Runs

/-- The references to an item that have been taken and not released. -/
def Server.refs {ι : Type} [Fintype ι] (v : Server ι) : Refs :=
  fun a => ∑ c, (v.clients c).held.count a

/-! ### What a step does to the items -/

/-- What a step may do to the items of all: store an item under a key, access an item, and set
`oldest_live`. -/
structure Move where
  stores : Option Key
  updates : Option Addr
  oldestLive : Option Nat

def Move.none : Move := ⟨.none, .none, .none⟩

/-- The key under which a step of a connection stores an item, and so on. -/
def Client.move (hash : Key → BitVec 32) (s : State) (c : Client) (behind : Nat) : Move :=
  match c.script with
  | .store a comm _ =>
      { Move.none with stores := if (doStoreItemDel hash s a comm).2.1 = .stored then s.key a else none }
  | .addDelta k incr delta cas _ =>
      { Move.none with
        stores := if (doAddDeltaDel hash behind s k incr delta cas).2.result = .ok then k else none }
  | .update a _ => { Move.none with updates := a }
  | .setOldestLive v _ => { Move.none with oldestLive := v }
  | _ => Move.none

/-- The item `b` was linked, it has the same content, and it has been accessed at most, when it was
alive. -/
structure Remains (m : Move) (s s' : State) (A : Finset Addr) (b : Addr) : Prop where
  mem : b ∈ A
  content : (s'.mem b).content = (s.mem b).content
  time : (s'.mem b).time = (s.mem b).time ∨ live s b = true ∨ m.updates = some b

/-- A step that stores at most one item, with a new CAS id. The items that satisfy `P` are
protected: they keep their content, and are not linked. -/
structure Moves (m : Move) (P : Addr → Prop) (s s' : State) (A A' : Finset Addr) : Prop where
  linked : ∀ b ∈ A', Remains m s s' A b ∨ m.stores = some (s'.key b) ∧ Renewed (s'.key b) s s' b
  stored : ∀ k, m.stores = some k → ∃ b ∈ A', Renewed k s s' b
  kept : ∀ b ∈ A', P b → b ∈ A
  held : ∀ b, P b → (s'.mem b).content = (s.mem b).content
  settings : s'.settings = { s.settings with oldestLive := m.oldestLive.getD s.settings.oldestLive }
  currentTime : s.currentTime ≤ s'.currentTime
  casId : s'.casId = s.casId ∨ s'.casId = (s.casId + 1) % 2 ^ 64

variable {hash : Key → BitVec 32} {s s' : State} {refs refs' : Refs} {A A' : Finset Addr}
  {ls ls' : Nat → List Addr} {a b : Addr} {k : Key} {P Q : Addr → Prop} {m : Move}

theorem Stays.remains (h : Stays k s s' A b) (m : Move) :
  Remains m s s' A b
  where
  mem := h.mem
  content := h.content
  time := h.time.imp_right fun hlive => .inl hlive.2

/-- Nothing is stored. -/
theorem Leaves.moves (h : Leaves k P s s' A A') :
  Moves Move.none P s s' A A'
  where
  linked b hb := .inl ((h.linked b hb).remains _)
  stored k hk := by cases hk
  kept b hb _ := (h.linked b hb).mem
  held := h.held
  settings := h.settings
  currentTime := h.currentTime.ge
  casId := .inl h.casId

/-- An item is stored under a key. -/
theorem Effect.moves (h : Effect k P s s' A A') (hstored : ∃ b ∈ A', Renewed k s s' b) :
  Moves { Move.none with stores := k } P s s' A A'
  where
  linked b hb := by
    obtain hstays | hrenewed := h.linked b hb
    · exact .inl (hstays.remains _)
    · right
      rw [hrenewed.key]
      exact ⟨rfl, hrenewed⟩
  stored k' hk := by
    obtain rfl := Option.some.inj hk
    exact hstored
  kept := h.kept
  held := h.held
  settings := h.settings
  currentTime := h.currentTime.ge
  casId := h.casId

theorem Moves.mono (h : Moves m P s s' A A') (hQ : ∀ b, Q b → P b) :
  Moves m Q s s' A A'
  where
  linked := h.linked
  stored := h.stored
  kept b hb hQb := h.kept b hb (hQ b hQb)
  held b hb := h.held b (hQ b hb)
  settings := h.settings
  currentTime := h.currentTime
  casId := h.casId

theorem Moves.useCas (h : Moves m P s s' A A') :
  s'.settings.useCas = s.settings.useCas
  := by rw [h.settings]

/-- Nothing is stored, and no item changes its content. -/
theorem Moves.of_content
    (A : Finset Addr) (P : Addr → Prop) (hm : m.stores = none)
    (hcontent : ∀ b, b ∈ A ∨ P b → (s'.mem b).content = (s.mem b).content)
    (htime : ∀ b ∈ A, (s'.mem b).time = (s.mem b).time ∨ m.updates = some b)
    (hsettings : s'.settings = { s.settings with oldestLive := m.oldestLive.getD s.settings.oldestLive })
    (hnow : s.currentTime ≤ s'.currentTime) (hcas : s'.casId = s.casId) :
  Moves m P s s' A A
  where
  linked b hb := .inl ⟨hb, hcontent b (.inl hb), (htime b hb).imp_right .inr⟩
  stored k hk := by
    rw [hm] at hk
    cases hk
  kept _ hb _ := hb
  held b hb := hcontent b (.inr hb)
  settings := hsettings
  currentTime := hnow
  casId := .inl hcas

theorem Moves.refl (s : State) (A : Finset Addr) (P : Addr → Prop) : Moves Move.none P s s A A :=
  Moves.of_content A P rfl (fun _ _ => rfl) (fun _ _ => .inl rfl) rfl le_rfl rfl

theorem Proper.of_content
    (h : Proper s b) (huse : s'.settings.useCas = s.settings.useCas)
    (hcontent : (s'.mem b).content = (s.mem b).content) :
  Proper s' b
  where
  crlf := by
    rw [Item.eq_of_content Item.nbytes (fun _ => rfl) hcontent]
    exact h.crlf
  suffix := by
    rw [Item.eq_of_content Item.nbytes (fun _ => rfl) hcontent,
      Item.eq_of_content Item.suffix (fun _ => rfl) hcontent]
    exact h.suffix
  hasCas := by
    rw [Item.eq_of_content Item.hasCas (fun _ => rfl) hcontent, huse]
    exact h.hasCas

theorem StoreStep.moves
    {comm : Comm} {old : Option Entry} {new : Entry} {room : Bool}
    {r : State × StoreItemType × Option Nat}
    (h : StoreStep hash s refs A a (storeSpec comm old new room) r A' ls') :
  Moves { Move.none with stores := if r.2.1 = .stored then s.key a else none }
    (fun b => refs b ≠ 0 ∧ b ≠ a) s r.1 A A'
  := by
  have hspec := storeSpec_stored comm old new room
  rw [← h.answer] at hspec
  split
  · next hstored =>
    obtain ⟨e, he⟩ := Option.ne_none_iff_exists'.mp (hspec.mp hstored)
    obtain ⟨b, hb, hrenewed, -⟩ := h.stored e he
    exact h.effect.moves ⟨b, hb, hrenewed⟩
  · next hstored =>
    rw [hspec, not_not] at hstored
    exact (h.failed hstored).moves

theorem DeltaEffect.moves
    {r : State × DeltaReply} (h : DeltaEffect hash s refs A k r A' ls') :
  Moves { Move.none with stores := if r.2.result = .ok then k else none } (fun b => refs b ≠ 0) s r.1 A A'
  := by
  split
  · next hok =>
    obtain ⟨a, ha, hrenewed, -⟩ := h.ok hok
    exact h.effect.moves ⟨a, ha, hrenewed⟩
  · next hfail => exact (h.failed hfail).moves

/-! ### The invariant -/

/-- An item in use is not taken from a connection, and there are fewer than `65536` references to an
item, with the one that an operation takes itself. -/
def Script.Calm (hash : Key → BitVec 32) (s : State) (refs : Refs) (behind : Nat) : Script → Prop
  | alloc k flags _ nbytes _ => allocRepair hash s k flags nbytes = none
  | get k _ => ∀ a, assocFind hash s.key s.assoc k = some a → refs a + 1 < 2 ^ 16
  | store it comm _ =>
      (∀ a, assocFind hash s.key s.assoc (s.key it) = some a → refs a + 1 < 2 ^ 16) ∧
        storeRepair hash s it comm = none
  | addDelta k incr delta cas _ =>
      (∀ a, assocFind hash s.key s.assoc k = some a → refs a + 1 < 2 ^ 16) ∧
        deltaRepair hash behind s k incr delta cas = none
  | _ => True

/-- The references to the item under a key. -/
instance (hash : Key → BitVec 32) (s : State) (refs : Refs) (k : Key) :
    Decidable (∀ a, assocFind hash s.key s.assoc k = some a → refs a + 1 < 2 ^ 16) :=
  inferInstanceAs (Decidable (∀ a ∈ assocFind hash s.key s.assoc k, refs a + 1 < 2 ^ 16))

instance (hash : Key → BitVec 32) (s : State) (refs : Refs) (behind : Nat) :
    (p : Script) → Decidable (p.Calm hash s refs behind)
  | .alloc .. => inferInstanceAs (Decidable (_ = _))
  | .get k _ =>
      inferInstanceAs (Decidable (∀ a, assocFind hash s.key s.assoc k = some a → refs a + 1 < 2 ^ 16))
  | .store it _ _ =>
      inferInstanceAs (Decidable
        ((∀ a, assocFind hash s.key s.assoc (s.key it) = some a → refs a + 1 < 2 ^ 16) ∧ _ = _))
  | .addDelta k _ _ _ _ =>
      inferInstanceAs (Decidable
        ((∀ a, assocFind hash s.key s.assoc k = some a → refs a + 1 < 2 ^ 16) ∧ _ = _))
  | .done _ | .remove .. | .unlink .. | .update .. | .flushExpired _ | .stats _ | .write .. | .setCas ..
  | .read .. | .clock _ | .setOldestLive .. | .choose _ => isTrue trivial

/-- The item that a connection writes to, or stores. -/
def Script.touches : Script → Option Addr
  | store a _ _ => some a
  | write a _ _ _ _ => some a
  | setCas a _ _ => some a
  | _ => none

/-- What a step of a connection with the references `c.held` does. -/
structure Client.Advance (hash : Key → BitVec 32) (m : Move) (s : State) (refs : Refs) (A : Finset Addr)
    (c : Client) (r : State × Client) (refs' : Refs) (A' : Finset Addr) (ls' : Nat → List Addr) : Prop where
  lifecycle : Lifecycle hash r.1 refs' A' ls'
  moves : Moves m (fun b => refs b ≠ 0 ∧ refs' b ≠ 0 ∧ c.script.touches ≠ some b) s r.1 A A'
  safe : r.2.script.Safe r.2.held r.2.own
  own_le : r.2.own ≤ r.2.held
  own : ∀ b ∈ r.2.own, b ∉ A' ∧ refs' b = 1 ∧ Proper r.1 b
  other : ∀ b, refs b = 1 → b ∉ c.held → b ∉ A → refs' b = 1
  refs : ∀ a, refs' a + c.held.count a = refs a + r.2.held.count a

/-- What is known of a connection. -/
structure Client.Ready (s : State) (refs : Refs) (A : Finset Addr) (c : Client) : Prop where
  safe : c.script.Safe c.held c.own
  own_le : c.own ≤ c.held
  held : ∀ a, c.held.count a ≤ refs a
  own : ∀ a ∈ c.own, a ∉ A ∧ refs a = 1 ∧ Proper s a

variable {c : Client} {r : State × Client}

theorem Client.Ready.refs_ne_zero (h : c.Ready s refs A) (ha : a ∈ c.held) :
  refs a ≠ 0
  := by
  have hcount := h.held a
  have hpos := Multiset.one_le_count_iff_mem.mpr ha
  omega

/-- A connection has an item of its own once only. -/
theorem Client.Ready.not_mem_erase (h : c.Ready s refs A) (a : Addr) :
  a ∉ c.own.erase a
  := by
  intro ha
  have hone := (h.own a (Multiset.mem_of_mem_erase ha)).2.1
  have hpos := Multiset.one_le_count_iff_mem.mpr ha
  have hle := Multiset.le_iff_count.mp h.own_le a
  have hheld := h.held a
  rw [Multiset.count_erase_self] at hpos
  omega

/-- An item that a connection has allocated and not stored, when it is not the one that is written to
or stored. -/
theorem Client.Ready.own_moves
    (h : c.Ready s refs A)
    (hmoves : Moves m (fun b => refs b ≠ 0 ∧ refs' b ≠ 0 ∧ c.script.touches ≠ some b) s s' A A')
    (hb : b ∈ c.own) (hrefs : refs' b = 1) (htouch : c.script.touches ≠ some b) :
  b ∉ A' ∧ refs' b = 1 ∧ Proper s' b
  := by
  obtain ⟨hnot, hone, hproper⟩ := h.own b hb
  have hP : refs b ≠ 0 ∧ refs' b ≠ 0 ∧ c.script.touches ≠ some b := by
    refine ⟨?_, ?_, htouch⟩
    · omega
    · omega
  exact ⟨fun hmem => hnot (hmoves.kept b hmem hP), hrefs, hproper.of_content hmoves.useCas (hmoves.held b hP)⟩

/-- A step that takes no reference and releases none. -/
theorem Client.Advance.keep
    (h : c.Ready s refs A) (hlife : Lifecycle hash s' refs A' ls')
    (hmoves : Moves m (fun b => refs b ≠ 0 ∧ c.script.touches ≠ some b) s s' A A') {script : Script}
    (hsafe : script.Safe c.held c.own)
    (hown : ∀ b ∈ c.own, c.script.touches = some b → b ∉ A' ∧ Proper s' b) :
  Advance hash m s refs A c (s', { c with script := script }) refs A' ls'
  := by
  have hmoves' := hmoves.mono (Q := fun b => refs b ≠ 0 ∧ refs b ≠ 0 ∧ c.script.touches ≠ some b)
    fun b hb => hb.2
  refine ⟨hlife, hmoves', hsafe, h.own_le, ?_, fun b hb _ _ => hb, fun _ => rfl⟩
  intro b hb
  by_cases htouch : c.script.touches = some b
  · obtain ⟨hnot, hproper⟩ := hown b hb htouch
    exact ⟨hnot, (h.own b hb).2.1, hproper⟩
  · exact h.own_moves hmoves' hb (h.own b hb).2.1 htouch

/-- The same, for a connection that writes to no item of its own. -/
theorem Client.Advance.untouched
    (h : c.Ready s refs A) (hlife : Lifecycle hash s' refs A' ls')
    (hmoves : Moves m (fun b => refs b ≠ 0) s s' A A') (htouch : c.script.touches = none)
    {script : Script} (hsafe : script.Safe c.held c.own) :
  Advance hash m s refs A c (s', { c with script := script }) refs A' ls'
  := by
  apply keep h hlife (hmoves.mono fun b hb => hb.1) hsafe
  intro b _ hb
  rw [htouch] at hb
  cases hb

/-- A connection writes to an item of its own. -/
theorem Client.Advance.write
    (h : c.Ready s refs A) (hl : Lifecycle hash s refs A ls) (ha : a ∈ c.own)
    (htouch : c.script.touches = some a) {f : Item → Item}
    (hf : ∀ it : Item, it.Same (f it) ∧ (f it).nbytes = it.nbytes ∧ (f it).suffix = it.suffix ∧
      (f it).hasCas = it.hasCas)
    {script : Script} (hsafe : script.Safe c.held c.own) :
  Advance hash Move.none s refs A c (s.modify a f, { c with script := script }) refs A ls
  := by
  obtain ⟨hnot, -, hproper⟩ := h.own a ha
  have hlife := hl.modify a fun it => (hf it).1
  have hother : ∀ b, b ∈ A ∨ refs b ≠ 0 ∧ c.script.touches ≠ some b → (s.modify a f).mem b = s.mem b := by
    intro b hb
    apply State.mem_modify_of_ne
    rintro rfl
    obtain hb | hb := hb
    · exact hnot hb
    · exact hb.2 htouch
  have hmoves : Moves Move.none (fun b => refs b ≠ 0 ∧ c.script.touches ≠ some b) s (s.modify a f) A A := by
    have hsettings : (s.modify a f).settings = s.settings := rfl
    have htime : s.currentTime ≤ (s.modify a f).currentTime := le_rfl
    apply Moves.of_content A _ rfl _ _ hsettings htime rfl
    · intro b hb
      rw [hother b hb]
    · intro b hb
      left
      rw [hother b (.inl hb)]
  apply keep h hlife hmoves hsafe
  intro b _ hb
  rw [htouch] at hb
  obtain rfl := Option.some.inj hb
  refine ⟨hnot, ?_, ?_, ?_⟩
  · rw [State.mem_modify_self, (hf _).2.1]
    exact hproper.crlf
  · rw [State.mem_modify_self, (hf _).2.1, (hf _).2.2.1]
    exact hproper.suffix
  · rw [State.mem_modify_self, (hf _).2.2.2]
    exact hproper.hasCas

/-- A connection releases a reference. -/
theorem Client.Advance.remove
    (h : c.Ready s refs A) (hl : Lifecycle hash s refs A ls) {next : Script}
    (hscript : c.script = .remove a next) :
  Advance hash Move.none s refs A c (doItemRemoveDel s a, ⟨next, c.held.erase a, c.own.erase a⟩)
    (Function.update refs a (refs a - 1)) A ls
  := by
  have hsafe := h.safe
  rw [hscript] at hsafe
  have hrefs := h.refs_ne_zero hsafe.1
  have htouch : ∀ b, c.script.touches ≠ some b := by
    rw [hscript]
    rintro b ⟨⟩
  have hmoves : Moves Move.none (fun b => refs b ≠ 0 ∧ Function.update refs a (refs a - 1) b ≠ 0 ∧
      c.script.touches ≠ some b) s (doItemRemoveDel s a) A A := by
    apply Leaves.moves
    apply hl.leaves_doItemRemoveDel (s.key a)
    rintro ⟨-, hleft, -⟩
    rw [Function.update_self] at hleft
    right
    omega
  refine ⟨hl.doItemRemoveDel hrefs, hmoves, hsafe.2, Multiset.erase_le_erase a h.own_le, ?_, ?_, ?_⟩
  · intro b hb
    have hba : b ≠ a := by
      rintro rfl
      exact h.not_mem_erase b hb
    have hmem := Multiset.mem_of_mem_erase hb
    apply h.own_moves hmoves hmem _ (htouch b)
    rw [Function.update_of_ne hba]
    exact (h.own b hmem).2.1
  · intro b hone hb _
    rw [Function.update_of_ne]
    · exact hone
    · rintro rfl
      exact hb hsafe.1
  · intro b
    by_cases hba : b = a
    · subst hba
      have hpos := Multiset.one_le_count_iff_mem.mpr hsafe.1
      rw [Function.update_self, Multiset.count_erase_self]
      omega
    · rw [Function.update_of_ne hba, Multiset.count_erase_of_ne hba]

/-- A connection takes a reference to a linked item, or to a new one, which is its own. -/
theorem Client.Advance.take
    (h : c.Ready s refs A) (hl : Lifecycle hash s' (refs.take (some a)) A' ls')
    (hmoves : Moves m (fun b => refs b ≠ 0) s s' A A') (htouch : c.script.touches = none)
    (ha : a ∈ A ∨ refs a = 0) {script : Script} {own : Multiset Addr}
    (hown : own = c.own ∨ own = a ::ₘ c.own ∧ a ∉ A' ∧ refs a = 0 ∧ Proper s' a)
    (hsafe : script.Safe (a ::ₘ c.held) own) :
  Advance hash m s refs A c (s', ⟨script, a ::ₘ c.held, own⟩) (refs.take (some a)) A' ls'
  := by
  have hmoves' := hmoves.mono
    (Q := fun b => refs b ≠ 0 ∧ refs.take (some a) b ≠ 0 ∧ c.script.touches ≠ some b) fun b hb => hb.1
  have hold : ∀ b ∈ c.own, b ∉ A' ∧ refs.take (some a) b = 1 ∧ Proper s' b := by
    intro b hb
    obtain ⟨hnot, hone, -⟩ := h.own b hb
    apply h.own_moves hmoves' hb
    · rw [Refs.take_of_ne]
      · exact hone
      · rintro rfl
        obtain ha | ha := ha
        · exact hnot ha
        · omega
    · rw [htouch]
      rintro ⟨⟩
  refine ⟨hl, hmoves', hsafe, ?_, ?_, ?_, ?_⟩
  · obtain rfl | ⟨rfl, -⟩ := hown
    · exact h.own_le.trans (Multiset.le_cons_self c.held a)
    · exact (Multiset.cons_le_cons_iff a).mpr h.own_le
  · intro b hb
    obtain rfl | ⟨rfl, hnot, hzero, hproper⟩ := hown
    · exact hold b hb
    · obtain rfl | hb := Multiset.mem_cons.mp hb
      · refine ⟨hnot, ?_, hproper⟩
        rw [Refs.take_self, hzero]
      · exact hold b hb
  · intro b hone _ hb
    rw [Refs.take_of_ne]
    · exact hone
    · rintro rfl
      obtain ha | ha := ha
      · exact hb ha
      · omega
  · intro b
    by_cases hba : b = a
    · subst hba
      rw [Refs.take_self, Multiset.count_cons_self]
      omega
    · rw [Refs.take_of_ne refs hba, Multiset.count_cons_of_ne hba]

/-- A connection hands an item of its own to `store_item`. -/
theorem Client.Advance.store
    (h : c.Ready s refs A) {comm : Comm} {next : StoreItemType → Script}
    (hscript : c.script = .store a comm next) (hl : Lifecycle hash s' refs A' ls')
    (hmoves : Moves m (fun b => refs b ≠ 0 ∧ b ≠ a) s s' A A') (r : StoreItemType) :
  Advance hash m s refs A c (s', { c with script := next r, own := c.own.erase a }) refs A' ls'
  := by
  have hsafe := h.safe
  rw [hscript] at hsafe
  have htouch : c.script.touches = some a := by
    rw [hscript]
    rfl
  have hmoves' := hmoves.mono (Q := fun b => refs b ≠ 0 ∧ refs b ≠ 0 ∧ c.script.touches ≠ some b) (by
    rintro b ⟨hrefs, -, hb⟩
    rw [htouch] at hb
    refine ⟨hrefs, ?_⟩
    rintro rfl
    exact hb rfl)
  refine ⟨hl, hmoves', hsafe.2 r, (Multiset.erase_le a c.own).trans h.own_le, ?_, fun b hone _ _ => hone,
    fun _ => rfl⟩
  intro b hb
  have hba : b ≠ a := by
    rintro rfl
    exact h.not_mem_erase b hb
  have hmem := Multiset.mem_of_mem_erase hb
  apply h.own_moves hmoves' hmem (h.own b hmem).2.1
  rw [htouch]
  intro heq
  exact hba (Option.some.inj heq).symm

theorem Item.write_same (off : Nat) (data : Nat → UInt8) (n : Nat) (it : Item) :
  it.Same { it with data := memcpy it.data off data n } ∧
    ({ it with data := memcpy it.data off data n } : Item).nbytes = it.nbytes ∧
    ({ it with data := memcpy it.data off data n } : Item).suffix = it.suffix ∧
    ({ it with data := memcpy it.data off data n } : Item).hasCas = it.hasCas
  := ⟨⟨rfl, rfl, rfl, rfl, rfl, rfl, rfl⟩, rfl, rfl, rfl⟩

theorem Item.setCas_same (v : Nat) (it : Item) :
  it.Same (it.setCas v) ∧ (it.setCas v).nbytes = it.nbytes ∧ (it.setCas v).suffix = it.suffix ∧
    (it.setCas v).hasCas = it.hasCas
  := by
  refine ⟨it.same_setCas v, ?_⟩
  rw [Item.setCas]
  split <;> exact ⟨rfl, rfl, rfl⟩

/-- A new item is proper. -/
theorem Created.proper
    {flags : Int} {exptime nbytes : Nat} {r : State × Option Addr}
    (h : Created hash s refs A k flags exptime nbytes r A' ls') (ha : r.2 = some a) (hlen : 2 ≤ nbytes)
    (hflags : -2 ^ 31 ≤ flags ∧ flags < 2 ^ 31) :
  Proper r.1 a
  := by
  obtain ⟨-, hsuffix, -, hnbytes, hcas⟩ := h.item a ha
  refine ⟨?_, ⟨flags, hflags.1, hflags.2, ?_⟩, ?_⟩
  · rw [hnbytes]
    exact hlen
  · rw [hsuffix, hnbytes]
  · rw [hcas, h.drops.settings]

/-- A connection that asks for a key. -/
theorem Client.advance_get
    (h : c.Ready s refs A) (hl : Lifecycle hash s refs A ls) {next : Option Addr → Script}
    (hscript : c.script = .get k next)
    (hcalm : ∀ a, assocFind hash s.key s.assoc k = some a → refs a + 1 < 2 ^ 16) :
  ∃ refs' A' ls', Advance hash Move.none s refs A c
    ((doItemGetDel hash s k).1, c.take (doItemGetDel hash s k).2 next) refs' A' ls'
  := by
  have hsafe := h.safe
  rw [hscript] at hsafe
  have htouch : c.script.touches = none := by
    rw [hscript]
    rfl
  obtain ⟨-, hret, A', ls', hl', hdrops, -⟩ | ⟨a, ha, hkey, -, hget⟩ := hl.doItemGetDel_cases k
  · use refs, A', ls'
    rw [hret]
    exact .untouched h hl' (hdrops.leaves k fun b hb => hb).moves htouch hsafe.1
  · have hlt := hcalm a ((assocFind_eq_some_iff hl.table).mpr ⟨ha, hkey⟩)
    use refs.take (some a), A, ls
    rw [hget, Nat.mod_eq_of_lt hlt]
    apply Advance.take h (hl.setRefcount (hl.used_linked a ha) (refs a + 1)) _ htouch (.inl ha)
      (.inl rfl) (hsafe.2 a)
    exact (leaves_setRefcount k (fun b => refs b ≠ 0) s A a (refs a + 1)).moves

/-- A connection that asks for a new item. -/
theorem Client.advance_alloc
    (h : c.Ready s refs A) (hl : Lifecycle hash s refs A ls) {flags : Int} {exptime nbytes : Nat}
    {next : Option Addr → Script} (hscript : c.script = .alloc k flags exptime nbytes next)
    (hcalm : allocRepair hash s k flags nbytes = none) :
  ∃ refs' A' ls', Advance hash Move.none s refs A c
    ((doItemAllocDel hash s k flags exptime nbytes).1,
      { c.take (doItemAllocDel hash s k flags exptime nbytes).2 next with
        own := (doItemAllocDel hash s k flags exptime nbytes).2.elim c.own fun a => a ::ₘ c.own })
    refs' A' ls'
  := by
  have hsafe := h.safe
  rw [hscript] at hsafe
  obtain ⟨hlen, hflags, hnone, hsome⟩ := hsafe
  have htouch : c.script.touches = none := by
    rw [hscript]
    rfl
  obtain ⟨A', ls', hcreated⟩ := hl.doItemAllocDel k flags exptime nbytes
  rw [hcalm] at hcreated
  have hleaves := hcreated.drops.leaves (P := fun b => refs b ≠ 0) k fun b hb => hb
  have hlife := hcreated.lifecycle
  rcases hret : (doItemAllocDel hash s k flags exptime nbytes).2 with _ | a
  · rw [hret] at hlife
    exact ⟨refs, A', ls', .untouched h hlife hleaves.moves htouch hnone⟩
  · rw [hret] at hlife
    have hzero := hcreated.refs a hret
    use refs.take (some a), A', ls'
    apply Advance.take h hlife hleaves.moves htouch (.inr hzero) (.inr ⟨rfl, ?_⟩) (hsome a)
    exact ⟨hcreated.notMem a hret, hzero, hcreated.proper hret hlen hflags⟩

/-- A step of a connection. -/
theorem Client.advance
    (h : c.Ready s refs A) (hl : Lifecycle hash s refs A ls) (hproper : ∀ a ∈ A, Proper s a)
    (choice : Bool) {behind : Nat} (hcalm : c.script.Calm hash s refs behind) :
  ∃ refs' A' ls', Advance hash (c.move hash s behind) s refs A c (c.step hash s choice behind) refs' A' ls'
  := by
  have hsafe := h.safe
  have hdrops : ∀ {s' A' ls'}, Lifecycle hash s' refs A' ls' → Drops s s' refs A A' →
      c.script.touches = none → ∀ {script : Script}, script.Safe c.held c.own →
      ∃ refs' A' ls', Advance hash Move.none s refs A c (s', { c with script := script }) refs' A' ls' := by
    intro s' A' ls' hl' hdrops htouch script hscript
    exact ⟨refs, A', ls', .untouched h hl' (hdrops.leaves [] fun b hb => hb).moves htouch hscript⟩
  cases hscript : c.script with
  | done answer =>
      rw [hscript] at hsafe
      simp only [Client.step, Client.move, hscript]
      rw [← hscript] at hsafe
      exact hdrops hl (Drops.refl s refs A) (by rw [hscript]; rfl) hsafe
  | alloc k flags exptime nbytes next =>
      rw [hscript] at hcalm
      simp only [Client.step, Client.move, hscript]
      exact advance_alloc h hl hscript hcalm
  | get k next =>
      rw [hscript] at hcalm
      simp only [Client.step, Client.move, hscript]
      exact advance_get h hl hscript hcalm
  | remove a next =>
      simp only [Client.step, Client.move, hscript]
      exact ⟨_, A, ls, .remove h hl hscript⟩
  | unlink a next =>
      rw [hscript] at hsafe
      simp only [Client.step, Client.move, hscript]
      exact hdrops (hl.doItemUnlinkDel a) (hl.drops_doItemUnlinkDel a) (by rw [hscript]; rfl) hsafe.2
  | update a next =>
      rw [hscript] at hsafe
      simp only [Client.step, Client.move, hscript]
      obtain ⟨ls', hl'⟩ := hl.doItemUpdate a
      obtain ⟨hsettings, htime, hcas⟩ := doItemUpdate_frame s a
      use refs, A, ls'
      apply Advance.keep h hl' _ hsafe.2
      · intro b _ hb
        rw [hscript] at hb
        cases hb
      · apply Moves.of_content A _ rfl (fun b _ => doItemUpdate_content s a b)
        · intro b _
          by_cases hba : b = a
          · right
            rw [hba]
          · left
            rw [doItemUpdate_of_ne s hba]
        · exact hsettings
        · exact htime.ge
        · exact hcas
  | store a comm next =>
      rw [hscript] at hsafe hcalm
      obtain ⟨hnot, hone, hown⟩ := h.own a hsafe.1
      simp only [Client.step, Client.move, hscript]
      obtain ⟨A', ls', hstep⟩ := hl.doStoreItemDel hnot (by omega) hown hproper comm (by
        intro b hfind _
        rw [hcalm.2]
        exact ⟨hcalm.1 b hfind, by rintro ⟨⟩⟩)
      rw [hcalm.2] at hstep
      exact ⟨refs, A', ls', .store h hscript hstep.lifecycle hstep.moves _⟩
  | addDelta k incr delta cas next =>
      rw [hscript] at hsafe hcalm
      simp only [Client.step, Client.move, hscript]
      obtain ⟨A', ls', heffect⟩ := hl.effect_doAddDeltaDel hproper behind k incr delta cas hcalm.1 hcalm.2
      exact ⟨refs, A', ls', .untouched h heffect.lifecycle heffect.moves (by rw [hscript]; rfl) (hsafe _)⟩
  | flushExpired next =>
      rw [hscript] at hsafe
      simp only [Client.step, Client.move, hscript]
      obtain ⟨A', ls', hl', hdrops'⟩ := hl.doItemFlushExpiredDel
      exact hdrops hl' hdrops' (by rw [hscript]; rfl) hsafe
  | stats next =>
      rw [hscript] at hsafe
      simp only [Client.step, Client.move, hscript]
      obtain ⟨A', ls', hl', hdrops'⟩ := hl.doItemStatsDel
      exact hdrops hl' hdrops' (by rw [hscript]; rfl) hsafe
  | write a off data n next =>
      rw [hscript] at hsafe
      simp only [Client.step, Client.move, hscript]
      exact ⟨refs, A, ls, .write h hl hsafe.1 (by rw [hscript]; rfl) (Item.write_same off data n) hsafe.2⟩
  | setCas a v next =>
      rw [hscript] at hsafe
      simp only [Client.step, Client.move, hscript]
      exact ⟨refs, A, ls, .write h hl hsafe.1 (by rw [hscript]; rfl) (Item.setCas_same v) hsafe.2⟩
  | read a next =>
      rw [hscript] at hsafe
      simp only [Client.step, Client.move, hscript]
      exact hdrops hl (Drops.refl s refs A) (by rw [hscript]; rfl) (hsafe.2 _)
  | clock next =>
      rw [hscript] at hsafe
      simp only [Client.step, Client.move, hscript]
      exact hdrops hl (Drops.refl s refs A) (by rw [hscript]; rfl) (hsafe _)
  | setOldestLive v next =>
      rw [hscript] at hsafe
      simp only [Client.step, Client.move, hscript]
      use refs, A, ls
      have hnext : next.Safe c.held c.own := hsafe
      apply Advance.keep h (hl.setOldestLive v) _ hnext
      · intro b _ hb
        rw [hscript] at hb
        cases hb
      · exact Moves.of_content A _ rfl (fun b _ => rfl) (fun b _ => .inl rfl) rfl le_rfl rfl
  | choose next =>
      rw [hscript] at hsafe
      simp only [Client.step, Client.move, hscript]
      exact hdrops hl (Drops.refl s refs A) (by rw [hscript]; rfl) (hsafe _)

/-! ### The server -/

section

variable {ι : Type} [Fintype ι]

/-- What holds between any two steps. -/
structure Server.Inv (hash : Key → BitVec 32) (v : Server ι) (A : Finset Addr) (ls : Nat → List Addr) :
    Prop where
  lifecycle : Lifecycle hash v.state v.refs A ls
  proper : ∀ a ∈ A, Proper v.state a
  safe : ∀ c, (v.clients c).script.Safe (v.clients c).held (v.clients c).own
  own_le : ∀ c, (v.clients c).own ≤ (v.clients c).held
  own : ∀ c, ∀ a ∈ (v.clients c).own, a ∉ A ∧ v.refs a = 1 ∧ Proper v.state a

/-- A connection refers to an item that it has not allocated, or that it has stored. -/
def Server.Reads (v : Server ι) (c : ι) (a : Addr) : Prop :=
  a ∈ (v.clients c).held ∧ a ∉ (v.clients c).own

instance (v : Server ι) (c : ι) (a : Addr) : Decidable (v.Reads c a) :=
  inferInstanceAs (Decidable (_ ∧ _))

/-- An event takes no item in use from a connection, and there are fewer than `65536` references to
an item. -/
def Server.Calm (hash : Key → BitVec 32) (v : Server ι) : Event ι → Prop
  | .step c _ behind => (v.clients c).script.Calm hash v.state v.refs behind
  | _ => True

instance (hash : Key → BitVec 32) (v : Server ι) : (e : Event ι) → Decidable (v.Calm hash e)
  | .step c _ behind =>
      inferInstanceAs (Decidable ((v.clients c).script.Calm hash v.state v.refs behind))
  | .start .. | .tick _ => isTrue trivial

def Server.move (hash : Key → BitVec 32) (v : Server ι) : Event ι → Move
  | .step c _ behind => (v.clients c).move hash v.state behind
  | _ => Move.none

variable {v : Server ι} {x d : ι}

theorem count_le_refs (v : Server ι) (x : ι) (a : Addr) :
  (v.clients x).held.count a ≤ v.refs a
  := Finset.single_le_sum (f := fun c => (v.clients c).held.count a) (fun _ _ => Nat.zero_le _)
    (Finset.mem_univ x)

theorem refs_ne_zero (h : a ∈ (v.clients x).held) :
  v.refs a ≠ 0
  := by
  have hpos := Multiset.one_le_count_iff_mem.mpr h
  have hle := count_le_refs v x a
  omega

theorem Server.Inv.ready (h : v.Inv hash A ls) (x : ι) :
  (v.clients x).Ready v.state v.refs A
  where
  safe := h.safe x
  own_le := h.own_le x
  held := count_le_refs v x
  own := h.own x

/-- The item that a connection writes to, or stores, is one of its own. -/
theorem Script.Safe.touches
    {p : Script} {held own : Multiset Addr} (h : p.Safe held own) (ha : p.touches = some a) :
  a ∈ own
  := by
  cases p <;> simp only [Script.touches, reduceCtorEq, Option.some.injEq] at ha
  all_goals
    subst ha
    exact h.1

theorem inv_init (hash : Key → BitVec 32) (ι : Type) [Fintype ι] (c : Config) :
  (Server.init ι c).Inv hash ∅ fun _ => []
  where
  lifecycle := by
    have hrefs : (Server.init ι c).refs = fun _ => 0 := by
      funext a
      apply Finset.sum_eq_zero
      intro i _
      exact Multiset.count_zero a
    rw [hrefs]
    exact lifecycle_init hash c
  proper a ha := by cases ha
  safe _ := trivial
  own_le _ := le_rfl
  own _ a ha := by cases ha

variable [DecidableEq ι]

/-- Two connections. -/
theorem count_add_count_le (v : Server ι) (hne : d ≠ x) (a : Addr) :
  (v.clients x).held.count a + (v.clients d).held.count a ≤ v.refs a
  := by
  rw [Server.refs, ← Finset.add_sum_erase Finset.univ _ (Finset.mem_univ x)]
  apply Nat.add_le_add_left
  exact Finset.single_le_sum (f := fun c => (v.clients c).held.count a) (fun _ _ => Nat.zero_le _)
    (Finset.mem_erase.mpr ⟨hne, Finset.mem_univ d⟩)

/-- An item to which there is one reference is not referred to by two connections. -/
theorem not_held_of_refs (hone : v.refs a = 1) (ha : a ∈ (v.clients d).held) (hne : d ≠ x) :
  a ∉ (v.clients x).held
  := by
  intro hx
  have hle := count_add_count_le v hne a
  have hpos := Multiset.one_le_count_iff_mem.mpr ha
  have hpos' := Multiset.one_le_count_iff_mem.mpr hx
  omega

/-- What a connection has of its own is not referred to by others. -/
theorem Server.Inv.not_own (h : v.Inv hash A ls) (hreads : v.Reads d a) (x : ι) :
  a ∉ (v.clients x).own
  := by
  intro hown
  by_cases hne : d = x
  · subst hne
    exact hreads.2 hown
  · have hmem := Multiset.mem_of_le (h.own_le x) hown
    exact not_held_of_refs (h.own x a hown).2.1 hmem (Ne.symm hne) hreads.1

/-- The references after a step of one connection. -/
theorem refs_update
    (v : Server ι) (s : State) (x : ι) (c : Client)
    (hrefs : ∀ a, refs' a + (v.clients x).held.count a = v.refs a + c.held.count a) :
  (⟨s, Function.update v.clients x c⟩ : Server ι).refs = refs'
  := by
  funext a
  have hsum := sum_update (fun _ (c : Client) => c.held.count a) v.clients x c
  have heq := hrefs a
  simp only [Server.refs] at heq ⊢
  omega

/-- A step of a connection keeps the invariant. -/
theorem Server.Inv.advance
    (h : v.Inv hash A ls) {r : State × Client}
    (hadv : (v.clients x).Advance hash m v.state v.refs A r refs' A' ls') :
  (⟨r.1, Function.update v.clients x r.2⟩ : Server ι).Inv hash A' ls'
  := by
  have hrefs := refs_update v r.1 x r.2 hadv.refs
  have hothers : ∀ d, d ≠ x → Function.update v.clients x r.2 d = v.clients d :=
    fun d hd => Function.update_of_ne hd _ _
  constructor
  · rw [hrefs]
    exact hadv.lifecycle
  · intro a ha
    obtain hremains | ⟨-, hrenewed⟩ := hadv.moves.linked a ha
    · exact (h.proper a hremains.mem).of_content hadv.moves.useCas hremains.content
    · exact hrenewed.proper
  · intro d
    by_cases hd : d = x
    · subst hd
      simp only [Function.update_self]
      exact hadv.safe
    · simp only [hothers d hd]
      exact h.safe d
  · intro d
    by_cases hd : d = x
    · subst hd
      simp only [Function.update_self]
      exact hadv.own_le
    · simp only [hothers d hd]
      exact h.own_le d
  · intro d a ha
    rw [hrefs]
    by_cases hd : d = x
    · subst hd
      simp only [Function.update_self] at ha
      exact hadv.own a ha
    · simp only [hothers d hd] at ha
      obtain ⟨hnot, hone, hproper⟩ := h.own d a ha
      have hheld := not_held_of_refs hone (Multiset.mem_of_le (h.own_le d) ha) hd
      have hone' := hadv.other a hone hheld hnot
      have hP : v.refs a ≠ 0 ∧ refs' a ≠ 0 ∧ (v.clients x).script.touches ≠ some a := by
        refine ⟨by omega, by omega, ?_⟩
        intro htouch
        exact hheld (Multiset.mem_of_le (h.own_le x) ((h.safe x).touches htouch))
      refine ⟨fun hmem => hnot (hadv.moves.kept a hmem hP), hone', ?_⟩
      exact hproper.of_content hadv.moves.useCas (hadv.moves.held a hP)

/-- The item that an event writes to, or stores. -/
def Server.touches (v : Server ι) : Event ι → Option Addr
  | .step c _ _ => (v.clients c).script.touches
  | _ => none

variable (started : Int)

/-- There are references to the item before and after the event, which does not write to it. -/
def Server.Kept (hash : Key → BitVec 32) (v : Server ι) (e : Event ι) (a : Addr) : Prop :=
  v.refs a ≠ 0 ∧ (v.exec hash started e).refs a ≠ 0 ∧ v.touches e ≠ some a

theorem Server.Inv.step (h : v.Inv hash A ls) (e : Event ι) (hcalm : v.Calm hash e) :
  ∃ A' ls', (v.exec hash started e).Inv hash A' ls' ∧
    Moves (v.move hash e) (v.Kept started hash e) v.state (v.exec hash started e).state A A'
  := by
  cases e with
  | start c command =>
      refine ⟨A, ls, ?_, Moves.refl v.state A _⟩
      have hstart : ∀ d, ((v.exec hash started (.start c command)).clients d).held = (v.clients d).held ∧
          ((v.exec hash started (.start c command)).clients d).own = (v.clients d).own := by
        intro d
        simp only [Server.exec, Function.update_apply]
        split
        · next hd =>
          rw [hd, Client.start]
          split <;> exact ⟨rfl, rfl⟩
        · exact ⟨rfl, rfl⟩
      have hrefs : (v.exec hash started (.start c command)).refs = v.refs := by
        funext a
        simp only [Server.refs, (hstart _).1]
      constructor
      · rw [hrefs]
        exact h.lifecycle
      · exact h.proper
      · intro d
        rw [(hstart d).1, (hstart d).2]
        simp only [Server.exec, Function.update_apply]
        split
        · next hd =>
          rw [hd, Client.start]
          split
          · exact (command.safe started).mono (Multiset.zero_le _) (Multiset.zero_le _)
          · exact h.safe c
        · exact h.safe d
      · intro d
        rw [(hstart d).1, (hstart d).2]
        exact h.own_le d
      · intro d a ha
        rw [(hstart d).2] at ha
        rw [hrefs]
        exact h.own d a ha
  | step c choice behind =>
      obtain ⟨refs', A', ls', hadv⟩ := Client.advance (h.ready c) h.lifecycle h.proper choice hcalm
      refine ⟨A', ls', h.advance hadv, hadv.moves.mono ?_⟩
      rintro a ⟨hrefs, hrefs', htouch⟩
      rw [← refs_update v _ c _ hadv.refs]
      exact ⟨hrefs, hrefs', htouch⟩
  | tick seconds =>
      have hlater : v.state.currentTime ≤ v.state.currentTime + seconds := Nat.le_add_right _ _
      have hproper : ∀ {a}, Proper v.state a → Proper (v.exec hash started (.tick seconds)).state a :=
        fun ha => ha.of_content rfl rfl
      refine ⟨A, ls, ⟨h.lifecycle.tick hlater, fun a ha => hproper (h.proper a ha), h.safe, h.own_le, ?_⟩, ?_⟩
      · intro d a ha
        obtain ⟨hnot, hone, hown⟩ := h.own d a ha
        exact ⟨hnot, hone, hproper hown⟩
      exact Moves.of_content A _ rfl (fun b _ => rfl) (fun b _ => .inl rfl) rfl hlater rfl

/-- What a connection refers to before and after an event, and is not its own, is kept. -/
theorem Server.Inv.kept
    (h : v.Inv hash A ls) (e : Event ι) (hreads : v.Reads d a) (hreads' : (v.exec hash started e).Reads d a) :
  v.Kept started hash e a
  := by
  refine ⟨refs_ne_zero hreads.1, refs_ne_zero hreads'.1, ?_⟩
  cases e with
  | start c command => rintro ⟨⟩
  | tick seconds => rintro ⟨⟩
  | step c choice behind =>
      intro htouch
      exact h.not_own hreads c ((h.safe c).touches htouch)

/-- All events of a run are calm. -/
def Server.CalmRun (hash : Key → BitVec 32) (started : Int) (v : Server ι) (es : List (Event ι)) : Prop :=
  Always (Server.exec hash started) (Server.Calm hash) v es

instance (hash : Key → BitVec 32) (started : Int) (v : Server ι) (es : List (Event ι)) :
    Decidable (v.CalmRun hash started es) :=
  inferInstanceAs (Decidable (Always _ _ v es))

variable {started}

theorem Server.Inv.run {es : List (Event ι)} (h : v.Inv hash A ls) (hes : v.CalmRun hash started es) :
  ∃ A' ls', (v.run hash started es).Inv hash A' ls'
  := by
  apply hes.invariant (I := fun v => ∃ A' ls', v.Inv hash A' ls')
  · rintro v e ⟨A₁, ls₁, h₁⟩ hcalm
    obtain ⟨A₂, ls₂, h₂, -⟩ := h₁.step started e hcalm
    exact ⟨A₂, ls₂, h₂⟩
  · exact ⟨A, ls, h⟩

omit [Fintype ι] in
theorem Server.run_append (v : Server ι) (es es' : List (Event ι)) :
  v.run hash started (es ++ es') = (v.run hash started es).run hash started es'
  := List.foldl_append

theorem Server.calmRun_append {es es' : List (Event ι)} :
  v.CalmRun hash started (es ++ es') ↔
    v.CalmRun hash started es ∧ (v.run hash started es).CalmRun hash started es'
  := always_append

end

end Memcached
