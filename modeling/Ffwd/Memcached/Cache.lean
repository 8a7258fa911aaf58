import Ffwd.Lib.LossyMap
import Ffwd.Memcached.Deletes
import Ffwd.Memcached.LineEnds

/-!
# The server as a cache

The linked items are a map from keys to data from which entries may get lost, when they expire, are
flushed, or have to give way to others. Every step of a connection is an access to this map, and what a
connection finds under a key is what has been stored there last.
-/

namespace Memcached

open Linked Counting Runs LossyMap

/-- The data `new` is the data `old` with the number `buf`: either the number alone, or with blanks up to
the last two bytes. -/
structure Stored.Rewritten (old new : Stored) (buf : List UInt8) : Prop where
  value : new.value = buf ++ [13, 10] ∨ buf.length + 2 ≤ old.value.length ∧
    new.value = buf ++ List.replicate (old.value.length - buf.length - 2) 32 ++
      old.value.drop (old.value.length - 2)
  flags : new.flags = old.flags
  exptime : new.exptime = old.exptime

theorem drop_value {it : Item} (h : 2 ≤ it.nbytes) :
  it.value.drop (it.nbytes - 2) = [it.data (it.nbytes - 2), it.data (it.nbytes - 1)]
  := by
  obtain ⟨n, hn⟩ := Nat.exists_eq_add_of_le' h
  rw [Item.value, hn, List.range_add, List.map_append, Nat.add_sub_cancel]
  apply List.drop_left'
  rw [List.length_map, List.length_range]

theorem Rewritten.toStored {old new : Item} {buf : List UInt8} (h : Rewritten old new buf) (hlen : 2 ≤ old.nbytes) :
  old.toStored.Rewritten new.toStored buf
  where
  value := by
    refine h.value.imp_right ?_
    rintro ⟨hle, hvalue⟩
    refine ⟨?_, ?_⟩
    · simp only [Item.toStored, length_value]
      exact hle
    · simp only [Item.toStored, length_value, drop_value hlen]
      exact hvalue
  flags := h.flags
  exptime := h.exptime

/-! ### Steps -/

variable {ι : Type}

/-- What is stored under the keys. -/
def Server.contents (hash : Key → BitVec 32) (v : Server ι) (k : Key) : Option Stored :=
  (v.item hash k).map fun b => (v.state.mem b).toStored

/-- What an event does to the map: `item_get` looks up a key, `store_item` does what its command says, with
the item of the connection, an increment writes the number that the connection is told, and
`item_unlink` erases the key if the item has not been unlinked before. -/
def Server.Accesses (hash : Key → BitVec 32) (v : Server ι) (e : Event ι) (acc : Access Key Stored) : Prop :=
  match e with
  | .step c _ behind =>
      match (v.clients c).script with
      | .get k _ =>
          acc = match (doItemGetDel hash v.state k).2 with
            | some b => .found k (v.state.mem b).toStored
            | none => .missed k
      | .store a comm _ =>
          let spec := storeSpec comm (v.state.lookup hash (v.state.key a)) (v.state.mem a).entry
            (joinRoom hash v.state a)
          (doStoreItemDel hash v.state a comm).2.1 = spec.1 ∧
            acc = match spec.2 with
              | some x => .write (v.state.key a) x
              | none => .other
      | .addDelta k incr delta cas _ =>
          let reply := (doAddDeltaDel hash behind v.state k incr delta cas).2
          if reply.result = .ok then
            ∃ old new, v.contents hash k = some old ∧ old.Rewritten new reply.buf ∧ acc = .write k new
          else acc = .other
      | .unlink a _ => acc = if (v.state.mem a).linked then .erase (v.state.key a) else .other
      | _ => acc = .other
  | _ => acc = .other

variable [Fintype ι] {hash : Key → BitVec 32} {started : Int} {v w : Server ι}
  {A A' : Finset Addr} {ls ls' : Nat → List Addr} {m : Move} {P : Addr → Prop} {e : Event ι}
  {es : List (Event ι)} {b : Addr} {k : Key} {x : Stored}

theorem Server.Inv.contents_eq_some (h : v.Inv hash A ls) :
  v.contents hash k = some x ↔ ∃ b ∈ A, v.state.key b = k ∧ (v.state.mem b).toStored = x
  := by
  rw [Server.contents, Option.map_eq_some_iff]
  constructor
  · rintro ⟨b, hb, hx⟩
    obtain ⟨hmem, hk⟩ := h.item_eq_some.mp hb
    exact ⟨b, hmem, hk, hx⟩
  · rintro ⟨b, hmem, hk, hx⟩
    exact ⟨b, h.item_eq_some.mpr ⟨hmem, hk⟩, hx⟩

theorem Server.Inv.contents_eq_none (h : v.Inv hash A ls) :
  v.contents hash k = none ↔ ∀ b ∈ A, v.state.key b ≠ k
  := by
  rw [Server.contents, Option.map_eq_none_iff]
  exact h.item_eq_none

/-- What a step does not store is as it was, or it is lost. -/
theorem Moves.contents
    (hmoves : Moves m P v.state w.state A A') (h : v.Inv hash A ls) (h' : w.Inv hash A' ls')
    (hk : m.stores ≠ some k) :
  w.contents hash k = v.contents hash k ∨ w.contents hash k = none
  := by
  obtain habsent | ⟨b, hb, hkb⟩ := key_cases w.state A' k
  · exact .inr (h'.contents_eq_none.mpr habsent)
  · left
    obtain hremains | ⟨hstored, -⟩ := hmoves.linked b hb
    · have hkb' : v.state.key b = k := (Item.key_of_content hremains.content).symm.trans hkb
      rw [h'.contents_eq_some.mpr ⟨b, hb, hkb, rfl⟩]
      symm
      apply h.contents_eq_some.mpr
      exact ⟨b, hremains.mem, hkb', Item.eq_of_content Item.toStored (fun _ => rfl) hremains.content.symm⟩
    · rw [hkb] at hstored
      exact absurd hstored hk

theorem Moves.lost
    (hmoves : Moves m P v.state w.state A A') (h : v.Inv hash A ls) (h' : w.Inv hash A' ls')
    (hstores : m.stores = none) :
  Lost (v.contents hash) (w.contents hash)
  := by
  intro k
  apply hmoves.contents h h'
  rw [hstores]
  rintro ⟨⟩

variable [DecidableEq ι]

/-- The lookup of a key. -/
theorem Server.Inv.access_get
    {c : ι} {choice : Bool} {behind : Nat} {next : Option Addr → Script} (h : v.Inv hash A ls)
    (hcalm : v.Calm hash (.step c choice behind)) (hscript : (v.clients c).script = .get k next) :
  ∃ acc, v.Accesses hash (.step c choice behind) acc ∧
    acc.Allows (v.contents hash) ((v.exec hash started (.step c choice behind)).contents hash)
  := by
  obtain ⟨A', ls', h', hmoves⟩ := h.step started _ hcalm
  have hlost := hmoves.lost h h' (by simp only [Server.move, Client.move, hscript, Move.none])
  simp only [Server.Accesses, hscript]
  refine ⟨_, rfl, ?_⟩
  obtain ⟨-, hret, A₁, ls₁, hlife, hdrops, habsent⟩ | ⟨b, hb, hk, -, hsome⟩ :=
    h.lifecycle.doItemGetDel_cases k
  · rw [hret]
    refine ⟨?_, hlost⟩
    have hnone : assocFind hash (doItemGetDel hash v.state k).1.key (doItemGetDel hash v.state k).1.assoc k
        = none := by
      apply (assocFind_eq_none_iff hlife.table).mpr
      intro b hb
      rw [hdrops.key (.inl hb)]
      exact habsent b hb
    simp only [Server.contents, Server.item, Server.exec, Client.step, hscript, hnone, Option.map_none]
  · rw [hsome]
    exact ⟨h.contents_eq_some.mpr ⟨b, hb, hk, rfl⟩, hlost⟩

variable (started) in
/-- The execution of a storage command. -/
theorem Server.Inv.access_store
    {c : ι} {choice : Bool} {behind : Nat} {a : Addr} {comm : Comm} {next : StoreItemType → Script}
    (h : v.Inv hash A ls) (hcalm : v.Calm hash (.step c choice behind))
    (hscript : (v.clients c).script = .store a comm next) :
  ∃ acc, v.Accesses hash (.step c choice behind) acc ∧
    acc.Allows (v.contents hash) ((v.exec hash started (.step c choice behind)).contents hash)
  := by
  obtain ⟨A', ls', h', hmoves⟩ := h.step started _ hcalm
  have hsafe := h.safe c
  rw [hscript] at hsafe
  obtain ⟨hnot, hone, hproper⟩ := h.own c a hsafe.1
  simp only [Server.Calm, hscript] at hcalm
  obtain ⟨A₂, ls₂, hstep⟩ := h.lifecycle.doStoreItemDel hnot (by omega) hproper h.proper comm (by
    intro b hfind _
    rw [hcalm.2]
    exact ⟨hcalm.1 b hfind, by rintro ⟨⟩⟩)
  simp only [Server.Accesses, hscript]
  refine ⟨_, ⟨hstep.answer, rfl⟩, ?_⟩
  have hspec := storeSpec_stored comm (v.state.lookup hash (v.state.key a)) (v.state.mem a).entry
    (joinRoom hash v.state a)
  rw [← hstep.answer] at hspec
  rcases hx : (storeSpec comm (v.state.lookup hash (v.state.key a)) (v.state.mem a).entry
    (joinRoom hash v.state a)).2 with _ | x
  · apply hmoves.lost h h'
    rw [hx, ne_self_iff_false, iff_false] at hspec
    simp only [Server.move, Client.move, hscript, if_neg hspec]
  · obtain ⟨b, hb, hrenewed, hstored⟩ := hstep.stored x hx
    have hfind := (assocFind_eq_some_iff hstep.lifecycle.table).mpr ⟨hb, hrenewed.key⟩
    refine ⟨?_, ?_⟩
    · simp only [Server.contents, Server.item, Server.exec, Client.step, hscript, hfind, Option.map_some,
        hstored]
    · intro k hk
      apply hmoves.contents h h'
      simp only [Server.move, Client.move, hscript]
      split
      · exact fun hsame => hk (Option.some.inj hsame).symm
      · rintro ⟨⟩

/-- An increment. -/
theorem Server.Inv.access_addDelta
    {c : ι} {choice : Bool} {behind : Nat} {incr : Bool} {delta : BitVec 64} {cas : Option Nat}
    {next : DeltaReply → Script} (h : v.Inv hash A ls) (hcalm : v.Calm hash (.step c choice behind))
    (hscript : (v.clients c).script = .addDelta k incr delta cas next) :
  ∃ acc, v.Accesses hash (.step c choice behind) acc ∧
    acc.Allows (v.contents hash) ((v.exec hash started (.step c choice behind)).contents hash)
  := by
  obtain ⟨A', ls', h', hmoves⟩ := h.step started _ hcalm
  simp only [Server.Calm, hscript] at hcalm
  obtain ⟨A₂, ls₂, heffect⟩ := h.lifecycle.effect_doAddDeltaDel h.proper behind k incr delta cas hcalm.1
    hcalm.2
  simp only [Server.Accesses, hscript]
  split
  · next hok =>
    obtain ⟨b, hb, hrenewed, old, hold, hk, hrewritten⟩ := heffect.ok hok
    have hfind := (assocFind_eq_some_iff heffect.lifecycle.table).mpr ⟨hb, hrenewed.key⟩
    refine ⟨_, ⟨_, _, h.contents_eq_some.mpr ⟨old, hold, hk, rfl⟩,
      hrewritten.toStored (h.proper old hold).crlf, rfl⟩, ?_, ?_⟩
    · simp only [Server.contents, Server.item, Server.exec, Client.step, hscript, hfind, Option.map_some]
    · intro k' hk'
      apply hmoves.contents h h'
      simp only [Server.move, Client.move, hscript, if_pos hok]
      exact fun hsame => hk' (Option.some.inj hsame).symm
  · next hfail =>
    refine ⟨_, rfl, ?_⟩
    apply hmoves.lost h h'
    simp only [Server.move, Client.move, hscript, if_neg hfail]

/-- The removal of an item. -/
theorem Server.Inv.access_unlink
    {c : ι} {choice : Bool} {behind : Nat} {a : Addr} {next : Script}
    (h : v.Inv hash A ls) (hcalm : v.Calm hash (.step c choice behind))
    (hscript : (v.clients c).script = .unlink a next) :
  ∃ acc, v.Accesses hash (.step c choice behind) acc ∧
    acc.Allows (v.contents hash) ((v.exec hash started (.step c choice behind)).contents hash)
  := by
  obtain ⟨A', ls', h', hmoves⟩ := h.step started _ hcalm
  have hlost := hmoves.lost h h' (by simp only [Server.move, Client.move, hscript, Move.none])
  simp only [Server.Accesses, hscript]
  refine ⟨_, rfl, ?_⟩
  split
  · next hlinked =>
    have hremoves : v.Removes (v.state.key a) a (.step c choice behind) := ⟨next, hscript, rfl, hlinked⟩
    refine ⟨?_, hlost⟩
    rw [Server.contents, (h.item_removes started hremoves).2.1, Option.map_none]
  · exact hlost

/-- Every event is an access to the map. -/
theorem Server.Inv.access (h : v.Inv hash A ls) (started : Int) (hcalm : v.Calm hash e) :
  ∃ acc, v.Accesses hash e acc ∧ acc.Allows (v.contents hash) ((v.exec hash started e).contents hash)
  := by
  obtain ⟨A', ls', h', hmoves⟩ := h.step started _ hcalm
  have hother : v.Accesses hash e .other → (v.move hash e).stores = none →
      ∃ acc, v.Accesses hash e acc ∧
        acc.Allows (v.contents hash) ((v.exec hash started e).contents hash) :=
    fun hacc hstores => ⟨_, hacc, hmoves.lost h h' hstores⟩
  cases e with
  | start c command => exact hother rfl rfl
  | tick seconds => exact hother rfl rfl
  | step c choice behind =>
      cases hscript : (v.clients c).script with
      | get k next => exact h.access_get hcalm hscript
      | store a comm next => exact h.access_store started hcalm hscript
      | addDelta k incr delta cas next => exact h.access_addDelta hcalm hscript
      | unlink a next => exact h.access_unlink hcalm hscript
      | _ =>
          apply hother
          · simp only [Server.Accesses, hscript]
          · simp only [Server.move, Client.move, hscript, Move.none]

omit [Fintype ι] [DecidableEq ι] in
/-- An event that modifies a key is an access that does. -/
theorem Server.Accesses.modifies {acc : Access Key Stored} (hacc : v.Accesses hash e acc)
    (hmodifies : v.Modifies hash k e) :
  acc.Modifies k
  := by
  cases e with
  | start c command =>
      obtain hstores | ⟨a, hremoves⟩ := hmodifies
      · cases hstores
      · exact hremoves.elim
  | tick seconds =>
      obtain hstores | ⟨a, hremoves⟩ := hmodifies
      · cases hstores
      · exact hremoves.elim
  | step c choice behind =>
      obtain hstores | ⟨a, next, hscript, hk, hlinked⟩ := hmodifies
      · simp only [Server.move] at hstores
        cases hscript : (v.clients c).script with
        | store a comm next =>
            simp only [Client.move, hscript] at hstores
            simp only [Server.Accesses, hscript] at hacc
            obtain ⟨hanswer, rfl⟩ := hacc
            split at hstores
            · next hstored =>
              rw [hanswer, storeSpec_stored] at hstored
              obtain ⟨x, hx⟩ := Option.ne_none_iff_exists'.mp hstored
              rw [hx]
              exact Option.some.inj hstores
            · cases hstores
        | addDelta k' incr delta cas next =>
            simp only [Client.move, hscript] at hstores
            simp only [Server.Accesses, hscript] at hacc
            split at hstores
            · next hok =>
              rw [if_pos hok] at hacc
              obtain ⟨old, new, -, -, rfl⟩ := hacc
              exact Option.some.inj hstores
            · cases hstores
        | _ =>
            simp only [Client.move, hscript, Move.none] at hstores
            cases hstores
      · simp only [Server.Accesses, hscript, if_pos hlinked] at hacc
        rw [hacc]
        exact hk

/-! ### Runs -/

/-- The server is a cache: every step is an access to the map of what is stored, and what a connection finds
under a key has been stored there, and nothing has modified the key since. -/
structure Server.Caches (hash : Key → BitVec 32) (started : Int) (v : Server ι) (es : List (Event ι)) :
    Prop where
  refines : Refines (Server.exec hash started) (Server.contents hash) (Server.Accesses hash) v es
  finds : ∀ before e after k b, es = before ++ e :: after → (v.run hash started before).Gets hash k b e →
    ∃ p d q, before = p ++ d :: q ∧
      (v.run hash started p).Accesses hash d
        (.write k ((v.run hash started before).state.mem b).toStored) ∧
      ∀ p' d' q', q = p' ++ d' :: q' → ¬(v.run hash started (p ++ d :: p')).Modifies hash k d'

theorem Server.Inv.refines (h : v.Inv hash A ls) (hes : v.CalmRun hash started es) :
  Refines (Server.exec hash started) (Server.contents hash) (Server.Accesses hash) v es
  := by
  induction es generalizing v A ls with
  | nil => trivial
  | cons e es ih =>
      obtain ⟨A', ls', h', -⟩ := h.step started e hes.1
      exact ⟨h.access started hes.1, ih h' hes.2⟩

omit [Fintype ι] in
theorem not_modifies_of_untouched (h : Untouched (Server.exec hash started) (Server.Accesses hash) k v es)
    {p q : List (Event ι)} {d : Event ι} (hes : es = p ++ d :: q) :
  ¬(v.run hash started p).Modifies hash k d
  := by
  subst hes
  obtain ⟨-, ⟨acc, hacc, hnot⟩, -⟩ := Always.at_step h
  exact fun hmodifies => hnot (hacc.modifies hmodifies)

/-- The server is a cache in every run in which the references are counted, whatever the connections do and
in whichever order. -/
theorem server_caches
    (hash : Key → BitVec 32) (started : Int) (ι : Type) [Fintype ι] [DecidableEq ι] (config : Config)
    (es : List (Event ι)) (hcalm : (Server.init ι config).CalmRun hash started es) :
  (Server.init ι config).Caches hash started es
  where
  refines := (inv_init hash ι config).refines hcalm
  finds := by
    rintro before e after k b rfl hget
    obtain ⟨hbefore, -⟩ := Server.calmRun_append.mp hcalm
    obtain ⟨A, ls, h⟩ := (inv_init hash ι config).run hbefore
    obtain ⟨hb, hk, -⟩ := h.gets hget
    have hempty : (Server.init ι config).contents hash k = none := by
      rw [(inv_init hash ι config).contents_eq_none]
      rintro a ⟨⟩
    obtain ⟨-, hstart⟩ | ⟨p, d, q, rfl, hwrite, huntouched⟩ :=
      ((inv_init hash ι config).refines hbefore).origin (h.contents_eq_some.mpr ⟨b, hb, hk, rfl⟩)
    · rw [hempty] at hstart
      cases hstart
    · refine ⟨p, d, q, rfl, hwrite, ?_⟩
      rintro p' d' q' rfl
      rw [Server.run_append]
      exact not_modifies_of_untouched huntouched rfl

/-- A number is stored, another connection increments it, a third one appends to it, and the first one asks
for it. -/
def cacheRun : List (Event Bool) :=
  lineRun ++ Event.execute false (.get [[1]]) 6

theorem server_caches_cacheRun :
  (((Server.init Bool (smallConfig 0)).run (fun _ => 0) 0 cacheRun).state.mem 264).value
      = [49, 50, 54, 13, 10] ∧
    (Server.init Bool (smallConfig 0)).Caches (fun _ => 0) 0 cacheRun
  := by
  have hcalm : (Server.init Bool (smallConfig 0)).CalmRun (fun _ => 0) 0 cacheRun := by
    decide +kernel
  exact ⟨by decide +kernel, server_caches _ _ _ _ _ hcalm⟩

end Memcached
