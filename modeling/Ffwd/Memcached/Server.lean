import Ffwd.Lib.Counting
import Ffwd.Memcached.DeltaEffects

/-!
# The server and its clients

A command is a sequence of operations that the server executes, one at a time, and of what the
connection does itself in the memory of an item that it refers to. Between any two steps of a
command come steps of the others. `held` and `own` are not in the memory of the program: they are
the references that a connection has taken and not released, and the items among them that it has
allocated and not yet handed to `store_item`.
-/

namespace Memcached

open Linked

/-! ### Commands -/

/-- What a client is told. -/
inductive Answer where
  | ok
  | deleted
  | notFound
  | exists_
  | error
  | stored (r : StoreItemType)
  | delta (r : DeltaReply)
  | values (items : List Item)

/-- What is left of a command. `read` and `write` are accesses of the connection to an item it
refers to, and `choose` is decided outside of the program: by the network, or by `malloc`. -/
inductive Script where
  | done (answer : Answer)
  | alloc (k : Key) (flags : Int) (exptime nbytes : Nat) (next : Option Addr → Script)
  | get (k : Key) (next : Option Addr → Script)
  | remove (a : Addr) (next : Script)
  | unlink (a : Addr) (next : Script)
  | update (a : Addr) (next : Script)
  | store (a : Addr) (comm : Comm) (next : StoreItemType → Script)
  | addDelta (k : Key) (incr : Bool) (delta : BitVec 64) (cas : Option Nat) (next : DeltaReply → Script)
  | flushExpired (next : Script)
  | stats (next : Script)
  | write (a : Addr) (off : Nat) (data : Nat → UInt8) (n : Nat) (next : Script)
  | setCas (a : Addr) (v : Nat) (next : Script)
  | read (a : Addr) (next : Item → Script)
  | clock (next : Nat → Script)
  | setOldestLive (v : Nat) (next : Script)
  | choose (next : Bool → Script)

def realtimeMaxdelta : Int := 60 * 60 * 24 * 30

/-- `realtime`, for a server started at `started`. Times are 32-bit unsigned numbers. -/
def realtime (started : Int) (now : Nat) (exptime : Int) : Nat :=
  if exptime = 0 then 0
  else if realtimeMaxdelta < exptime then
    if exptime ≤ started then 1 else ((exptime - started) % 2 ^ 32).toNat
  else ((exptime + now) % 2 ^ 32).toNat

/-- The last two bytes of an item are `\r\n`. -/
def Item.endsInCrlf (it : Item) : Bool :=
  it.data (it.nbytes - 2) = 13 ∧ it.data (it.nbytes - 1) = 10

def crlf (i : Nat) : UInt8 := if i = 0 then 13 else 10

/-- The references that are left are released. -/
def releaseItems : List Addr → Script → Script
  | [], next => next
  | a :: rest, next => .remove a (releaseItems rest next)

/-- A response is sent, and then the items it comes from are released. -/
def sendItems (all : List Addr) : List Addr → List Item → Script
  | [], seen => releaseItems all (.done (.values seen))
  | a :: rest, seen => .read a fun it => sendItems all rest (seen ++ [it])

/-- `process_get_command`, which asks for `keys` in turn. If there is no memory for a part of the
response the item is released, and either the command goes on or it ends. When it ends with an error
the other items may be left in the list of the connection, which nobody releases then. -/
def getScript : List Key → List Addr → Script
  | [], kept =>
      .choose fun sent =>
        if sent then sendItems kept kept []
        else .choose fun listed => if listed then releaseItems kept (.done .error) else .done .error
  | k :: keys, kept =>
      .get k fun
        | none => getScript keys kept
        | some a =>
            .choose fun memory =>
              if memory then .update a (getScript keys (kept ++ [a]))
              else
                .remove a
                  (.choose fun again => if again then getScript keys kept else .done .error)

/-- `process_bin_get`. -/
def binGetScript (k : Key) : Script :=
  .get k fun
    | none => .done .notFound
    | some a => sendItems [a] [a] []

/-- What `process_update_command` and `process_bin_update` do when there is no memory. -/
def allocFailed (k : Key) (comm : Comm) : Script :=
  if comm = .set then
    .get k fun
      | none => .done .error
      | some a => .unlink a (.remove a (.done .error))
  else .done .error

/-- The item is stored, and the reference to it is released. -/
def storeAndRemove (a : Addr) (comm : Comm) : Script :=
  .store a comm fun r => .remove a (.done (.stored r))

/-- `process_update_command` and, when the data has arrived, `complete_nread_ascii`. -/
def updateScript (started : Int) (k : Key) (flags : BitVec 32) (exptime : Int) (vlen cas : Nat)
    (comm : Comm) (data : Nat → UInt8) : Script :=
  .clock fun now =>
    .alloc k flags.toInt (realtime started now exptime) (vlen + 2) fun
      | none => allocFailed k comm
      | some a =>
          .setCas a cas
            (.choose fun arrived =>
              if arrived then
                .write a 0 data (vlen + 2)
                  (.read a fun it =>
                    if it.endsInCrlf then storeAndRemove a comm else .remove a (.done .error))
              else .remove a (.done .error))

/-- `complete_update_bin`, when the data has arrived. -/
def completeUpdateBin (a : Addr) (vlen : Nat) (comm : Comm) (data : Nat → UInt8) : Script :=
  .choose fun arrived =>
    if arrived then .write a 0 data vlen (.write a vlen crlf 2 (storeAndRemove a comm))
    else .remove a (.done .error)

/-- `process_bin_update` and `complete_update_bin`. A request with a CAS id is a `cas`. -/
def binUpdateScript (started : Int) (k : Key) (flags : BitVec 32) (exptime : Int) (vlen cas : Nat)
    (comm : Comm) (data : Nat → UInt8) : Script :=
  .clock fun now =>
    .alloc k flags.toInt (realtime started now exptime) (vlen + 2) fun
      | none => allocFailed k comm
      | some a =>
          .setCas a cas
            (.read a fun it =>
              completeUpdateBin a vlen (if it.getCas ≠ 0 then .cas else comm) data)

/-- `process_bin_append_prepend` and `complete_update_bin`. -/
def binAppendPrependScript (k : Key) (vlen cas : Nat) (comm : Comm) (data : Nat → UInt8) : Script :=
  .alloc k 0 0 (vlen + 2) fun
    | none => .done .error
    | some a => .setCas a cas (completeUpdateBin a vlen comm data)

/-- `process_arithmetic_command`. -/
def arithmeticScript (k : Key) (incr : Bool) (delta : BitVec 64) : Script :=
  .addDelta k incr delta none fun r => .done (.delta r)

/-- `complete_incr_bin`, which stores an item with the number `initial` if there is none, unless
`expiration` is `0xffffffff`. -/
def incrBinScript (started : Int) (k : Key) (incr : Bool) (delta initial : BitVec 64) (cas : Nat)
    (expiration : BitVec 32) : Script :=
  .addDelta k incr delta (some cas) fun r =>
    if r.result = .itemNotFound then
      if expiration ≠ 0xffffffff then
        .clock fun now =>
          .alloc k 0 (realtime started now expiration.toNat) incrMaxStorageLen fun
            | none => .done .error
            | some a =>
                let text := Decimal.print initial.toNat ++ [0]
                .write a 0 (fun i => text.getD i 0) text.length (storeAndRemove a .add)
      else .done .notFound
    else .done (.delta r)

/-- `process_delete_command`. -/
def deleteScript (k : Key) : Script :=
  .get k fun
    | none => .done .notFound
    | some a => .unlink a (.remove a (.done .deleted))

/-- `process_bin_delete`. -/
def binDeleteScript (k : Key) (cas : Nat) : Script :=
  .get k fun
    | none => .done .notFound
    | some a =>
        .read a fun it =>
          if cas = 0 ∨ cas = it.getCas then .unlink a (.remove a (.done .deleted))
          else .remove a (.done .exists_)

/-- `flush_all` in `process_command`, and `process_bin_flush`. -/
def flushScript (started : Int) (exptime : Int) : Script :=
  .clock fun now =>
    .setOldestLive
      (if 0 < exptime then (realtime started now exptime + 2 ^ 32 - 1) % 2 ^ 32
        else (now + 2 ^ 32 - 1) % 2 ^ 32)
      (.flushExpired (.done .ok))

/-- A command of a client. -/
inductive Command where
  | get (keys : List Key)
  | binGet (k : Key)
  | update (k : Key) (flags : BitVec 32) (exptime : Int) (vlen cas : Nat) (comm : Comm)
      (data : Nat → UInt8)
  | binUpdate (k : Key) (flags : BitVec 32) (exptime : Int) (vlen cas : Nat) (comm : Comm)
      (data : Nat → UInt8)
  | binAppendPrepend (k : Key) (vlen cas : Nat) (comm : Comm) (data : Nat → UInt8)
  | arithmetic (k : Key) (incr : Bool) (delta : BitVec 64)
  | incrBin (k : Key) (incr : Bool) (delta initial : BitVec 64) (cas : Nat) (expiration : BitVec 32)
  | delete (k : Key)
  | binDelete (k : Key) (cas : Nat)
  | flushAll (exptime : Int)
  | stats

def Command.script (started : Int) : Command → Script
  | get keys => getScript keys []
  | binGet k => binGetScript k
  | update k flags exptime vlen cas comm data => updateScript started k flags exptime vlen cas comm data
  | binUpdate k flags exptime vlen cas comm data =>
      binUpdateScript started k flags exptime vlen cas comm data
  | binAppendPrepend k vlen cas comm data => binAppendPrependScript k vlen cas comm data
  | arithmetic k incr delta => arithmeticScript k incr delta
  | incrBin k incr delta initial cas expiration =>
      incrBinScript started k incr delta initial cas expiration
  | delete k => deleteScript k
  | binDelete k cas => binDeleteScript k cas
  | flushAll exptime => flushScript started exptime
  | stats => .stats (.done .ok)

/-! ### Steps -/

/-- A connection. -/
structure Client where
  script : Script
  held : Multiset Addr
  own : Multiset Addr

/-- The server and the connections. -/
structure Server (ι : Type) where
  state : State
  clients : ι → Client

/-- A client begins a command, takes a step, or time passes. -/
inductive Event (ι : Type) where
  | start (c : ι) (command : Command)
  | step (c : ι) (choice : Bool) (behind : Nat)
  | tick (seconds : Nat)

/-- A connection begins a command and takes `n` steps, with all that is decided outside in its favour. -/
def Event.execute {ι : Type} (c : ι) (command : Command) (n : Nat) : List (Event ι) :=
  .start c command :: List.replicate n (.step c true 0)

/-- A reference that has been taken. -/
def Client.take (c : Client) (ret : Option Addr) (next : Option Addr → Script) : Client :=
  match ret with
  | none => { c with script := next none }
  | some a => { c with script := next (some a), held := a ::ₘ c.held }

section

variable (hash : Key → BitVec 32)

/-- A step of a connection. `choice` is what is decided outside, and `behind` is where a zero comes
behind the data of the item that is incremented. -/
def Client.step (s : State) (c : Client) (choice : Bool) (behind : Nat) : State × Client :=
  match c.script with
  | .done _ => (s, c)
  | .alloc k flags exptime nbytes next =>
      let (s, ret) := doItemAllocDel hash s k flags exptime nbytes
      (s, { c.take ret next with own := ret.elim c.own fun a => a ::ₘ c.own })
  | .get k next =>
      let (s, ret) := doItemGetDel hash s k
      (s, c.take ret next)
  | .remove a next =>
      (doItemRemoveDel s a, ⟨next, c.held.erase a, c.own.erase a⟩)
  | .unlink a next => (doItemUnlinkDel hash s a, { c with script := next })
  | .update a next => (doItemUpdate s a, { c with script := next })
  | .store a comm next =>
      let (s, ret, _) := doStoreItemDel hash s a comm
      (s, { c with script := next ret, own := c.own.erase a })
  | .addDelta k incr delta cas next =>
      let (s, reply) := doAddDeltaDel hash behind s k incr delta cas
      (s, { c with script := next reply })
  | .flushExpired next => (doItemFlushExpiredDel hash s, { c with script := next })
  | .stats next => (doItemStatsDel hash s, { c with script := next })
  | .write a off data n next =>
      (s.modify a fun it => { it with data := memcpy it.data off data n }, { c with script := next })
  | .setCas a v next => (s.modify a fun it => it.setCas v, { c with script := next })
  | .read a next => (s, { c with script := next (s.mem a) })
  | .clock next => (s, { c with script := next s.currentTime })
  | .setOldestLive v next =>
      ({ s with settings := { s.settings with oldestLive := v } }, { c with script := next })
  | .choose next => (s, { c with script := next choice })

/-- A client begins a command when it has got the answer to the last one. -/
def Client.start (c : Client) (script : Script) : Client :=
  match c.script with
  | .done _ => { c with script := script }
  | _ => c

variable {ι : Type} [DecidableEq ι] (started : Int)

def Server.exec (v : Server ι) : Event ι → Server ι
  | .start c command =>
      { v with clients := Function.update v.clients c ((v.clients c).start (command.script started)) }
  | .step c choice behind =>
      let r := (v.clients c).step hash v.state choice behind
      ⟨r.1, Function.update v.clients c r.2⟩
  | .tick seconds => { v with state := { v.state with currentTime := v.state.currentTime + seconds } }

/-- A sequence of events. -/
def Server.run (v : Server ι) (es : List (Event ι)) : Server ι :=
  es.foldl (Server.exec hash started) v

end

/-- The server when it starts. -/
def Server.init (ι : Type) (c : Config) : Server ι where
  state := State.init c
  clients _ := ⟨.done .ok, 0, 0⟩

/-! ### References -/

/-- The command takes no step that its references do not allow: it releases and accesses items it
refers to, it writes only to items it has allocated and not stored, and stores only such items. -/
def Script.Safe : Script → Multiset Addr → Multiset Addr → Prop
  | done _, _, _ => True
  | alloc _ flags _ nbytes next, held, own =>
      2 ≤ nbytes ∧ (-2 ^ 31 ≤ flags ∧ flags < 2 ^ 31) ∧ (next none).Safe held own ∧
        ∀ a, (next (some a)).Safe (a ::ₘ held) (a ::ₘ own)
  | get _ next, held, own => (next none).Safe held own ∧ ∀ a, (next (some a)).Safe (a ::ₘ held) own
  | remove a next, held, own => a ∈ held ∧ next.Safe (held.erase a) (own.erase a)
  | unlink a next, held, own => a ∈ held ∧ next.Safe held own
  | update a next, held, own => a ∈ held ∧ next.Safe held own
  | store a _ next, held, own => a ∈ own ∧ ∀ r, (next r).Safe held (own.erase a)
  | addDelta _ _ _ _ next, held, own => ∀ r, (next r).Safe held own
  | flushExpired next, held, own => next.Safe held own
  | stats next, held, own => next.Safe held own
  | write a _ _ _ next, held, own => a ∈ own ∧ next.Safe held own
  | setCas a _ next, held, own => a ∈ own ∧ next.Safe held own
  | read a next, held, own => a ∈ held ∧ ∀ it, (next it).Safe held own
  | clock next, held, own => ∀ now, (next now).Safe held own
  | setOldestLive _ next, held, own => next.Safe held own
  | choose next, held, own => ∀ b, (next b).Safe held own

/-- More references, left over from other commands, do no harm. -/
theorem Script.Safe.mono
    {p : Script} {held own held' own' : Multiset Addr} (h : p.Safe held own) (hheld : held ≤ held')
    (hown : own ≤ own') :
  p.Safe held' own'
  := by
  induction p generalizing held own held' own' with
  | done _ => trivial
  | alloc k flags exptime nbytes next ih =>
      obtain ⟨hle, hflags, hnone, hsome⟩ := h
      refine ⟨hle, hflags, ih _ hnone hheld hown, ?_⟩
      intro a
      exact ih _ (hsome a) ((Multiset.cons_le_cons_iff a).mpr hheld) ((Multiset.cons_le_cons_iff a).mpr hown)
  | get k next ih =>
      refine ⟨ih _ h.1 hheld hown, ?_⟩
      intro a
      exact ih _ (h.2 a) ((Multiset.cons_le_cons_iff a).mpr hheld) hown
  | remove a next ih =>
      exact ⟨Multiset.mem_of_le hheld h.1,
        ih h.2 (Multiset.erase_le_erase a hheld) (Multiset.erase_le_erase a hown)⟩
  | unlink a next ih => exact ⟨Multiset.mem_of_le hheld h.1, ih h.2 hheld hown⟩
  | update a next ih => exact ⟨Multiset.mem_of_le hheld h.1, ih h.2 hheld hown⟩
  | store a comm next ih =>
      exact ⟨Multiset.mem_of_le hown h.1, fun r => ih r (h.2 r) hheld (Multiset.erase_le_erase a hown)⟩
  | addDelta k incr delta cas next ih => exact fun r => ih r (h r) hheld hown
  | flushExpired next ih => exact ih h hheld hown
  | stats next ih => exact ih h hheld hown
  | write a off data n next ih => exact ⟨Multiset.mem_of_le hown h.1, ih h.2 hheld hown⟩
  | setCas a v next ih => exact ⟨Multiset.mem_of_le hown h.1, ih h.2 hheld hown⟩
  | read a next ih => exact ⟨Multiset.mem_of_le hheld h.1, fun it => ih it (h.2 it) hheld hown⟩
  | clock next ih => exact fun now => ih now (h now) hheld hown
  | setOldestLive v next ih => exact ih h hheld hown
  | choose next ih => exact fun b => ih b (h b) hheld hown

theorem Script.safe_done (answer : Answer) (held own : Multiset Addr) :
  (done answer).Safe held own
  := trivial

theorem safe_releaseItems
    {next : Script} (hnext : ∀ held own, next.Safe held own) {l : List Addr} {held own : Multiset Addr}
    (hl : (l : Multiset Addr) ≤ held) :
  (releaseItems l next).Safe held own
  := by
  induction l generalizing held own with
  | nil => exact hnext held own
  | cons a l ih =>
      rw [← Multiset.cons_coe] at hl
      refine ⟨Multiset.mem_of_le hl (Multiset.mem_cons_self a _), ih ?_⟩
      rw [← Multiset.erase_cons_head a (l : Multiset Addr)]
      exact Multiset.erase_le_erase a hl

theorem safe_sendItems
    {all l : List Addr} {held own : Multiset Addr} (hall : (all : Multiset Addr) ≤ held)
    (hl : ∀ a ∈ l, a ∈ held) (seen : List Item) :
  (sendItems all l seen).Safe held own
  := by
  induction l generalizing seen with
  | nil => exact safe_releaseItems (Script.safe_done _) hall
  | cons a l ih =>
      refine ⟨hl a List.mem_cons_self, ?_⟩
      intro it
      exact ih (fun b hb => hl b (List.mem_cons_of_mem a hb)) _

theorem safe_getScript
    (keys : List Key) {kept : List Addr} {held own : Multiset Addr} (hkept : (kept : Multiset Addr) ≤ held) :
  (getScript keys kept).Safe held own
  := by
  induction keys generalizing kept held own with
  | nil =>
      intro sent
      cases sent with
      | true => exact safe_sendItems hkept (fun a ha => Multiset.mem_of_le hkept ha) []
      | false =>
          intro listed
          cases listed with
          | true => exact safe_releaseItems (Script.safe_done _) hkept
          | false => trivial
  | cons k keys ih =>
      refine ⟨ih hkept, ?_⟩
      intro a memory
      cases memory with
      | true =>
          refine ⟨Multiset.mem_cons_self a held, ih ?_⟩
          rw [← Multiset.coe_add, Multiset.coe_singleton, add_comm, Multiset.singleton_add]
          exact (Multiset.cons_le_cons_iff a).mpr hkept
      | false =>
          refine ⟨Multiset.mem_cons_self a held, ?_⟩
          intro again
          cases again with
          | true =>
              rw [Multiset.erase_cons_head]
              exact ih hkept
          | false => trivial

theorem safe_storeAndRemove
    {a : Addr} {held own : Multiset Addr} (hheld : a ∈ held) (hown : a ∈ own) (comm : Comm) :
  (storeAndRemove a comm).Safe held own
  := ⟨hown, fun _ => ⟨hheld, trivial⟩⟩

theorem safe_completeUpdateBin
    {a : Addr} {held own : Multiset Addr} (hheld : a ∈ held) (hown : a ∈ own) (vlen : Nat) (comm : Comm)
    (data : Nat → UInt8) :
  (completeUpdateBin a vlen comm data).Safe held own
  := by
  intro arrived
  cases arrived with
  | true => exact ⟨hown, hown, safe_storeAndRemove hheld hown comm⟩
  | false => exact ⟨hheld, trivial⟩

theorem safe_allocFailed (k : Key) (comm : Comm) (held own : Multiset Addr) :
  (allocFailed k comm).Safe held own
  := by
  rw [allocFailed]
  split
  · refine ⟨trivial, ?_⟩
    intro a
    have hmem := Multiset.mem_cons_self a held
    exact ⟨hmem, hmem, trivial⟩
  · trivial

/-- A command takes no step that its references do not allow. -/
theorem Command.safe (started : Int) (command : Command) : (command.script started).Safe 0 0 := by
  have hflags : ∀ flags : BitVec 32, -2 ^ 31 ≤ flags.toInt ∧ flags.toInt < 2 ^ 31 := by
    intro flags
    exact ⟨BitVec.le_toInt flags, BitVec.toInt_lt⟩
  have hmem : ∀ (a : Addr) (m : Multiset Addr), a ∈ a ::ₘ m := Multiset.mem_cons_self
  cases command with
  | get keys => exact safe_getScript keys le_rfl
  | binGet k =>
      refine ⟨trivial, ?_⟩
      intro a
      apply safe_sendItems
      · exact le_rfl
      · intro b hb
        rw [List.mem_singleton.mp hb]
        exact hmem a 0
  | update k flags exptime vlen cas comm data =>
      intro now
      refine ⟨Nat.le_add_left 2 vlen, hflags flags, safe_allocFailed k comm 0 0, ?_⟩
      intro a
      refine ⟨hmem a 0, ?_⟩
      intro arrived
      cases arrived with
      | true =>
          refine ⟨hmem a 0, hmem a 0, ?_⟩
          intro it
          simp only
          split
          · exact safe_storeAndRemove (hmem a 0) (hmem a 0) comm
          · exact ⟨hmem a 0, trivial⟩
      | false => exact ⟨hmem a 0, trivial⟩
  | binUpdate k flags exptime vlen cas comm data =>
      intro now
      refine ⟨Nat.le_add_left 2 vlen, hflags flags, safe_allocFailed k comm 0 0, ?_⟩
      intro a
      exact ⟨hmem a 0, hmem a 0, fun it => safe_completeUpdateBin (hmem a 0) (hmem a 0) vlen _ data⟩
  | binAppendPrepend k vlen cas comm data =>
      refine ⟨Nat.le_add_left 2 vlen, by decide, trivial, ?_⟩
      intro a
      exact ⟨hmem a 0, safe_completeUpdateBin (hmem a 0) (hmem a 0) vlen comm data⟩
  | arithmetic k incr delta => exact fun r => trivial
  | incrBin k incr delta initial cas expiration =>
      intro r
      simp only
      split
      · split
        · intro now
          refine ⟨by decide, by decide, trivial, ?_⟩
          intro a
          exact ⟨hmem a 0, safe_storeAndRemove (hmem a 0) (hmem a 0) .add⟩
        · trivial
      · trivial
  | delete k => exact ⟨trivial, fun a => ⟨hmem a 0, hmem a 0, trivial⟩⟩
  | binDelete k cas =>
      refine ⟨trivial, ?_⟩
      intro a
      refine ⟨hmem a 0, ?_⟩
      intro it
      simp only
      split
      · exact ⟨hmem a 0, hmem a 0, trivial⟩
      · exact ⟨hmem a 0, trivial⟩
  | flushAll exptime => exact fun now => trivial
  | stats => trivial

end Memcached
