import Ffwd.Lib.Decimal
import Ffwd.Memcached.Lru

/-!
# Items

The items and the operations of `items.c` that the server executes: each is a function of
the whole state, which consists of the memory of the items and the variables of
`assoc.c`, `slabs.c` and `items.c`.
-/

namespace Memcached

open Linked

/-! ### The state -/

/-- An item. `linked`, `slabbed` and `hasCas` are the bits of `it_flags`; `nkey` and
`nsuffix` are the lengths of the key and the suffix, and `data` is the memory from
`ITEM_data` on, of which the first `nbytes` bytes belong to the item. -/
structure Item where
  time : Nat
  exptime : Nat
  nbytes : Nat
  refcount : Nat
  linked : Bool
  slabbed : Bool
  hasCas : Bool
  slabsClsid : Nat
  key : Key
  cas : Nat
  suffix : List UInt8
  data : Nat → UInt8

/-- Memory that has been cleared. -/
def Item.zero : Item where
  time := 0
  exptime := 0
  nbytes := 0
  refcount := 0
  linked := false
  slabbed := false
  hasCas := false
  slabsClsid := 0
  key := []
  cas := 0
  suffix := []
  data _ := 0

/-- The counters of `stats` that the operations on items change. -/
structure Stats where
  currItems : Nat
  totalItems : Nat
  currBytes : Nat
  reclaimed : Nat
  evictions : Nat

/-- The counters of a slab class. -/
structure ItemStats where
  evicted : Nat
  evictedNonzero : Nat
  evictedTime : Nat
  reclaimed : Nat
  outofmemory : Nat
  tailrepairs : Nat

/-- The settings the operations on items read. -/
structure Settings where
  useCas : Bool
  evictToFree : Bool
  oldestLive : Nat

/-- The state the server works on. -/
structure State where
  mem : Addr → Item
  assoc : Assoc
  lru : Lru
  slabs : Slabs
  stats : Stats
  itemstats : Nat → ItemStats
  settings : Settings
  currentTime : Nat
  casId : Nat

namespace State

/-- The keys in the items. -/
def key (s : State) (a : Addr) : Key := (s.mem a).key

/-- An item changed. -/
def modify (s : State) (a : Addr) (f : Item → Item) : State :=
  { s with mem := Function.update s.mem a (f (s.mem a)) }

/-- The counters of a slab class changed. -/
def count (s : State) (id : Nat) (f : ItemStats → ItemStats) : State :=
  { s with itemstats := Function.update s.itemstats id (f (s.itemstats id)) }

/-- The entries of a slab class accessed. -/
def access (s : State) (id : Nat) : State := { s with lru := s.lru.access id }

end State

/-! ### Items in memory -/

/-- `sizeof(item)`. -/
def sizeofItem : Nat := 48

/-- `ITEM_ntotal`. -/
def Item.ntotal (it : Item) : Nat :=
  sizeofItem + it.key.length + 1 + it.suffix.length + it.nbytes + (if it.hasCas then 8 else 0)

/-- `ITEM_get_cas`. -/
def Item.getCas (it : Item) : Nat := if it.hasCas then it.cas else 0

/-- `ITEM_set_cas`, for a value that is at hand. -/
def Item.setCas (it : Item) (v : Nat) : Item := if it.hasCas then { it with cas := v } else it

/-- The data of an item. -/
def Item.value (it : Item) : List UInt8 := (List.range it.nbytes).map it.data

/-- The text of the suffix, `" %d %d\\r\\n"`. -/
def suffixOf (flags : Int) (nbytes : Nat) : List UInt8 :=
  32 :: Decimal.printInt flags ++ 32 :: Decimal.printInt ((nbytes : Int) - 2) ++ [13, 10]

/-- `item_make_header`: the size of an item, and its suffix. -/
def itemMakeHeader (nkey : Nat) (flags : Int) (nbytes : Nat) : Nat × List UInt8 :=
  let suffix := suffixOf flags nbytes
  (sizeofItem + nkey + suffix.length + nbytes, suffix)

/-! ### The operations -/

section Operations

variable (hash : Key → BitVec 32)

/-- `get_cas_id`. -/
def getCasId (s : State) : State × Nat :=
  let casId := (s.casId + 1) % 2 ^ 64
  ({ s with casId := casId }, casId)

/-- `ITEM_set_cas(it, (settings.use_cas) ? get_cas_id() : 0)`. The macro evaluates its
argument only if the item has room for it. -/
def setNewCas (s : State) (a : Addr) : State :=
  if (s.mem a).hasCas then
    if s.settings.useCas then
      let (s, id) := getCasId s
      s.modify a fun it => { it with cas := id }
    else s.modify a fun it => { it with cas := 0 }
  else s

def itemFreeDel (s : State) (a : Addr) : State :=
  let ntotal := (s.mem a).ntotal
  let clsid := (s.mem a).slabsClsid
  let s := s.modify a fun it => { it with slabsClsid := 0, slabbed := true }
  { s with slabs := doSlabsFree s.slabs a ntotal clsid }

def doItemLinkDel (s : State) (a : Addr) : State :=
  let s := s.modify a fun it => { it with linked := true, time := s.currentTime }
  let s := { s with assoc := assocInsert hash s.key s.assoc a }
  let s :=
    { s with
      stats :=
        { s.stats with
          currBytes := s.stats.currBytes + (s.mem a).ntotal
          currItems := s.stats.currItems + 1
          totalItems := s.stats.totalItems + 1 } }
  let s := setNewCas s a
  { s with lru := itemLinkQ s.lru a (s.mem a).slabsClsid }

/-- The part of `do_item_unlink_del` for a linked item, up to the test of its `refcount`. -/
def unlinkItem (s : State) (a : Addr) : State :=
  let s := s.modify a fun it => { it with linked := false }
  let s :=
    { s with
      stats :=
        { s.stats with
          currBytes := s.stats.currBytes - (s.mem a).ntotal
          currItems := s.stats.currItems - 1 } }
  let s := { s with assoc := assocDelete hash s.key s.assoc (s.key a) }
  { s with lru := itemUnlinkQ s.lru a (s.mem a).slabsClsid }

def doItemUnlinkDel (s : State) (a : Addr) : State :=
  if (s.mem a).linked then
    let s := unlinkItem hash s a
    if (s.mem a).refcount = 0 then itemFreeDel s a else s
  else s

def doItemRemoveDel (s : State) (a : Addr) : State :=
  let s := if (s.mem a).refcount ≠ 0 then
      s.modify a fun it => { it with refcount := it.refcount - 1 }
    else s
  if (s.mem a).refcount = 0 ∧ (s.mem a).linked = false then itemFreeDel s a else s

def itemUpdateInterval : Nat := 60

/-- `do_item_update`. The subtraction is one of 32-bit unsigned numbers. -/
def doItemUpdate (s : State) (a : Addr) : State :=
  if (s.mem a).time < (s.currentTime + 2 ^ 32 - itemUpdateInterval) % 2 ^ 32 then
    if (s.mem a).linked then
      let s := { s with lru := itemUnlinkQ s.lru a (s.mem a).slabsClsid }
      let s := s.modify a fun it => { it with time := s.currentTime }
      { s with lru := itemLinkQ s.lru a (s.mem a).slabsClsid }
    else s
  else s

def doItemReplaceDel (s : State) (a b : Addr) : State :=
  doItemLinkDel hash (doItemUnlinkDel hash s a) b

/-- The item is hidden by a flush. -/
def flushed (s : State) (a : Addr) : Bool :=
  s.settings.oldestLive ≠ 0 ∧ s.settings.oldestLive ≤ s.currentTime ∧
    (s.mem a).time ≤ s.settings.oldestLive

/-- `do_item_get_del`. The number of references is an unsigned short. -/
def doItemGetDel (s : State) (k : Key) : State × Option Addr :=
  match assocFind hash s.key s.assoc k with
  | none => (s, none)
  | some a =>
      if flushed s a then (doItemUnlinkDel hash s a, none)
      else if (s.mem a).exptime ≠ 0 ∧ (s.mem a).exptime ≤ s.currentTime then
        (doItemUnlinkDel hash s a, none)
      else (s.modify a fun it => { it with refcount := (it.refcount + 1) % 2 ^ 16 }, some a)

/-! ### Allocation -/

/-- Memory cleared from `ptr` on. -/
def memset (s : State) (ptr len : Nat) : State :=
  { s with mem := fun a => if ptr ≤ a ∧ a < ptr + len then Item.zero else s.mem a }

/-- `slabs_alloc_del`, with the clearing of a new page. -/
def slabsAllocDel (s : State) (size id : Nat) : State × Option Addr :=
  let (sl, ret, page) := doSlabsAlloc s.slabs size id
  let s := match page with
    | none => s
    | some ptr => memset s ptr (s.slabs.pageLen id)
  ({ s with slabs := sl }, ret)

/-- The number of items a search from the tail of a list looks at. -/
def searchTries : Nat := 50

def tailRepairTime : Nat := 3 * 3600

/-- The search from the tail of a list. -/
def searchTail (s : State) (id : Nat) (test : Item → Bool) : Option Addr :=
  find s.lru.prev (fun a => test (s.mem a)) searchTries (s.lru.tails id)

/-- An item nobody refers to and that has expired. -/
def stealable (now : Nat) (it : Item) : Bool :=
  it.refcount = 0 ∧ it.exptime ≠ 0 ∧ it.exptime < now

/-- An item nobody refers to. -/
def evictable (it : Item) : Bool := it.refcount = 0

/-- An item that has been in use for too long. -/
def repairable (now : Nat) (it : Item) : Bool :=
  it.refcount ≠ 0 ∧ (it.time + tailRepairTime) % 2 ^ 32 < now

/-- An expired item is taken out of the cache and reused. -/
def stealItem (s : State) (id : Nat) (a : Addr) (ntotal : Nat) : State :=
  let s := { s with stats := { s.stats with reclaimed := s.stats.reclaimed + 1 } }
  let s := s.count id fun c => { c with reclaimed := c.reclaimed + 1 }
  let s := s.modify a fun it => { it with refcount := 1 }
  let s :=
    { s with
      slabs := slabsAdjustMemRequested s.slabs (s.mem a).slabsClsid (s.mem a).ntotal ntotal }
  let s := doItemUnlinkDel hash s a
  s.modify a fun it => { it with slabsClsid := 0, refcount := 0 }

/-- The search for an item to evict, and its eviction. -/
def evictItem (s : State) (id : Nat) : State :=
  match searchTail s id evictable with
  | none => s
  | some a =>
      let it := s.mem a
      let s :=
        if it.exptime = 0 ∨ s.currentTime < it.exptime then
          let s := s.count id fun c =>
            { c with
              evicted := c.evicted + 1
              evictedTime := (s.currentTime + 2 ^ 32 - it.time) % 2 ^ 32
              evictedNonzero := if it.exptime ≠ 0 then c.evictedNonzero + 1 else c.evictedNonzero }
          { s with stats := { s.stats with evictions := s.stats.evictions + 1 } }
        else
          let s := s.count id fun c => { c with reclaimed := c.reclaimed + 1 }
          { s with stats := { s.stats with reclaimed := s.stats.reclaimed + 1 } }
      doItemUnlinkDel hash s a

/-- The search for an item that has been in use for too long, and its release. -/
def repairItem (s : State) (id : Nat) : State :=
  match searchTail s id (repairable s.currentTime) with
  | none => s
  | some a =>
      let s := s.count id fun c => { c with tailrepairs := c.tailrepairs + 1 }
      let s := s.modify a fun it => { it with refcount := 0 }
      doItemUnlinkDel hash s a

/-- A request for memory that could not be met. -/
def outOfMemory (s : State) (id : Nat) : State :=
  s.count id fun c => { c with outofmemory := c.outofmemory + 1 }

/-- The memory of a new item: an expired one that is stolen, a chunk of the slab
allocator, or one that an eviction or the repair of the tail has made available. -/
def allocChunk (s : State) (ntotal id : Nat) : State × Option Addr :=
  match searchTail s id (stealable s.currentTime) with
  | some a => (stealItem hash s id a ntotal, some a)
  | none =>
      match slabsAllocDel s ntotal id with
      | (s, some a) => (s, some a)
      | (s, none) =>
          if s.settings.evictToFree = false then (outOfMemory s id, none)
          else if s.lru.tails id = none then (outOfMemory s id, none)
          else
            match slabsAllocDel (evictItem hash s id) ntotal id with
            | (s, some a) => (s, some a)
            | (s, none) => slabsAllocDel (repairItem hash (outOfMemory s id) id) ntotal id

/-- The item that `allocChunk` releases although it is in use, if it comes to that. -/
def tailRepair (s : State) (ntotal id : Nat) : Option Addr :=
  match searchTail s id (stealable s.currentTime) with
  | some _ => none
  | none =>
      match slabsAllocDel s ntotal id with
      | (_, some _) => none
      | (s, none) =>
          if s.settings.evictToFree = false then none
          else if s.lru.tails id = none then none
          else
            match slabsAllocDel (evictItem hash s id) ntotal id with
            | (_, some _) => none
            | (s, none) => searchTail s id (repairable s.currentTime)

/-- A new item in its memory. -/
def initItem (s : State) (a : Addr) (id : Nat) (k : Key) (suffix : List UInt8) (exptime nbytes : Nat) :
    State :=
  let s := s.modify a fun it =>
    { it with
      slabsClsid := id
      refcount := 1
      linked := false
      slabbed := false
      hasCas := s.settings.useCas
      key := k
      nbytes := nbytes
      exptime := exptime
      suffix := suffix }
  { s with
    lru :=
      { s.lru with
        next := Function.update s.lru.next a none
        prev := Function.update s.lru.prev a none }
    assoc := s.assoc.setHNext a none }

/-- The size of a new item, its suffix and its slab class. -/
def itemSize (s : State) (k : Key) (flags : Int) (nbytes : Nat) : Nat × List UInt8 × Nat :=
  let (ntotal, suffix) := itemMakeHeader (k.length + 1) flags nbytes
  let ntotal := if s.settings.useCas then ntotal + 8 else ntotal
  (ntotal, suffix, slabsClsid s.slabs ntotal)

/-- `do_item_alloc_del`. It begins with the tail of the list of the class, and all the entries of
arrays that it accesses on its own are those of this class. -/
def doItemAllocDel (s : State) (k : Key) (flags : Int) (exptime nbytes : Nat) :
    State × Option Addr :=
  let (ntotal, suffix, id) := itemSize s k flags nbytes
  if id = 0 then (s, none)
  else
    match allocChunk hash (s.access id) ntotal id with
    | (s, none) => (s, none)
    | (s, some a) => (initItem s a id k suffix exptime nbytes, some a)

/-! ### Flush and statistics -/

/-- The loop of `do_item_flush_expired_del` over a list, from `iter` on. -/
def flushList (s : State) : Nat → Option Addr → State
  | 0, _ => s
  | _ + 1, none => s
  | n + 1, some iter =>
      if s.settings.oldestLive ≤ (s.mem iter).time then
        let next := s.lru.next iter
        flushList (if (s.mem iter).slabbed = false then doItemUnlinkDel hash s iter else s) n next
      else s

def doItemFlushExpiredDel (s : State) : State :=
  if s.settings.oldestLive = 0 then s
  else (List.range largestId).foldl (fun s i => flushList hash s (s.lru.sizes i) (s.lru.heads i)) s

/-- The loop of `do_item_stats_del` that drops dead items from the tail of a list. -/
def purgeTail (s : State) (id : Nat) : Nat → State
  | 0 => s
  | n + 1 =>
      match s.lru.tails id with
      | none => s
      | some a =>
          if flushed s a ∨ (s.mem a).exptime ≠ 0 ∧ (s.mem a).exptime < s.currentTime then
            if (s.mem a).refcount = 0 then purgeTail (doItemUnlinkDel hash s a) id n else s
          else s

/-- What `do_item_stats_del` does to the items. -/
def doItemStatsDel (s : State) : State :=
  (List.range largestId).foldl (fun s i => purgeTail hash s i searchTries) s

end Operations

end Memcached
