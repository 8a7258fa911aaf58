import Ffwd.Memcached.Numbers
import Ffwd.Memcached.Store

/-!
# Incrementing and decrementing

`do_add_delta_del` reads the number that the data of an item begins with, and writes the
new number in its place, or stores a new item if there is no room or somebody else holds a
reference. Nothing but the reading depends on data: two states that agree on all but the
bytes behind the data of the items stay so, as long as the same number is read in both.
-/

namespace Memcached

open Linked

/-! ### The operation -/

/-- `enum delta_result_type`. -/
inductive DeltaResult where
  | ok
  | nonNumeric
  | eom
  | itemNotFound
  | itemCasMismatch
  deriving DecidableEq

/-- What the caller of `do_add_delta_del` gets: the result, the text in `buf`, and the value
of `*cas`, unless `cas` is null. -/
structure DeltaReply where
  result : DeltaResult
  buf : List UInt8
  cas : Option Nat
  deriving DecidableEq

/-- What a string function sees from `ITEM_data` on, when a zero comes `behind` bytes after
the data of the item. -/
def Item.text (it : Item) (behind : Nat) : List UInt8 :=
  it.value ++ (List.range behind).map fun i => it.data (it.nbytes + i)

/-- The new value. The delta, an `int64_t`, is converted to an unsigned number. -/
def deltaValue (incr : Bool) (value : Nat) (delta : BitVec 64) : Nat :=
  if incr then (value + delta.toNat) % 2 ^ 64
  else if value < delta.toNat then 0
  else value - delta.toNat

/-- `atoi(ITEM_suffix(it) + 1)`. -/
def Item.suffixFlags (it : Item) : Int := Decimal.toInt32 (Decimal.strtol (it.suffix.drop 1))

/-- A text copied to the beginning of data. -/
def writeText (dst : Nat → UInt8) (buf : List UInt8) : Nat → UInt8 :=
  memcpy dst 0 (fun i => buf.getD i 0) buf.length

/-- The data of a new item: the number and `\r\n`. -/
def State.writeNumber (s : State) (new : Addr) (buf : List UInt8) : State :=
  s.modify new fun it => { it with data := writeText it.data (buf ++ [13, 10]) }

/-- The number written in place: blanks come behind it, up to the last two bytes. -/
def State.overwriteNumber (s : State) (a : Addr) (buf : List UInt8) : State :=
  s.modify a fun it =>
    { it with
      data :=
        memcpy (writeText it.data buf) buf.length (fun _ => 32) (it.nbytes - buf.length - 2) }

/-- The number has to be stored in a new item. -/
def needsRealloc (it : Item) (buf : List UInt8) : Prop :=
  it.nbytes < buf.length + 2 ∨ it.refcount ≠ 1

instance (it : Item) (buf : List UInt8) : Decidable (needsRealloc it buf) :=
  inferInstanceAs (Decidable (_ ∨ _))

/-- The CAS id in a request is not that of the item. -/
def deltaMismatch (it : Item) (cas : Option Nat) : Prop :=
  ∃ v ∈ cas, v ≠ 0 ∧ it.getCas ≠ v

instance (it : Item) (cas : Option Nat) : Decidable (deltaMismatch it cas) :=
  inferInstanceAs (Decidable (∃ v ∈ cas, v ≠ 0 ∧ it.getCas ≠ v))

/-- The end of `do_add_delta_del`. -/
def deltaDone (s : State) (it : Addr) (buf : List UInt8) (cas : Option Nat) : State × DeltaReply :=
  (doItemRemoveDel s it, ⟨.ok, buf, cas.map fun _ => (s.mem it).getCas⟩)

section

variable (hash : Key → BitVec 32)

/-- The part of `do_add_delta_del` that writes the number `value`. -/
def deltaWrite (s : State) (it : Addr) (value : Nat) (cas : Option Nat) : State × DeltaReply :=
  let buf := Decimal.print value
  if needsRealloc (s.mem it) buf then
    match doItemAllocDel hash s (s.key it) (s.mem it).suffixFlags (s.mem it).exptime (buf.length + 2) with
    | (s, none) => (doItemRemoveDel s it, ⟨.eom, buf, cas⟩)
    | (s, some new) =>
        let s := s.writeNumber new buf
        let s := doItemReplaceDel hash s it new
        let s := doItemRemoveDel s new
        deltaDone s it buf cas
  else deltaDone ((setNewCas s it).overwriteNumber it buf) it buf cas

/-- `do_add_delta_del`, when a zero comes `behind` bytes after the data of the item. -/
def doAddDeltaDel (behind : Nat) (s : State) (k : Key) (incr : Bool) (delta : BitVec 64)
    (cas : Option Nat) : State × DeltaReply :=
  match doItemGetDel hash s k with
  | (s, none) => (s, ⟨.itemNotFound, [], cas⟩)
  | (s, some it) =>
      if deltaMismatch (s.mem it) cas then (doItemRemoveDel s it, ⟨.itemCasMismatch, [], cas⟩)
      else
        match safeStrtoull ((s.mem it).text behind) with
        | none => (doItemRemoveDel s it, ⟨.nonNumeric, [], cas⟩)
        | some value => deltaWrite hash s it (deltaValue incr value delta) cas

end

/-! ### Operations that do not look at data -/

/-- An item without its data. -/
def Item.header (it : Item) : Item := { it with data := fun _ => 0 }

/-- A state without the data of the items. -/
def State.headers (s : State) : State := { s with mem := fun a => (s.mem a).header }

/-- Data is kept, or the item has been cleared. -/
def KeepsText (s s' : State) : Prop :=
  ∀ a, (s'.mem a).nbytes = 0 ∨ (s'.mem a).nbytes = (s.mem a).nbytes ∧ (s'.mem a).data = (s.mem a).data

/-- The states differ at most in the bytes behind the data of the items. -/
structure Alike (s s' : State) : Prop where
  headers : s.headers = s'.headers
  data : ∀ a i, i < (s.mem a).nbytes → (s.mem a).data i = (s'.mem a).data i

/-- An operation that does not look at data. -/
structure Blind (f : State → State) : Prop where
  headers : ∀ s, (f s).headers = f s.headers
  text : ∀ s, KeepsText s (f s)

variable {hash : Key → BitVec 32} {s s' s'' : State} {a b it : Addr} {k : Key}

theorem KeepsText.refl (s : State) : KeepsText s s := fun _ => .inr ⟨rfl, rfl⟩

theorem KeepsText.trans (h : KeepsText s s') (h' : KeepsText s' s'') :
  KeepsText s s''
  := by
  intro a
  obtain hzero | ⟨hnbytes', hdata'⟩ := h' a
  · exact .inl hzero
  · obtain hzero | ⟨hnbytes, hdata⟩ := h a
    · exact .inl (hnbytes'.trans hzero)
    · exact .inr ⟨hnbytes'.trans hnbytes, hdata'.trans hdata⟩

theorem Alike.nbytes (h : Alike s s') (a : Addr) : (s'.mem a).nbytes = (s.mem a).nbytes := by
  have hmem := congrFun (congrArg State.mem h.headers) a
  exact (congrArg Item.nbytes hmem).symm

/-- Operations that do not look at data do the same to states that differ only there. -/
theorem Alike.of_keepsText
    {t t' : State} (h : Alike s s') (hheaders : t.headers = t'.headers) (ht : KeepsText s t)
    (ht' : KeepsText s' t') :
  Alike t t'
  := by
  refine ⟨hheaders, ?_⟩
  intro a i hi
  have hmem := congrFun (congrArg State.mem hheaders) a
  have hnbytes := congrArg Item.nbytes hmem
  change (t.mem a).nbytes = (t'.mem a).nbytes at hnbytes
  obtain hzero | ⟨hkeep, hdata⟩ := ht a
  · omega
  · obtain hzero | ⟨-, hdata'⟩ := ht' a
    · omega
    · rw [hdata, hdata']
      apply h.data
      omega

theorem Blind.alike {f : State → State} (hf : Blind f) (h : Alike s s') :
  Alike (f s) (f s')
  := by
  apply h.of_keepsText _ (hf.text s) (hf.text s')
  rw [hf.headers, hf.headers, h.headers]

theorem headers_modify (s : State) (a : Addr) {f : Item → Item} (hf : ∀ it, (f it).header = f it.header) :
  (s.modify a f).headers = s.headers.modify a f
  := by
  have hmem : (fun b => ((s.modify a f).mem b).header) = (s.headers.modify a f).mem := by
    funext b
    by_cases hb : b = a
    · subst hb
      rw [State.mem_modify_self, State.mem_modify_self, hf]
      rfl
    · rw [State.mem_modify_of_ne _ _ _ _ hb, State.mem_modify_of_ne _ _ _ _ hb]
      rfl
  rw [State.headers, hmem]
  rfl

theorem keepsText_modify
    (s : State) (a : Addr) {f : Item → Item} (hf : ∀ it, (f it).nbytes = it.nbytes ∧ (f it).data = it.data) :
  KeepsText s (s.modify a f)
  := by
  intro b
  rw [State.mem_modify]
  split
  · next hb =>
    rw [hb]
    exact .inr (hf _)
  · exact .inr ⟨rfl, rfl⟩

theorem Blind.comp {f g : State → State} (hg : Blind g) (hf : Blind f) :
  Blind fun s => g (f s)
  where
  headers s := by rw [hg.headers, hf.headers]
  text s := (hf.text s).trans (hg.text (f s))

/-- A test that does not look at data, and what follows it. -/
theorem Blind.ite
    {P : State → Prop} [∀ s, Decidable (P s)] {f g : State → State} (hP : ∀ s, P s.headers ↔ P s)
    (hf : Blind f) (hg : Blind g) :
  Blind fun s => if P s then f s else g s
  where
  headers s := by
    by_cases h : P s
    · rw [if_pos h, if_pos ((hP s).mpr h), hf.headers]
    · rw [if_neg h, if_neg fun h' => h ((hP s).mp h'), hg.headers]
  text s := by
    split
    · exact hf.text s
    · exact hg.text s

theorem Blind.id : Blind fun s => s where
  headers _ := rfl
  text := KeepsText.refl

/-- An operation that changes no item. -/
theorem Blind.of_mem
    {f : State → State} (hheaders : ∀ s, (f s).headers = f s.headers) (hmem : ∀ s, (f s).mem = s.mem) :
  Blind f
  where
  headers := hheaders
  text s a := by
    rw [hmem]
    exact .inr ⟨rfl, rfl⟩

/-- An operation that changes the header of one item. -/
theorem Blind.modify
    (a : Addr) {f : State → Item → Item} (hs : ∀ s, f s.headers = f s)
    (hf : ∀ s it, (f s it).header = f s it.header)
    (hkeep : ∀ s it, (f s it).nbytes = it.nbytes ∧ (f s it).data = it.data) :
  Blind fun s => s.modify a (f s)
  where
  headers s := by rw [headers_modify s a (hf s), hs]
  text s := keepsText_modify s a (hkeep s)

theorem blind_setNewCas (a : Addr) : Blind fun s => setNewCas s a := by
  have hnew : Blind fun s : State => { s with casId := (s.casId + 1) % 2 ^ 64 } :=
    Blind.of_mem (fun _ => rfl) fun _ => rfl
  have hset : Blind fun s : State => s.modify a fun it => { it with cas := s.casId } :=
    Blind.modify a (fun _ => rfl) (fun _ _ => rfl) fun _ _ => ⟨rfl, rfl⟩
  have hzero : Blind fun s : State => s.modify a fun it => { it with cas := 0 } :=
    Blind.modify a (fun _ => rfl) (fun _ _ => rfl) fun _ _ => ⟨rfl, rfl⟩
  exact .ite (fun _ => Iff.rfl) (.ite (fun _ => Iff.rfl) (hset.comp hnew) hzero) .id

theorem blind_itemFreeDel (a : Addr) : Blind fun s => itemFreeDel s a := by
  have hfree : Blind fun s : State =>
      { s with slabs := doSlabsFree s.slabs a (s.mem a).ntotal (s.mem a).slabsClsid } :=
    Blind.of_mem (fun _ => rfl) fun _ => rfl
  have hmark : Blind fun s : State => s.modify a fun it => { it with slabsClsid := 0, slabbed := true } :=
    Blind.modify a (fun _ => rfl) (fun _ _ => rfl) fun _ _ => ⟨rfl, rfl⟩
  exact hmark.comp hfree

theorem blind_unlinkItem (hash : Key → BitVec 32) (a : Addr) : Blind fun s => unlinkItem hash s a := by
  have hmark : Blind fun s : State => s.modify a fun it => { it with linked := false } :=
    Blind.modify a (fun _ => rfl) (fun _ _ => rfl) fun _ _ => ⟨rfl, rfl⟩
  have hunlink : Blind fun s : State =>
      { s with
        stats :=
          { s.stats with
            currBytes := s.stats.currBytes - (s.mem a).ntotal
            currItems := s.stats.currItems - 1 }
        assoc := assocDelete hash s.key s.assoc (s.key a)
        lru := itemUnlinkQ s.lru a (s.mem a).slabsClsid } :=
    Blind.of_mem (fun _ => rfl) fun _ => rfl
  exact hunlink.comp hmark

theorem blind_doItemUnlinkDel (hash : Key → BitVec 32) (a : Addr) :
  Blind fun s => doItemUnlinkDel hash s a
  := by
  have hfree : Blind fun s => if (s.mem a).refcount = 0 then itemFreeDel s a else s :=
    .ite (fun _ => Iff.rfl) (blind_itemFreeDel a) .id
  exact .ite (fun _ => Iff.rfl) (hfree.comp (blind_unlinkItem hash a)) .id

theorem blind_doItemLinkDel (hash : Key → BitVec 32) (a : Addr) :
  Blind fun s => doItemLinkDel hash s a
  := by
  have hmark : Blind fun s : State =>
      s.modify a fun it => { it with linked := true, time := s.currentTime } :=
    Blind.modify a (fun _ => rfl) (fun _ _ => rfl) fun _ _ => ⟨rfl, rfl⟩
  have hinsert : Blind fun s : State =>
      { s with
        assoc := assocInsert hash s.key s.assoc a
        stats :=
          { s.stats with
            currBytes := s.stats.currBytes + (s.mem a).ntotal
            currItems := s.stats.currItems + 1
            totalItems := s.stats.totalItems + 1 } } :=
    Blind.of_mem (fun _ => rfl) fun _ => rfl
  have hqueue : Blind fun s : State => { s with lru := itemLinkQ s.lru a (s.mem a).slabsClsid } :=
    Blind.of_mem (fun _ => rfl) fun _ => rfl
  exact hqueue.comp ((blind_setNewCas a).comp (hinsert.comp hmark))

theorem blind_doItemReplaceDel (hash : Key → BitVec 32) (a b : Addr) :
  Blind fun s => doItemReplaceDel hash s a b
  := (blind_doItemLinkDel hash b).comp (blind_doItemUnlinkDel hash a)

theorem blind_doItemRemoveDel (a : Addr) : Blind fun s => doItemRemoveDel s a := by
  have hrelease : Blind fun s : State => s.modify a fun it => { it with refcount := it.refcount - 1 } :=
    Blind.modify a (fun _ => rfl) (fun _ _ => rfl) fun _ _ => ⟨rfl, rfl⟩
  have hcount : Blind fun s => if (s.mem a).refcount ≠ 0 then
      s.modify a fun it => { it with refcount := it.refcount - 1 } else s :=
    .ite (fun _ => Iff.rfl) hrelease .id
  have hfree : Blind fun s => if (s.mem a).refcount = 0 ∧ (s.mem a).linked = false then itemFreeDel s a
      else s :=
    .ite (fun _ => Iff.rfl) (blind_itemFreeDel a) .id
  exact hfree.comp hcount

/-! ### Allocation and access without looking at data -/

/-- An operation with a result that does not look at data. -/
structure BlindFind (f : State → State × Option Addr) : Prop where
  state : Blind fun s => (f s).1
  result : ∀ s, (f s.headers).2 = (f s).2

theorem BlindFind.pure {f : State → State} {r : Option Addr} (hf : Blind f) :
  BlindFind fun s => (f s, r)
  := ⟨hf, fun _ => rfl⟩

theorem BlindFind.comp {f : State → State} {g : State → State × Option Addr} (hg : BlindFind g)
    (hf : Blind f) :
  BlindFind fun s => g (f s)
  where
  state := hg.state.comp hf
  result s := by rw [← hf.headers, hg.result]

/-- Another operation is tried if the first one finds nothing. -/
theorem BlindFind.orElse {f g : State → State × Option Addr} (hf : BlindFind f) (hg : BlindFind g) :
  BlindFind fun s =>
    match f s with
    | (s, some a) => (s, some a)
    | (s, none) => g s
  := by
  have hcases : ∀ s, f s.headers = ((f s).1.headers, (f s).2) := by
    intro s
    rw [← hf.result s, hf.state.headers]
  refine ⟨⟨?_, ?_⟩, ?_⟩
  · intro s
    rw [hcases]
    rcases hfs : f s with ⟨t, _ | a⟩
    · exact hg.state.headers t
    · rfl
  · intro s
    have htext := hf.state.text s
    rcases hfs : f s with ⟨t, _ | a⟩
    · simp only [hfs] at htext ⊢
      exact htext.trans (hg.state.text t)
    · simp only [hfs] at htext ⊢
      exact htext
  · intro s
    rw [hcases]
    rcases hfs : f s with ⟨t, _ | a⟩
    · exact hg.result t
    · rfl

theorem BlindFind.ite
    {P : State → Prop} [∀ s, Decidable (P s)] {f g : State → State × Option Addr}
    (hP : ∀ s, P s.headers ↔ P s) (hf : BlindFind f) (hg : BlindFind g) :
  BlindFind fun s => if P s then f s else g s
  := by
  have hcases : ∀ s, (P s ∧ (if P s then f s else g s) = f s ∧
        (if P s.headers then f s.headers else g s.headers) = f s.headers) ∨
      ¬P s ∧ (if P s then f s else g s) = g s ∧
        (if P s.headers then f s.headers else g s.headers) = g s.headers := by
    intro s
    by_cases h : P s
    · exact .inl ⟨h, if_pos h, if_pos ((hP s).mpr h)⟩
    · exact .inr ⟨h, if_neg h, if_neg fun h' => h ((hP s).mp h')⟩
  refine ⟨⟨?_, ?_⟩, ?_⟩ <;> intro s
  · obtain ⟨-, h, h'⟩ | ⟨-, h, h'⟩ := hcases s
    · simp only [h, h', hf.state.headers]
    · simp only [h, h', hg.state.headers]
  · obtain ⟨-, h, -⟩ | ⟨-, h, -⟩ := hcases s
    · simp only [h]
      exact hf.state.text s
    · simp only [h]
      exact hg.state.text s
  · obtain ⟨-, h, h'⟩ | ⟨-, h, h'⟩ := hcases s
    · simp only [h, h', hf.result]
    · simp only [h, h', hg.result]

/-- What follows a search that does not look at data. -/
theorem BlindFind.search
    {P : State → Option Addr} {f : Addr → State → State × Option Addr} {g : State → State × Option Addr}
    (hP : ∀ s, P s.headers = P s) (hf : ∀ a, BlindFind (f a)) (hg : BlindFind g) :
  BlindFind fun s =>
    match P s with
    | some a => f a s
    | none => g s
  := by
  refine ⟨⟨?_, ?_⟩, ?_⟩ <;> intro s
  · simp only [hP]
    rcases P s with _ | a
    · exact hg.state.headers s
    · exact (hf a).state.headers s
  · rcases P s with _ | a
    · exact hg.state.text s
    · exact (hf a).state.text s
  · simp only [hP]
    rcases P s with _ | a
    · exact hg.result s
    · exact (hf a).result s

/-- What follows a search, when there is no result. -/
theorem Blind.search
    {P : State → Option Addr} {f : Addr → State → State} (hP : ∀ s, P s.headers = P s)
    (hf : ∀ a, Blind (f a)) :
  Blind fun s =>
    match P s with
    | none => s
    | some a => f a s
  := by
  refine ⟨?_, ?_⟩ <;> intro s
  · simp only [hP]
    rcases P s with _ | a
    · rfl
    · exact (hf a).headers s
  · rcases P s with _ | a
    · exact KeepsText.refl s
    · exact (hf a).text s

theorem blind_memset (ptr len : Nat) : Blind fun s => memset s ptr len where
  headers s := by
    simp only [memset, State.headers]
    congr 1
    funext a
    split <;> rfl
  text s a := by
    simp only [memset]
    split
    · exact .inl rfl
    · exact .inr ⟨rfl, rfl⟩

theorem blind_slabsAllocDel (size id : Nat) : BlindFind fun s => slabsAllocDel s size id := by
  refine ⟨⟨?_, ?_⟩, ?_⟩ <;> intro s <;> simp only [slabsAllocDel]
  · have hslabs : s.headers.slabs = s.slabs := rfl
    rw [hslabs]
    rcases doSlabsAlloc s.slabs size id with ⟨sl, ret, _ | ptr⟩
    · rfl
    · simp only
      rw [← (blind_memset ptr _).headers]
      rfl
  · rcases doSlabsAlloc s.slabs size id with ⟨sl, ret, _ | ptr⟩
    · exact KeepsText.refl s
    · exact (blind_memset ptr (s.slabs.pageLen id)).text s
  · rfl

theorem blind_count (id : Nat) (f : ItemStats → ItemStats) : Blind fun s => s.count id f :=
  Blind.of_mem (fun _ => rfl) fun _ => rfl

theorem blind_stealItem (hash : Key → BitVec 32) (id : Nat) (a : Addr) (ntotal : Nat) :
  Blind fun s => stealItem hash s id a ntotal
  := by
  have hstats : Blind fun s : State =>
      ({ s with stats := { s.stats with reclaimed := s.stats.reclaimed + 1 } }.count id
        fun c => { c with reclaimed := c.reclaimed + 1 }) :=
    Blind.of_mem (fun _ => rfl) fun _ => rfl
  have htake : Blind fun s : State => s.modify a fun it => { it with refcount := 1 } :=
    Blind.modify a (fun _ => rfl) (fun _ _ => rfl) fun _ _ => ⟨rfl, rfl⟩
  have hadjust : Blind fun s : State =>
      { s with
        slabs := slabsAdjustMemRequested s.slabs (s.mem a).slabsClsid (s.mem a).ntotal ntotal } :=
    Blind.of_mem (fun _ => rfl) fun _ => rfl
  have hmark : Blind fun s : State => s.modify a fun it => { it with slabsClsid := 0, refcount := 0 } :=
    Blind.modify a (fun _ => rfl) (fun _ _ => rfl) fun _ _ => ⟨rfl, rfl⟩
  exact hmark.comp ((blind_doItemUnlinkDel hash a).comp (hadjust.comp (htake.comp hstats)))

theorem blind_evictItem (hash : Key → BitVec 32) (id : Nat) : Blind fun s => evictItem hash s id := by
  apply Blind.search (P := fun s => searchTail s id evictable) fun _ => rfl
  intro a
  apply (blind_doItemUnlinkDel hash a).comp
  apply Blind.ite (P := fun s => (s.mem a).exptime = 0 ∨ s.currentTime < (s.mem a).exptime)
  · exact fun _ => Iff.rfl
  · exact Blind.of_mem (fun _ => rfl) fun _ => rfl
  · exact Blind.of_mem (fun _ => rfl) fun _ => rfl

theorem blind_repairItem (hash : Key → BitVec 32) (id : Nat) : Blind fun s => repairItem hash s id := by
  apply Blind.search (P := fun s => searchTail s id (repairable s.currentTime)) fun _ => rfl
  intro a
  have hdrop : Blind fun s : State => s.modify a fun it => { it with refcount := 0 } :=
    Blind.modify a (fun _ => rfl) (fun _ _ => rfl) fun _ _ => ⟨rfl, rfl⟩
  exact (blind_doItemUnlinkDel hash a).comp (hdrop.comp (blind_count id _))

theorem blind_allocChunk (hash : Key → BitVec 32) (ntotal id : Nat) :
  BlindFind fun s => allocChunk hash s ntotal id
  := by
  have hslabs := blind_slabsAllocDel ntotal id
  have hmemory : Blind fun s => outOfMemory s id := blind_count id _
  have hfail : BlindFind fun s => (outOfMemory s id, none) := .pure hmemory
  have hrepair := hslabs.comp ((blind_repairItem hash id).comp hmemory)
  have hevict := (hslabs.comp (blind_evictItem hash id)).orElse hrepair
  have hlast : BlindFind fun s => if s.settings.evictToFree = false then (outOfMemory s id, none)
      else if s.lru.tails id = none then (outOfMemory s id, none)
      else
        match slabsAllocDel (evictItem hash s id) ntotal id with
        | (s, some a) => (s, some a)
        | (s, none) => slabsAllocDel (repairItem hash (outOfMemory s id) id) ntotal id :=
    .ite (fun _ => Iff.rfl) hfail (.ite (fun _ => Iff.rfl) hfail hevict)
  exact .search (P := fun s => searchTail s id (stealable s.currentTime)) (fun _ => rfl)
    (fun a => .pure (blind_stealItem hash id a ntotal)) (hslabs.orElse hlast)

/-! ### Two runs of the operation -/

/-- The same is found in states that differ only behind the data. -/
theorem BlindFind.alike {f : State → State × Option Addr} (hf : BlindFind f) (h : Alike s s') :
  Alike (f s).1 (f s').1 ∧ (f s').2 = (f s).2
  := by
  refine ⟨hf.state.alike h, ?_⟩
  rw [← hf.result s, ← hf.result s', h.headers]

theorem Alike.mem (h : Alike s s') (a : Addr) : (s'.mem a).header = (s.mem a).header := by
  have hmem := congrFun (congrArg State.mem h.headers) a
  exact hmem.symm

/-- What does not depend on the data is the same. -/
theorem Alike.eq {β : Type} (h : Alike s s') (f : Item → β) (hf : ∀ it : Item, f it.header = f it)
    (a : Addr) :
  f (s'.mem a) = f (s.mem a)
  := by
  rw [← hf (s'.mem a), h.mem, hf]

theorem Alike.value (h : Alike s s') (a : Addr) : (s'.mem a).value = (s.mem a).value := by
  rw [Item.value, Item.value, h.nbytes]
  apply List.map_congr_left
  intro i hi
  exact (h.data a i (List.mem_range.mp hi)).symm

/-- The headers decide which item is found, and whether it is alive. -/
theorem Alike.find (h : Alike s s') (hash : Key → BitVec 32) (k : Key) :
  assocFind hash s'.key s'.assoc k = assocFind hash s.key s.assoc k
  := by
  have hfind := congrArg (fun s : State => assocFind hash s.key s.assoc k) h.headers
  exact hfind.symm

theorem Alike.live (h : Alike s s') (a : Addr) : Memcached.live s' a = Memcached.live s a := by
  have hlive := congrArg (fun s : State => Memcached.live s a) h.headers
  exact hlive.symm

theorem Alike.lookup (h : Alike s s') (hash : Key → BitVec 32) (k : Key) :
  s'.lookup hash k = s.lookup hash k
  := by
  have hentry : ∀ a, (s'.mem a).entry = (s.mem a).entry := by
    intro a
    rw [Item.entry, Item.entry, h.value a, h.eq Item.flags (fun _ => rfl), h.eq Item.exptime (fun _ => rfl),
      h.eq Item.getCas (fun _ => rfl)]
  rw [State.lookup, State.lookup, h.find]
  rcases assocFind hash s.key s.assoc k with _ | a
  · rfl
  · simp only [h.live, hentry]

/-- Data that is the same where it belongs to the item. -/
theorem memcpy_congr
    {dst dst' : Nat → UInt8} {i : Nat} (h : dst i = dst' i) (off : Nat) (src : Nat → UInt8) (n : Nat) :
  memcpy dst off src n i = memcpy dst' off src n i
  := by
  rw [memcpy, memcpy, h]

theorem headers_data (s : State) (a : Addr) (f : Item → Nat → UInt8) :
  (s.modify a fun it => { it with data := f it }).headers = s.headers
  := by
  have hmem : (fun b => ((s.modify a fun it => { it with data := f it }).mem b).header)
      = fun b => (s.mem b).header := by
    funext b
    rw [State.mem_modify]
    split
    · next hb =>
      rw [hb]
      rfl
    · rfl
  rw [State.headers, hmem]
  rfl

theorem Alike.overwriteNumber (h : Alike s s') (a : Addr) (buf : List UInt8) :
  Alike (s.overwriteNumber a buf) (s'.overwriteNumber a buf)
  where
  headers := by
    rw [State.overwriteNumber, State.overwriteNumber, headers_data, headers_data, h.headers]
  data b i hi := by
    have hnbytes := h.nbytes b
    simp only [State.overwriteNumber, State.mem_modify] at hi ⊢
    split
    · next hb =>
      subst hb
      rw [if_pos rfl] at hi
      simp only [hnbytes] at hi ⊢
      apply memcpy_congr
      exact memcpy_congr (h.data b i hi) _ _ _
    · next hb =>
      rw [if_neg hb] at hi
      exact h.data b i hi

theorem headers_initItem (s : State) (a : Addr) (id : Nat) (k : Key) (suffix : List UInt8)
    (exptime nbytes : Nat) :
  (initItem s a id k suffix exptime nbytes).headers = initItem s.headers a id k suffix exptime nbytes
  := by
  simp only [initItem]
  rw [← headers_modify]
  · rfl
  · exact fun _ => rfl

/-- A new item whose data is written. -/
theorem Alike.initItem
    (h : Alike s s') (a : Addr) (id : Nat) (k : Key) (suffix : List UInt8) (exptime : Nat)
    (buf : List UInt8) :
  Alike ((Memcached.initItem s a id k suffix exptime (buf.length + 2)).writeNumber a buf)
    ((Memcached.initItem s' a id k suffix exptime (buf.length + 2)).writeNumber a buf)
  where
  headers := by
    rw [State.writeNumber, State.writeNumber, headers_data, headers_data, headers_initItem,
      headers_initItem, h.headers]
  data b i hi := by
    by_cases hb : b = a
    · subst hb
      simp only [State.writeNumber, Memcached.initItem, State.mem_modify_self] at hi ⊢
      have hlength : (buf ++ [13, 10]).length = buf.length + 2 := by simp
      rw [writeText, writeText, memcpy, memcpy, if_pos (by omega), if_pos (by omega)]
    · simp only [State.writeNumber, Memcached.initItem, State.mem_modify_of_ne _ _ _ _ hb] at hi ⊢
      exact h.data b i hi

/-! ### Access without looking at data -/

theorem doItemGetDel_of_dead
    (hfind : assocFind hash s.key s.assoc k = some it) (hlive : live s it = false) :
  doItemGetDel hash s k = (doItemUnlinkDel hash s it, none)
  := by
  rw [live, decide_eq_false_iff_not] at hlive
  simp only [doItemGetDel, hfind]
  split
  · rfl
  · next hflushed =>
    rw [Bool.not_eq_true] at hflushed
    rw [if_pos]
    by_contra hexpired
    exact hlive ⟨hflushed, hexpired⟩

theorem doItemGetDel_of_live
    (hfind : assocFind hash s.key s.assoc k = some it) (hlive : live s it = true) :
  doItemGetDel hash s k
    = (s.modify it fun it => { it with refcount := (it.refcount + 1) % 2 ^ 16 }, some it)
  := by
  simp only [live, decide_eq_true_eq] at hlive
  simp only [doItemGetDel, hfind, hlive.1, if_neg hlive.2, Bool.false_eq_true, if_false]

theorem Alike.access (h : Alike s s') (id : Nat) :
  Alike (s.access id) (s'.access id)
  where
  headers := congrArg (State.access · id) h.headers
  data := h.data

/-- The allocation of an item for a number, in states that differ only behind the data. -/
theorem Alike.doItemAllocDel
    (h : Alike s s') (hash : Key → BitVec 32) (k : Key) (flags : Int) (exptime : Nat) (buf : List UInt8) :
  (∃ t t', Memcached.doItemAllocDel hash s k flags exptime (buf.length + 2) = (t, none) ∧
      Memcached.doItemAllocDel hash s' k flags exptime (buf.length + 2) = (t', none) ∧ Alike t t') ∨
    ∃ t t' new, Memcached.doItemAllocDel hash s k flags exptime (buf.length + 2) = (t, some new) ∧
      Memcached.doItemAllocDel hash s' k flags exptime (buf.length + 2) = (t', some new) ∧
      Alike (t.writeNumber new buf) (t'.writeNumber new buf)
  := by
  have hsize := congrArg (fun s : State => itemSize s k flags (buf.length + 2)) h.headers
  change itemSize s k flags (buf.length + 2) = itemSize s' k flags (buf.length + 2) at hsize
  simp only [Memcached.doItemAllocDel, ← hsize]
  rcases itemSize s k flags (buf.length + 2) with ⟨ntotal, suffix, id⟩
  by_cases hid : id = 0
  · left
    exact ⟨s, s', if_pos hid, if_pos hid, h⟩
  · simp only [if_neg hid]
    obtain ⟨halike, hresult⟩ := (blind_allocChunk hash ntotal id).alike (h.access id)
    rcases hchunk : allocChunk hash (s.access id) ntotal id with ⟨t, ret⟩
    rcases hchunk' : allocChunk hash (s'.access id) ntotal id with ⟨t', ret'⟩
    simp only [hchunk, hchunk'] at halike hresult
    subst hresult
    cases ret' with
    | none => exact .inl ⟨t, t', rfl, rfl, halike⟩
    | some new => exact .inr ⟨_, _, new, rfl, rfl, halike.initItem new id k suffix exptime buf⟩

/-- The writing of the number, in states that differ only behind the data. -/
theorem Alike.deltaWrite (h : Alike s s') (hash : Key → BitVec 32) (it : Addr) (value : Nat)
    (cas : Option Nat) :
  Alike (Memcached.deltaWrite hash s it value cas).1 (Memcached.deltaWrite hash s' it value cas).1 ∧
    (Memcached.deltaWrite hash s' it value cas).2 = (Memcached.deltaWrite hash s it value cas).2
  := by
  have hdone : ∀ {t t' : State} buf, Alike t t' →
      Alike (deltaDone t it buf cas).1 (deltaDone t' it buf cas).1 ∧
        (deltaDone t' it buf cas).2 = (deltaDone t it buf cas).2 := by
    intro t t' buf ht
    refine ⟨(blind_doItemRemoveDel it).alike ht, ?_⟩
    simp only [deltaDone, ht.eq Item.getCas fun _ => rfl]
  simp only [Memcached.deltaWrite]
  have hneeds : needsRealloc (s'.mem it) (Decimal.print value) ↔ needsRealloc (s.mem it) (Decimal.print value) := by
    rw [needsRealloc, needsRealloc, h.nbytes, h.eq Item.refcount fun _ => rfl]
  simp only [hneeds]
  split
  · simp only [State.key, h.eq Item.key (fun _ => rfl), h.eq Item.suffixFlags (fun _ => rfl),
      h.eq Item.exptime (fun _ => rfl)]
    obtain ⟨t, t', ht, ht', halike⟩ | ⟨t, t', new, ht, ht', halike⟩ := h.doItemAllocDel hash
      (s.mem it).key (s.mem it).suffixFlags (s.mem it).exptime (Decimal.print value)
    · simp only [ht, ht']
      exact ⟨(blind_doItemRemoveDel it).alike halike, trivial⟩
    · simp only [ht, ht']
      apply hdone
      exact (blind_doItemRemoveDel new).alike ((blind_doItemReplaceDel hash it new).alike halike)
  · exact hdone _ (((blind_setNewCas it).alike h).overwriteNumber it _)

/-! ### The bytes behind an item -/

/-- The bytes behind the data of an item changed. -/
def State.behind (s : State) (a : Addr) (t : Nat → UInt8) : State :=
  s.modify a fun it =>
    { it with data := fun i => if i < it.nbytes then it.data i else t (i - it.nbytes) }

/-- What one sees of a call: what the caller gets, and what the key maps to afterwards. -/
def deltaOutcome (hash : Key → BitVec 32) (k : Key) (r : State × DeltaReply) :
    DeltaReply × Option Entry :=
  (r.2, r.1.lookup hash k)

theorem Alike.symm (h : Alike s s') : Alike s' s where
  headers := h.headers.symm
  data a i hi := by
    rw [h.nbytes] at hi
    exact (h.data a i hi).symm

theorem Alike.trans (h : Alike s s') (h' : Alike s' s'') : Alike s s'' where
  headers := h.headers.trans h'.headers
  data a i hi := by
    rw [h.data a i hi]
    apply h'.data
    rw [h.nbytes]
    exact hi

theorem alike_behind (s : State) (a : Addr) (t : Nat → UInt8) :
  Alike s (s.behind a t)
  where
  headers := (headers_data s a _).symm
  data b i hi := by
    rw [State.behind, State.mem_modify]
    split
    · next hb =>
      subst hb
      exact (if_pos hi).symm
    · rfl

theorem text_behind (s : State) (a : Addr) (t : Nat → UInt8) (n : Nat) :
  ((s.behind a t).mem a).text n = (s.mem a).value ++ (List.range n).map t
  := by
  rw [State.behind, State.mem_modify_self, Item.text, Item.value, Item.value]
  congr 1
  · apply List.map_congr_left
    intro i hi
    exact if_pos (List.mem_range.mp hi)
  · apply List.map_congr_left
    intro i _
    simp

/-- What a call does for a key with a live item. -/
theorem doAddDeltaDel_of_live
    (hfind : assocFind hash s.key s.assoc k = some it) (hlive : live s it = true) (behind : Nat)
    (incr : Bool) (delta : BitVec 64) (cas : Option Nat) :
  doAddDeltaDel hash behind s k incr delta cas
    = let s₁ := s.modify it fun it => { it with refcount := (it.refcount + 1) % 2 ^ 16 }
      if deltaMismatch (s.mem it) cas then (doItemRemoveDel s₁ it, ⟨.itemCasMismatch, [], cas⟩)
      else
        match safeStrtoull ((s.mem it).text behind) with
        | none => (doItemRemoveDel s₁ it, ⟨.nonNumeric, [], cas⟩)
        | some value => deltaWrite hash s₁ it (deltaValue incr value delta) cas
  := by
  have hself := State.mem_modify_self s it fun it => { it with refcount := (it.refcount + 1) % 2 ^ 16 }
  have hmismatch : deltaMismatch { s.mem it with refcount := ((s.mem it).refcount + 1) % 2 ^ 16 } cas
      ↔ deltaMismatch (s.mem it) cas := Iff.rfl
  have htext : Item.text { s.mem it with refcount := ((s.mem it).refcount + 1) % 2 ^ 16 } behind
      = (s.mem it).text behind := rfl
  simp only [doAddDeltaDel, doItemGetDel_of_live hfind hlive, hself, hmismatch, htext]

theorem map_getD (l : List UInt8) :
  (List.range l.length).map (fun i => l.getD i 0) = l
  := by
  apply List.ext_getElem
  · simp
  · intro i _ hi
    simp [List.getElem?_eq_getElem hi]

theorem deltaWrite_result (hash : Key → BitVec 32) (s : State) (it : Addr) (value : Nat) (cas : Option Nat) :
  (deltaWrite hash s it value cas).2.result ≠ .nonNumeric
  := by
  simp only [deltaWrite]
  split
  · split
    · nofun
    · nofun
  · nofun

/-- `do_add_delta_del` depends only on the item of the key, which ends in `\r\n`, and not on
what lies behind it, if and only if the data is enough to read a number from it, when it
comes to that. -/
theorem delta_local_iff
    (hash : Key → BitVec 32) (s : State) (k : Key) (incr : Bool) (delta : BitVec 64) (cas : Option Nat)
    (it : Addr) (hfind : assocFind hash s.key s.assoc k = some it) (hcrlf : EndsInCrlf (s.mem it).value) :
  (∀ (t t' : Nat → UInt8) (n n' : Nat),
      deltaOutcome hash k (doAddDeltaDel hash n (s.behind it t) k incr delta cas)
        = deltaOutcome hash k (doAddDeltaDel hash n' (s.behind it t') k incr delta cas))
    ↔ (live s it = true → ¬deltaMismatch (s.mem it) cas → SelfContained (s.mem it).value)
  := by
  have hfind₁ : ∀ t, assocFind hash (s.behind it t).key (s.behind it t).assoc k = some it := by
    intro t
    rw [(alike_behind s it t).find, hfind]
  have hmismatch : ∀ t, deltaMismatch ((s.behind it t).mem it) cas ↔ deltaMismatch (s.mem it) cas := by
    intro t
    rw [deltaMismatch, deltaMismatch, (alike_behind s it t).eq Item.getCas fun _ => rfl]
  have hlive₁ : ∀ t, live (s.behind it t) it = live s it := fun t => (alike_behind s it t).live it
  constructor
  · intro hsame hlive hmatch
    by_contra hself
    obtain ⟨l, l', hnone, hsome⟩ := exists_safeStrtoull hself hcrlf
    have hcall : ∀ l : List UInt8, ((doAddDeltaDel hash l.length (s.behind it fun i => l.getD i 0) k incr
        delta cas).2.result = .nonNumeric ↔ safeStrtoull ((s.mem it).value ++ l) = none) := by
      intro l
      rw [doAddDeltaDel_of_live (hfind₁ _) ((hlive₁ _).trans hlive)]
      simp only [hmismatch, if_neg hmatch, text_behind, map_getD]
      rcases safeStrtoull ((s.mem it).value ++ l) with _ | value
      · exact iff_of_true rfl rfl
      · exact iff_of_false (deltaWrite_result hash _ it _ cas) (Option.some_ne_none value)
    have hresult := congrArg (fun r => r.1.result) (hsame (fun i => l.getD i 0) (fun i => l'.getD i 0)
      l.length l'.length)
    have hnone' := (hcall l').mp (hresult.symm.trans ((hcall l).mpr hnone))
    rw [hnone'] at hsome
    cases hsome
  · intro hcond t t' n n'
    have halike := (alike_behind s it t).symm.trans (alike_behind s it t')
    suffices hcall : Alike (doAddDeltaDel hash n (s.behind it t) k incr delta cas).1
          (doAddDeltaDel hash n' (s.behind it t') k incr delta cas).1 ∧
        (doAddDeltaDel hash n' (s.behind it t') k incr delta cas).2
          = (doAddDeltaDel hash n (s.behind it t) k incr delta cas).2 by
      rw [deltaOutcome, deltaOutcome, hcall.1.lookup, hcall.2]
    by_cases hlive : live s it = true
    · have htake : Blind fun s : State => s.modify it fun it => { it with refcount := (it.refcount + 1) % 2 ^ 16 } :=
        Blind.modify it (fun _ => rfl) (fun _ _ => rfl) fun _ _ => ⟨rfl, rfl⟩
      have hremove := (blind_doItemRemoveDel it).alike (htake.alike halike)
      rw [doAddDeltaDel_of_live (hfind₁ t) ((hlive₁ t).trans hlive),
        doAddDeltaDel_of_live (hfind₁ t') ((hlive₁ t').trans hlive)]
      simp only [hmismatch, text_behind]
      by_cases hmatch : deltaMismatch (s.mem it) cas
      · simp only [if_pos hmatch]
        exact ⟨hremove, trivial⟩
      · simp only [if_neg hmatch]
        rw [(hcond hlive hmatch).safeStrtoull hcrlf ((List.range n').map t') ((List.range n).map t)]
        rcases safeStrtoull ((s.mem it).value ++ (List.range n).map t) with _ | value
        · exact ⟨hremove, rfl⟩
        · exact (htake.alike halike).deltaWrite hash it (deltaValue incr value delta) cas
    · rw [Bool.not_eq_true] at hlive
      simp only [doAddDeltaDel, doItemGetDel_of_dead (hfind₁ _) ((hlive₁ _).trans hlive)]
      exact ⟨(blind_doItemUnlinkDel hash it).alike halike, trivial⟩

/-- An item with the text `t` is stored under the key `[1]`. -/
def numberState (t : List UInt8) : State :=
  (itemRun (fun _ => 0) (State.init (smallConfig 0)) (fun _ => 0)
    [.alloc [1] 0 0 t.length, .fill 8 fun i => t.getD i 0, .link 8, .remove 8]).1

/-- For a small number nothing else matters. -/
theorem delta_local_iff_small :
  (∀ (t t' : Nat → UInt8) (n n' : Nat),
      deltaOutcome (fun _ => 0) [1]
          (doAddDeltaDel (fun _ => 0) n ((numberState [53, 53, 13, 10]).behind 8 t) [1] true 1 none)
        = deltaOutcome (fun _ => 0) [1]
          (doAddDeltaDel (fun _ => 0) n' ((numberState [53, 53, 13, 10]).behind 8 t') [1] true 1 none))
    ↔ (live (numberState [53, 53, 13, 10]) 8 = true →
        ¬deltaMismatch ((numberState [53, 53, 13, 10]).mem 8) none →
        SelfContained ((numberState [53, 53, 13, 10]).mem 8).value)
  := by
  apply delta_local_iff
  · decide +kernel
  · exact ⟨[53, 53], by decide +kernel⟩

/-- The number `2 ^ 63` is not accepted if a `-` comes behind the item. -/
theorem delta_not_local :
  ((numberState (Decimal.print (2 ^ 63) ++ [13, 10])).mem 8).value = Decimal.print (2 ^ 63) ++ [13, 10] ∧
    (doAddDeltaDel (fun _ => 0) 1 ((numberState (Decimal.print (2 ^ 63) ++ [13, 10])).behind 8 fun _ => 45)
        [1] true 1 none).2.result = .nonNumeric ∧
    (doAddDeltaDel (fun _ => 0) 1 ((numberState (Decimal.print (2 ^ 63) ++ [13, 10])).behind 8 fun _ => 0)
        [1] true 1 none).2.result = .ok
  := by
  decide +kernel

end Memcached
