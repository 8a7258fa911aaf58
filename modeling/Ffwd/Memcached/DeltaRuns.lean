import Ffwd.Memcached.Delta

/-!
# Sequences of increments and decrements

An item that holds a number holds the new number after a call, whether it has been updated
in place or replaced, and keeps its flags and its expiry time. Between the calls others may
do what they like, except that they store nothing under the key: the item may be dropped,
referred to and accessed, and the bytes behind its data may change.
-/

namespace Memcached

open Linked

/-! ### Items that hold a number -/

/-- `INCR_MAX_STORAGE_LEN`. -/
def incrMaxStorageLen : Nat := 24

/-- The data begins with a numeral, behind which comes a blank or a zero. -/
def BeginsWithNumeral (d : List UInt8) (v : Nat) : Prop :=
  ∃ b ds c t, d = b ++ ds ++ c :: t ∧ (∀ x ∈ b, Decimal.isSpace x = true) ∧
    (∀ x ∈ ds, Decimal.isDigit x = true) ∧ ds ≠ [] ∧ Decimal.value ds = v ∧
    (Decimal.isSpace c = true ∨ c = 0)

/-- The item holds the number `v`. It ends in `\r\n`, unless it is as large as those that
are created with a number and a zero behind it. -/
structure HoldsNumber (it : Item) (v : Nat) : Prop where
  numeral : BeginsWithNumeral it.value v
  lt : v < 2 ^ 64
  ends : EndsInCrlf it.value ∨ incrMaxStorageLen ≤ it.nbytes

/-- What `safe_strtoull` makes of an item that holds a number. -/
theorem HoldsNumber.safeStrtoull {it : Item} {v : Nat} (h : HoldsNumber it v) (behind : Nat) :
  Memcached.safeStrtoull (it.text behind)
    = if 2 ^ 63 ≤ v ∧ 45 ∈ cString (it.text behind) then none else some v
  := by
  obtain ⟨b, ds, c, t, hvalue, hb, hds, hne, rfl, hc⟩ := h.numeral
  have htext : it.text behind
      = b ++ ds ++ c :: (t ++ (List.range behind).map fun i => it.data (it.nbytes + i)) := by
    rw [Item.text, hvalue]
    simp
  rw [htext]
  exact safeStrtoull_numeral hb hds hne h.lt hc _

/-- The number is read, unless it is large and the string contains a `-`. -/
theorem HoldsNumber.safeStrtoull_iff {it : Item} {v : Nat} (h : HoldsNumber it v) (behind : Nat) :
  Memcached.safeStrtoull (it.text behind) = some v ↔ v < 2 ^ 63 ∨ 45 ∉ cString (it.text behind)
  := by
  rw [h.safeStrtoull]
  split
  · next hlarge =>
    apply iff_of_false (Option.some_ne_none v).symm
    rintro (hsmall | hminus)
    · omega
    · exact hminus hlarge.2
  · next hnot =>
    apply iff_of_true rfl
    by_cases hlarge : 2 ^ 63 ≤ v
    · exact .inr fun hminus => hnot ⟨hlarge, hminus⟩
    · exact .inl (by omega)

theorem HoldsNumber.eq_of_safeStrtoull {it : Item} {v w behind : Nat} (h : HoldsNumber it v)
    (hread : Memcached.safeStrtoull (it.text behind) = some w) :
  w = v
  := by
  rw [h.safeStrtoull] at hread
  split at hread
  · cases hread
  · exact (Option.some.inj hread).symm

/-- A numeral that has been written at the beginning of data. -/
theorem beginsWithNumeral_print (v : Nat) {c : UInt8} (hc : Decimal.isSpace c = true) (t : List UInt8) :
  BeginsWithNumeral (Decimal.print v ++ c :: t) v
  := ⟨[], Decimal.print v, c, t, rfl, (fun _ hx => nomatch hx), fun _ hx => Decimal.isDigit_of_mem_print hx,
    Decimal.print_ne_nil v, Decimal.value_print v, .inl hc⟩

theorem deltaValue_lt (incr : Bool) {v : Nat} (hv : v < 2 ^ 64) (delta : BitVec 64) :
  deltaValue incr v delta < 2 ^ 64
  := by
  rw [deltaValue]
  split
  · exact Nat.mod_lt _ (by decide)
  · split <;> omega

/-- The numeral of a 64-bit number has twenty digits at most. -/
theorem length_print_le {v : Nat} (hv : v < 2 ^ 64) : (Decimal.print v).length ≤ 20 :=
  Decimal.length_print_le (by decide) (lt_trans hv (by decide))

/-! ### Data that has been written -/

/-- The last two bytes of an item. -/
theorem endsInCrlf_iff (it : Item) :
  EndsInCrlf it.value ↔ 2 ≤ it.nbytes ∧ it.data (it.nbytes - 2) = 13 ∧ it.data (it.nbytes - 1) = 10
  := by
  constructor
  · rintro ⟨e, he⟩
    have hlength : it.nbytes = e.length + 2 := by
      rw [← length_value, he]
      simp
    have hget : ∀ i (hi : i < it.nbytes), it.data i = (e ++ [13, 10]).getD i 0 := by
      intro i hi
      rw [← he, Item.value, List.getD_eq_getElem?_getD, List.getElem?_map, List.getElem?_range hi]
      rfl
    refine ⟨by omega, ?_, ?_⟩
    · rw [hget _ (by omega), hlength]
      simp
    · rw [hget _ (by omega), hlength]
      simp
  · rintro ⟨hle, h13, h10⟩
    obtain ⟨n, hn⟩ : ∃ n, it.nbytes = n + 2 := ⟨it.nbytes - 2, by omega⟩
    simp only [hn, Nat.add_sub_cancel, show n + 2 - 1 = n + 1 by omega] at h13 h10
    use (List.range n).map it.data
    rw [Item.value, hn, List.range_add, List.map_append, ← h13, ← h10]
    rfl

theorem map_writeText (dst : Nat → UInt8) (buf : List UInt8) :
  (List.range buf.length).map (writeText dst buf) = buf
  := by
  have hcongr : (List.range buf.length).map (writeText dst buf)
      = (List.range buf.length).map fun i => buf.getD i 0 := by
    apply List.map_congr_left
    intro i hi
    rw [List.mem_range] at hi
    rw [writeText, memcpy, if_pos (by omega), Nat.sub_zero]
  rw [hcongr, map_getD]

/-- The data of a new item. -/
theorem value_writeNumber {s : State} {new : Addr} {buf : List UInt8}
    (hnbytes : (s.mem new).nbytes = buf.length + 2) :
  ((s.writeNumber new buf).mem new).value = buf ++ [13, 10]
  := by
  have hlength : buf.length + 2 = (buf ++ [13, 10]).length := by simp
  rw [State.writeNumber, State.mem_modify_self, Item.value]
  simp only [hnbytes, hlength]
  exact map_writeText _ _

/-- The data of an item that has been updated in place. -/
theorem value_overwriteNumber {s : State} {a : Addr} {buf : List UInt8}
    (hnbytes : buf.length + 2 ≤ (s.mem a).nbytes) :
  ((s.overwriteNumber a buf).mem a).value
    = buf ++ List.replicate ((s.mem a).nbytes - buf.length - 2) 32 ++
      [(s.mem a).data ((s.mem a).nbytes - 2), (s.mem a).data ((s.mem a).nbytes - 1)]
  := by
  obtain ⟨n, hn⟩ : ∃ n, (s.mem a).nbytes = buf.length + n + 2 := ⟨(s.mem a).nbytes - buf.length - 2, by omega⟩
  rw [State.overwriteNumber, State.mem_modify_self, Item.value]
  simp only [hn]
  rw [show buf.length + n + 2 - buf.length - 2 = n by omega, show buf.length + n + 2 - 2 = buf.length + n by omega,
    show buf.length + n + 2 - 1 = buf.length + n + 1 by omega, List.range_add, List.range_add, List.map_append,
    List.map_append, List.map_map, List.map_map]
  congr 1
  · congr 1
    · trans (List.range buf.length).map (writeText (s.mem a).data buf)
      · apply List.map_congr_left
        intro i hi
        rw [List.mem_range] at hi
        rw [memcpy, if_neg (by omega)]
      · exact map_writeText _ _
    · apply List.ext_getElem
      · simp
      · intro i hi hi'
        simp only [List.length_map, List.length_range] at hi
        simp [memcpy, hi]
  · simp only [List.range_succ, List.range_zero, List.nil_append, List.map_cons,
      List.map_nil, Function.comp_apply, List.cons_append, memcpy, writeText]
    rw [if_neg (by omega), if_neg (by omega), if_neg (by omega), if_neg (by omega)]
    rfl

/-! ### Items with the same text -/

/-- The items hold the same data, with the same flags and the same expiry time. -/
structure Item.SameText (it it' : Item) : Prop where
  nbytes : it'.nbytes = it.nbytes
  value : it'.value = it.value
  suffix : it'.suffix = it.suffix
  exptime : it'.exptime = it.exptime
  hasCas : it'.hasCas = it.hasCas

/-- The item holds the number `v`, with given flags and a given expiry time. -/
structure Numbered (s : State) (a : Addr) (v : Nat) (flags : Int) (exptime : Nat) : Prop where
  number : HoldsNumber (s.mem a) v
  proper : Proper s a
  flags : (s.mem a).flags = flags
  exptime : (s.mem a).exptime = exptime

/-- The item under the key, if there is one, holds the number `v`. -/
def KeyHolds (hash : Key → BitVec 32) (s : State) (k : Key) (v : Nat) (flags : Int) (exptime : Nat) :
    Prop :=
  ∀ a, assocFind hash s.key s.assoc k = some a → Numbered s a v flags exptime

variable {hash : Key → BitVec 32} {s s' s'' : State} {refs : Refs} {A A' : Finset Addr}
  {ls : Nat → List Addr} {a b it new : Addr} {k : Key} {v : Nat} {flags : Int} {exptime : Nat}

theorem Item.SameText.refl (it : Item) : it.SameText it := ⟨rfl, rfl, rfl, rfl, rfl⟩

theorem Item.SameText.trans {it it' it'' : Item} (h : it.SameText it') (h' : it'.SameText it'') :
  it.SameText it''
  := ⟨h'.nbytes.trans h.nbytes, h'.value.trans h.value, h'.suffix.trans h.suffix,
    h'.exptime.trans h.exptime, h'.hasCas.trans h.hasCas⟩

theorem Item.sameText_of_content {it it' : Item} (h : it'.content = it.content) : it.SameText it' where
  nbytes := Item.eq_of_content Item.nbytes (fun _ => rfl) h
  value := Item.eq_of_content Item.value (fun _ => rfl) h
  suffix := Item.eq_of_content Item.suffix (fun _ => rfl) h
  exptime := Item.eq_of_content Item.exptime (fun _ => rfl) h
  hasCas := Item.eq_of_content Item.hasCas (fun _ => rfl) h

theorem Numbered.congr
    (h : Numbered s a v flags exptime) (huse : s'.settings.useCas = s.settings.useCas)
    (hsame : (s.mem a).SameText (s'.mem a)) :
  Numbered s' a v flags exptime
  where
  number := by
    refine ⟨?_, h.number.lt, ?_⟩
    · rw [hsame.value]
      exact h.number.numeral
    · rw [hsame.value, hsame.nbytes]
      exact h.number.ends
  proper := by
    refine ⟨?_, ?_, ?_⟩
    · rw [hsame.nbytes]
      exact h.proper.crlf
    · rw [hsame.suffix, hsame.nbytes]
      exact h.proper.suffix
    · rw [hsame.hasCas, huse]
      exact h.proper.hasCas
  flags := by
    rw [Item.flags, hsame.suffix]
    exact h.flags
  exptime := hsame.exptime.trans h.exptime

/-! ### Releasing a reference -/

/-- What releasing a reference leaves as it is, whoever holds references. -/
structure Releases (s s' : State) : Prop where
  assoc : s'.assoc = s.assoc
  key : s'.key = s.key
  settings : s'.settings = s.settings
  sameText : ∀ b, (s.mem b).SameText (s'.mem b)
  getCas : ∀ b, (s'.mem b).getCas = (s.mem b).getCas

theorem releases_modify
    (s : State) (a : Addr) {f : Item → Item}
    (hf : ∀ it, (f it).key = it.key ∧ it.SameText (f it) ∧ (f it).getCas = it.getCas) :
  Releases s (s.modify a f)
  where
  assoc := rfl
  key := by
    funext b
    rw [State.key, State.key, State.mem_modify]
    split
    · next hb =>
      rw [hb]
      exact (hf _).1
    · rfl
  settings := rfl
  sameText b := by
    rw [State.mem_modify]
    split
    · next hb =>
      rw [hb]
      exact (hf _).2.1
    · exact Item.SameText.refl _
  getCas b := by
    rw [State.mem_modify]
    split
    · next hb =>
      rw [hb]
      exact (hf _).2.2
    · rfl

theorem Releases.trans (h : Releases s s') (h' : Releases s' s'') : Releases s s'' where
  assoc := h'.assoc.trans h.assoc
  key := h'.key.trans h.key
  settings := h'.settings.trans h.settings
  sameText b := (h.sameText b).trans (h'.sameText b)
  getCas b := (h'.getCas b).trans (h.getCas b)

theorem Releases.refl (s : State) : Releases s s where
  assoc := rfl
  key := rfl
  settings := rfl
  sameText _ := Item.SameText.refl _
  getCas _ := rfl

theorem releases_itemFreeDel (s : State) (a : Addr) : Releases s (itemFreeDel s a) := by
  obtain ⟨hassoc, hkey, hsettings, hsame, hcas⟩ :=
    releases_modify s a (f := fun it => { it with slabsClsid := 0, slabbed := true })
      fun it => ⟨rfl, ⟨rfl, rfl, rfl, rfl, rfl⟩, rfl⟩
  exact ⟨hassoc, hkey, hsettings, hsame, hcas⟩

theorem releases_doItemRemoveDel (s : State) (a : Addr) : Releases s (doItemRemoveDel s a) := by
  have hcount := releases_modify s a (f := fun it => { it with refcount := it.refcount - 1 })
    fun it => ⟨rfl, ⟨rfl, rfl, rfl, rfl, rfl⟩, rfl⟩
  have hfree : ∀ s, Releases s (if (s.mem a).refcount = 0 ∧ (s.mem a).linked = false then itemFreeDel s a
      else s) := by
    intro s
    split
    · exact releases_itemFreeDel s a
    · exact Releases.refl s
  simp only [doItemRemoveDel]
  by_cases hzero : (s.mem a).refcount ≠ 0
  · rw [if_pos hzero]
    exact hcount.trans (hfree _)
  · rw [if_neg hzero]
    exact hfree s

theorem Releases.find (h : Releases s s') (hash : Key → BitVec 32) (k : Key) :
  assocFind hash s'.key s'.assoc k = assocFind hash s.key s.assoc k
  := by
  rw [h.assoc, h.key]

theorem KeyHolds.releases (h : KeyHolds hash s k v flags exptime) (hreleases : Releases s s') :
  KeyHolds hash s' k v flags exptime
  := by
  intro a ha
  rw [hreleases.find] at ha
  exact (h a ha).congr (congrArg Settings.useCas hreleases.settings) (hreleases.sameText a)

/-- A change of memory that is not in use. -/
theorem Lifecycle.modify_unused
    (h : Lifecycle hash s refs A ls) (hunused : (s.mem a).slabsClsid = 0) {f : Item → Item}
    (hf : (f (s.mem a)).slabsClsid = 0 ∧ (f (s.mem a)).linked = false ∧ (f (s.mem a)).key = (s.mem a).key) :
  Lifecycle hash (s.modify a f) refs A ls
  := by
  have hne : ∀ b ∈ A, b ≠ a := by
    rintro b hb rfl
    exact (h.used_linked b hb).1 hunused
  have hold : ∀ b ∈ A, (s.modify a f).mem b = s.mem b := fun b hb => State.mem_modify_of_ne _ _ _ _ (hne b hb)
  have hkey : (s.modify a f).key = s.key := by
    funext b
    rw [State.key, State.key, State.mem_modify]
    split
    · next hb => rw [hb, hf.2.2]
    · rfl
  have hclsid : ∀ b, ((s.modify a f).mem b).slabsClsid = (s.mem b).slabsClsid := by
    intro b
    rw [State.mem_modify]
    split
    · next hb => rw [hb, hf.1, hunused]
    · rfl
  have hused : ∀ b, (s.mem b).slabsClsid ≠ 0 → (s.modify a f).mem b = s.mem b := by
    intro b hb
    apply State.mem_modify_of_ne
    rintro rfl
    exact hb hunused
  constructor
  · intro b
    rw [h.linked, State.mem_modify]
    split
    · next hb =>
      rw [hb, hf.2.1, ← h.linked]
      exact iff_of_false (fun ha => hne a ha rfl) Bool.false_ne_true
    · rfl
  · rw [hkey]
    exact h.table
  · exact h.lists
  · intro id b
    rw [hclsid]
    exact h.listed id b
  · intro id
    apply (h.sorted id).imp_of_mem
    intro b c hb hc hle
    rw [hold b ((h.listed id b).mp hb).1, hold c ((h.listed id c).mp hc).1]
    exact hle
  · intro b hb
    rw [hold b hb]
    exact h.past b hb
  · exact h.currItems
  · have hbytes : (s.modify a f).stats.currBytes = s.stats.currBytes := rfl
    rw [hbytes, h.currBytes]
    apply Finset.sum_congr rfl
    intro b hb
    rw [hold b hb]
  · exact h.slabs
  · intro id b hb
    rw [hclsid]
    exact h.unused id b hb
  · intro b
    rw [hclsid]
    exact h.used_lt b
  · intro b hb
    rw [hold b hb]
    exact h.used_linked b hb
  · intro b hb
    rw [hused b (h.used_refs b hb).1]
    exact h.used_refs b hb
  · intro b hb
    rw [hclsid] at hb
    rw [hused b hb]
    exact h.refcount b hb

/-- Memory that is not in use is not freed again. -/
theorem itemFreeDel_of_unused (hunused : (s.mem a).slabsClsid = 0) :
  itemFreeDel s a = s.modify a fun it => { it with slabsClsid := 0, slabbed := true }
  := by
  simp only [itemFreeDel, hunused]
  rfl

theorem Lifecycle.free_unused
    (h : Lifecycle hash s refs A ls) (hunused : (s.mem a).slabsClsid = 0)
    (hlinked : (s.mem a).linked = false) :
  Lifecycle hash (Memcached.itemFreeDel s a) refs A ls
  := by
  rw [itemFreeDel_of_unused hunused]
  exact h.modify_unused hunused ⟨rfl, hlinked, rfl⟩

/-- Whatever reference is released, the items stay consistent, for some references. -/
theorem Lifecycle.exists_doItemRemoveDel (h : Lifecycle hash s refs A ls) (a : Addr) :
  ∃ refs', Lifecycle hash (Memcached.doItemRemoveDel s a) refs' A ls
  := by
  by_cases hunused : (s.mem a).slabsClsid = 0
  · have hlinked : (s.mem a).linked = false := by
      rw [← Bool.not_eq_true, ← h.linked]
      exact fun ha => (h.used_linked a ha).1 hunused
    have hfree : ∀ {s : State}, Lifecycle hash s refs A ls → (s.mem a).slabsClsid = 0 →
        (s.mem a).linked = false → Lifecycle hash
          (if (s.mem a).refcount = 0 ∧ (s.mem a).linked = false then Memcached.itemFreeDel s a else s)
          refs A ls := by
      intro s h hunused hlinked
      split
      · exact h.free_unused hunused hlinked
      · exact h
    use refs
    simp only [Memcached.doItemRemoveDel]
    by_cases hzero : (s.mem a).refcount ≠ 0
    · rw [if_pos hzero]
      apply hfree (h.modify_unused hunused ⟨hunused, hlinked, rfl⟩)
      · rw [State.mem_modify_self]
        exact hunused
      · rw [State.mem_modify_self]
        exact hlinked
    · rw [if_neg hzero]
      exact hfree h hunused hlinked
  · by_cases hrefs : refs a = 0
    · have hzero : (s.mem a).refcount = 0 := (h.refcount a hunused).trans hrefs
      have hremove : Memcached.doItemRemoveDel s a
          = if (s.mem a).linked = false then Memcached.itemFreeDel s a else s := by
        simp only [Memcached.doItemRemoveDel, hzero, ne_eq, not_true_eq_false, if_false, true_and]
      use refs
      rw [hremove]
      split
      · next hlinked =>
        apply h.itemFreeDel _ hrefs hunused
        rw [h.linked, hlinked]
        exact Bool.false_ne_true
      · exact h
    · exact ⟨_, h.doItemRemoveDel hrefs⟩

/-! ### One call -/

/-- The items are consistent, for some references, linked items and lists. -/
def Sound (hash : Key → BitVec 32) (s : State) : Prop :=
  ∃ refs A ls, Lifecycle hash s refs A ls

/-- What a call does, when the item under the key holds the number `v`: if it succeeds, the
new number is in `buf` and in the item under the key, and otherwise that item is as it was. -/
structure DeltaStep (hash : Key → BitVec 32) (k : Key) (incr : Bool) (delta : BitVec 64) (v : Nat)
    (flags : Int) (exptime : Nat) (r : State × DeltaReply) : Prop where
  sound : Sound hash r.1
  ok : r.2.result = .ok →
    r.2.buf = Decimal.print (deltaValue incr v delta) ∧
      KeyHolds hash r.1 k (deltaValue incr v delta) flags exptime
  failed : r.2.result ≠ .ok → KeyHolds hash r.1 k v flags exptime

theorem Sound.doItemRemoveDel (h : Sound hash s) (a : Addr) : Sound hash (Memcached.doItemRemoveDel s a) := by
  obtain ⟨refs, A, ls, h⟩ := h
  obtain ⟨refs', h'⟩ := h.exists_doItemRemoveDel a
  exact ⟨refs', A, ls, h'⟩

/-- A call that fails releases its reference. -/
theorem DeltaStep.fail
    {incr : Bool} {delta : BitVec 64} (h : Sound hash s) (hholds : KeyHolds hash s k v flags exptime)
    {reply : DeltaReply} (hreply : reply.result ≠ .ok) :
  DeltaStep hash k incr delta v flags exptime (doItemRemoveDel s it, reply)
  where
  sound := h.doItemRemoveDel it
  ok hok := absurd hok hreply
  failed _ := hholds.releases (releases_doItemRemoveDel s it)

/-- A call that has written the new number releases its reference. -/
theorem DeltaStep.done
    {incr : Bool} {delta : BitVec 64} (h : Sound hash s)
    (hholds : KeyHolds hash s k (deltaValue incr v delta) flags exptime) (cas : Option Nat) :
  DeltaStep hash k incr delta v flags exptime
    (deltaDone s it (Decimal.print (deltaValue incr v delta)) cas)
  where
  sound := h.doItemRemoveDel it
  ok _ := ⟨rfl, hholds.releases (releases_doItemRemoveDel s it)⟩
  failed hok := absurd rfl hok

theorem suffixFlags_eq {s : State} {a : Addr} (h : Proper s a) : (s.mem a).suffixFlags = (s.mem a).flags := by
  obtain ⟨flags, -, -, hsuffix⟩ := h.suffix
  have hblank : ∀ l, Decimal.strtol (32 :: l) = Decimal.strtol l := fun l => rfl
  rw [Item.suffixFlags, Item.flags, hsuffix, suffixOf]
  simp only [List.cons_append, List.drop_succ_cons, List.drop_zero, hblank]

/-- The number is written in place. -/
theorem Numbered.overwriteNumber
    (h : Numbered s a v flags exptime) {w : Nat} (hw : w < 2 ^ 64)
    (hnbytes : (Decimal.print w).length + 2 ≤ (s.mem a).nbytes) :
  Numbered (s.overwriteNumber a (Decimal.print w)) a w flags exptime
  := by
  have hself : (s.overwriteNumber a (Decimal.print w)).mem a
      = { s.mem a with data := ((s.overwriteNumber a (Decimal.print w)).mem a).data } := by
    rw [State.overwriteNumber, State.mem_modify_self]
  have hvalue := value_overwriteNumber hnbytes
  have hlength := length_print_le hw
  have hends := h.number.ends
  rw [endsInCrlf_iff] at hends
  refine ⟨⟨?_, hw, ?_⟩, ⟨?_, ?_, ?_⟩, ?_, ?_⟩
  · rw [hvalue]
    rcases hblanks : (s.mem a).nbytes - (Decimal.print w).length - 2 with _ | n
    · obtain ⟨-, h13, -⟩ := hends.resolve_right (by
        rw [incrMaxStorageLen]
        omega)
      rw [List.replicate_zero, List.append_nil, h13]
      exact beginsWithNumeral_print w (by decide) _
    · rw [List.append_assoc, List.replicate_succ, List.cons_append]
      exact beginsWithNumeral_print w (by decide) _
  · rw [hvalue, hself]
    apply hends.imp_left
    rintro ⟨-, h13, h10⟩
    rw [h13, h10]
    exact ⟨_, rfl⟩
  · rw [hself]
    exact h.proper.crlf
  · rw [hself]
    exact h.proper.suffix
  · rw [hself]
    exact h.proper.hasCas
  · rw [hself]
    exact h.flags
  · rw [hself]
    exact h.exptime

/-- A new item that holds the number. -/
theorem numbered_writeNumber
    {s : State} {new : Addr} {w : Nat} {flags : Int} (hw : w < 2 ^ 64)
    (hflags : -2 ^ 31 ≤ flags ∧ flags < 2 ^ 31)
    (hnbytes : (s.mem new).nbytes = (Decimal.print w).length + 2)
    (hsuffix : (s.mem new).suffix = suffixOf flags ((Decimal.print w).length + 2))
    (hcas : (s.mem new).hasCas = s.settings.useCas) :
  Numbered (s.writeNumber new (Decimal.print w)) new w flags (s.mem new).exptime
  := by
  have hself : (s.writeNumber new (Decimal.print w)).mem new
      = { s.mem new with data := ((s.writeNumber new (Decimal.print w)).mem new).data } := by
    rw [State.writeNumber, State.mem_modify_self]
  have hvalue := value_writeNumber hnbytes
  refine ⟨⟨?_, hw, .inl ?_⟩, ⟨?_, ⟨flags, hflags.1, hflags.2, ?_⟩, ?_⟩, ?_, ?_⟩
  · rw [hvalue]
    exact beginsWithNumeral_print w (by decide) _
  · rw [hvalue]
    exact ⟨_, rfl⟩
  · rw [hself, hnbytes]
    exact Nat.le_add_left 2 _
  · rw [hself, hnbytes]
    exact hsuffix
  · rw [hself]
    exact hcas
  · rw [hself, Item.flags, hsuffix, flags_suffixOf hflags]
  · rw [hself]

/-- An item that is put in the place of another keeps what it holds. -/
theorem Lifecycle.sameText_doItemReplaceDel
    (h : Lifecycle hash s refs A ls) (a : Addr) (hrefs : refs b ≠ 0) :
  (s.mem b).SameText ((Memcached.doItemReplaceDel hash s a b).mem b) ∧
    (Memcached.doItemReplaceDel hash s a b).key b = s.key b
  := by
  have hdrops := h.drops_doItemUnlinkDel a
  have hcontent := Item.content_of_core (Item.core_of_unlinked (hdrops.kept b (.inr hrefs)))
  have hself : (Memcached.doItemReplaceDel hash s a b).mem b
      = { (Memcached.doItemUnlinkDel hash s a).mem b with
          linked := true
          time := (Memcached.doItemUnlinkDel hash s a).currentTime
          cas := newCas (Memcached.doItemUnlinkDel hash s a) b } := by
    rw [Memcached.doItemReplaceDel, doItemLinkDel_mem, Function.update_self]
  constructor
  · apply (Item.sameText_of_content hcontent).trans
    rw [hself]
    exact ⟨rfl, rfl, rfl, rfl, rfl⟩
  · rw [State.key, hself]
    exact hdrops.key (.inr hrefs)

/-- A new item with a number is put in the place of the one under the key, and is found from then
on. -/
theorem Lifecycle.replaceNumber
    (h : Lifecycle hash s refs A ls) (hit : it ∈ A) {flags : Int} {exptime n : Nat} {t : State}
    (halloc : Memcached.doItemAllocDel hash s (s.key it) flags exptime n = (t, some new))
    (buf : List UInt8) :
  ∃ refs' A' ls', Created hash s refs' A (s.key it) flags exptime n (t, some new) A' ls' ∧
    refs' = refs.void (allocRepair hash s (s.key it) flags n) ∧
    Lifecycle hash (t.writeNumber new buf) (refs'.take (some new)) A' ls' ∧
    (t.writeNumber new buf).key = t.key ∧
    ∃ ls₂, Lifecycle hash (Memcached.doItemReplaceDel hash (t.writeNumber new buf) it new)
        (refs'.take (some new)) (insert new (A'.erase it)) ls₂ ∧
      assocFind hash (Memcached.doItemReplaceDel hash (t.writeNumber new buf) it new).key
        (Memcached.doItemReplaceDel hash (t.writeNumber new buf) it new).assoc (s.key it) = some new
  := by
  obtain ⟨A', ls', hcreated⟩ := h.doItemAllocDel (s.key it) flags exptime n
  rw [halloc] at hcreated
  obtain ⟨hkey, -⟩ := hcreated.item new rfl
  obtain ⟨t₁, ht₁⟩ : ∃ t₁, t₁ = t.writeNumber new buf := ⟨_, rfl⟩
  have h₁ : Lifecycle hash t₁ ((refs.void (allocRepair hash s (s.key it) flags n)).take (some new)) A' ls' := by
    rw [ht₁]
    exact hcreated.lifecycle.modify new fun it => ⟨rfl, rfl, rfl, rfl, rfl, rfl, rfl⟩
  have hkeys : t₁.key = t.key := by
    rw [ht₁, State.writeNumber]
    funext c
    rw [State.key, State.key, State.mem_modify]
    split
    · next hc => rw [hc]
    · rfl
  have hrefs : (refs.void (allocRepair hash s (s.key it) flags n)).take (some new) new ≠ 0 := by
    rw [Refs.take_self]
    exact Nat.succ_ne_zero _
  obtain ⟨ls₂, h₂⟩ := h₁.doItemReplaceDel (a := it) (hcreated.notMem new rfl) hrefs (by
    intro c hc hne
    have hkeyNew : t.key new = s.key it := hkey
    rw [hkeys, hcreated.drops.key (.inl hc), hkeyNew]
    intro hsame
    exact hne (h.eq_of_key (hcreated.drops.sub hc) hit hsame))
  obtain ⟨-, hkey₂⟩ := h₁.sameText_doItemReplaceDel it hrefs
  rw [← ht₁]
  refine ⟨_, A', ls', hcreated, rfl, h₁, hkeys, ls₂, h₂, ?_⟩
  apply (assocFind_eq_some_iff h₂.table).mpr
  refine ⟨Finset.mem_insert_self _ _, ?_⟩
  rw [hkey₂, hkeys]
  exact hkey

/-- The number is stored in a new item, which is found under the key from then on. -/
theorem Lifecycle.deltaRealloc
    (h : Lifecycle hash s refs A ls) (hit : it ∈ A) (hk : s.key it = k)
    (hnumbered : Numbered s it v flags exptime) {w : Nat} (hw : w < 2 ^ 64) {t : State}
    (halloc : Memcached.doItemAllocDel hash s (s.key it) (s.mem it).suffixFlags (s.mem it).exptime
      ((Decimal.print w).length + 2) = (t, some new)) :
  Sound hash (Memcached.doItemReplaceDel hash (t.writeNumber new (Decimal.print w)) it new) ∧
    KeyHolds hash (Memcached.doItemReplaceDel hash (t.writeNumber new (Decimal.print w)) it new) k w flags
      exptime
  := by
  obtain ⟨refs', A', ls', hcreated, -, h₁, hkeys, ls₂, h₂, hfind⟩ :=
    h.replaceNumber hit halloc (Decimal.print w)
  obtain ⟨hkey, hsuffix, hexptime, hnbytes, hcas⟩ := hcreated.item new rfl
  have hflags := suffixFlags_eq hnumbered.proper
  have hbounds := hnumbered.proper.flags
  have huse : (t.mem new).hasCas = t.settings.useCas :=
    hcas.trans (congrArg Settings.useCas hcreated.drops.settings).symm
  rw [hflags] at hsuffix
  have hnew := numbered_writeNumber hw ⟨hbounds.1, hbounds.2.1⟩ hnbytes hsuffix huse
  rw [hnumbered.flags, hexptime, hnumbered.exptime] at hnew
  obtain ⟨t₁, ht₁⟩ : ∃ t₁, t₁ = t.writeNumber new (Decimal.print w) := ⟨_, rfl⟩
  rw [← ht₁] at hnew h₁ h₂ hfind ⊢
  have hrefs : refs'.take (some new) new ≠ 0 := by
    rw [Refs.take_self]
    exact Nat.succ_ne_zero _
  obtain ⟨hsame, -⟩ := h₁.sameText_doItemReplaceDel it hrefs
  refine ⟨⟨_, _, _, h₂⟩, ?_⟩
  intro a ha
  rw [← hk, hfind] at ha
  obtain rfl := Option.some.inj ha
  apply hnew.congr _ hsame
  obtain ⟨-, -, -, -, -, -, hsettings, -⟩ := doItemLinkDel_frame hash (Memcached.doItemUnlinkDel hash t₁ it) new
  rw [Memcached.doItemReplaceDel, hsettings, (h₁.drops_doItemUnlinkDel it).settings]

/-- The item is found under the key, unless the allocation has dropped it. -/
theorem Lifecycle.deltaEom
    (h : Lifecycle hash s refs A ls) (hit : it ∈ A) (hk : s.key it = k)
    (hnumbered : Numbered s it v flags exptime) {n : Nat} {t : State}
    (halloc : Memcached.doItemAllocDel hash s (s.key it) (s.mem it).suffixFlags (s.mem it).exptime n = (t, none)) :
  Sound hash t ∧ KeyHolds hash t k v flags exptime
  := by
  obtain ⟨A', ls', hcreated⟩ := h.doItemAllocDel (s.key it) (s.mem it).suffixFlags (s.mem it).exptime n
  rw [halloc] at hcreated
  refine ⟨⟨_, _, _, hcreated.lifecycle⟩, ?_⟩
  intro a ha
  obtain ⟨hmem, hkey⟩ := (assocFind_eq_some_iff hcreated.lifecycle.table).mp ha
  have hkeyOld := hcreated.drops.key (.inl hmem)
  obtain rfl := h.eq_of_key (hcreated.drops.sub hmem) hit (hkeyOld.symm.trans (hkey.trans hk.symm))
  apply hnumbered.congr (congrArg Settings.useCas hcreated.drops.settings)
  exact Item.sameText_of_content (Item.content_of_core (Item.core_of_unlinked
    (hcreated.drops.kept a (.inl hmem))))

theorem Lifecycle.setNewCas (h : Lifecycle hash s refs A ls) (a : Addr) :
  Lifecycle hash (Memcached.setNewCas s a) refs A ls
  := by
  obtain ⟨hassoc, hlru, hslabs, hstats, -, -, htime⟩ := setNewCas_frame s a
  apply h.congr hassoc hlru (hslabs ▸ Slabs.Quiet.refl _) (congrArg Stats.currItems hstats)
    (congrArg Stats.currBytes hstats) htime.ge
  intro b
  rw [setNewCas_mem, Function.update_apply]
  split
  · next hb =>
    rw [hb]
    exact ⟨rfl, rfl, rfl, rfl, rfl, rfl, rfl⟩
  · exact ⟨rfl, rfl, rfl, rfl, rfl, rfl, rfl⟩

/-- The number is written in place. -/
theorem Lifecycle.deltaInPlace
    (h : Lifecycle hash s refs A ls) (hit : it ∈ A) (hk : s.key it = k)
    (hnumbered : Numbered s it v flags exptime) {w : Nat} (hw : w < 2 ^ 64)
    (hnbytes : (Decimal.print w).length + 2 ≤ (s.mem it).nbytes) :
  Sound hash ((Memcached.setNewCas s it).overwriteNumber it (Decimal.print w)) ∧
    KeyHolds hash ((Memcached.setNewCas s it).overwriteNumber it (Decimal.print w)) k w flags exptime
  := by
  have hself : (Memcached.setNewCas s it).mem it = { s.mem it with cas := newCas s it } := by
    rw [setNewCas_mem, Function.update_self]
  have hsame : (s.mem it).SameText ((Memcached.setNewCas s it).mem it) := by
    rw [hself]
    exact ⟨rfl, rfl, rfl, rfl, rfl⟩
  obtain ⟨-, -, -, -, -, hsettings, -⟩ := setNewCas_frame s it
  have hnumbered₁ := hnumbered.congr (congrArg Settings.useCas hsettings) hsame
  have hkey : (Memcached.setNewCas s it).key it = k := by
    rw [State.key, hself]
    exact hk
  rw [← hsame.nbytes] at hnbytes
  have h₁ := h.setNewCas it
  obtain ⟨s₁, hs₁⟩ : ∃ s₁, s₁ = Memcached.setNewCas s it := ⟨_, rfl⟩
  rw [← hs₁] at hnumbered₁ hkey hnbytes h₁ ⊢
  have h₂ : Lifecycle hash (s₁.overwriteNumber it (Decimal.print w)) refs A ls :=
    h₁.modify it fun it => ⟨rfl, rfl, rfl, rfl, rfl, rfl, rfl⟩
  refine ⟨⟨refs, A, ls, h₂⟩, ?_⟩
  intro a ha
  obtain ⟨hmem, hkeyA⟩ := (assocFind_eq_some_iff h₂.table).mp ha
  have hkeyIt : (s₁.overwriteNumber it (Decimal.print w)).key it = k := by
    rw [State.key, State.overwriteNumber, State.mem_modify_self]
    exact hkey
  obtain rfl := h₂.eq_of_key hmem hit (hkeyA.trans hkeyIt.symm)
  exact hnumbered₁.overwriteNumber hw hnbytes

/-- One call keeps what the item under the key holds up to date. -/
theorem Lifecycle.doAddDeltaDel
    (h : Lifecycle hash s refs A ls) (hholds : KeyHolds hash s k v flags exptime) (behind : Nat)
    (incr : Bool) (delta : BitVec 64) (cas : Option Nat) :
  DeltaStep hash k incr delta v flags exptime (doAddDeltaDel hash behind s k incr delta cas)
  := by
  obtain ⟨-, hret, A', ls', h', hdrops, habsent⟩ | ⟨it, hmem, hkey, hlive, hget⟩ := h.doItemGetDel_cases k
  · rcases hget : Memcached.doItemGetDel hash s k with ⟨s₁, ret⟩
    rw [hget] at hret h' hdrops
    subst hret
    simp only [Memcached.doAddDeltaDel, hget]
    refine ⟨⟨refs, A', ls', h'⟩, (by rintro ⟨⟩), ?_⟩
    intro _ a ha
    obtain ⟨ha, hka⟩ := (assocFind_eq_some_iff h'.table).mp ha
    rw [hdrops.key (.inl ha)] at hka
    exact absurd hka (habsent a ha)
  · have hfind := (assocFind_eq_some_iff h.table).mpr ⟨hmem, hkey⟩
    have hnumbered := hholds it hfind
    rw [doAddDeltaDel_of_live hfind hlive]
    have h₁ := h.setRefcount (h.used_linked it hmem) (((s.mem it).refcount + 1) % 2 ^ 16)
    have hset : (s.modify it fun it => { it with refcount := (it.refcount + 1) % 2 ^ 16 })
        = s.modify it fun x => { x with refcount := ((s.mem it).refcount + 1) % 2 ^ 16 } := rfl
    have hreleases := releases_modify s it (f := fun it => { it with refcount := (it.refcount + 1) % 2 ^ 16 })
      fun it => ⟨rfl, ⟨rfl, rfl, rfl, rfl, rfl⟩, rfl⟩
    rw [← hset] at h₁
    obtain ⟨s₁, hs₁⟩ :
        ∃ s₁, s₁ = s.modify it fun it => { it with refcount := (it.refcount + 1) % 2 ^ 16 } := ⟨_, rfl⟩
    rw [← hs₁] at h₁ hreleases
    rw [← hs₁]
    have hholds₁ := hholds.releases hreleases
    have hsound₁ : Sound hash s₁ := ⟨_, A, ls, h₁⟩
    have hkey₁ : s₁.key it = k := by
      rw [hreleases.key, hkey]
    have hnumbered₁ := hholds₁ it ((assocFind_eq_some_iff h₁.table).mpr ⟨hmem, hkey₁⟩)
    simp only
    split
    · exact .fail hsound₁ hholds₁ (by rintro ⟨⟩)
    · split
      · exact .fail hsound₁ hholds₁ (by rintro ⟨⟩)
      · next value hread =>
        obtain rfl := hnumbered.number.eq_of_safeStrtoull hread
        have hw := deltaValue_lt incr hnumbered.number.lt delta
        simp only [deltaWrite]
        split
        · rcases halloc : Memcached.doItemAllocDel hash s₁ (s₁.key it) (s₁.mem it).suffixFlags
            (s₁.mem it).exptime ((Decimal.print (deltaValue incr value delta)).length + 2)
            with ⟨t, _ | new⟩
          · obtain ⟨hsound, hholds₂⟩ := h₁.deltaEom hmem hkey₁ hnumbered₁ halloc
            exact .fail hsound hholds₂ (by rintro ⟨⟩)
          · obtain ⟨hsound, hholds₂⟩ := h₁.deltaRealloc hmem hkey₁ hnumbered₁ hw halloc
            exact .done (hsound.doItemRemoveDel new) (hholds₂.releases (releases_doItemRemoveDel _ new)) cas
        · next hneeds =>
          rw [needsRealloc, not_or] at hneeds
          obtain ⟨hsound, hholds₂⟩ := h₁.deltaInPlace hmem hkey₁ hnumbered₁ hw (by omega)
          exact .done hsound hholds₂ cas

/-! ### Sequences of calls -/

/-- What others may do between the calls: the items stay consistent, and nothing is stored
under the key. The item under the key may be dropped, and otherwise holds what it held. -/
structure Meanwhile (hash : Key → BitVec 32) (k : Key) (s s' : State) : Prop where
  sound : Sound hash s → Sound hash s'
  useCas : s'.settings.useCas = s.settings.useCas
  keeps : ∀ a, assocFind hash s'.key s'.assoc k = some a →
    assocFind hash s.key s.assoc k = some a ∧ (s.mem a).SameText (s'.mem a)

/-- The operations of `ItemRuns` that store nothing under the key `k`, and write no data of a
linked item. -/
def ItemOp.Spares (s : State) (k : Key) : ItemOp → Prop
  | link a => s.key a ≠ k
  | replace _ a => s.key a ≠ k
  | fill a data => (s.mem a).linked = true → ∀ i < (s.mem a).nbytes, data i = (s.mem a).data i
  | _ => True

/-- The items linked under the key in the new state were linked, and hold what they held. -/
theorem Meanwhile.of_linked
    {refs' : Refs} {ls' : Nat → List Addr} (h : Lifecycle hash s refs A ls)
    (h' : Lifecycle hash s' refs' A' ls') (huse : s'.settings.useCas = s.settings.useCas)
    (hkeeps : ∀ a ∈ A', s'.key a = k → a ∈ A ∧ s.key a = k ∧ (s.mem a).SameText (s'.mem a)) :
  Meanwhile hash k s s'
  where
  sound _ := ⟨refs', A', ls', h'⟩
  useCas := huse
  keeps a ha := by
    obtain ⟨hmem, hkey⟩ := (assocFind_eq_some_iff h'.table).mp ha
    obtain ⟨hmem, hkey, hsame⟩ := hkeeps a hmem hkey
    exact ⟨(assocFind_eq_some_iff h.table).mpr ⟨hmem, hkey⟩, hsame⟩

theorem Drops.meanwhile
    {refs' refs'' : Refs} {ls' : Nat → List Addr} (hdrops : Drops s s' refs'' A A')
    (h : Lifecycle hash s refs A ls) (h' : Lifecycle hash s' refs' A' ls') :
  Meanwhile hash k s s'
  := by
  apply Meanwhile.of_linked h h' (congrArg Settings.useCas hdrops.settings)
  intro a ha hkey
  rw [hdrops.key (.inl ha)] at hkey
  exact ⟨hdrops.sub ha, hkey, Item.sameText_of_content (Item.content_of_core (Item.core_of_unlinked
    (hdrops.kept a (.inl ha))))⟩

theorem Releases.meanwhile
    {refs' : Refs} {ls' : Nat → List Addr} (hreleases : Releases s s') (h : Lifecycle hash s refs A ls)
    (h' : Lifecycle hash s' refs' A ls') :
  Meanwhile hash k s s'
  := by
  apply Meanwhile.of_linked h h' (congrArg Settings.useCas hreleases.settings)
  intro a ha hkey
  rw [hreleases.key] at hkey
  exact ⟨ha, hkey, hreleases.sameText a⟩

/-- A linked item keeps what it holds when another one is linked. -/
theorem meanwhile_link
    {refs' : Refs} {ls' : Nat → List Addr} (h : Lifecycle hash s refs A ls) (hb : s.key b ≠ k)
    (h' : Lifecycle hash (doItemLinkDel hash s b) refs' (insert b A) ls') :
  Meanwhile hash k s (doItemLinkDel hash s b)
  := by
  obtain ⟨-, -, -, -, -, -, hsettings, -⟩ := doItemLinkDel_frame hash s b
  apply Meanwhile.of_linked h h' (congrArg Settings.useCas hsettings)
  intro a ha hkey
  by_cases hab : a = b
  · subst hab
    rw [State.key, doItemLinkDel_mem, Function.update_self] at hkey
    exact absurd hkey hb
  · have hmem : (doItemLinkDel hash s b).mem a = s.mem a := by
      rw [doItemLinkDel_mem, Function.update_of_ne hab]
    rw [State.key, hmem] at hkey
    rw [hmem]
    exact ⟨(Finset.mem_insert.mp ha).resolve_left hab, hkey, Item.SameText.refl _⟩

theorem meanwhile_update {refs' : Refs} {ls' : Nat → List Addr} (h : Lifecycle hash s refs A ls)
    (h' : Lifecycle hash (doItemUpdate s b) refs' A ls') :
  Meanwhile hash k s (doItemUpdate s b)
  := by
  obtain ⟨hsettings, -, -⟩ := doItemUpdate_frame s b
  apply Meanwhile.of_linked h h' (congrArg Settings.useCas hsettings)
  intro a ha hkey
  have hcontent := doItemUpdate_content s b a
  rw [State.key, Item.key_of_content hcontent] at hkey
  exact ⟨ha, hkey, Item.sameText_of_content hcontent⟩

/-- An item is put in the place of another. -/
theorem Lifecycle.replace_allowed
    (h : Lifecycle hash s refs A ls) (hop : (ItemOp.replace a b).Allowed hash s refs) :
  ∃ ls', Lifecycle hash (Memcached.doItemReplaceDel hash s a b) refs (insert b (A.erase a)) ls'
  := by
  obtain ⟨hlinked, hrefs, hkey⟩ := hop
  apply h.doItemReplaceDel _ hrefs
  · intro c hc hca hk
    have hfind := (assocFind_eq_some_iff h.table).mpr ⟨hc, hk⟩
    rw [hfind] at hkey
    obtain hkey | hkey := hkey
    · cases hkey
    · exact hca (Option.some.inj hkey)
  · rw [h.linked, hlinked]
    exact Bool.false_ne_true

theorem Meanwhile.trans (h : Meanwhile hash k s s') (h' : Meanwhile hash k s' s'') :
  Meanwhile hash k s s''
  where
  sound hs := h'.sound (h.sound hs)
  useCas := h'.useCas.trans h.useCas
  keeps a ha := by
    obtain ⟨hfind', hsame'⟩ := h'.keeps a ha
    obtain ⟨hfind, hsame⟩ := h.keeps a hfind'
    exact ⟨hfind, hsame.trans hsame'⟩

/-- The other operations on items are among what others may do. -/
theorem Lifecycle.meanwhile
    (h : Lifecycle hash s refs A ls) {op : ItemOp} (hop : op.Allowed hash s refs)
    (hspares : op.Spares s k) :
  Meanwhile hash k s (op.exec hash s refs).1
  := by
  cases op with
  | alloc k' flags exptime nbytes =>
      obtain ⟨A', ls', hcreated⟩ := h.doItemAllocDel k' flags exptime nbytes
      exact hcreated.drops.meanwhile h hcreated.lifecycle
  | link b =>
      obtain ⟨hlinked, hrefs, habsent⟩ := hop
      rw [or_self] at habsent
      have hnot : b ∉ A := by
        rw [h.linked, hlinked]
        exact Bool.false_ne_true
      exact meanwhile_link h hspares
        (h.doItemLinkDel hnot hrefs ((assocFind_eq_none_iff h.table).mp habsent))
  | get k' =>
      obtain ⟨-, -, A', ls', h', hdrops, -⟩ | ⟨b, hmem, -, -, hget⟩ := h.doItemGetDel_cases k'
      · exact hdrops.meanwhile h h'
      · simp only [ItemOp.exec, hget]
        exact (releases_modify s b (f := fun it => { it with refcount := (refs b + 1) % 2 ^ 16 })
          fun it => ⟨rfl, ⟨rfl, rfl, rfl, rfl, rfl⟩, rfl⟩).meanwhile h
          (h.setRefcount (h.used_linked b hmem) _)
  | remove b => exact (releases_doItemRemoveDel s b).meanwhile h (h.doItemRemoveDel hop)
  | unlink b => exact (h.drops_doItemUnlinkDel b).meanwhile h (h.doItemUnlinkDel b)
  | update b =>
      obtain ⟨ls', h'⟩ := h.doItemUpdate b
      simp only [ItemOp.exec]
      exact meanwhile_update h h'
  | replace b c =>
      obtain ⟨-, hrefs, -⟩ := id hop
      have hunlink := h.drops_doItemUnlinkDel b
      have h₁ := h.doItemUnlinkDel b
      obtain ⟨ls', h'⟩ := h.replace_allowed hop
      have hkey : (Memcached.doItemUnlinkDel hash s b).key c ≠ k := by
        rw [hunlink.key (.inr hrefs)]
        exact hspares
      exact (hunlink.meanwhile h h₁).trans (meanwhile_link h₁ hkey h')
  | flushExpired =>
      obtain ⟨A', ls', h', hdrops⟩ := h.doItemFlushExpiredDel
      simp only [ItemOp.exec]
      exact hdrops.meanwhile h h'
  | stats =>
      obtain ⟨A', ls', h', hdrops⟩ := h.doItemStatsDel
      simp only [ItemOp.exec]
      exact hdrops.meanwhile h h'
  | fill b data =>
      have h' := h.modify b (f := fun it => { it with data := data })
        fun it => ⟨rfl, rfl, rfl, rfl, rfl, rfl, rfl⟩
      apply Meanwhile.of_linked h h' rfl
      intro a ha hkey
      rw [State.key, State.mem_modify] at hkey
      rw [State.mem_modify]
      split
      · next hab =>
        rw [if_pos hab] at hkey
        subst hab
        refine ⟨ha, hkey, rfl, ?_, rfl, rfl, rfl⟩
        apply List.map_congr_left
        intro i hi
        exact hspares ((h.linked a).mp ha) i (List.mem_range.mp hi)
      · next hab =>
        rw [if_neg hab] at hkey
        exact ⟨ha, hkey, Item.SameText.refl _⟩
  | setCas b w =>
      have h' := h.modify b (f := fun it => it.setCas w) fun it => it.same_setCas w
      have hkeep : ∀ it : Item, it.SameText (it.setCas w) ∧ (it.setCas w).key = it.key := by
        intro it
        rw [Item.setCas]
        split <;> exact ⟨⟨rfl, rfl, rfl, rfl, rfl⟩, rfl⟩
      apply Meanwhile.of_linked h h' rfl
      intro a ha hkey
      rw [State.key, State.mem_modify] at hkey
      rw [State.mem_modify]
      split
      · next hab =>
        rw [if_pos hab, (hkeep _).2] at hkey
        subst hab
        exact ⟨ha, hkey, (hkeep _).1⟩
      · next hab =>
        rw [if_neg hab] at hkey
        exact ⟨ha, hkey, Item.SameText.refl _⟩
  | tick now =>
      apply Meanwhile.of_linked h (h.tick hop) rfl
      exact fun a ha hkey => ⟨ha, hkey, Item.SameText.refl _⟩
  | setOldestLive w =>
      apply Meanwhile.of_linked h (h.setOldestLive w) rfl
      exact fun a ha hkey => ⟨ha, hkey, Item.SameText.refl _⟩

/-- A call and what it returned. -/
structure DeltaCall where
  incr : Bool
  delta : BitVec 64
  reply : DeltaReply

/-- A sequence of calls for the key `k`, between which others do something. -/
inductive DeltaRun (hash : Key → BitVec 32) (k : Key) : State → List DeltaCall → State → Prop where
  | nil (s : State) : DeltaRun hash k s [] s
  | meanwhile {s s' s'' : State} {calls : List DeltaCall} (h : Meanwhile hash k s s')
      (hrun : DeltaRun hash k s' calls s'') : DeltaRun hash k s calls s''
  | call {s s'' : State} {calls : List DeltaCall} (behind : Nat) (incr : Bool) (delta : BitVec 64)
      (cas : Option Nat)
      (hrun : DeltaRun hash k (doAddDeltaDel hash behind s k incr delta cas).1 calls s'') :
      DeltaRun hash k s (⟨incr, delta, (doAddDeltaDel hash behind s k incr delta cas).2⟩ :: calls) s''

/-- What the commands are to compute: a sum modulo `2 ^ 64`, or a difference that is not
less than zero. -/
def deltaSpec (incr : Bool) (v : Nat) (delta : BitVec 64) : Nat :=
  if incr then (v + delta.toNat) % 2 ^ 64 else v - delta.toNat

/-- The number after a call. -/
def DeltaCall.next (v : Nat) (c : DeltaCall) : Nat :=
  if c.reply.result = .ok then deltaSpec c.incr v c.delta else v

/-- The number after a sequence of calls. -/
def valueAfter (v : Nat) (calls : List DeltaCall) : Nat := calls.foldl DeltaCall.next v

/-- Every call that succeeds returns the new number. -/
def RepliesCorrect : Nat → List DeltaCall → Prop
  | _, [] => True
  | v, c :: calls =>
      (c.reply.result = .ok → c.reply.buf = Decimal.print (deltaSpec c.incr v c.delta)) ∧
        RepliesCorrect (c.next v) calls

theorem deltaValue_eq (incr : Bool) (v : Nat) (delta : BitVec 64) :
  deltaValue incr v delta = deltaSpec incr v delta
  := by
  rw [deltaValue, deltaSpec]
  split
  · rfl
  · split <;> omega

/-- A sequence of calls keeps what the item under the key holds up to date. -/
theorem DeltaRun.holds
    {calls : List DeltaCall} (hrun : DeltaRun hash k s calls s') (h : Sound hash s)
    (hholds : KeyHolds hash s k v flags exptime) :
  RepliesCorrect v calls ∧ KeyHolds hash s' k (valueAfter v calls) flags exptime
  := by
  induction hrun generalizing v with
  | nil s => exact ⟨trivial, hholds⟩
  | meanwhile hmeanwhile _ ih =>
      apply ih (hmeanwhile.sound h)
      intro a ha
      obtain ⟨hfind, hsame⟩ := hmeanwhile.keeps a ha
      exact (hholds a hfind).congr hmeanwhile.useCas hsame
  | @call s s'' calls behind incr delta cas _ ih =>
      obtain ⟨refs, A, ls, h⟩ := h
      have hstep := h.doAddDeltaDel hholds behind incr delta cas
      by_cases hok : (doAddDeltaDel hash behind s k incr delta cas).2.result = .ok
      · obtain ⟨hbuf, hholds'⟩ := hstep.ok hok
        rw [deltaValue_eq] at hbuf hholds'
        obtain ⟨hreplies, hend⟩ := ih hstep.sound hholds'
        simp only [RepliesCorrect, valueAfter, List.foldl_cons, DeltaCall.next, if_pos hok]
        exact ⟨⟨fun _ => hbuf, hreplies⟩, hend⟩
      · obtain ⟨hreplies, hend⟩ := ih hstep.sound (hstep.failed hok)
        simp only [RepliesCorrect, valueAfter, List.foldl_cons, DeltaCall.next, if_neg hok]
        exact ⟨⟨fun hok' => absurd hok' hok, hreplies⟩, hend⟩

/-- Increments and decrements compute what they are to compute, whether they update the item
in place or replace it, and keep its flags and its expiry time. In every state that is
reached, the number is read from the item if and only if it is less than `2 ^ 63`, or no `-`
comes before the next zero in memory. -/
theorem delta_runs
    (hash : Key → BitVec 32) (s s' : State) (k : Key) (v : Nat) (flags : Int) (exptime : Nat) (a : Addr)
    (calls : List DeltaCall) (h : Sound hash s) (hfind : assocFind hash s.key s.assoc k = some a)
    (hnumbered : Numbered s a v flags exptime) (hrun : DeltaRun hash k s calls s') :
  RepliesCorrect v calls ∧ ∀ a', assocFind hash s'.key s'.assoc k = some a' →
    (s'.mem a').flags = flags ∧ (s'.mem a').exptime = exptime ∧
      ∀ behind, safeStrtoull ((s'.mem a').text behind) = some (valueAfter v calls)
        ↔ valueAfter v calls < 2 ^ 63 ∨ 45 ∉ cString ((s'.mem a').text behind)
  := by
  have hholds : KeyHolds hash s k v flags exptime := by
    intro b hb
    rw [hfind] at hb
    obtain rfl := Option.some.inj hb
    exact hnumbered
  obtain ⟨hreplies, hend⟩ := hrun.holds h hholds
  refine ⟨hreplies, ?_⟩
  intro a' ha'
  have hnumbered' := hend a' ha'
  exact ⟨hnumbered'.flags, hnumbered'.exptime, hnumbered'.number.safeStrtoull_iff⟩

theorem sound_numberState (t : List UInt8)
    (hallowed : AllowedRun (fun _ => 0) (State.init (smallConfig 0)) (fun _ => 0)
      [.alloc [1] 0 0 t.length, .fill 8 fun i => t.getD i 0, .link 8, .remove 8]) :
  Sound (fun _ => 0) (numberState t)
  := by
  obtain ⟨A, ls, h, -⟩ := (lifecycle_init (fun _ => 0) (smallConfig 0)).itemRun hallowed
  exact ⟨_, A, ls, h⟩

/-- The number `9` is incremented, which takes a new item, and then decremented in place. -/
theorem delta_runs_nine :
  let r := doAddDeltaDel (fun _ => 0) 0 (numberState [57, 13, 10]) [1] true 1 none
  let r' := doAddDeltaDel (fun _ => 0) 0 r.1 [1] false 3 none
  RepliesCorrect 9 [⟨true, 1, r.2⟩, ⟨false, 3, r'.2⟩] ∧
    ∀ a', assocFind (fun _ => 0) r'.1.key r'.1.assoc [1] = some a' →
      (r'.1.mem a').flags = 0 ∧ (r'.1.mem a').exptime = 0 ∧
        ∀ behind, safeStrtoull ((r'.1.mem a').text behind)
            = some (valueAfter 9 [⟨true, 1, r.2⟩, ⟨false, 3, r'.2⟩])
          ↔ valueAfter 9 [⟨true, 1, r.2⟩, ⟨false, 3, r'.2⟩] < 2 ^ 63 ∨
            45 ∉ cString ((r'.1.mem a').text behind)
  := by
  intro r r'
  apply delta_runs (fun _ => 0) (numberState [57, 13, 10]) r'.1 [1] 9 0 0 8
  · apply sound_numberState
    decide +kernel
  · decide +kernel
  · have hvalue : ((numberState [57, 13, 10]).mem 8).value = [57, 13, 10] := by decide +kernel
    refine ⟨⟨⟨[], [57], 13, [10], ?_⟩, by decide, .inl ⟨[57], hvalue⟩⟩, ⟨?_, ⟨0, ?_⟩, ?_⟩, ?_, ?_⟩
    · rw [hvalue]
      decide +kernel
    all_goals decide +kernel
  · exact .call 0 true 1 none (.call 0 false 3 none (.nil _))

/-- The sum is `2 ^ 63`, and it is not read from the item if a `-` comes behind it. -/
theorem delta_not_read :
  let r := doAddDeltaDel (fun _ => 0) 0 (numberState (Decimal.print (2 ^ 63 - 1) ++ [13, 10])) [1] true 1 none
  r.2.result = .ok ∧ r.2.buf = Decimal.print (2 ^ 63) ∧
    ((r.1.behind 8 fun _ => 45).mem 8).value = Decimal.print (2 ^ 63) ++ [13, 10] ∧
    safeStrtoull (((r.1.behind 8 fun _ => 45).mem 8).text 1) = none
  := by
  decide +kernel

end Memcached
