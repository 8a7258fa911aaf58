import Ffwd.Memcached.Assoc

/-!
# The slab allocator

Chunks of memory for items, by size class: a class hands out the chunks of its free list
first, then those left at the end of its last page, and takes a new page from the system
when both are used up. `Slabs.unused` is what a class can still hand out. `Slabs.Wf` says
that no chunk is unused twice; an allocation takes a chunk out of what is unused, a
release puts one back, and a chunk of a new page is one that was never in use.
-/

namespace Memcached

def powerSmallest : Nat := 1

def chunkAlignBytes : Nat := 8

/-- The descriptor of a class. `slots` is the free list, the slot freed last being its
first; its length is `sl_curr`. -/
structure SlabClass where
  size : Nat
  perslab : Nat
  slots : List Addr
  slTotal : Nat
  endPagePtr : Option Nat
  endPageFree : Nat
  slabs : Nat
  listSize : Nat
  requested : BitVec 64

/-- The variables of `slabs.c`. `sys` says of each call of `malloc` and `realloc` whether
it fails, or, for a `malloc`, how far beyond the memory handed out so far, which ends at
`brk`, the new block begins. -/
structure Slabs where
  slabclass : Nat → SlabClass
  memLimit : Nat
  memMalloced : Nat
  powerLargest : Nat
  memBase : Option Nat
  memCurrent : Nat
  memAvail : Nat
  brk : Nat
  sys : Nat → Option Nat
  sysCalls : Nat

namespace Slabs

/-- A class with its descriptor changed. -/
def setClass (sl : Slabs) (id : Nat) (p : SlabClass) : Slabs :=
  { sl with slabclass := Function.update sl.slabclass id p }

end Slabs

/-- The loop of `slabs_clsid` from class `res` on, with `n` classes left. -/
def slabsClsidFrom (sl : Slabs) (size : Nat) : Nat → Nat → Nat
  | 0, _ => 0
  | n + 1, res =>
      if (sl.slabclass res).size < size then
        if res = sl.powerLargest then 0 else slabsClsidFrom sl size n (res + 1)
      else res

/-- The class of the smallest chunks an object of a given size fits in, or `0`. -/
def slabsClsid (sl : Slabs) (size : Nat) : Nat :=
  if size = 0 then 0 else slabsClsidFrom sl size (sl.powerLargest + 1 - powerSmallest) powerSmallest

/-- `grow_slab_list`: room for one more page in the list of pages of a class. -/
def growSlabList (sl : Slabs) (id : Nat) : Slabs × Bool :=
  let p := sl.slabclass id
  if p.slabs = p.listSize then
    let ok := (sl.sys sl.sysCalls).isSome
    let sl := { sl with sysCalls := sl.sysCalls + 1 }
    if ok then
      (sl.setClass id { p with listSize := if p.listSize ≠ 0 then p.listSize * 2 else 16 }, true)
    else (sl, false)
  else (sl, true)

def memoryAllocate (sl : Slabs) (size : Nat) : Slabs × Option Nat :=
  match sl.memBase with
  | none =>
      let call := sl.sys sl.sysCalls
      let sl := { sl with sysCalls := sl.sysCalls + 1 }
      match call with
      | none => (sl, none)
      | some gap => ({ sl with brk := sl.brk + gap + size }, some (sl.brk + gap))
  | some _ =>
      if sl.memAvail < size then (sl, none)
      else
        let aligned :=
          if size % chunkAlignBytes ≠ 0 then size + (chunkAlignBytes - size % chunkAlignBytes)
          else size
        ({ sl with
          memCurrent := sl.memCurrent + aligned
          memAvail := if aligned < sl.memAvail then sl.memAvail - aligned else 0 },
          some sl.memCurrent)

/-- `do_slabs_newslab`. The page it has taken is returned, since the source clears it. -/
def doSlabsNewslab (sl : Slabs) (id : Nat) : Slabs × Option Nat :=
  let len := (sl.slabclass id).size * (sl.slabclass id).perslab
  if sl.memLimit ≠ 0 ∧ sl.memLimit < sl.memMalloced + len ∧ 0 < (sl.slabclass id).slabs then
    (sl, none)
  else
    match growSlabList sl id with
    | (sl, false) => (sl, none)
    | (sl, true) =>
        match memoryAllocate sl len with
        | (sl, none) => (sl, none)
        | (sl, some ptr) =>
            let p := sl.slabclass id
            ({ sl.setClass id
                { p with
                  endPagePtr := some ptr
                  endPageFree := p.perslab
                  slabs := p.slabs + 1 } with
              memMalloced := sl.memMalloced + len }, some ptr)

/-- The part of `do_slabs_alloc` that hands out a chunk of a class that has one. -/
def takeChunk (sl : Slabs) (size id : Nat) : Slabs × Option Addr :=
  let p := sl.slabclass id
  let requested := p.requested + BitVec.ofNat 64 size
  match p.slots with
  | ret :: slots => (sl.setClass id { p with slots := slots, requested := requested }, some ret)
  | [] =>
      match p.endPagePtr with
      | none => (sl, none)
      | some ret =>
          (sl.setClass id
            { p with
              endPageFree := p.endPageFree - 1
              endPagePtr := if p.endPageFree - 1 ≠ 0 then some (ret + p.size) else none
              requested := requested }, some ret)

/-- `do_slabs_alloc`, with the page it has taken from the system, if it has. -/
def doSlabsAlloc (sl : Slabs) (size id : Nat) : Slabs × Option Addr × Option Nat :=
  if id < powerSmallest ∨ sl.powerLargest < id then (sl, none, none)
  else
    let p := sl.slabclass id
    if p.endPagePtr ≠ none ∨ p.slots ≠ [] then
      let (sl, ret) := takeChunk sl size id
      (sl, ret, none)
    else
      match doSlabsNewslab sl id with
      | (sl, none) => (sl, none, none)
      | (sl, some ptr) =>
          let (sl, ret) := takeChunk sl size id
          (sl, ret, some ptr)

def doSlabsFree (sl : Slabs) (ptr : Addr) (size id : Nat) : Slabs :=
  if id < powerSmallest ∨ sl.powerLargest < id then sl
  else
    let p := sl.slabclass id
    let requested := p.requested - BitVec.ofNat 64 size
    if p.slots.length = p.slTotal then
      let ok := (sl.sys sl.sysCalls).isSome
      let sl := { sl with sysCalls := sl.sysCalls + 1 }
      if ok then
        sl.setClass id
          { p with
            slTotal := if p.slTotal ≠ 0 then p.slTotal * 2 else 16
            slots := ptr :: p.slots
            requested := requested }
      else sl
    else sl.setClass id { p with slots := ptr :: p.slots, requested := requested }

/-- `slabs_adjust_mem_requested_del`, for a class that exists. -/
def slabsAdjustMemRequested (sl : Slabs) (id old ntotal : Nat) : Slabs :=
  let p := sl.slabclass id
  sl.setClass id
    { p with requested := p.requested - BitVec.ofNat 64 old + BitVec.ofNat 64 ntotal }

/-! ### What a class can still hand out -/

/-- The chunks left at the end of the last page of a class. -/
def SlabClass.pageChunks (p : SlabClass) : List Addr :=
  match p.endPagePtr with
  | none => []
  | some ptr => (List.range p.endPageFree).map fun k => ptr + k * p.size

namespace Slabs

/-- The chunks of a class that are not in use. -/
def unused (sl : Slabs) (id : Nat) : List Addr :=
  (sl.slabclass id).slots ++ (sl.slabclass id).pageChunks

/-- The end of the memory the pages have been taken from. -/
def top (sl : Slabs) : Nat :=
  match sl.memBase with
  | none => sl.brk
  | some _ => sl.memCurrent

/-- The number of bytes in a page of a class. -/
def pageLen (sl : Slabs) (id : Nat) : Nat :=
  (sl.slabclass id).size * (sl.slabclass id).perslab

/-- No chunk is unused twice. -/
structure Wf (sl : Slabs) : Prop where
  sizes : ∀ id, powerSmallest ≤ id → id ≤ sl.powerLargest →
    0 < (sl.slabclass id).size ∧ 0 < (sl.slabclass id).perslab
  nodup : ∀ id, (sl.unused id).Nodup
  disjoint : ∀ id id' a, a ∈ sl.unused id → a ∈ sl.unused id' → id = id'
  lt : ∀ id, ∀ a ∈ sl.unused id, a < sl.top
  page : ∀ id, (sl.slabclass id).endPagePtr ≠ none → 0 < (sl.slabclass id).endPageFree

/-- What never changes: the number of classes and their sizes. -/
structure Alike (sl sl' : Slabs) : Prop where
  powerLargest : sl'.powerLargest = sl.powerLargest
  size : ∀ id, (sl'.slabclass id).size = (sl.slabclass id).size
  perslab : ∀ id, (sl'.slabclass id).perslab = (sl.slabclass id).perslab

theorem Alike.refl (sl : Slabs) : Alike sl sl := ⟨rfl, fun _ => rfl, fun _ => rfl⟩

theorem Alike.trans {sl sl' sl'' : Slabs} (h : Alike sl sl') (h' : Alike sl' sl'') :
  Alike sl sl''
  := ⟨h'.1.trans h.1, fun id => (h'.2 id).trans (h.2 id), fun id => (h'.3 id).trans (h.3 id)⟩

theorem Alike.setClass
    {sl : Slabs} {id : Nat} {p : SlabClass} (hsize : p.size = (sl.slabclass id).size)
    (hperslab : p.perslab = (sl.slabclass id).perslab) :
  Alike sl (sl.setClass id p)
  := by
  refine ⟨rfl, ?_, ?_⟩
  · intro id'
    by_cases h : id' = id
    · simp [Slabs.setClass, h, hsize]
    · simp [Slabs.setClass, h]
  · intro id'
    by_cases h : id' = id
    · simp [Slabs.setClass, h, hperslab]
    · simp [Slabs.setClass, h]

theorem unused_setClass (sl : Slabs) (id id' : Nat) (p : SlabClass) :
  (sl.setClass id p).unused id' = if id' = id then p.slots ++ p.pageChunks else sl.unused id'
  := by
  by_cases h : id' = id
  · simp [unused, setClass, h]
  · simp [unused, setClass, h]

@[simp] theorem top_setClass (sl : Slabs) (id : Nat) (p : SlabClass) :
  (sl.setClass id p).top = sl.top
  := rfl

end Slabs

/-- The first of the chunks left in a page, and the others. -/
theorem pageChunks_succ
    {p : SlabClass} {ptr : Nat} (hptr : p.endPagePtr = some ptr) (hpos : 0 < p.endPageFree) :
  p.pageChunks = ptr :: { p with
    endPageFree := p.endPageFree - 1
    endPagePtr := if p.endPageFree - 1 ≠ 0 then some (ptr + p.size) else none }.pageChunks
  := by
  obtain ⟨n, hn⟩ : ∃ n, p.endPageFree = n + 1 := ⟨p.endPageFree - 1, by omega⟩
  simp only [SlabClass.pageChunks, hptr, hn, Nat.add_sub_cancel, List.range_succ_eq_map,
    List.map_cons, List.map_map]
  rw [Nat.zero_mul, Nat.add_zero, List.cons.injEq]
  refine ⟨rfl, ?_⟩
  cases n with
  | zero => rfl
  | succ n =>
      simp only [ne_eq, Nat.succ_ne_zero, not_false_eq_true, if_true]
      apply List.map_congr_left
      intro k _
      rw [Function.comp_apply, Nat.succ_mul]
      ring

/-- A class that has chunks hands out one of them, and keeps the others. -/
theorem takeChunk_spec
    {sl : Slabs} (h : sl.Wf) (size id : Nat)
    (hsome : (sl.slabclass id).endPagePtr ≠ none ∨ (sl.slabclass id).slots ≠ []) :
  ∃ a sl', takeChunk sl size id = (sl', some a) ∧ Slabs.Alike sl sl' ∧ sl'.top = sl.top ∧
    sl.unused id = a :: sl'.unused id ∧ (∀ id', id' ≠ id → sl'.unused id' = sl.unused id') ∧
    ∀ id', (sl'.slabclass id').endPagePtr ≠ none → 0 < (sl'.slabclass id').endPageFree
  := by
  simp only [takeChunk]
  cases hslots : (sl.slabclass id).slots with
  | cons a slots =>
      refine ⟨a, _, rfl, Slabs.Alike.setClass rfl rfl, rfl, ?_, ?_, ?_⟩
      · rw [Slabs.unused_setClass, if_pos rfl, Slabs.unused, hslots]
        rfl
      · intro id' hid
        rw [Slabs.unused_setClass, if_neg hid]
      · intro id'
        have := h.page id'
        by_cases hid : id' = id
        · subst hid
          simpa [Slabs.setClass] using this
        · simpa [Slabs.setClass, hid] using this
  | nil =>
      have hne : (sl.slabclass id).endPagePtr ≠ none := by
        obtain hp | hs := hsome
        · exact hp
        · exact absurd hslots hs
      obtain ⟨ptr, hptr⟩ := Option.ne_none_iff_exists'.mp hne
      have hpos := h.page id hne
      simp only [hptr]
      refine ⟨ptr, _, rfl, Slabs.Alike.setClass rfl rfl, rfl, ?_, ?_, ?_⟩
      · rw [Slabs.unused_setClass, if_pos rfl, Slabs.unused, hslots, List.nil_append,
          pageChunks_succ hptr hpos, hslots]
        rfl
      · intro id' hid
        rw [Slabs.unused_setClass, if_neg hid]
      · intro id'
        have := h.page id'
        by_cases hid : id' = id
        · subst hid
          simp only [Slabs.setClass, Function.update_self]
          split
          · intro _
            omega
          · simp
        · simpa [Slabs.setClass, hid] using this

/-- Handing out a chunk leaves no chunk unused twice, and the chunk is not unused any
more. -/
theorem Slabs.Wf.take
    {sl sl' : Slabs} {id : Nat} {a : Addr} (h : sl.Wf) (halike : Slabs.Alike sl sl')
    (htop : sl'.top = sl.top) (hcons : sl.unused id = a :: sl'.unused id)
    (hother : ∀ id', id' ≠ id → sl'.unused id' = sl.unused id')
    (hpage : ∀ id', (sl'.slabclass id').endPagePtr ≠ none → 0 < (sl'.slabclass id').endPageFree) :
  sl'.Wf ∧ ∀ id', a ∉ sl'.unused id'
  := by
  have hsub : ∀ id' b, b ∈ sl'.unused id' → b ∈ sl.unused id' := by
    intro id' b hb
    by_cases hid : id' = id
    · subst hid
      rw [hcons]
      exact List.mem_cons_of_mem a hb
    · rwa [← hother id' hid]
  constructor
  · constructor
    · intro id' h₁ h₂
      rw [halike.size, halike.perslab]
      rw [halike.powerLargest] at h₂
      exact h.sizes id' h₁ h₂
    · intro id'
      by_cases hid : id' = id
      · subst hid
        have := h.nodup id'
        rw [hcons, List.nodup_cons] at this
        exact this.2
      · rw [hother id' hid]
        exact h.nodup id'
    · intro id₁ id₂ b h₁ h₂
      exact h.disjoint id₁ id₂ b (hsub id₁ b h₁) (hsub id₂ b h₂)
    · intro id' b hb
      rw [htop]
      exact h.lt id' b (hsub id' b hb)
    · exact hpage
  · intro id' ha
    have hmem : a ∈ sl.unused id := by
      rw [hcons]
      exact List.mem_cons_self
    obtain rfl := h.disjoint id' id a (hsub id' a ha) hmem
    have := h.nodup id'
    rw [hcons, List.nodup_cons] at this
    exact this.1 ha

/-- Only counters differ. -/
structure Slabs.Quiet (sl sl' : Slabs) : Prop extends Slabs.Alike sl sl' where
  slots : ∀ id, (sl'.slabclass id).slots = (sl.slabclass id).slots
  endPagePtr : ∀ id, (sl'.slabclass id).endPagePtr = (sl.slabclass id).endPagePtr
  endPageFree : ∀ id, (sl'.slabclass id).endPageFree = (sl.slabclass id).endPageFree
  top : sl'.top = sl.top

theorem Slabs.Quiet.unused {sl sl' : Slabs} (h : sl.Quiet sl') (id : Nat) :
  sl'.unused id = sl.unused id
  := by
  simp only [Slabs.unused, SlabClass.pageChunks, h.slots, h.endPagePtr, h.endPageFree, h.size]

theorem Slabs.Quiet.wf {sl sl' : Slabs} (h : sl.Quiet sl') (hwf : sl.Wf) :
  sl'.Wf
  := by
  constructor
  · simp only [h.size, h.perslab, h.powerLargest]
    exact hwf.sizes
  · simp only [h.unused]
    exact hwf.nodup
  · simp only [h.unused]
    exact hwf.disjoint
  · simp only [h.unused, h.top]
    exact hwf.lt
  · simp only [h.endPagePtr, h.endPageFree]
    exact hwf.page

theorem Slabs.Quiet.trans {sl sl' sl'' : Slabs} (h : sl.Quiet sl') (h' : sl'.Quiet sl'') :
  sl.Quiet sl''
  where
  toAlike := h.toAlike.trans h'.toAlike
  slots id := (h'.slots id).trans (h.slots id)
  endPagePtr id := (h'.endPagePtr id).trans (h.endPagePtr id)
  endPageFree id := (h'.endPageFree id).trans (h.endPageFree id)
  top := h'.top.trans h.top

theorem Slabs.Quiet.refl (sl : Slabs) : sl.Quiet sl where
  toAlike := Slabs.Alike.refl sl
  slots _ := rfl
  endPagePtr _ := rfl
  endPageFree _ := rfl
  top := rfl

/-- A change of the other fields of a class. -/
theorem Slabs.Quiet.setClass
    {sl : Slabs} {id : Nat} {p : SlabClass} (hsize : p.size = (sl.slabclass id).size)
    (hperslab : p.perslab = (sl.slabclass id).perslab) (hslots : p.slots = (sl.slabclass id).slots)
    (hptr : p.endPagePtr = (sl.slabclass id).endPagePtr)
    (hfree : p.endPageFree = (sl.slabclass id).endPageFree) :
  sl.Quiet (sl.setClass id p)
  := by
  have hupdate : ∀ {β : Type} (f : SlabClass → β), f p = f (sl.slabclass id) → ∀ id',
      f ((sl.setClass id p).slabclass id') = f (sl.slabclass id') := by
    intro β f hf id'
    by_cases hid : id' = id
    · simp [Slabs.setClass, hid, hf]
    · simp [Slabs.setClass, hid]
  exact ⟨Slabs.Alike.setClass hsize hperslab, hupdate _ hslots, hupdate _ hptr, hupdate _ hfree, rfl⟩

theorem growSlabList_quiet (sl : Slabs) (id : Nat) :
  sl.Quiet (growSlabList sl id).1
  := by
  have hcalls : sl.Quiet { sl with sysCalls := sl.sysCalls + 1 } :=
    ⟨⟨rfl, fun _ => rfl, fun _ => rfl⟩, fun _ => rfl, fun _ => rfl, fun _ => rfl, rfl⟩
  simp only [growSlabList]
  split
  · split
    · exact hcalls.trans (Slabs.Quiet.setClass rfl rfl rfl rfl rfl)
    · exact hcalls
  · exact Slabs.Quiet.refl sl

theorem memoryAllocate_none {sl sl' : Slabs} {size : Nat} (h : memoryAllocate sl size = (sl', none)) :
  sl.Quiet sl'
  := by
  simp only [memoryAllocate] at h
  split at h
  · split at h
    · obtain ⟨rfl, -⟩ := Prod.mk.inj h
      exact ⟨⟨rfl, fun _ => rfl, fun _ => rfl⟩, fun _ => rfl, fun _ => rfl, fun _ => rfl, rfl⟩
    · cases h
  · split at h
    · obtain ⟨rfl, -⟩ := Prod.mk.inj h
      exact Slabs.Quiet.refl sl
    · cases h

/-- New memory begins beyond all memory in use. -/
theorem memoryAllocate_some
    {sl sl' : Slabs} {size ptr : Nat} (h : memoryAllocate sl size = (sl', some ptr)) :
  sl'.slabclass = sl.slabclass ∧ sl'.powerLargest = sl.powerLargest ∧ sl.top ≤ ptr ∧
    ptr + size ≤ sl'.top
  := by
  simp only [memoryAllocate] at h
  split at h
  · next hbase =>
    split at h
    · cases h
    · obtain ⟨rfl, hptr⟩ := Prod.mk.inj h
      obtain rfl := Option.some.inj hptr
      refine ⟨rfl, rfl, ?_, ?_⟩ <;> simp [Slabs.top, hbase]
  · next hbase =>
    split at h
    · cases h
    · obtain ⟨rfl, hptr⟩ := Prod.mk.inj h
      obtain rfl := Option.some.inj hptr
      refine ⟨rfl, rfl, ?_, ?_⟩
      · simp [Slabs.top, hbase]
      · simp only [Slabs.top, hbase]
        split <;> omega

/-- The chunks of a page lie in it. -/
theorem mem_pageChunks
    {p : SlabClass} {ptr a : Nat} (hptr : p.endPagePtr = some ptr)
    (hfree : p.endPageFree = p.perslab) (hsize : 0 < p.size) (ha : a ∈ p.pageChunks) :
  ptr ≤ a ∧ a < ptr + p.size * p.perslab
  := by
  simp only [SlabClass.pageChunks, hptr, hfree, List.mem_map, List.mem_range] at ha
  obtain ⟨k, hk, rfl⟩ := ha
  refine ⟨Nat.le_add_right _ _, Nat.add_lt_add_left ?_ _⟩
  rw [Nat.mul_comm p.size]
  exact Nat.mul_lt_mul_of_pos_right hk hsize

theorem pageChunks_nodup {p : SlabClass} (hsize : 0 < p.size) :
  p.pageChunks.Nodup
  := by
  simp only [SlabClass.pageChunks]
  split
  · exact List.nodup_nil
  · apply List.Nodup.map _ List.nodup_range
    intro k k' hk
    exact Nat.eq_of_mul_eq_mul_right hsize (Nat.add_left_cancel hk)

/-- The class that has been given a page. -/
def newPage (sl : Slabs) (id ptr malloced : Nat) : Slabs :=
  let p := sl.slabclass id
  { sl.setClass id
      { p with endPagePtr := some ptr, endPageFree := p.perslab, slabs := p.slabs + 1 } with
    memMalloced := malloced }

theorem newPage_spec
    {sl sl₁ sl₂ : Slabs} (h : sl.Wf) {id ptr malloced : Nat} (hid : powerSmallest ≤ id)
    (hid' : id ≤ sl.powerLargest) (hslots : (sl.slabclass id).slots = []) (hquiet : sl.Quiet sl₁)
    (hmem : sl₂.slabclass = sl₁.slabclass ∧ sl₂.powerLargest = sl₁.powerLargest ∧ sl₁.top ≤ ptr ∧
      ptr + sl.pageLen id ≤ sl₂.top) :
  (newPage sl₂ id ptr malloced).Wf ∧ Slabs.Alike sl (newPage sl₂ id ptr malloced) ∧
    sl.top ≤ ptr ∧ ptr + sl.pageLen id ≤ (newPage sl₂ id ptr malloced).top ∧
    ((newPage sl₂ id ptr malloced).slabclass id).endPagePtr ≠ none ∧
    (∀ a ∈ (newPage sl₂ id ptr malloced).unused id, ptr ≤ a ∧ a < ptr + sl.pageLen id) ∧
    ∀ id', id' ≠ id → (newPage sl₂ id ptr malloced).unused id' = sl.unused id'
  := by
  obtain ⟨hclass, hlargest, hptr, htop⟩ := hmem
  rw [hquiet.top] at hptr
  have hsizes := h.sizes id hid hid'
  have hsize : (sl₂.slabclass id).size = (sl.slabclass id).size := by rw [hclass, hquiet.size]
  have hperslab : (sl₂.slabclass id).perslab = (sl.slabclass id).perslab := by
    rw [hclass, hquiet.perslab]
  have halike : Slabs.Alike sl (newPage sl₂ id ptr malloced) := by
    apply hquiet.toAlike.trans
    have hset : Slabs.Alike sl₂ (sl₂.setClass id { sl₂.slabclass id with
        endPagePtr := some ptr
        endPageFree := (sl₂.slabclass id).perslab
        slabs := (sl₂.slabclass id).slabs + 1 }) := Slabs.Alike.setClass rfl rfl
    have hsame : Slabs.Alike sl₁ sl₂ := ⟨hlargest, by simp [hclass], by simp [hclass]⟩
    exact hsame.trans ⟨hset.1, hset.2, hset.3⟩
  have htop' : (newPage sl₂ id ptr malloced).top = sl₂.top := rfl
  have hother : ∀ id', id' ≠ id → (newPage sl₂ id ptr malloced).unused id' = sl.unused id' := by
    intro id' hne
    have : (newPage sl₂ id ptr malloced).unused id' = sl₁.unused id' := by
      simp [newPage, Slabs.unused, Slabs.setClass, hne, hclass]
    rw [this, hquiet.unused]
  have hown : (newPage sl₂ id ptr malloced).unused id
      = ((newPage sl₂ id ptr malloced).slabclass id).pageChunks := by
    simp [newPage, Slabs.unused, Slabs.setClass, hclass, hquiet.slots, hslots]
  have hrange : ∀ a ∈ (newPage sl₂ id ptr malloced).unused id, ptr ≤ a ∧ a < ptr + sl.pageLen id := by
    intro a ha
    rw [hown] at ha
    have hend : ((newPage sl₂ id ptr malloced).slabclass id).endPagePtr = some ptr := by
      simp [newPage, Slabs.setClass]
    have hin := mem_pageChunks hend (by simp [newPage, Slabs.setClass])
      (by rw [halike.size]; exact hsizes.1) ha
    rw [halike.size, halike.perslab] at hin
    exact hin
  have hle : sl.top ≤ sl₂.top := le_trans hptr (le_trans (Nat.le_add_right _ _) htop)
  refine ⟨⟨?_, ?_, ?_, ?_, ?_⟩, halike, hptr, htop, ?_, hrange, hother⟩
  · intro id' h₁ h₂
    rw [halike.size, halike.perslab]
    rw [halike.powerLargest] at h₂
    exact h.sizes id' h₁ h₂
  · intro id'
    by_cases hne : id' = id
    · subst hne
      rw [hown]
      apply pageChunks_nodup
      rw [halike.size]
      exact hsizes.1
    · rw [hother id' hne]
      exact h.nodup id'
  · have hfresh : ∀ id' a, id' ≠ id → a ∈ sl.unused id' →
        a ∉ (newPage sl₂ id ptr malloced).unused id := by
      intro id' a _ ha ha'
      exact absurd (h.lt id' a ha) (not_lt.mpr (le_trans hptr (hrange a ha').1))
    intro id₁ id₂ a h₁ h₂
    by_cases hne₁ : id₁ = id
    · by_cases hne₂ : id₂ = id
      · rw [hne₁, hne₂]
      · subst hne₁
        rw [hother id₂ hne₂] at h₂
        exact absurd h₁ (hfresh id₂ a hne₂ h₂)
    · rw [hother id₁ hne₁] at h₁
      by_cases hne₂ : id₂ = id
      · subst hne₂
        exact absurd h₂ (hfresh id₁ a hne₁ h₁)
      · rw [hother id₂ hne₂] at h₂
        exact h.disjoint id₁ id₂ a h₁ h₂
  · intro id' a ha
    rw [htop']
    by_cases hne : id' = id
    · subst hne
      exact lt_of_lt_of_le (hrange a ha).2 htop
    · rw [hother id' hne] at ha
      exact lt_of_lt_of_le (h.lt id' a ha) hle
  · intro id'
    by_cases hne : id' = id
    · subst hne
      intro _
      simp only [newPage, Slabs.setClass, Function.update_self, hperslab]
      exact hsizes.2
    · have := h.page id'
      simpa [newPage, Slabs.setClass, hne, hclass, hquiet.endPagePtr, hquiet.endPageFree] using this
  · simp [newPage, Slabs.setClass]

/-- A new page of a class: either nothing but counters changes, or the class, which had no
chunk, has those of a page beyond all memory in use. -/
theorem doSlabsNewslab_spec
    {sl : Slabs} (h : sl.Wf) {id : Nat} (hid : powerSmallest ≤ id) (hid' : id ≤ sl.powerLargest)
    (hslots : (sl.slabclass id).slots = []) :
  (∃ sl', doSlabsNewslab sl id = (sl', none) ∧ sl'.Wf ∧ Slabs.Alike sl sl' ∧ sl'.top = sl.top ∧
    ∀ id, sl'.unused id = sl.unused id) ∨
  ∃ sl' ptr, doSlabsNewslab sl id = (sl', some ptr) ∧ sl'.Wf ∧ Slabs.Alike sl sl' ∧
    sl.top ≤ ptr ∧ ptr + sl.pageLen id ≤ sl'.top ∧
    (sl'.slabclass id).endPagePtr ≠ none ∧
    (∀ a ∈ sl'.unused id, ptr ≤ a ∧ a < ptr + sl.pageLen id) ∧
    ∀ id', id' ≠ id → sl'.unused id' = sl.unused id'
  := by
  have hquiet : ∀ sl', sl.Quiet sl' → sl'.Wf ∧ Slabs.Alike sl sl' ∧ sl'.top = sl.top ∧
      ∀ id, sl'.unused id = sl.unused id :=
    fun sl' hq => ⟨hq.wf h, hq.toAlike, hq.top, hq.unused⟩
  simp only [doSlabsNewslab]
  split
  · exact .inl ⟨sl, rfl, hquiet sl (Slabs.Quiet.refl sl)⟩
  · cases hg : growSlabList sl id with
    | mk sl₁ ok =>
        have hgrow : sl.Quiet sl₁ := by
          have := growSlabList_quiet sl id
          rwa [hg] at this
        cases ok with
        | false => exact .inl ⟨sl₁, rfl, hquiet sl₁ hgrow⟩
        | true =>
            simp only []
            cases hmem : memoryAllocate sl₁ ((sl.slabclass id).size * (sl.slabclass id).perslab) with
            | mk sl₂ ret =>
                cases ret with
                | none =>
                    left
                    exact ⟨sl₂, rfl, hquiet sl₂ (hgrow.trans (memoryAllocate_none hmem))⟩
                | some ptr =>
                    right
                    exact ⟨_, ptr, rfl, newPage_spec h hid hid' hslots hgrow (memoryAllocate_some hmem)⟩

/-! ### Allocation and release -/

/-- What an allocation does: a chunk it hands out is not unused any more, and was unused
before or is in the page that was taken for it; whatever is unused afterwards was unused
before or is in that page. -/
structure SlabsAlloc (sl : Slabs) (id : Nat) (sl' : Slabs) (ret : Option Addr) (page : Option Nat) :
    Prop where
  wf : sl'.Wf
  alike : Slabs.Alike sl sl'
  top : sl.top ≤ sl'.top
  page_range : ∀ ptr, page = some ptr → sl.top ≤ ptr ∧ ptr + sl.pageLen id ≤ sl'.top
  unused : ∀ id' a, a ∈ sl'.unused id' → a ∈ sl.unused id' ∨
    ∃ ptr, page = some ptr ∧ ptr ≤ a ∧ a < ptr + sl.pageLen id
  ret : ∀ a, ret = some a → (powerSmallest ≤ id ∧ id ≤ sl.powerLargest) ∧
    (∀ id', a ∉ sl'.unused id') ∧ a < sl'.top ∧
    (a ∈ sl.unused id ∨ ∃ ptr, page = some ptr ∧ ptr ≤ a ∧ a < ptr + sl.pageLen id)

theorem doSlabsAlloc_spec
    {sl sl' : Slabs} (h : sl.Wf) {size id : Nat} {ret : Option Addr} {page : Option Nat}
    (halloc : doSlabsAlloc sl size id = (sl', ret, page)) :
  SlabsAlloc sl id sl' ret page
  := by
  simp only [doSlabsAlloc] at halloc
  split at halloc
  · obtain ⟨rfl, rfl, rfl⟩ := halloc
    exact ⟨h, Slabs.Alike.refl sl, le_rfl, nofun, fun _ _ ha => .inl ha, nofun⟩
  · next hrange =>
    have hid : powerSmallest ≤ id ∧ id ≤ sl.powerLargest := by
      rw [not_or, not_lt, not_lt] at hrange
      exact hrange
    split at halloc
    · next hsome =>
      obtain ⟨a, sl₁, htake, halike, htop, hcons, hother, hpage⟩ := takeChunk_spec h size id hsome
      rw [htake] at halloc
      obtain ⟨rfl, rfl, rfl⟩ := halloc
      obtain ⟨hwf, hnot⟩ := h.take halike htop hcons hother hpage
      have hmem : a ∈ sl.unused id := by
        rw [hcons]
        exact List.mem_cons_self
      refine ⟨hwf, halike, htop.ge, nofun, ?_, ?_⟩
      · intro id' b hb
        left
        by_cases hne : id' = id
        · subst hne
          rw [hcons]
          exact List.mem_cons_of_mem a hb
        · rwa [← hother id' hne]
      · rintro b ⟨⟩
        refine ⟨hid, hnot, ?_, .inl hmem⟩
        rw [htop]
        exact h.lt id a hmem
    · next hnone =>
      rw [not_or, not_not, not_not] at hnone
      obtain ⟨sl₁, hnew, hwf, halike, htop, hsame⟩ |
          ⟨sl₁, ptr, hnew, hwf, halike, hptr, htop, hend, hin, hother⟩ :=
        doSlabsNewslab_spec h hid.1 hid.2 hnone.2
      · rw [hnew] at halloc
        obtain ⟨rfl, rfl, rfl⟩ := halloc
        refine ⟨hwf, halike, htop.ge, nofun, ?_, nofun⟩
        intro id' a ha
        rw [hsame] at ha
        exact .inl ha
      · rw [hnew] at halloc
        obtain ⟨a, sl₂, htake, halike₂, htop₂, hcons, hother₂, hpage⟩ :=
          takeChunk_spec hwf size id (.inl hend)
        simp only [htake] at halloc
        obtain ⟨rfl, rfl, rfl⟩ := halloc
        obtain ⟨hwf₂, hnot⟩ := hwf.take halike₂ htop₂ hcons hother₂ hpage
        have hmem : a ∈ sl₁.unused id := by
          rw [hcons]
          exact List.mem_cons_self
        refine ⟨hwf₂, halike.trans halike₂, ?_, ?_, ?_, ?_⟩
        · rw [htop₂]
          exact le_trans hptr (le_trans (Nat.le_add_right _ _) htop)
        · rintro _ ⟨⟩
          rw [htop₂]
          exact ⟨hptr, htop⟩
        · intro id' b hb
          by_cases hne : id' = id
          · subst hne
            right
            refine ⟨ptr, rfl, hin b ?_⟩
            rw [hcons]
            exact List.mem_cons_of_mem a hb
          · left
            rwa [hother₂ id' hne, hother id' hne] at hb
        · rintro b ⟨⟩
          refine ⟨hid, hnot, ?_, .inr ⟨ptr, rfl, hin a hmem⟩⟩
          rw [htop₂]
          exact lt_of_lt_of_le (hin a hmem).2 htop

/-- What a release does: only the chunk released can be unused anew, and it was not unused
before. -/
theorem doSlabsFree_spec
    {sl : Slabs} (h : sl.Wf) {a : Addr} (ha : ∀ id, a ∉ sl.unused id) (hlt : a < sl.top)
    (size id : Nat) :
  (doSlabsFree sl a size id).Wf ∧ Slabs.Alike sl (doSlabsFree sl a size id) ∧
    (doSlabsFree sl a size id).top = sl.top ∧
    ∀ id' b, b ∈ (doSlabsFree sl a size id).unused id' → b ∈ sl.unused id' ∨ b = a
  := by
  have hsame : ∀ sl', sl.Quiet sl' → sl'.Wf ∧ Slabs.Alike sl sl' ∧ sl'.top = sl.top ∧
      ∀ id' b, b ∈ sl'.unused id' → b ∈ sl.unused id' ∨ b = a := by
    intro sl' hq
    refine ⟨hq.wf h, hq.toAlike, hq.top, ?_⟩
    intro id' b hb
    rw [hq.unused] at hb
    exact .inl hb
  have hpush : ∀ sl₁, sl.Quiet sl₁ → ∀ p : SlabClass, p.size = (sl.slabclass id).size →
      p.perslab = (sl.slabclass id).perslab → p.slots = a :: (sl.slabclass id).slots →
      p.endPagePtr = (sl.slabclass id).endPagePtr → p.endPageFree = (sl.slabclass id).endPageFree →
      (sl₁.setClass id p).Wf ∧ Slabs.Alike sl (sl₁.setClass id p) ∧ (sl₁.setClass id p).top = sl.top ∧
      ∀ id' b, b ∈ (sl₁.setClass id p).unused id' → b ∈ sl.unused id' ∨ b = a := by
    intro sl₁ hq p hsize hperslab hslots hptr hfree
    have halike : Slabs.Alike sl (sl₁.setClass id p) := by
      apply hq.toAlike.trans
      apply Slabs.Alike.setClass
      · rw [hsize, hq.size]
      · rw [hperslab, hq.perslab]
    have hunused : ∀ id', (sl₁.setClass id p).unused id'
        = if id' = id then a :: sl.unused id else sl.unused id' := by
      intro id'
      rw [Slabs.unused_setClass]
      split
      · simp [Slabs.unused, SlabClass.pageChunks, hslots, hptr, hfree, hsize]
      · exact hq.unused id'
    have hmem : ∀ id' b, b ∈ (sl₁.setClass id p).unused id' → b ∈ sl.unused id' ∨ b = a := by
      intro id' b hb
      rw [hunused] at hb
      split at hb
      · next hid =>
        obtain rfl | hb := List.mem_cons.mp hb
        · exact .inr rfl
        · exact .inl (by rwa [hid])
      · exact .inl hb
    refine ⟨⟨?_, ?_, ?_, ?_, ?_⟩, halike, hq.top, hmem⟩
    · intro id' h₁ h₂
      rw [halike.size, halike.perslab]
      rw [halike.powerLargest] at h₂
      exact h.sizes id' h₁ h₂
    · intro id'
      rw [hunused]
      split
      · exact List.nodup_cons.mpr ⟨ha id, h.nodup id⟩
      · exact h.nodup id'
    · intro id₁ id₂ b h₁ h₂
      rw [hunused] at h₁ h₂
      split at h₁ <;> split at h₂
      · next hid₁ hid₂ => rw [hid₁, hid₂]
      · next hid₁ hid₂ =>
        obtain rfl | h₁ := List.mem_cons.mp h₁
        · exact absurd h₂ (ha id₂)
        · rw [hid₁]
          exact h.disjoint id id₂ b h₁ h₂
      · next hid₁ hid₂ =>
        obtain rfl | h₂ := List.mem_cons.mp h₂
        · exact absurd h₁ (ha id₁)
        · rw [hid₂]
          exact h.disjoint id₁ id b h₁ h₂
      · exact h.disjoint id₁ id₂ b h₁ h₂
    · intro id' b hb
      rw [Slabs.top_setClass, hq.top]
      obtain hb | rfl := hmem id' b hb
      · exact h.lt id' b hb
      · exact hlt
    · intro id'
      by_cases hid : id' = id
      · subst hid
        simp only [Slabs.setClass, Function.update_self, hptr, hfree]
        exact h.page id'
      · have := h.page id'
        simpa [Slabs.setClass, hid, hq.endPagePtr, hq.endPageFree] using this
  have hcalls : sl.Quiet { sl with sysCalls := sl.sysCalls + 1 } :=
    ⟨⟨rfl, fun _ => rfl, fun _ => rfl⟩, fun _ => rfl, fun _ => rfl, fun _ => rfl, rfl⟩
  simp only [doSlabsFree]
  split
  · exact hsame sl (Slabs.Quiet.refl sl)
  · split
    · split
      · exact hpush _ hcalls _ rfl rfl rfl rfl rfl
      · exact hsame _ hcalls
    · exact hpush _ (Slabs.Quiet.refl sl) _ rfl rfl rfl rfl rfl

theorem slabsAdjustMemRequested_quiet (sl : Slabs) (id old ntotal : Nat) :
  sl.Quiet (slabsAdjustMemRequested sl id old ntotal)
  := Slabs.Quiet.setClass rfl rfl rfl rfl rfl

/-- A class that is found exists. -/
theorem slabsClsid_le {sl : Slabs} {size : Nat} (h : slabsClsid sl size ≠ 0) :
  powerSmallest ≤ slabsClsid sl size ∧ slabsClsid sl size ≤ sl.powerLargest
  := by
  have hfrom : ∀ n res, powerSmallest ≤ res → res + n ≤ sl.powerLargest + 1 →
      slabsClsidFrom sl size n res ≠ 0 →
      powerSmallest ≤ slabsClsidFrom sl size n res ∧
        slabsClsidFrom sl size n res ≤ sl.powerLargest := by
    intro n
    induction n with
    | zero => exact fun _ _ _ h => absurd rfl h
    | succ n ih =>
        intro res hres hle hne
        simp only [slabsClsidFrom] at hne ⊢
        split at hne
        · next hsize =>
          split at hne
          · exact absurd rfl hne
          · next hlast =>
            rw [if_pos hsize, if_neg hlast]
            exact ih (res + 1) (by omega) (by omega) hne
        · next hsize =>
          rw [if_neg hsize]
          exact ⟨hres, by omega⟩
  simp only [slabsClsid] at h ⊢
  split at h
  · exact absurd rfl h
  · next hsize =>
    rw [if_neg hsize]
    by_cases hle : powerSmallest ≤ sl.powerLargest + 1
    · exact hfrom _ _ le_rfl (by omega) h
    · rw [Nat.sub_eq_zero_of_le (by omega)] at h
      exact absurd rfl h

/-! ### The allocator at the start -/

/-- What `slabs_init` is given: the memory limit, the size of a page, the sizes of the
chunks, as the growth factor determines them, the memory that has been allocated in
advance, if it has, and how the system answers the later requests. -/
structure SlabsConfig where
  limit : Nat
  itemSizeMax : Nat
  sizes : List Nat
  memBase : Option Nat
  sys : Nat → Option Nat
  itemSizeMax_pos : 0 < itemSizeMax
  sizes_le : ∀ size ∈ sizes, 0 < size ∧ size ≤ itemSizeMax

/-- A class without pages. -/
def SlabClass.empty (size perslab : Nat) : SlabClass where
  size := size
  perslab := perslab
  slots := []
  slTotal := 0
  endPagePtr := none
  endPageFree := 0
  slabs := 0
  listSize := 0
  requested := 0

def slabsInit (c : SlabsConfig) : Slabs where
  slabclass id :=
    if id = 0 then SlabClass.empty 0 0
    else if id = c.sizes.length + 1 then SlabClass.empty c.itemSizeMax 1
    else
      let size := c.sizes.getD (id - 1) 0
      SlabClass.empty size (c.itemSizeMax / size)
  memLimit := c.limit
  memMalloced := 0
  powerLargest := c.sizes.length + 1
  memBase := c.memBase
  memCurrent := c.memBase.getD 0
  memAvail := if c.memBase = none then 0 else c.limit
  brk := 0
  sys := c.sys
  sysCalls := 0

theorem slabsInit_unused (c : SlabsConfig) (id : Nat) :
  (slabsInit c).unused id = []
  := by
  simp only [Slabs.unused, slabsInit]
  split
  · rfl
  · split <;> rfl

theorem slabsInit_wf (c : SlabsConfig) :
  (slabsInit c).Wf
  := by
  constructor
  · intro id hpos hle
    simp only [powerSmallest] at hpos
    simp only [slabsInit, if_neg (Nat.one_le_iff_ne_zero.mp hpos)]
    split
    · exact ⟨c.itemSizeMax_pos, one_pos⟩
    · next hid =>
      have hlt : id - 1 < c.sizes.length := by
        simp only [slabsInit] at hle
        omega
      have hmem : c.sizes.getD (id - 1) 0 ∈ c.sizes := by
        rw [List.getD_eq_getElem _ _ hlt]
        exact List.getElem_mem hlt
      obtain ⟨hsize, hmax⟩ := c.sizes_le _ hmem
      exact ⟨hsize, Nat.div_pos hmax hsize⟩
  · intro id
    rw [slabsInit_unused]
    exact List.nodup_nil
  · intro id id' a ha
    rw [slabsInit_unused] at ha
    exact nomatch ha
  · intro id a ha
    rw [slabsInit_unused] at ha
    exact nomatch ha
  · intro id hptr
    exfalso
    apply hptr
    simp only [slabsInit]
    split
    · rfl
    · split <;> rfl

end Memcached
