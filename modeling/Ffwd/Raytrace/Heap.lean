import Ffwd.Lib.Path
import Ffwd.Lib.Tiling

/-!
# The global heap of the ray tracer

The heap is a range of memory in blocks, each with a header in front. A header says how long the
block is and whether it is free, and links the free blocks in the order of their addresses.
`GlobalMalloc` takes the first free block that is long enough and gives back what it does not need;
`GlobalFree` finds the neighbours of a block by walking over the headers, and joins free ones. The
bodies `func5` and `func6` are those the delegation server runs.

Memory is a function from the addresses of words of eight bytes to their values, so that headers may
overlap each other and the data of the blocks. Numbers are unsigned and have 64 bits.
-/

namespace Raytrace

open Linked (Path)
open Tiling (Tiles)

/-! ### Memory -/

abbrev Mem := Nat → Nat

/-- The fields of a `NODE`. -/
inductive Field where
  | next
  | size
  | free
  | cksm
  deriving DecidableEq

def Field.offset : Field → Nat
  | .next => 0
  | .size => 8
  | .free => 16
  | .cksm => 24

/-- `sizeof(NODE)` -/
def nodesize : Nat := 32

def CKSM : Nat := 0x55AA55AA

def THRESHOLD : Nat := nodesize + 16

/-- `ROUND_UP` -/
def roundUp (x : Nat) : Nat := (x + 7) % 2 ^ 64 / 8 * 8

/-- `NODE_ADD` -/
def nodeAdd (x y : Nat) : Nat := (x + y) % 2 ^ 64

structure Heap where
  mem : Mem
  /-- `gm->freelist`, with zero for `NULL`. -/
  freelist : Nat
  begmem : Nat
  endmem : Nat

def Heap.get (h : Heap) (a : Nat) (f : Field) : Nat := h.mem (a + f.offset)

def Heap.set (h : Heap) (a : Nat) (f : Field) (v : Nat) : Heap :=
  { h with mem := Function.update h.mem (a + f.offset) v }

/-- The pointer to the next free block: that of a header, or the start of the list. -/
def Heap.link (h : Heap) (prev : Nat) : Nat :=
  if prev = 0 then h.freelist else h.get prev .next

/-- `if (!prev) gm->freelist = next; else prev->next = next;` -/
def Heap.setLink (h : Heap) (prev next : Nat) : Heap :=
  if prev = 0 then { h with freelist := next } else h.set prev .next next

/-! ### The operations -/

/-- The error exits of `GlobalMalloc` and `GlobalFree`. -/
inductive Exit where
  /-- `GlobalMalloc: Invalid checksum in node.` -/
  | mallocChecksum
  /-- `GlobalMalloc: Node in free list not marked as free.` -/
  | mallocNotFree
  /-- `cannot allocate global memory.`, behind the name of the program and the text of the
  caller. -/
  | cannotAllocate (msg : String)
  /-- `GlobalFree: Attempted to free node with invalid checksum.` -/
  | freeChecksum
  /-- `GlobalFree: Attempted to free unallocated node.` -/
  | freeUnallocated
  /-- `GlobalFree: Invalid checksum in previous node.` -/
  | prevChecksum
  /-- `GlobalFree: Search for previous block fell off end of memory.` -/
  | fellOffEnd
  /-- `GlobalFree: Invalid checksum in next node.` -/
  | nextChecksum
  deriving DecidableEq

/-- Why a call does not return: the program has exited, or a loop is not over after the given number
of rounds. -/
inductive Stop where
  | exit (e : Exit)
  | rounds
  deriving DecidableEq

/-- `GlobalHeapInit`, with the memory that is there and the answer of `valloc` to the size. -/
def globalHeapInit (valloc : Nat → Option Nat) (size : Nat) (mem : Mem) : Option Heap := do
  let size := roundUp size
  let freelist ← valloc size
  let h : Heap := ⟨mem, freelist, freelist, nodeAdd freelist size⟩
  let h := h.set freelist .size ((size + (2 ^ 64 - nodesize)) % 2 ^ 64)
  let h := h.set freelist .next 0
  let h := h.set freelist .free 1
  return h.set freelist .cksm CKSM

/-- The loop of `func5` over the free list: the first block of at least the size, and the one before
it on the list. -/
def firstFit (h : Heap) (size : Nat) : Nat → Nat → Nat → Except Stop (Nat × Nat)
  | 0, _, _ => .error .rounds
  | n + 1, prev, curr =>
      if curr ≠ 0 ∧ h.get curr .size < size then
        if h.get curr .cksm ≠ CKSM then
          .error (.exit .mallocChecksum)
        else if h.get curr .free ≠ 1 then
          .error (.exit .mallocNotFree)
        else
          firstFit h size n curr (h.get curr .next)
      else
        .ok (prev, curr)

/-- The block is taken off the list; what is left of it goes on the list if it is more than
`THRESHOLD`. -/
def takeOff (h : Heap) (size prev curr : Nat) : Heap :=
  if h.get curr .size - size > THRESHOLD then
    let next := nodeAdd curr (nodesize + size)
    let h := h.set next .size (h.get curr .size - nodesize - size)
    let h := h.set next .next (h.get curr .next)
    let h := h.set next .free 1
    let h := h.set next .cksm CKSM
    let h := h.set curr .size size
    h.setLink prev next
  else
    h.setLink prev (h.get curr .next)

/-- The part of `GlobalMalloc` the server runs: the block, and the heap without it. -/
def func5 (n size : Nat) (msg : String) (h : Heap) : Except Stop (Nat × Heap) := do
  let size := roundUp size
  let (prev, curr) ← firstFit h size n 0 h.freelist
  if curr = 0 then
    throw (.exit (.cannotAllocate msg))
  else
    return (curr, takeOff h size prev curr)

/-- What `GlobalMalloc` does with the block it got from the server. -/
def mark (curr : Nat) (h : Heap) : Heap := (h.set curr .next 0).set curr .free 0

def globalMalloc (n size : Nat) (msg : String) (h : Heap) : Except Stop (Nat × Heap) := do
  if size = 0 then
    return (0, h)
  else
    let (curr, h) ← func5 n size msg h
    return (nodeAdd curr nodesize, mark curr h)

/-- The loop of `func6` over the blocks before `pn`: where it ended, the last free block it met and
whether that was the last block. -/
def findPrev (h : Heap) (pn : Nat) : Nat → Nat → Nat → Bool → Except Stop (Nat × Nat × Bool)
  | 0, _, _, _ => .error .rounds
  | n + 1, curr, prev, pcom =>
      if curr < pn ∧ curr < h.endmem then
        if h.get curr .cksm ≠ CKSM then
          .error (.exit .prevChecksum)
        else if h.get curr .free ≠ 0 then
          findPrev h pn n (nodeAdd curr (h.get curr .size + nodesize)) curr true
        else
          findPrev h pn n (nodeAdd curr (h.get curr .size + nodesize)) prev false
      else
        .ok (curr, prev, pcom)

/-- The loop of `func6` over the blocks behind `pn`: the first free block, and whether there was no
other before it. -/
def findNext (h : Heap) : Nat → Nat → Nat → Bool → Except Stop (Nat × Bool)
  | 0, _, _, _ => .error .rounds
  | n + 1, curr, next, ncom =>
      if next = 0 ∧ curr < h.endmem then
        if h.get curr .cksm ≠ CKSM then
          .error (.exit .nextChecksum)
        else if h.get curr .free ≠ 0 then
          findNext h n (nodeAdd curr (h.get curr .size + nodesize)) curr ncom
        else
          findNext h n (nodeAdd curr (h.get curr .size + nodesize)) next false
      else
        .ok (next, ncom)

/-- `a->size += n` -/
def Heap.grow (h : Heap) (a n : Nat) : Heap := h.set a .size ((h.get a .size + n) % 2 ^ 64)

/-- The nine cases of `func6`. -/
def combine (prev : Nat) (pcom : Bool) (curr next : Nat) (ncom : Bool) (h : Heap) : Heap :=
  if next ≠ 0 ∧ !ncom ∧ pcom then
    let h := h.set prev .next next
    h.grow prev (h.get curr .size + nodesize)
  else if next ≠ 0 ∧ !ncom ∧ prev ≠ 0 ∧ !pcom then
    let h := h.set prev .next curr
    h.set curr .next next
  else if next ≠ 0 ∧ !ncom ∧ prev = 0 then
    let h := { h with freelist := curr }
    h.set curr .next next
  else if ncom ∧ pcom then
    let h := h.set prev .next (h.get next .next)
    h.grow prev (h.get curr .size + h.get next .size + 2 * nodesize)
  else if ncom ∧ prev ≠ 0 ∧ !pcom then
    let h := h.set prev .next curr
    let h := h.set curr .next (h.get next .next)
    h.grow curr (h.get next .size + nodesize)
  else if ncom ∧ prev = 0 then
    let h := { h with freelist := curr }
    let h := h.set curr .next (h.get next .next)
    h.grow curr (h.get next .size + nodesize)
  else if next = 0 ∧ pcom then
    let h := h.set prev .next 0
    h.grow prev (h.get curr .size + nodesize)
  else if next = 0 ∧ prev ≠ 0 ∧ !pcom then
    let h := h.set prev .next curr
    h.set curr .next 0
  else if next = 0 ∧ prev = 0 then
    let h := { h with freelist := curr }
    h.set curr .next 0
  else
    h

/-- The part of `GlobalFree` the server runs. -/
def func6 (n pn : Nat) (h : Heap) : Except Stop Heap := do
  let (prev, pcom) ←
    if h.freelist ≠ 0 then do
      let (curr, prev, pcom) ← findPrev h pn n h.freelist 0 false
      if curr ≥ h.endmem then
        throw (.exit .fellOffEnd)
      else
        pure (prev, pcom)
    else
      pure (0, false)
  let (next, ncom) ← findNext h n (nodeAdd pn (h.get pn .size + nodesize)) 0 true
  let ncom := if next = 0 then false else ncom
  return combine prev pcom pn next ncom (h.set pn .free 1)

def globalFree (n p : Nat) (h : Heap) : Except Stop Heap := do
  if h.begmem = 0 then
    return h
  else
    let pn := nodeAdd p (2 ^ 64 - nodesize)
    if h.get pn .cksm ≠ CKSM then
      throw (.exit .freeChecksum)
    else if h.get pn .free ≠ 0 then
      throw (.exit .freeUnallocated)
    else
      func6 n pn h

/-! ### Reading and writing headers -/

section Headers

variable {h : Heap} {a b v : Nat} {f g : Field}

/-- Two headers do not overlap. -/
def Apart (a b : Nat) : Prop := a + nodesize ≤ b ∨ b + nodesize ≤ a

theorem Apart.symm (hab : Apart a b) :
  Apart b a
  := Or.symm hab

theorem Apart.ne (hab : Apart a b) :
  a ≠ b
  := by
  rintro rfl
  simp only [Apart, nodesize] at hab
  omega

theorem Field.offset_le (f : Field) :
  f.offset ≤ 24
  := by
  cases f <;> decide

theorem Field.offset_injective :
  Function.Injective Field.offset
  := by
  intro f g hfg
  cases f <;> cases g <;> first | rfl | cases hfg

@[simp]
theorem Heap.get_set_self :
  (h.set a f v).get a f = v
  := Function.update_self _ _ _

@[simp]
theorem Heap.set_begmem :
  (h.set a f v).begmem = h.begmem
  := rfl

@[simp]
theorem Heap.set_endmem :
  (h.set a f v).endmem = h.endmem
  := rfl

@[simp]
theorem Heap.setLink_begmem :
  (h.setLink a v).begmem = h.begmem
  := by
  unfold Heap.setLink
  split <;> rfl

@[simp]
theorem Heap.setLink_endmem :
  (h.setLink a v).endmem = h.endmem
  := by
  unfold Heap.setLink
  split <;> rfl

theorem Heap.setLink_of_ne (ha : a ≠ 0) :
  h.setLink a v = h.set a .next v
  := if_neg ha

theorem Heap.get_set_field (hfg : g ≠ f) :
  (h.set a f v).get a g = h.get a g
  := by
  apply Function.update_of_ne
  intro heq
  exact hfg (Field.offset_injective (Nat.add_left_cancel heq))

theorem Heap.get_set_apart (hab : Apart a b) :
  (h.set a f v).get b g = h.get b g
  := by
  apply Function.update_of_ne
  have hf := f.offset_le
  have hg := g.offset_le
  simp only [Apart, nodesize] at hab
  omega

/-! On headers that do not overlap, the heap is a table with a row for every header. The row of zero
is the start of the free list. -/

/-- A table with a row for every header. -/
abbrev Table := Nat → Field → Nat

def Heap.table (h : Heap) : Table :=
  fun a f => if a = 0 then (if f = .next then h.freelist else 0) else h.get a f

theorem Heap.table_of_ne (ha : a ≠ 0) :
  h.table a f = h.get a f
  := if_neg ha

/-- An entry of a table is changed. -/
def Table.set (T : Table) (a : Nat) (f : Field) (v : Nat) : Table :=
  fun b g => if b = a ∧ g = f then v else T b g

variable {A B : List Nat} {T : Table}

@[simp]
theorem Table.set_self :
  T.set a f v a f = v
  := if_pos ⟨rfl, rfl⟩

theorem Table.set_addr (hab : b ≠ a) :
  T.set a f v b g = T b g
  := if_neg (fun h => hab h.1)

theorem Table.set_field (hfg : g ≠ f) :
  T.set a f v b g = T b g
  := if_neg (fun h => hfg h.2)

/-- The column of the pointers. -/
def Table.next (T : Table) (a : Nat) : Nat := T a .next

theorem Heap.link_eq :
  h.link = h.table.next
  := by
  funext a
  simp only [Heap.link, Table.next, Heap.table, if_true]

theorem Table.next_set :
  (T.set a .next v).next = Function.update T.next a v
  := by
  funext b
  rw [Function.update_apply]
  simp only [Table.next, Table.set, and_true]

theorem Table.next_set_field (hf : f ≠ .next) :
  (T.set a f v).next = T.next
  := by
  funext b
  exact Table.set_field hf.symm

/-- The headers at these addresses do not overlap. -/
def Separate (A : List Nat) : Prop := ∀ a ∈ A, ∀ b ∈ A, a = 0 ∨ b = 0 ∨ a = b ∨ Apart a b

/-- The headers at these addresses are those of the table. -/
def TableOn (A : List Nat) (h : Heap) (T : Table) : Prop := ∀ a ∈ A, ∀ f, h.table a f = T a f

theorem Heap.tableOn :
  TableOn A h h.table
  := fun _ _ _ => rfl

theorem TableOn.get (hT : TableOn A h T) (ha : a ∈ A) (ha₀ : a ≠ 0) :
  h.get a f = T a f
  := by
  rw [← hT a ha f, Heap.table_of_ne ha₀]

theorem TableOn.mono (hT : TableOn A h T) (hAB : B ⊆ A) :
  TableOn B h T
  := fun a ha => hT a (hAB ha)

theorem TableOn.set (hT : TableOn A h T) (hA : Separate A) (ha : a ∈ A) (ha₀ : a ≠ 0) :
  TableOn A (h.set a f v) (T.set a f v)
  := by
  intro b hb g
  have hTb := hT b hb g
  by_cases hb₀ : b = 0
  · rw [Table.set_addr (by rw [hb₀]; exact ha₀.symm), ← hTb, Heap.table, Heap.table, if_pos hb₀,
      if_pos hb₀]
    rfl
  · rw [Heap.table_of_ne hb₀] at hTb ⊢
    rcases hA a ha b hb with ha' | hb' | rfl | hab
    · exact absurd ha' ha₀
    · exact absurd hb' hb₀
    · by_cases hg : g = f
      · rw [hg, Heap.get_set_self, Table.set_self]
      · rw [Heap.get_set_field hg, Table.set_field hg, hTb]
    · rw [Heap.get_set_apart hab, Table.set_addr hab.ne.symm, hTb]

theorem TableOn.setLink (hT : TableOn A h T) (hA : Separate A) (ha : a ∈ A) :
  TableOn A (h.setLink a v) (T.set a .next v)
  := by
  by_cases ha₀ : a = 0
  · intro b hb g
    rw [Heap.setLink, if_pos ha₀, Heap.table]
    by_cases hb₀ : b = 0
    · by_cases hg : g = .next
      · rw [if_pos hb₀, if_pos hg, hb₀, hg, ha₀, Table.set_self]
      · rw [if_pos hb₀, if_neg hg, Table.set_field hg, ← hT b hb g, Heap.table, if_pos hb₀, if_neg hg]
    · rw [if_neg hb₀, Table.set_addr (by rw [ha₀]; exact hb₀), ← hT b hb g, Heap.table_of_ne hb₀]
      rfl
  · rw [Heap.setLink_of_ne ha₀]
    exact hT.set hA ha ha₀

end Headers

/-! ### Well-formed heaps -/

/-- A block as its header describes it. -/
structure Block where
  addr : Nat
  size : Nat
  free : Bool
  deriving DecidableEq

/-- The length of a block with its header. -/
def Block.len (k : Block) : Nat := nodesize + k.size

/-- The header of the block is in memory. -/
structure Block.At (h : Heap) (k : Block) : Prop where
  size : h.get k.addr .size = k.size
  free : h.get k.addr .free = k.free.toNat
  cksm : h.get k.addr .cksm = CKSM

/-- The addresses of the free blocks. -/
def freeAddrs (l : List Block) : List Nat := (l.filter (·.free)).map (·.addr)

/-- Not both of two blocks are free. -/
def NotBothFree (k k' : Block) : Prop := ¬ (k.free = true ∧ k'.free = true)

/-- The blocks tile the heap, all headers are as they should be, the free list has the free blocks in
the order of their addresses, and no two free blocks are adjacent. -/
structure Heap.Wf (h : Heap) (l : List Block) : Prop where
  begmem_pos : 0 < h.begmem
  begmem_dvd : 8 ∣ h.begmem
  endmem_lt : h.endmem < 2 ^ 64
  tiles : Tiles Block.addr Block.len h.begmem l h.endmem
  headers : ∀ k ∈ l, k.At h
  size_dvd : ∀ k ∈ l, 8 ∣ k.size
  list : Path h.link 0 (freeAddrs l) 0
  coalesced : l.IsChain NotBothFree

section Wf

variable {h h' : Heap} {l l₁ l₂ old new : List Block} {k k' : Block} {a b : Nat}

@[simp]
theorem freeAddrs_append :
  freeAddrs (l₁ ++ l₂) = freeAddrs l₁ ++ freeAddrs l₂
  := by
  simp only [freeAddrs, List.filter_append, List.map_append]

@[simp]
theorem freeAddrs_nil :
  freeAddrs [] = []
  := rfl

theorem freeAddrs_cons_free (hk : k.free = true) :
  freeAddrs (k :: l) = k.addr :: freeAddrs l
  := by
  simp [freeAddrs, hk]

theorem freeAddrs_cons_used (hk : k.free = false) :
  freeAddrs (k :: l) = freeAddrs l
  := by
  simp [freeAddrs, hk]

theorem mem_freeAddrs :
  a ∈ freeAddrs l ↔ ∃ k ∈ l, k.free = true ∧ k.addr = a
  := by
  simp [freeAddrs, and_assoc]

theorem Heap.Wf.addr_pos (hw : h.Wf l) (hk : k ∈ l) :
  0 < k.addr
  := Nat.lt_of_lt_of_le hw.begmem_pos (hw.tiles.mem hk).1

theorem Heap.Wf.addr_add_len (hw : h.Wf l) (hk : k ∈ l) :
  k.addr + k.len < 2 ^ 64
  := Nat.lt_of_le_of_lt (hw.tiles.mem hk).2 hw.endmem_lt

theorem Block.apart_of_le (hk : k.addr + k.len ≤ a) :
  Apart k.addr a
  := by
  left
  rw [Block.len] at hk
  omega

theorem Heap.Wf.eq_or_apart (hw : h.Wf l) (hk : k ∈ l) (hk' : k' ∈ l) :
  k = k' ∨ Apart k.addr k'.addr
  := by
  rcases hw.tiles.eq_or_apart hk hk' with heq | hle | hle
  · exact .inl heq
  · exact .inr (Block.apart_of_le hle)
  · exact .inr (Block.apart_of_le hle).symm

theorem Heap.Wf.addrs_nodup (hw : h.Wf l) :
  (0 :: l.map Block.addr).Nodup
  := by
  rw [List.nodup_cons]
  constructor
  · intro hmem
    obtain ⟨k, hk, hzero⟩ := List.mem_map.mp hmem
    exact Nat.ne_of_gt (hw.addr_pos hk) hzero
  · apply List.Pairwise.map Block.addr _ hw.tiles.pairwise
    intro k k' hle
    exact (Block.apart_of_le hle).ne

theorem Heap.Wf.freeAddrs_nodup (hw : h.Wf l) :
  (0 :: freeAddrs l).Nodup
  := by
  apply List.Nodup.sublist _ hw.addrs_nodup
  exact ((List.filter_sublist).map Block.addr).cons_cons 0

/-- The addresses of the blocks, and the start of the free list. -/
def addrs (l : List Block) : List Nat := 0 :: l.map Block.addr

theorem addr_mem_addrs (hk : k ∈ l) :
  k.addr ∈ addrs l
  := List.mem_cons_of_mem 0 (List.mem_map_of_mem hk)

theorem freeAddrs_subset_addrs :
  0 :: freeAddrs l ⊆ addrs l
  := by
  apply List.cons_subset_cons
  intro a ha
  obtain ⟨k, hk, -, rfl⟩ := mem_freeAddrs.mp ha
  exact List.mem_map_of_mem hk

theorem addrs_subset (hsub : l₁.map Block.addr ⊆ l₂.map Block.addr) :
  addrs l₁ ⊆ addrs l₂
  := List.cons_subset_cons 0 hsub

theorem separate_of_tiles (htiles : Tiles Block.addr Block.len a l b) :
  Separate (addrs l)
  := by
  intro a ha b hb
  rcases List.mem_cons.mp ha with rfl | ha
  · exact .inl rfl
  rcases List.mem_cons.mp hb with rfl | hb
  · exact .inr (.inl rfl)
  obtain ⟨k, hk, rfl⟩ := List.mem_map.mp ha
  obtain ⟨k', hk', rfl⟩ := List.mem_map.mp hb
  rcases htiles.eq_or_apart hk hk' with rfl | hle | hle
  · exact .inr (.inr (.inl rfl))
  · exact .inr (.inr (.inr (Block.apart_of_le hle)))
  · exact .inr (.inr (.inr (Block.apart_of_le hle).symm))

/-- The blocks of a part have other addresses than the blocks around it. -/
theorem Heap.Wf.addr_ne
    (old : List Block) (hw : h.Wf (l₁ ++ (old ++ l₂))) (hk : k ∈ l₁ ∨ k ∈ l₂) (hk' : k' ∈ old) :
  k.addr ≠ k'.addr
  := by
  have hpair := List.pairwise_append.mp hw.tiles.pairwise
  rcases hk with hk | hk
  · exact (Block.apart_of_le (hpair.2.2 k hk k' (List.mem_append_left l₂ hk'))).ne
  · exact (Block.apart_of_le ((List.pairwise_append.mp hpair.2.1).2.2 k' hk' k hk)).ne.symm

/-- A part of the blocks is replaced by others. -/
theorem Heap.Wf.replace
    (old new : List Block) {T : Table} (hw : h.Wf (l₁ ++ (old ++ l₂))) (hbeg : h'.begmem = h.begmem)
    (hend : h'.endmem = h.endmem)
    (htiles : ∀ c d, Tiles Block.addr Block.len c old d → Tiles Block.addr Block.len c new d)
    (hT : TableOn (addrs (l₁ ++ (new ++ l₂))) h' T)
    (hkeep : ∀ k, k ∈ l₁ ∨ k ∈ l₂ → ∀ f, f ≠ .next → T k.addr f = h.table k.addr f)
    (hnew : ∀ k ∈ new, T k.addr .size = k.size ∧ T k.addr .free = k.free.toNat ∧
      T k.addr .cksm = CKSM ∧ 8 ∣ k.size)
    (hlist : Path T.next 0 (freeAddrs (l₁ ++ (new ++ l₂))) 0)
    (hcoalesced : (l₁ ++ (new ++ l₂)).IsChain NotBothFree) :
  h'.Wf (l₁ ++ (new ++ l₂))
  := by
  have htiles' := hw.tiles.replace htiles
  have hget : ∀ k ∈ l₁ ++ (new ++ l₂), ∀ f, h'.get k.addr f = T k.addr f := by
    intro k hk f
    rw [← hT k.addr (addr_mem_addrs hk) f, Heap.table_of_ne]
    have hle := (htiles'.mem hk).1
    have hpos := hw.begmem_pos
    omega
  have hmem : ∀ k ∈ l₁ ++ (new ++ l₂), k ∈ new ∨ (k ∈ l₁ ∨ k ∈ l₂) ∧ k ∈ l₁ ++ (old ++ l₂) := by
    intro k hk
    simp only [List.mem_append] at hk ⊢
    tauto
  constructor
  · rw [hbeg]
    exact hw.begmem_pos
  · rw [hbeg]
    exact hw.begmem_dvd
  · rw [hend]
    exact hw.endmem_lt
  · rw [hbeg, hend]
    exact htiles'
  · intro k hk
    rcases hmem k hk with hk' | ⟨hk', hk''⟩
    · obtain ⟨hsize, hfree, hcksm, -⟩ := hnew k hk'
      constructor
      · rw [hget k hk, hsize]
      · rw [hget k hk, hfree]
      · rw [hget k hk, hcksm]
    · obtain ⟨hsize, hfree, hcksm⟩ := hw.headers k hk''
      have hne := Nat.ne_of_gt (hw.addr_pos hk'')
      constructor
      · rw [hget k hk, hkeep k hk' .size (by decide), Heap.table_of_ne hne, hsize]
      · rw [hget k hk, hkeep k hk' .free (by decide), Heap.table_of_ne hne, hfree]
      · rw [hget k hk, hkeep k hk' .cksm (by decide), Heap.table_of_ne hne, hcksm]
  · intro k hk
    rcases hmem k hk with hk | ⟨-, hk⟩
    · exact (hnew k hk).2.2.2
    · exact hw.size_dvd k hk
  · rw [Heap.link_eq]
    apply hlist.congr_of_mem
    intro a ha
    exact hT a (freeAddrs_subset_addrs ha) .next
  · exact hcoalesced

end Wf

end Raytrace
