import Ffwd.Raytrace.HeapProcs

/-!
# When the shared heap is safe

The invariant is about a world in which at most one processor is in a window at a time. It says that
the heap is well-formed once the stores of that processor have been made, and that before each of them
the free list is in order already. A world in which several processors mark their blocks is looked at
as if they had done so.
-/

namespace Raytrace

open Linked (Path)
open Tiling (Tiles)
open Relation (ReflTransGen)

/-! ### Single writes -/

section Write

variable {h : Heap} {l : List Block} {k k' : Block} {a b v u : Nat} {f : Field} {s : Store}

/-- The word lies in the block or its header. -/
def Block.Has (k : Block) (a : Nat) : Prop := k.addr ≤ a ∧ a < k.addr + k.len

/-- Two blocks that share a word are the same. -/
theorem Block.Has.eq {c e : Nat} (htiles : Tiles Block.addr Block.len c l e) (hk : k ∈ l)
    (hk' : k' ∈ l) (ha : k.Has a) (ha' : k'.Has a) :
  k = k'
  := by
  obtain ⟨hle, hlt⟩ := ha
  obtain ⟨hle', hlt'⟩ := ha'
  rcases htiles.eq_or_apart hk hk' with heq | happart | happart
  · exact heq
  · omega
  · omega

theorem Heap.write_comm (hab : a ≠ b) :
  (h.write a v).write b u = (h.write b u).write a v
  := by
  simp only [Heap.write, Function.update_comm hab]

theorem Heap.write_write :
  (h.write a v).write a u = h.write a u
  := by
  simp only [Heap.write, Function.update_idem]

theorem Heap.write_self :
  h.write a (h.mem a) = h
  := by
  simp only [Heap.write, Function.update_eq_self]

theorem Heap.set_eq_write :
  h.set a f v = h.write (a + f.offset) v
  := rfl

theorem Heap.get_write (hb : b ≠ a + f.offset) :
  (h.write b v).get a f = h.get a f
  := Function.update_of_ne hb.symm _ _

theorem Block.Has.ne_field (hk : k.Has b) (happart : k.addr + k.len ≤ a ∨ a + nodesize ≤ k.addr) :
  b ≠ a + f.offset
  := by
  have hf := f.offset_le
  obtain ⟨hle, hlt⟩ := hk
  rw [nodesize] at happart
  omega

/-- The part of the heap that concerns the free list: the blocks tile the heap, and the free list has
the free ones, with their sizes. -/
structure FreeOk (h : Heap) (l : List Block) : Prop where
  tiles : Tiles Block.addr Block.len h.begmem l h.endmem
  pos : 0 < h.begmem
  list : Path h.link 0 (freeAddrs l) 0
  size : ∀ k ∈ l, k.free = true → h.get k.addr .size = k.size

theorem Heap.Wf.freeOk (hw : h.Wf l) :
  FreeOk h l
  := ⟨hw.tiles, hw.begmem_pos, hw.list, fun k hk _ => (hw.headers k hk).size⟩

theorem FreeOk.addr_pos (hok : FreeOk h l) (hk : k ∈ l) :
  0 < k.addr
  := Nat.lt_of_lt_of_le hok.pos (hok.tiles.mem hk).1

/-- The words that are neither pointers nor sizes of free blocks may be others. -/
theorem FreeOk.congr
    (h' : Heap) (hok : FreeOk h l) (hlist : h'.freelist = h.freelist) (hbeg : h'.begmem = h.begmem)
    (hend : h'.endmem = h.endmem)
    (hget : ∀ k ∈ l, k.free = true → h'.get k.addr .next = h.get k.addr .next ∧
      h'.get k.addr .size = h.get k.addr .size) :
  FreeOk h' l
  := by
  constructor
  · rw [hbeg, hend]
    exact hok.tiles
  · rw [hbeg]
    exact hok.pos
  · apply hok.list.congr_of_mem
    intro a ha
    unfold Heap.link
    rcases List.mem_cons.mp ha with rfl | ha
    · rw [if_pos rfl, if_pos rfl, hlist]
    · obtain ⟨k, hk, hfree, rfl⟩ := mem_freeAddrs.mp ha
      rw [(hget k hk hfree).1, hlist]
  · intro k hk hfree
    rw [(hget k hk hfree).2]
    exact hok.size k hk hfree

/-- A word that is neither a pointer nor a size of a free block. -/
theorem FreeOk.write
    (hok : FreeOk h l)
    (hb : ∀ k ∈ l, k.free = true → b ≠ k.addr + Field.next.offset ∧ b ≠ k.addr + Field.size.offset) :
  FreeOk (h.write b v) l
  := by
  apply hok.congr (h.write b v) rfl rfl rfl
  intro k hk hfree
  exact ⟨Heap.get_write (hb k hk hfree).1, Heap.get_write (hb k hk hfree).2⟩

/-- A word of a used block. -/
theorem FreeOk.write_used (hok : FreeOk h l) (hk : k ∈ used l) (hb : k.Has b) :
  FreeOk (h.write b v) l
  := by
  apply hok.write
  intro k' hk' hfree
  obtain ⟨hmem, hused⟩ := List.mem_filter.mp hk
  have happart : k.addr + k.len ≤ k'.addr ∨ k'.addr + nodesize ≤ k.addr := by
    rcases hok.tiles.eq_or_apart hmem hk' with rfl | hle | hle
    · rw [hfree] at hused
      exact absurd hused (by decide)
    · exact .inl hle
    · right
      rw [Block.len] at hle
      omega
  exact ⟨hb.ne_field happart, hb.ne_field happart⟩

theorem FreeOk.of_write_used (hok : FreeOk (h.write b v) l) (hk : k ∈ used l) (hb : k.Has b) :
  FreeOk h l
  := by
  have hback := hok.write_used (v := h.mem b) hk hb
  rw [Heap.write_write, Heap.write_self] at hback
  exact hback

/-- The free list is in order, the same blocks are used as in the list `l`, and those that are not
held are the same blocks. -/
def Stage (l : List Block) (held : Multiset Nat) (h : Heap) : Prop :=
  ∃ l', FreeOk h l' ∧ ((used l').map Block.data : Multiset Nat) = (used l).map Block.data ∧
    ∀ k ∈ used l, k.data ∉ held → k ∈ used l'

/-- The free list is in order before and after each of the stores. -/
def Stages (l : List Block) (held : Multiset Nat) : Heap → List Store → Prop
  | h, [] => Stage l held h
  | h, s :: ss => Stage l held h ∧ Stages l held (s.apply h) ss

variable {held : Multiset Nat} {ss : List Store}

theorem Stages.stage (hs : Stages l held h ss) :
  Stage l held h
  := by
  cases ss with
  | nil => exact hs
  | cons s ss => exact hs.1

theorem FreeOk.stage (hok : FreeOk h l) :
  Stage l held h
  := ⟨l, hok, rfl, fun _ hk _ => hk⟩

/-- The stores are all to words of used blocks. -/
theorem stages_of_used
    (hok : FreeOk (ss.foldl Store.apply h) l)
    (hss : ∀ s ∈ ss, ∃ k ∈ used l, ∃ b v, k.Has b ∧ s = .word b v) :
  Stages l held h ss
  := by
  have hok' : FreeOk h l := by
    induction ss generalizing h with
    | nil => exact hok
    | cons s ss ih =>
        obtain ⟨k, hk, b, v, hb, rfl⟩ := hss s List.mem_cons_self
        exact (ih hok (fun s hs => hss s (List.mem_cons_of_mem _ hs))).of_write_used hk hb
  induction ss generalizing h with
  | nil => exact hok'.stage
  | cons s ss ih =>
      refine ⟨hok'.stage, ih hok (fun s hs => hss s (List.mem_cons_of_mem _ hs)) ?_⟩
      obtain ⟨k, hk, b, v, hb, rfl⟩ := hss s List.mem_cons_self
      exact hok'.write_used hk hb

/-- After the first store, the stores are all to words of used blocks. -/
theorem stages_cons_of_used (hstage : Stage l held h) (hok : FreeOk ((s :: ss).foldl Store.apply h) l)
    (hss : ∀ s ∈ ss, ∃ k ∈ used l, ∃ b v, k.Has b ∧ s = .word b v) :
  Stages l held h (s :: ss)
  := ⟨hstage, stages_of_used hok hss⟩

/-- The store is not to a word of the block. -/
def Store.Outside (k : Block) : Store → Prop
  | .word a _ => ¬ k.Has a
  | .freelist _ => True

theorem Store.apply_write (hs : s.Outside k) (hb : k.Has b) :
  (s.apply h).write b v = s.apply (h.write b v)
  := by
  cases s with
  | word a u =>
      apply Heap.write_comm
      rintro rfl
      exact hs hb
  | freelist u => rfl

theorem foldl_apply_write (hss : ∀ s ∈ ss, s.Outside k) (hb : k.Has b) :
  (ss.foldl Store.apply h).write b v = ss.foldl Store.apply (h.write b v)
  := by
  induction ss generalizing h with
  | nil => rfl
  | cons s ss ih =>
      rw [List.foldl_cons, List.foldl_cons, ih (fun s hs => hss s (List.mem_cons_of_mem _ hs)),
        Store.apply_write (hss s List.mem_cons_self) hb]

theorem foldl_apply_get (hss : ∀ s ∈ ss, s.Outside k) :
  (ss.foldl Store.apply h).get k.addr f = h.get k.addr f
  := by
  have hf := f.offset_le
  induction ss generalizing h with
  | nil => rfl
  | cons s ss ih =>
      rw [List.foldl_cons, ih (fun s hs => hss s (List.mem_cons_of_mem _ hs))]
      have hs := hss s List.mem_cons_self
      cases s with
      | word a u =>
          apply Heap.get_write
          rintro rfl
          apply hs
          rw [Block.Has, Block.len, nodesize]
          omega
      | freelist u => rfl

/-- A write into a block that is not held, between the stores. -/
theorem Stages.write
    (hs : Stages l held h ss) (hk : k ∈ used l) (hheld : k.data ∉ held) (hb : k.Has b)
    (hss : ∀ s ∈ ss, s.Outside k) :
  Stages l held (h.write b v) ss
  := by
  have hstage : ∀ h, Stage l held h → Stage l held (h.write b v) := by
    rintro h ⟨l', hok, hused, hsub⟩
    exact ⟨l', hok.write_used (hsub k hk hheld) hb, hused, hsub⟩
  induction ss generalizing h with
  | nil => exact hstage h hs
  | cons s ss ih =>
      refine ⟨hstage h hs.1, ?_⟩
      rw [← Store.apply_write (hss s List.mem_cons_self) hb]
      exact ih hs.2 (fun s hs => hss s (List.mem_cons_of_mem _ hs))

end Write

/-! ### The invariant -/

/-- The pointer is that of a used block, whose size satisfies the predicate. -/
def Fits (l : List Block) (p : Nat) (size : Nat → Prop) : Prop :=
  ∃ k ∈ used l, k.data = p ∧ size k.size

/-- What `GlobalRealloc` knows of a block that is to become larger, of the blocks before it, and of
the next one. -/
structure Growing (l : List Block) (p size oldsize totsize : Nat) (l₁ : List Block) (k : Block)
    (l₂ : List Block) : Prop where
  eq : l = l₁ ++ k :: l₂
  used : k.free = false
  data : k.data = p
  old : k.size = oldsize
  round : size + 7 < 2 ^ 64
  lt : oldsize < roundUp size
  total : ∀ q, l₂.head? = some q → totsize = oldsize + nodesize + q.size

/-- What a processor knows where it is. -/
def HeapPlace.Ok (l : List Block) : HeapPlace → Prop
  | .idle => True
  | .allocating n o => o.size ≤ n
  | .writing _ after => after.Ok l ∧ after.inWindow = false
  | .got p o => Fits l p (o.size ≤ ·)
  | .freeCksm _ back => ∀ e, back = some e → Fits l e.1 (e.2 ≤ ·)
  | .freeFree _ back => ∀ e, back = some e → Fits l e.1 (e.2 ≤ ·)
  | .freeing _ back => ∀ e, back = some e → Fits l e.1 (e.2 ≤ ·)
  | .reallocCksm _ _ => True
  | .reallocFree _ _ => True
  | .reallocSize _ _ => True
  | .shrinking p size oldsize => size + 7 < 2 ^ 64 ∧ roundUp size + THRESHOLD ≤ oldsize ∧
      Fits l p (· = oldsize)
  | .reading p size oldsize => size + 7 < 2 ^ 64 ∧ oldsize < roundUp size ∧ Fits l p (· = oldsize)
  | .locking p size oldsize totsize => ∃ l₁ k l₂, Growing l p size oldsize totsize l₁ k l₂
  | .testing p size oldsize totsize => ∃ l₁ k l₂, Growing l p size oldsize totsize l₁ k l₂
  | .walking p size oldsize totsize prev => ∃ l₁ k q l₂ F₁ F₂,
      Growing l p size oldsize totsize l₁ k (q :: l₂) ∧ q.free = true ∧ roundUp size ≤ totsize ∧
        freeAddrs l₁ = F₁ ++ F₂ ∧ prev = Linked.last 0 F₁
  | .linking p size oldsize totsize prev => ∃ l₁ k q l₂,
      Growing l p size oldsize totsize l₁ k (q :: l₂) ∧ q.free = true ∧ roundUp size ≤ totsize ∧
        prev = Linked.last 0 (freeAddrs l₁)
  | .unlocking p size none => Fits l p (size ≤ ·)
  | .unlocking _ size (some _) => size + 7 < 2 ^ 64
  | .copying q size _ oldsize _ => Fits l q (fun s => size ≤ s ∧ 2 * oldsize ≤ s)

variable {N : Nat}

/-- Processor `i` may be in a window, and the others are not. -/
structure World.Inv (w : World N) (i : Fin N) (l : List Block) : Prop where
  alone : w.Alone i
  heap : ((w.place i).pending.foldl Store.apply w.heap).Wf l
  stages : Stages l (w.place i).held w.heap (w.place i).pending
  outside : ∀ k ∈ used l, k.data ∉ (w.place i).held → ∀ s ∈ (w.place i).pending, s.Outside k
  allocated : ((used l).map Block.data : Multiset Nat) = w.allocated
  live : ∀ e ∈ w.live, Fits l e.1 (e.2 ≤ ·)
  places : ∀ j, (w.place j).Ok l

section Inv

variable {w w' : World N} {i j : Fin N} {l l' : List Block} {k : Block} {p : HeapPlace} {a v x : Nat}

/-- The blocks a place holds do not change. -/
theorem Fits.transfer {size : Nat → Prop} (h : Fits l x size)
    (hsub : ∀ k ∈ used l, k.data = x → k ∈ used l') :
  Fits l' x size
  := by
  obtain ⟨k, hk, hdata, hsize⟩ := h
  exact ⟨k, hsub k hk hdata, hdata, hsize⟩

theorem HeapPlace.Ok.transfer (h : p.Ok l) (hwindow : p.inWindow = false)
    (hsub : ∀ k ∈ used l, k.data ∈ p.held → k ∈ used l') :
  p.Ok l'
  := by
  have hfits : ∀ x size, x ∈ p.held → Fits l x size → Fits l' x size := by
    intro x size hx hfits
    apply hfits.transfer
    rintro k hk rfl
    exact hsub k hk hx
  have hback : ∀ back : Option (Nat × Nat), (∀ x ∈ backHeld back, x ∈ p.held) →
      (∀ e, back = some e → Fits l e.1 (e.2 ≤ ·)) → ∀ e, back = some e → Fits l' e.1 (e.2 ≤ ·) := by
    rintro back hheld h e rfl
    exact hfits e.1 _ (hheld e.1 (Multiset.mem_singleton_self e.1)) (h e rfl)
  cases p with
  | idle => trivial
  | allocating n o => exact h
  | writing ss after => exact absurd hwindow nofun
  | got q o => exact hfits q _ (Multiset.mem_cons_self q _) h
  | freeCksm q back => exact hback back (fun x hx => Multiset.mem_cons_of_mem hx) h
  | freeFree q back => exact hback back (fun x hx => Multiset.mem_cons_of_mem hx) h
  | freeing q back => exact hback back (fun x hx => Multiset.mem_cons_of_mem hx) h
  | reallocCksm q size => trivial
  | reallocFree q size => trivial
  | reallocSize q size => trivial
  | shrinking q size oldsize =>
      exact ⟨h.1, h.2.1, hfits q _ (Multiset.mem_singleton_self q) h.2.2⟩
  | reading q size oldsize =>
      exact ⟨h.1, h.2.1, hfits q _ (Multiset.mem_singleton_self q) h.2.2⟩
  | locking q size oldsize totsize => exact absurd hwindow nofun
  | testing q size oldsize totsize => exact absurd hwindow nofun
  | walking q size oldsize totsize prev => exact absurd hwindow nofun
  | linking q size oldsize totsize prev => exact absurd hwindow nofun
  | unlocking q size oldsize =>
      cases oldsize with
      | none => exact hfits q _ (Multiset.mem_singleton_self q) h
      | some oldsize => exact h
  | copying q size q' oldsize k => exact hfits q _ (by simp [HeapPlace.held]) h

theorem HeapPlace.pending_of_not_inWindow (h : p.inWindow = false) :
  p.pending = []
  := by
  cases p <;> first | rfl | exact absurd h nofun

/-- What is allocated when a processor goes to another place. -/
theorem World.allocated_update
    (w : World N) (i : Fin N) (p : HeapPlace) (heap : Heap) (memlock : Option (Fin N))
    (live : List (Nat × Nat)) :
  (⟨heap, memlock, Function.update w.place i p, live⟩ : World N).allocated
      + ((w.live.map Prod.fst : Multiset Nat) + (w.place i).held)
    = w.allocated + ((live.map Prod.fst : Multiset Nat) + p.held)
  := by
  have hsum := Counting.sum_update (fun _ => HeapPlace.held) w.place i p
  simp only [World.allocated]
  calc
    _ = (live.map Prod.fst : Multiset Nat) + (w.live.map Prod.fst : Multiset Nat)
        + (∑ j, (Function.update w.place i p j).held + (w.place i).held) := by ac_rfl
    _ = (live.map Prod.fst : Multiset Nat) + (w.live.map Prod.fst : Multiset Nat)
        + (∑ j, (w.place j).held + p.held) := by rw [hsum]
    _ = _ := by ac_rfl

/-- A live block or a held one goes over from the one to the other. -/
theorem World.allocated_eq
    {heap : Heap} {memlock : Option (Fin N)} {live : List (Nat × Nat)}
    (h : (live.map Prod.fst : Multiset Nat) + p.held
      = (w.live.map Prod.fst : Multiset Nat) + (w.place i).held) :
  (⟨heap, memlock, Function.update w.place i p, live⟩ : World N).allocated = w.allocated
  := by
  have hupdate := World.allocated_update w i p heap memlock live
  rw [h] at hupdate
  exact add_right_cancel hupdate

theorem World.Inv.allocated_nodup (hinv : w.Inv i l) :
  w.allocated.Nodup
  := by
  rw [← hinv.allocated]
  exact Multiset.coe_nodup.mpr hinv.heap.data_nodup

theorem held_subset_sum (hj : j ≠ i) (hx : x ∈ (w.place j).held) :
  x ∈ ∑ m ∈ Finset.univ.erase i, (w.place m).held
  := Multiset.mem_sum.mpr ⟨j, Finset.mem_erase.mpr ⟨hj, Finset.mem_univ j⟩, hx⟩

theorem World.allocated_split :
  w.allocated = (w.live.map Prod.fst : Multiset Nat) +
    ((w.place i).held + ∑ m ∈ Finset.univ.erase i, (w.place m).held)
  := by
  rw [World.allocated, Finset.add_sum_erase Finset.univ (fun m => (w.place m).held) (Finset.mem_univ i)]

/-- No two processors hold the same block. -/
theorem World.Inv.held_disjoint
    {m : Fin N} (hinv : w.Inv i l) (hj : j ≠ m) (hx : x ∈ (w.place j).held) :
  x ∉ (w.place m).held
  := by
  have hnodup := hinv.allocated_nodup
  rw [World.allocated_split (i := m), Multiset.nodup_add, Multiset.nodup_add] at hnodup
  intro hx'
  exact Multiset.disjoint_left.mp hnodup.2.1.2.2 hx' (held_subset_sum hj hx)

/-- No processor holds a block of a client. -/
theorem World.Inv.live_not_held (hinv : w.Inv i l) (hx : x ∈ w.live.map Prod.fst) :
  x ∉ (w.place j).held
  := by
  have hnodup := hinv.allocated_nodup
  rw [World.allocated_split (i := j), Multiset.nodup_add] at hnodup
  intro hx'
  exact Multiset.disjoint_left.mp hnodup.2.2 (Multiset.mem_coe.mpr hx)
    (Multiset.mem_add.mpr (.inl hx'))

theorem World.Inv.mem_allocated (hinv : w.Inv i l) :
  x ∈ w.allocated ↔ ∃ k ∈ used l, k.data = x
  := by
  rw [← hinv.allocated, Multiset.mem_coe, List.mem_map]

theorem mem_allocated_of_held (hx : x ∈ (w.place i).held) :
  x ∈ w.allocated
  := Multiset.mem_add.mpr (.inr (Multiset.mem_sum.mpr ⟨i, Finset.mem_univ i, hx⟩))

/-- The block of a pointer that a processor holds. -/
theorem World.Inv.held_used (hinv : w.Inv i l) (hx : x ∈ (w.place j).held) :
  ∃ k ∈ used l, k.data = x
  := hinv.mem_allocated.mp (mem_allocated_of_held hx)

theorem World.Inv.wf (hinv : w.Inv i l) (hi : (w.place i).inWindow = false) :
  w.heap.Wf l
  := by
  have hheap := hinv.heap
  rw [HeapPlace.pending_of_not_inWindow hi] at hheap
  exact hheap

/-- The header of a block that a processor holds outside of a window. -/
theorem World.Inv.header
    (hinv : w.Inv i l) (hj : (w.place j).inWindow = false) (hk : k ∈ used l)
    (hheld : k.data ∈ (w.place j).held) :
  k.At w.heap
  := by
  by_cases hij : j = i
  · subst hij
    exact (hinv.wf hj).headers k (used_subset hk)
  · have hout := hinv.outside k hk (hinv.held_disjoint hij hheld)
    obtain ⟨hsize, hfree, hcksm⟩ := hinv.heap.headers k (used_subset hk)
    rw [foldl_apply_get hout] at hsize hfree hcksm
    exact ⟨hsize, hfree, hcksm⟩

theorem Block.nodeAdd_pn (hlt : k.addr + k.len < 2 ^ 64) :
  nodeAdd k.data (2 ^ 64 - nodesize) = k.addr
  := by
  rw [Block.len] at hlt
  simp only [nodeAdd, Block.data, nodesize] at hlt ⊢
  omega

theorem World.Inv.pn (hinv : w.Inv i l) (hk : k ∈ used l) :
  nodeAdd k.data (2 ^ 64 - nodesize) = k.addr
  := Block.nodeAdd_pn (hinv.heap.addr_add_len (used_subset hk))

/-- When no processor is in a window, any may go into one. -/
theorem World.Inv.switch (hinv : w.Inv i l) (halone : w.Alone j) (hj : (w.place j).inWindow = false) :
  w.Inv j l ∧ w.heap.Wf l
  := by
  have hi : (w.place i).inWindow = false := by
    by_cases hij : i = j
    · rw [hij]
      exact hj
    · exact halone i hij
  have hw := hinv.wf hi
  refine ⟨⟨halone, ?_, ?_, ?_, hinv.allocated, hinv.live, hinv.places⟩, hw⟩
  · rw [HeapPlace.pending_of_not_inWindow hj]
    exact hw
  · rw [HeapPlace.pending_of_not_inWindow hj]
    exact hw.freeOk.stage
  · rw [HeapPlace.pending_of_not_inWindow hj]
    exact fun _ _ _ => nofun

variable {heap : Heap} {memlock : Option (Fin N)} {live : List (Nat × Nat)}

/-- A step between places outside of the windows that leaves the heap as it is. -/
theorem World.Inv.quiet
    (hinv : w.Inv i l) (hj : (w.place j).inWindow = false) (hp : p.inWindow = false)
    (halloc : (live.map Prod.fst : Multiset Nat) + p.held
      = (w.live.map Prod.fst : Multiset Nat) + (w.place j).held)
    (hlive : ∀ e ∈ live, Fits l e.1 (e.2 ≤ ·)) (hok : p.Ok l) :
  (⟨w.heap, memlock, Function.update w.place j p, live⟩ : World N).Inv i l
  := by
  have hpending : (Function.update w.place j p i).pending = (w.place i).pending := by
    by_cases hij : i = j
    · rw [hij, Function.update_self, HeapPlace.pending_of_not_inWindow hp,
        HeapPlace.pending_of_not_inWindow hj]
    · rw [Function.update_of_ne hij]
  constructor
  · intro m hm
    by_cases hmj : m = j
    · rw [hmj]
      dsimp only
      rw [Function.update_self]
      exact hp
    · dsimp only
      rw [Function.update_of_ne hmj]
      exact hinv.alone m hm
  · dsimp only
    rw [hpending]
    exact hinv.heap
  · dsimp only
    rw [hpending]
    by_cases hij : i = j
    · rw [hij, HeapPlace.pending_of_not_inWindow hj]
      rw [hij] at hinv
      exact (hinv.wf hj).freeOk.stage
    · rw [Function.update_of_ne hij]
      exact hinv.stages
  · intro k hk hheld
    dsimp only at hheld ⊢
    rw [hpending]
    by_cases hij : i = j
    · rw [hij, HeapPlace.pending_of_not_inWindow hj]
      exact nofun
    · rw [Function.update_of_ne hij] at hheld
      exact hinv.outside k hk hheld
  · rw [World.allocated_eq halloc]
    exact hinv.allocated
  · exact hlive
  · intro m
    by_cases hmj : m = j
    · rw [hmj]
      dsimp only
      rw [Function.update_self]
      exact hok
    · dsimp only
      rw [Function.update_of_ne hmj]
      exact hinv.places m

/-- The processor that may be in a window makes a step. -/
theorem World.Inv.advance
    (hinv : w.Inv i l) (hheap : (p.pending.foldl Store.apply heap).Wf l')
    (hstages : Stages l' p.held heap p.pending)
    (hout : ∀ k ∈ used l', k.data ∉ p.held → ∀ s ∈ p.pending, s.Outside k)
    (halloc : ((used l').map Block.data : Multiset Nat)
        + ((w.live.map Prod.fst : Multiset Nat) + (w.place i).held)
      = ((used l).map Block.data : Multiset Nat) + ((live.map Prod.fst : Multiset Nat) + p.held))
    (hkeep : ∀ k ∈ used l, k.data ∉ (w.place i).held → k ∈ used l')
    (hlive : ∀ e ∈ live, e ∈ w.live ∨ Fits l' e.1 (e.2 ≤ ·)) (hok : p.Ok l') :
  (⟨heap, memlock, Function.update w.place i p, live⟩ : World N).Inv i l'
  := by
  constructor
  · intro m hm
    dsimp only
    rw [Function.update_of_ne hm]
    exact hinv.alone m hm
  · dsimp only
    rw [Function.update_self]
    exact hheap
  · dsimp only
    rw [Function.update_self]
    exact hstages
  · dsimp only
    rw [Function.update_self]
    exact hout
  · have hupdate := World.allocated_update w i p heap memlock live
    rw [← hinv.allocated, ← halloc] at hupdate
    exact (add_right_cancel hupdate).symm
  · intro e he
    rcases hlive e he with he | hfits
    · apply (hinv.live e he).transfer
      intro k hk hdata
      apply hkeep k hk
      rw [hdata]
      exact hinv.live_not_held (List.mem_map_of_mem he)
    · exact hfits
  · intro m
    by_cases hmi : m = i
    · rw [hmi]
      dsimp only
      rw [Function.update_self]
      exact hok
    · dsimp only
      rw [Function.update_of_ne hmi]
      apply (hinv.places m).transfer (hinv.alone m hmi)
      intro k hk hheld
      exact hkeep k hk (hinv.held_disjoint hmi hheld)

end Inv

end Raytrace
