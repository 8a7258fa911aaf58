import Ffwd.Raytrace.HeapWindows

/-!
# Safe runs of the shared heap

A processor that has got a block from `func5` has two words of its header still to set to zero. As long
as no block is freed nobody else reads them: `func5` reads the headers of free blocks only. A world is
settled when all these words have been set. The settled world has the invariant in every state of a run
of safe steps, and so the heap is sound in each. Without the condition it is not: a block that `func5`
has taken off the list and that is not marked yet is joined to a block that another processor frees.
-/

namespace Raytrace

open Linked (Path)
open Tiling (Tiles)
open Relation (ReflTransGen)

/-! ### Words that are still to be set -/

section Clear

variable {h h' : Heap} {l : List Block} {A : Set Nat} {k : Block} {a b v n size prev curr : Nat}
  {f : Field} {msg : String}

/-- The words are set to zero. -/
noncomputable def Heap.clear (h : Heap) (A : Set Nat) : Heap := { h with mem := Aᶜ.indicator h.mem }

theorem Heap.clear_empty :
  h.clear ∅ = h
  := by
  simp only [Heap.clear, Set.compl_empty, Set.indicator_univ]

theorem Heap.clear_get (ha : a + f.offset ∉ A) :
  (h.clear A).get a f = h.get a f
  := Set.indicator_of_mem ha h.mem

theorem Heap.clear_write (ha : a ∉ A) :
  (h.clear A).write a v = (h.write a v).clear A
  := by
  have hmem : Function.update (Aᶜ.indicator h.mem) a v = Aᶜ.indicator (Function.update h.mem a v) := by
    funext b
    by_cases hb : b = a
    · rw [hb, Function.update_self, Set.indicator_of_mem ha, Function.update_self]
    · rw [Function.update_of_ne hb]
      by_cases hbA : b ∈ A
      · rw [Set.indicator_of_notMem (by simp [hbA]), Set.indicator_of_notMem (by simp [hbA])]
      · rw [Set.indicator_of_mem hbA, Set.indicator_of_mem hbA, Function.update_of_ne hb]
  simp only [Heap.clear, Heap.write, hmem]

/-- One more word is set to zero. -/
theorem Heap.clear_write_zero :
  (h.clear A).write a 0 = h.clear (insert a A)
  := by
  have hmem : Function.update (Aᶜ.indicator h.mem) a 0 = (insert a A)ᶜ.indicator h.mem := by
    funext b
    by_cases hb : b = a
    · rw [hb, Function.update_self, Set.indicator_of_notMem (by simp)]
    · rw [Function.update_of_ne hb]
      by_cases hbA : b ∈ A
      · rw [Set.indicator_of_notMem (by simp [hbA]), Set.indicator_of_notMem (by simp [hbA])]
      · rw [Set.indicator_of_mem hbA, Set.indicator_of_mem (by simp [hb, hbA])]
  simp only [Heap.clear, Heap.write, hmem]

/-- A word that is to be set to zero is set. -/
theorem Heap.write_zero_clear :
  (h.write a 0).clear A = h.clear (insert a A)
  := by
  have hmem : Aᶜ.indicator (Function.update h.mem a 0) = (insert a A)ᶜ.indicator h.mem := by
    funext b
    by_cases hbA : b ∈ A
    · rw [Set.indicator_of_notMem (by simp [hbA]), Set.indicator_of_notMem (by simp [hbA])]
    · rw [Set.indicator_of_mem hbA]
      by_cases hb : b = a
      · rw [hb, Function.update_self, Set.indicator_of_notMem (by simp)]
      · rw [Function.update_of_ne hb, Set.indicator_of_mem (by simp [hb, hbA])]
  simp only [Heap.clear, Heap.write, hmem]

/-- The words lie in used blocks. -/
def InUsed (l : List Block) (A : Set Nat) : Prop := ∀ a ∈ A, ∃ k ∈ used l, k.Has a

theorem InUsed.notMem_of_free
    (hA : InUsed l A) (htiles : Tiles Block.addr Block.len b l n) (hk : k ∈ l) (hfree : k.free = true)
    (ha : k.Has a) :
  a ∉ A
  := by
  intro hmem
  obtain ⟨k', hk', ha'⟩ := hA a hmem
  obtain ⟨hk', hused⟩ := List.mem_filter.mp hk'
  obtain rfl := Block.Has.eq htiles hk hk' ha ha'
  rw [hfree] at hused
  exact absurd hused Bool.false_ne_true

/-- The words of used blocks do not matter for the free list. -/
theorem FreeOk.of_clear (hok : FreeOk (h.clear A) l) (hA : InUsed l A) :
  FreeOk h l
  := by
  apply FreeOk.congr h hok rfl rfl rfl
  intro k hk hfree
  constructor
  · exact (Heap.clear_get (hA.notMem_of_free hok.tiles hk hfree Block.has_field)).symm
  · exact (Heap.clear_get (hA.notMem_of_free hok.tiles hk hfree Block.has_field)).symm

/-- The loop of `func5` reads headers of free blocks. -/
theorem firstFit_clear
    (hok : FreeOk (h.clear A) l) (hA : InUsed l A) (hcurr : curr ∈ 0 :: freeAddrs l) :
  firstFit (h.clear A) size n prev curr = firstFit h size n prev curr
  := by
  induction n generalizing prev curr with
  | zero => rfl
  | succ n ih =>
      by_cases hzero : curr = 0
      · rw [firstFit, firstFit, if_neg (fun h => h.1 hzero), if_neg (fun h => h.1 hzero)]
      · obtain ⟨k, hk, hfree, rfl⟩ := mem_freeAddrs.mp ((List.mem_cons.mp hcurr).resolve_left hzero)
        have hget : ∀ f, (h.clear A).get k.addr f = h.get k.addr f := by
          intro f
          exact Heap.clear_get (hA.notMem_of_free hok.tiles hk hfree Block.has_field)
        have hnext : h.get k.addr .next ∈ 0 :: freeAddrs l := by
          have hmem := hok.list.next_mem hcurr
          rw [Heap.link, if_neg hzero, hget] at hmem
          simpa [or_comm] using hmem
        rw [firstFit, firstFit, hget, hget, hget, hget, ih hnext]

/-- The block the loop ends at, and the one before it, are on the list. -/
theorem firstFit_mem
    (hok : FreeOk h l) (hprev : prev ∈ 0 :: freeAddrs l) (hcurr : curr ∈ 0 :: freeAddrs l)
    (hfit : firstFit h size n prev curr = .ok (a, b)) :
  a ∈ 0 :: freeAddrs l ∧ b ∈ 0 :: freeAddrs l
  := by
  induction n generalizing prev curr with
  | zero => cases hfit
  | succ n ih =>
      unfold firstFit at hfit
      split at hfit
      · rename_i hcond
        split at hfit
        · cases hfit
        · split at hfit
          · cases hfit
          · apply ih hcurr _ hfit
            have hmem := hok.list.next_mem hcurr
            rw [Heap.link, if_neg hcond.1] at hmem
            simpa [or_comm] using hmem
      · obtain ⟨rfl, rfl⟩ := Prod.mk.inj (Except.ok.inj hfit)
        exact ⟨hprev, hcurr⟩

theorem Heap.clear_set (ha : a + f.offset ∉ A) :
  (h.clear A).set a f v = (h.set a f v).clear A
  := Heap.clear_write ha

theorem Heap.clear_setLink (ha : a ≠ 0 → a + Field.next.offset ∉ A) :
  (h.clear A).setLink a v = (h.setLink a v).clear A
  := by
  unfold Heap.setLink
  split
  · rfl
  · rename_i hne
    exact Heap.clear_set (ha hne)

/-- Taking a block off the list writes into free blocks only. -/
theorem takeOff_clear
    (hw : (h.clear A).Wf l) (hA : InUsed l A) (hprev : prev ∈ 0 :: freeAddrs l)
    (hcurr : curr ∈ freeAddrs l) :
  takeOff (h.clear A) size prev curr = (takeOff h size prev curr).clear A
  := by
  obtain ⟨k, hk, hfree, rfl⟩ := mem_freeAddrs.mp hcurr
  have hget : ∀ (h : Heap) (f : Field), (h.clear A).get k.addr f = h.get k.addr f := by
    intro h f
    exact Heap.clear_get (hA.notMem_of_free hw.tiles hk hfree Block.has_field)
  have hlink : ∀ f : Field, prev ≠ 0 → prev + f.offset ∉ A := by
    intro f hne
    obtain ⟨k', hk', hfree', rfl⟩ := mem_freeAddrs.mp ((List.mem_cons.mp hprev).resolve_left hne)
    exact hA.notMem_of_free hw.tiles hk' hfree' Block.has_field
  have hsize : h.get k.addr .size = k.size := by
    rw [← hget]
    exact (hw.headers k hk).size
  unfold takeOff
  simp only [hget, hsize]
  split
  · rename_i hgt
    have hlt := hw.addr_add_len hk
    simp only [THRESHOLD, nodesize, Block.len] at hgt hlt
    have hnode : ∀ f : Field, nodeAdd k.addr (nodesize + size) + f.offset ∉ A := by
      intro f
      apply hA.notMem_of_free hw.tiles hk hfree
      have hf := f.offset_le
      simp only [nodeAdd, Block.Has, Block.len, nodesize]
      omega
    rw [Heap.clear_set (hnode _), Heap.clear_set (hnode _), Heap.clear_set (hnode _),
      Heap.clear_set (hnode _),
      Heap.clear_set (hA.notMem_of_free hw.tiles hk hfree Block.has_field),
      Heap.clear_setLink (hlink .next), hget]
  · exact Heap.clear_setLink (hlink .next)

/-- `func5` does not depend on words of used blocks. -/
theorem func5_clear
    {m : Nat} (hw : (h.clear A).Wf l) (hA : InUsed l A)
    (hcall : func5 n m msg h = .ok (curr, h')) :
  func5 n m msg (h.clear A) = .ok (curr, h'.clear A)
  := by
  have hstart : h.freelist ∈ 0 :: freeAddrs l := by
    have hmem : h.freelist ∈ freeAddrs l ++ [0] := hw.list.next_mem List.mem_cons_self
    simpa [or_comm] using hmem
  unfold func5 at hcall ⊢
  dsimp only at hcall ⊢
  rw [show (h.clear A).freelist = h.freelist from rfl, firstFit_clear hw.freeOk hA hstart]
  cases hfit : firstFit h (roundUp m) n 0 h.freelist with
  | error e =>
      rw [hfit] at hcall
      cases hcall
  | ok r =>
      rw [hfit] at hcall
      obtain ⟨prev, curr'⟩ := r
      obtain ⟨hprev, hcurr⟩ :=
        firstFit_mem (hw.freeOk.of_clear hA) List.mem_cons_self hstart hfit
      simp only [bind, Except.bind] at hcall ⊢
      split at hcall
      · cases hcall
      · rename_i hne
        obtain ⟨rfl, rfl⟩ := Prod.mk.inj (Except.ok.inj hcall)
        rw [if_neg hne, takeOff_clear hw hA hprev ((List.mem_cons.mp hcurr).resolve_left hne)]
        rfl

end Clear

/-! ### Settled worlds -/

/-- Where a processor is when it has marked its block. -/
def HeapPlace.settled : HeapPlace → HeapPlace
  | .writing _ (.got p o) => .got p o
  | p => p

/-- The words that `GlobalMalloc` is still to set to zero. -/
def HeapPlace.marks : HeapPlace → Set Nat
  | .writing stores (.got _ _) => {a | .word a 0 ∈ stores}
  | _ => ∅

/-- Is `GlobalRealloc` about to read headers, or the free list, around its block? -/
def HeapPlace.growing : HeapPlace → Bool
  | .locking _ _ _ _ => true
  | .testing _ _ _ _ => true
  | .walking _ _ _ _ _ => true
  | .linking _ _ _ _ _ => true
  | _ => false

/-- The stores between `func5` and the return of `GlobalMalloc` are those to the header of the block. -/
def HeapPlace.Marking : HeapPlace → Prop
  | .writing stores (.got p _) => ∃ curr, curr + nodesize = p ∧ stores <:+ markStores curr
  | _ => True

section Settle

variable {N : Nat} {w w' : World N} {i j m : Fin N} {l l' : List Block} {k : Block} {p : HeapPlace}
  {a x n : Nat} {heap : Heap} {memlock : Option (Fin N)} {live : List (Nat × Nat)}

@[simp]
theorem HeapPlace.settled_held (p : HeapPlace) :
  p.settled.held = p.held
  := by
  unfold settled
  split <;> rfl

theorem HeapPlace.settled_inWindow (p : HeapPlace) :
  p.settled.inWindow = p.inRealloc
  := by
  cases p with
  | writing stores after => cases after <;> rfl
  | _ => rfl

theorem HeapPlace.settled_of_not_inWindow (hp : p.inWindow = false) :
  p.settled = p
  := by
  cases p <;> first | rfl | exact absurd hp nofun

theorem HeapPlace.not_growing_of_not_inWindow (hp : p.inWindow = false) :
  p.growing = false
  := by
  cases p <;> first | rfl | exact absurd hp nofun

theorem HeapPlace.not_growing_of_not_inRealloc (hp : p.inRealloc = false) :
  p.growing = false
  := by
  cases p <;> first | rfl | exact absurd hp nofun

theorem HeapPlace.not_inRealloc_of_mem_marks (ha : a ∈ p.marks) :
  p.inRealloc = false
  := by
  unfold marks at ha
  split at ha
  · rfl
  · exact absurd ha (Set.notMem_empty a)

theorem HeapPlace.marking_of_settled (hp : p.settled = p) :
  p.Marking
  := by
  unfold settled at hp
  unfold Marking
  split
  · cases hp
  · trivial

theorem HeapPlace.marks_of_settled (hp : p.settled = p) :
  p.marks = ∅
  := by
  unfold settled at hp
  unfold marks
  split
  · cases hp
  · rfl

/-- The words of headers that are still to be set. -/
def World.marks (w : World N) : Set Nat := ⋃ j, (w.place j).marks

/-- The words the other processors are still to set. -/
def World.marksBeside (w : World N) (j : Fin N) : Set Nat := ⋃ m ∈ {m | m ≠ j}, (w.place m).marks

/-- The world after all processors have marked their blocks. -/
noncomputable def World.settle (w : World N) : World N :=
  { w with heap := w.heap.clear w.marks, place := fun j => (w.place j).settled }

theorem World.marks_eq (j : Fin N) :
  w.marks = (w.place j).marks ∪ w.marksBeside j
  := by
  ext a
  simp only [marks, marksBeside, Set.mem_iUnion, Set.mem_union, Set.mem_ofPred_eq, exists_prop]
  constructor
  · rintro ⟨m, hm⟩
    by_cases hmj : m = j
    · rw [hmj] at hm
      exact .inl hm
    · exact .inr ⟨m, hmj, hm⟩
  · rintro (hj | ⟨m, -, hm⟩)
    · exact ⟨j, hj⟩
    · exact ⟨m, hm⟩

theorem World.marks_update :
  (⟨heap, memlock, Function.update w.place j p, live⟩ : World N).marks = p.marks ∪ w.marksBeside j
  := by
  rw [marks_eq j]
  dsimp only
  rw [Function.update_self]
  congr 1
  ext a
  simp only [marksBeside, Set.mem_iUnion, Set.mem_ofPred_eq, exists_prop]
  constructor
  · rintro ⟨m, hmj, hm⟩
    rw [Function.update_of_ne hmj] at hm
    exact ⟨m, hmj, hm⟩
  · rintro ⟨m, hmj, hm⟩
    refine ⟨m, hmj, ?_⟩
    rw [Function.update_of_ne hmj]
    exact hm

/-- A step of a processor, looked at when the others have marked their blocks. -/
theorem World.settle_update :
  (⟨heap, memlock, Function.update w.place j p, live⟩ : World N).settle
    = ⟨heap.clear (p.marks ∪ w.marksBeside j), memlock, Function.update w.settle.place j p.settled, live⟩
  := by
  simp only [settle, marks_update, mk.injEq, true_and, and_true]
  funext m
  by_cases hmj : m = j
  · rw [hmj, Function.update_self, Function.update_self]
  · rw [Function.update_of_ne hmj, Function.update_of_ne hmj]

/-- The processor has nothing to mark, neither before the step nor after it. -/
theorem World.settle_update_of_settled (hj : (w.place j).settled = w.place j) (hp : p.settled = p) :
  (⟨heap, memlock, Function.update w.place j p, live⟩ : World N).settle
    = ⟨heap.clear w.marks, memlock, Function.update w.settle.place j p, live⟩
  := by
  rw [settle_update, marks_eq j, HeapPlace.marks_of_settled hj, HeapPlace.marks_of_settled hp, hp]

theorem World.settle_eq (hw : ∀ m, (w.place m).settled = w.place m) :
  w.settle = w
  := by
  have hmarks : w.marks = ∅ := by
    rw [marks, Set.iUnion_eq_empty]
    exact fun m => HeapPlace.marks_of_settled (hw m)
  simp only [settle, hmarks, Heap.clear_empty, hw]

theorem World.settle_place :
  w.settle.place j = (w.place j).settled
  := rfl

@[simp]
theorem World.settle_held :
  (w.settle.place j).held = (w.place j).held
  := HeapPlace.settled_held (w.place j)

theorem World.settle_allocated :
  w.settle.allocated = w.allocated
  := by
  simp only [allocated, settle, HeapPlace.settled_held]

/-- The settled world has the invariant; while a processor lets its block grow, nobody has a block
to mark. -/
structure World.Shared (w : World N) (i : Fin N) (l : List Block) : Prop where
  inv : w.settle.Inv i l
  growing : ∀ j, (w.place j).growing = true → ∀ m, (w.place m).settled = w.place m
  marking : ∀ j, (w.place j).Marking

/-- The block whose header has a word that is to be set. -/
theorem World.Shared.exists_block (hs : w.Shared i l) (ha : a ∈ (w.place j).marks) :
  ∃ k ∈ used l, k.data ∈ (w.place j).held ∧ k.Has a
  := by
  have hmarking := hs.marking j
  cases hj : w.place j with
  | writing stores after =>
      cases after with
      | got q o =>
          rw [hj] at ha hmarking
          obtain ⟨curr, rfl, hsuffix⟩ := hmarking
          have hheld : curr + nodesize ∈ (w.settle.place j).held := by
            rw [settle_held, hj]
            exact Multiset.mem_cons_self _ _
          obtain ⟨k, hk, hdata⟩ := hs.inv.held_used hheld
          obtain rfl : k.addr = curr := Nat.add_right_cancel hdata
          refine ⟨k, hk, Multiset.mem_cons_self _ _, ?_⟩
          have hmem := hsuffix.subset ha
          simp only [markStores, Store.field, List.mem_cons, Store.word.injEq, List.not_mem_nil,
            or_false, and_true] at hmem
          rcases hmem with rfl | rfl
          · exact Block.has_field
          · exact Block.has_field
      | _ =>
          rw [hj] at ha
          exact absurd ha (Set.notMem_empty a)
  | _ =>
      rw [hj] at ha
      exact absurd ha (Set.notMem_empty a)

theorem World.Shared.inUsed (hs : w.Shared i l) :
  InUsed l w.marks
  := by
  intro a ha
  obtain ⟨j, hj⟩ := Set.mem_iUnion.mp ha
  obtain ⟨k, hk, -, hhas⟩ := hs.exists_block hj
  exact ⟨k, hk, hhas⟩

/-- A word of a block that no processor has to mark. -/
theorem World.Shared.notMem_marks
    (hs : w.Shared i l) (hk : k ∈ used l) (ha : k.Has a)
    (hnot : ∀ m, k.data ∈ (w.place m).held → (w.place m).settled = w.place m) :
  a ∉ w.marks
  := by
  intro hmem
  obtain ⟨m, hm⟩ := Set.mem_iUnion.mp hmem
  obtain ⟨k', hk', hheld, ha'⟩ := hs.exists_block hm
  obtain rfl := Block.Has.eq hs.inv.heap.tiles (used_subset hk) (used_subset hk') ha ha'
  rw [HeapPlace.marks_of_settled (hnot m hheld)] at hm
  exact absurd hm (Set.notMem_empty a)

/-- A block is held by one processor only. -/
theorem World.Shared.settled_of_held
    (hs : w.Shared i l) (hj : (w.place j).settled = w.place j) (hx : x ∈ (w.place j).held) :
  ∀ m, x ∈ (w.place m).held → (w.place m).settled = w.place m
  := by
  intro m hm
  by_cases hmj : m = j
  · rw [hmj, hj]
  · have hx' : x ∈ (w.settle.place j).held := by
      rw [settle_held]
      exact hx
    have hnot := hs.inv.held_disjoint (Ne.symm hmj) hx'
    rw [settle_held] at hnot
    exact absurd hm hnot

/-- A client's block is held by no processor. -/
theorem World.Shared.settled_of_live (hs : w.Shared i l) (hx : x ∈ w.live.map Prod.fst) :
  ∀ m, x ∈ (w.place m).held → (w.place m).settled = w.place m
  := by
  intro m hm
  have hnot := hs.inv.live_not_held (j := m) hx
  rw [settle_held] at hnot
  exact absurd hm hnot

/-- The header of a block that a processor holds outside of a window. -/
theorem World.Shared.header
    (hs : w.Shared i l) (hj : (w.place j).inWindow = false) (hk : k ∈ used l)
    (hheld : k.data ∈ (w.place j).held) :
  k.At w.heap
  := by
  have hsettled := HeapPlace.settled_of_not_inWindow hj
  have hplace : w.settle.place j = w.place j := hsettled
  obtain ⟨hsize, hfree, hcksm⟩ :=
    hs.inv.header (by rw [hplace]; exact hj) hk (by rw [hplace]; exact hheld)
  have hget : ∀ f : Field, w.settle.heap.get k.addr f = w.heap.get k.addr f := by
    intro f
    exact Heap.clear_get (hs.notMem_marks hk Block.has_field (hs.settled_of_held hsettled hheld))
  rw [hget] at hsize hfree hcksm
  exact ⟨hsize, hfree, hcksm⟩

/-- A world in which nobody has a block to mark. -/
theorem World.Inv.shared (hinv : w.Inv i l) (hw : ∀ m, (w.place m).settled = w.place m) :
  w.Shared i l
  := by
  refine ⟨?_, fun _ _ => hw, fun j => HeapPlace.marking_of_settled (hw j)⟩
  rw [settle_eq hw]
  exact hinv

theorem settled_update
    (hw : ∀ m, m ≠ j → (w.place m).settled = w.place m) (hp : p.settled = p) (m : Fin N) :
  (Function.update w.place j p m).settled = Function.update w.place j p m
  := by
  by_cases hmj : m = j
  · rw [hmj, Function.update_self, hp]
  · rw [Function.update_of_ne hmj, hw m hmj]

/-- A processor goes to another place. -/
theorem World.Shared.of_update {i' : Fin N}
    (hs : w.Shared i l)
    (hinv : (⟨heap, memlock, Function.update w.place j p, live⟩ : World N).settle.Inv i' l')
    (hsettled : p.settled = p ∨ ∀ m, m ≠ j → (w.place m).growing = false)
    (hgrowing : p.growing = false) (hmarking : p.Marking) :
  (⟨heap, memlock, Function.update w.place j p, live⟩ : World N).Shared i' l'
  := by
  refine ⟨hinv, ?_, ?_⟩
  · intro m hm
    dsimp only at hm ⊢
    by_cases hmj : m = j
    · rw [hmj, Function.update_self, hgrowing] at hm
      cases hm
    · rw [Function.update_of_ne hmj] at hm
      rcases hsettled with hsettled | hother
      · exact settled_update (fun m' _ => hs.growing m hm m') hsettled
      · rw [hother m hmj] at hm
        cases hm
  · intro m
    dsimp only
    by_cases hmj : m = j
    · rw [hmj, Function.update_self]
      exact hmarking
    · rw [Function.update_of_ne hmj]
      exact hs.marking m

/-! ### Steps -/

/-- A step between places outside of the windows that leaves the heap as it is. -/
theorem World.Shared.quiet
    (hs : w.Shared i l) (hj : (w.place j).inWindow = false) (hp : p.inWindow = false)
    (halloc : (live.map Prod.fst : Multiset Nat) + p.held
      = (w.live.map Prod.fst : Multiset Nat) + (w.place j).held)
    (hlive : ∀ e ∈ live, Fits l e.1 (e.2 ≤ ·)) (hok : p.Ok l) :
  (⟨w.heap, memlock, Function.update w.place j p, live⟩ : World N).Shared i l
  := by
  have hsettled := HeapPlace.settled_of_not_inWindow hj
  have hpsettled := HeapPlace.settled_of_not_inWindow hp
  have hplace : w.settle.place j = w.place j := hsettled
  apply hs.of_update _ (.inl hpsettled) (HeapPlace.not_growing_of_not_inWindow hp)
    (HeapPlace.marking_of_settled hpsettled)
  rw [settle_update_of_settled hsettled hpsettled]
  apply hs.inv.quiet _ hp _ hlive hok
  · rw [hplace]
    exact hj
  · rw [hplace]
    exact halloc

/-- A client calls with a block. -/
theorem World.Shared.calls
    {size : Nat} (hs : w.Shared i l) (hj : w.place j = .idle) (hx : (x, size) ∈ w.live)
    (hp : p.inWindow = false) (hheld : p.held = {x}) (hok : p.Ok l) :
  ({ w with live := w.live.erase (x, size) }.goto j p : World N).Shared i l
  := by
  apply hs.quiet (by rw [hj]; rfl) hp _ _ hok
  · rw [hj, hheld]
    exact (coe_erase_add hx).trans (add_zero _).symm
  · exact fun e he => hs.inv.live e (List.mem_of_mem_erase he)

/-- A processor returns to its client with a block. -/
theorem World.Shared.returns
    {size : Nat} (hs : w.Shared i l) (hj : (w.place j).inWindow = false)
    (hheld : (w.place j).held = {x}) (hfits : Fits l x (size ≤ ·)) :
  ({ w with memlock := memlock, live := (x, size) :: w.live }.goto j .idle : World N).Shared i l
  := by
  apply hs.quiet (p := .idle) hj rfl _ _ trivial
  · rw [hheld]
    exact coe_cons_add
  · intro e he
    rcases List.mem_cons.mp he with rfl | he
    · exact hfits
    · exact hs.inv.live e he

/-- A processor goes on in a call. -/
theorem World.Shared.goes_on
    (hs : w.Shared i l) (hj : (w.place j).inWindow = false) (hp : p.inWindow = false)
    (hheld : p.held = (w.place j).held) (hok : p.Ok l) :
  ({ w with memlock := memlock }.goto j p : World N).Shared i l
  := hs.quiet hj hp (by rw [hheld]) hs.inv.live hok

/-- The server takes a block off the list. -/
theorem World.Shared.func5
    {size curr : Nat} {o : Order} {msg : String} {h : Heap} (hs : w.Shared i l)
    (hj : w.place j = .allocating size o) (hrealloc : w.NoRealloc j) (hsize : size + 7 < 2 ^ 64)
    (hcall : Raytrace.func5 n size msg w.heap = .ok (curr, h)) :
  ∃ l', ({ w with heap := h }.goto j
    (.writing (markStores curr) (.got (nodeAdd curr nodesize) o)) : World N).Shared j l'
  := by
  have hplace : w.settle.place j = .allocating size o := by
    rw [settle_place, hj]
    rfl
  have halone : w.settle.Alone j := by
    intro m hm
    exact (HeapPlace.settled_inWindow _).trans (hrealloc m hm)
  obtain ⟨-, hw⟩ := hs.inv.switch halone (by rw [hplace]; rfl)
  obtain ⟨hlt, l', hinv⟩ := hs.inv.func5 hplace halone hsize (func5_clear hw hs.inUsed hcall)
  have hinv₁ := hinv.store (Function.update_self _ _ _)
  have hinv₂ := hinv₁.store (Function.update_self _ _ _)
  refine ⟨l', hs.of_update ?_ (.inr ?_) rfl ⟨curr, ?_, List.suffix_rfl⟩⟩
  · have hmarks : ((HeapPlace.writing (markStores curr) (.got (nodeAdd curr nodesize) o)).marks ∪
        w.marksBeside j) = insert (curr + Field.free.offset) (insert (curr + Field.next.offset) w.marks) := by
      rw [marks_eq j, hj]
      ext a
      simp [HeapPlace.marks, markStores, Store.field]
      tauto
    rw [settle_update, hmarks, ← Heap.clear_write_zero, ← Heap.clear_write_zero]
    rw [goto, goto, goto, Function.update_idem, Function.update_idem] at hinv₂
    exact hinv₂
  · exact fun m hm => HeapPlace.not_growing_of_not_inRealloc (hrealloc m hm)
  · exact (Nat.mod_eq_of_lt hlt).symm

/-- A word of the block is marked. -/
theorem World.Shared.store_mark
    {s : Store} {stores : List Store} {o : Order} (hs : w.Shared i l)
    (hj : w.place j = .writing (s :: stores) (.got x o)) :
  ({ w with heap := s.apply w.heap }.goto j
    (if stores.isEmpty then .got x o else .writing stores (.got x o)) : World N).Shared i l
  := by
  have hmarking := hs.marking j
  rw [hj] at hmarking
  obtain ⟨curr, hcurr, hsuffix⟩ := hmarking
  obtain ⟨a, rfl⟩ : ∃ a, s = .word a 0 := by
    have hmem := hsuffix.subset List.mem_cons_self
    simp only [markStores, List.mem_cons, List.not_mem_nil, or_false] at hmem
    rcases hmem with rfl | rfl
    · exact ⟨_, rfl⟩
    · exact ⟨_, rfl⟩
  obtain ⟨p, hp⟩ : ∃ p, p = (if stores.isEmpty then HeapPlace.got x o else .writing stores (.got x o)) :=
    ⟨_, rfl⟩
  have hmarks : p.marks = {b | .word b 0 ∈ stores} := by
    rw [hp]
    cases stores with
    | nil => simp [HeapPlace.marks]
    | cons s stores => rfl
  have hsettled : p.settled = (w.place j).settled := by
    rw [hp, hj]
    cases stores with
    | nil => rfl
    | cons s stores => rfl
  rw [← hp]
  apply hs.of_update _ (.inr _)
  · rw [hp]
    cases stores with
    | nil => rfl
    | cons s stores => rfl
  · rw [hp]
    cases stores with
    | nil => trivial
    | cons s stores => exact ⟨curr, hcurr, (List.suffix_cons _ _).trans hsuffix⟩
  · have hinsert : w.marks = insert a (p.marks ∪ w.marksBeside j) := by
      rw [marks_eq j, hj, hmarks]
      ext b
      simp [HeapPlace.marks]
      tauto
    rw [settle_update, hsettled, Store.apply, Heap.write_zero_clear, ← hinsert]
    have hsame : Function.update w.settle.place j (w.place j).settled = w.settle.place :=
      Function.update_eq_self j w.settle.place
    rw [hsame]
    exact hs.inv
  · intro m hm
    by_contra hgrowing
    have hall := hs.growing m (by simpa using hgrowing) j
    rw [hj] at hall
    cases hall

/-- `GlobalRealloc` makes a store. -/
theorem World.Shared.store_realloc
    {s : Store} {stores : List Store} {after : HeapPlace} (hs : w.Shared i l)
    (hj : w.place j = .writing (s :: stores) after) (hsettled : (w.place j).settled = w.place j) :
  ({ w with heap := s.apply w.heap }.goto j
    (if stores.isEmpty then after else .writing stores after) : World N).Shared j l
  := by
  have hplace : w.settle.place j = .writing (s :: stores) after := hsettled.trans hj
  obtain rfl := hs.inv.eq_of_inWindow (j := j) (by rw [hplace]; rfl)
  obtain ⟨p, hp⟩ : ∃ p, p = (if stores.isEmpty then after else .writing stores after) := ⟨_, rfl⟩
  have hafter : after.inWindow = false := by
    have hok := hs.inv.places j
    rw [hplace] at hok
    exact hok.2
  have hpsettled : p.settled = p := by
    rw [hp]
    cases stores with
    | nil => exact HeapPlace.settled_of_not_inWindow hafter
    | cons s stores =>
        rw [hj] at hsettled
        cases after <;> first | rfl | cases hsettled
  have hgrowing : p.growing = false := by
    rw [hp]
    cases stores with
    | nil => exact HeapPlace.not_growing_of_not_inWindow hafter
    | cons s stores => rfl
  have hstore : s.apply w.settle.heap = (s.apply w.heap).clear w.marks := by
    cases s with
    | freelist v => rfl
    | word a v =>
        apply Heap.clear_write
        intro hmem
        obtain ⟨m, hm⟩ := Set.mem_iUnion.mp hmem
        obtain ⟨k, hk, hheld, ha⟩ := hs.exists_block hm
        have hnot : k.data ∉ (w.settle.place j).held := by
          apply hs.inv.held_disjoint (j := m)
          · rintro rfl
            rw [HeapPlace.marks_of_settled hsettled] at hm
            exact absurd hm (Set.notMem_empty a)
          · rw [settle_held]
            exact hheld
        apply hs.inv.outside k hk hnot (.word a v) _ ha
        rw [hplace]
        exact List.mem_cons_self
  have hinv := hs.inv.store hplace
  rw [← hp] at hinv ⊢
  apply hs.of_update _ (.inl hpsettled) hgrowing (HeapPlace.marking_of_settled hpsettled)
  rw [settle_update_of_settled hsettled hpsettled, ← hstore]
  exact hinv

/-- The end of a block is about to be cut off. -/
theorem World.Shared.shrinking
    {size oldsize : Nat} (hs : w.Shared i l) (hj : w.place j = .shrinking x size oldsize)
    (hrealloc : w.NoRealloc j) :
  ∃ l', (w.goto j (.writing (shrinkStores x (roundUp size) oldsize)
    (.freeCksm (nodeAdd (nodeAdd x (roundUp size)) nodesize) (some (x, size)))) : World N).Shared j l'
  := by
  have hsettled : (w.place j).settled = w.place j := by
    rw [hj]
    rfl
  have hplace : w.settle.place j = .shrinking x size oldsize := hsettled.trans hj
  have halone : w.settle.Alone j := by
    intro m hm
    exact (HeapPlace.settled_inWindow _).trans (hrealloc m hm)
  obtain ⟨l', hinv⟩ := hs.inv.shrinking hplace halone
  refine ⟨l', hs.of_update ?_ (.inl rfl) rfl trivial⟩
  rw [settle_update_of_settled hsettled rfl]
  exact hinv

/-- A word is written into a block that no processor has to mark. -/
theorem World.Shared.write
    {v : Nat} (hs : w.Shared i l) (hk : k ∈ used l) (hle : k.data ≤ a) (hlt : a < k.data + k.size)
    (hmark : ∀ m, k.data ∈ (w.place m).held → (w.place m).settled = w.place m)
    (hheld : (w.settle.place i).inWindow = false ∨ k.data ∉ (w.place i).held) :
  ({ w with heap := w.heap.write a v } : World N).Shared i l
  := by
  have ha : k.Has a := by
    simp only [Block.Has, Block.data, Block.len] at hle hlt ⊢
    omega
  have hinv := hs.inv.write (v := v) hk hle hlt
    (by rw [settle_held]; exact hheld)
  refine ⟨?_, hs.growing, hs.marking⟩
  have hsettle : ({ w with heap := w.heap.write a v } : World N).settle
      = { w.settle with heap := w.settle.heap.write a v } := by
    simp only [settle, Heap.clear_write (hs.notMem_marks hk ha hmark)]
    rfl
  rw [hsettle]
  exact hinv

/-- A client writes into its block. -/
theorem World.Shared.write_live
    {size v : Nat} (hs : w.Shared i l) (hx : (x, size) ∈ w.live) (hle : x ≤ a) (hlt : a < x + size) :
  ({ w with heap := w.heap.write a v } : World N).Shared i l
  := by
  obtain ⟨k, hk, rfl, hsize⟩ := hs.inv.live (x, size) hx
  dsimp only at hle hlt hsize
  have hlive : k.data ∈ w.live.map Prod.fst := List.mem_map_of_mem (f := Prod.fst) hx
  have hnot := hs.inv.live_not_held (j := i) hlive
  rw [settle_held] at hnot
  exact hs.write hk hle (by omega) (hs.settled_of_live hlive) (.inr hnot)

/-- A block that is long enough is about to be copied to. -/
theorem World.Shared.gotMove
    {q size oldsize : Nat} (hs : w.Shared i l) (hj : w.place j = .got q ⟨size, some (x, oldsize)⟩)
    (hold : 2 * oldsize ≤ w.heap.get (nodeAdd q (2 ^ 64 - nodesize)) .size) :
  (w.goto j (.copying q size x oldsize 0) : World N).Shared i l
  := by
  have hplace := hs.inv.places j
  rw [settle_place, hj] at hplace
  obtain ⟨k, hk, rfl, hsize⟩ := hplace
  have hheader := hs.header (j := j) (by rw [hj]; rfl) hk
    (by rw [hj]; exact Multiset.mem_cons_self _ _)
  rw [hs.inv.pn hk, hheader.size] at hold
  exact hs.goes_on (by rw [hj]; rfl) rfl (by rw [hj]; rfl) ⟨k, hk, rfl, hsize, hold⟩

/-- The next word of a block is copied. -/
theorem World.Shared.copying
    {q size oldsize m v : Nat} (hs : w.Shared i l) (hj : w.place j = .copying q size x oldsize m)
    (hm : m < oldsize / 4) :
  ({ w with heap := w.heap.write (nodeAdd q (8 * m)) v }.goto j
    (.copying q size x oldsize (m + 1)) : World N).Shared i l
  := by
  have hsettled : (w.place j).settled = w.place j := by
    rw [hj]
    rfl
  have hplace : w.settle.place j = .copying q size x oldsize m := hsettled.trans hj
  have hok := hs.inv.places j
  rw [hplace] at hok
  obtain ⟨k, hk, rfl, hsize, hold⟩ := hok
  have hlt := hs.inv.heap.addr_add_len (used_subset hk)
  have hword : nodeAdd k.data (8 * m) = k.data + 8 * m := Block.nodeAdd_next hlt (by omega)
  have hheld : k.data ∈ (w.place j).held := by
    rw [hj]
    simp [HeapPlace.held]
  have hnot := hs.inv.not_held (x := k.data) (by rw [hplace]; rfl) (by rw [hplace]; simp [HeapPlace.held])
  rw [hword]
  rw [settle_held] at hnot
  have hwrite := hs.write (v := v) hk (by omega : k.data ≤ k.data + 8 * m) (by omega)
    (hs.settled_of_held hsettled hheld) hnot
  exact hwrite.goes_on (by dsimp only; rw [hj]; rfl) rfl (by dsimp only; rw [hj]; rfl)
    ⟨k, hk, rfl, hsize, hold⟩

/-- The size of a block that a processor reads. -/
theorem World.Shared.read_size
    {size oldsize : Nat} (hs : w.Shared i l) (hj : w.place j = .reallocSize x size)
    (hold : w.heap.get (nodeAdd x (2 ^ 64 - nodesize)) .size = oldsize) :
  Fits l x (· = oldsize)
  := by
  have hheld : x ∈ (w.place j).held := by
    rw [hj]
    exact Multiset.mem_singleton_self x
  have hheld' : x ∈ (w.settle.place j).held := by
    rw [settle_held]
    exact hheld
  obtain ⟨k, hk, rfl⟩ := hs.inv.held_used hheld'
  have hheader := hs.header (by rw [hj]; rfl) hk hheld
  rw [hs.inv.pn hk, hheader.size] at hold
  exact ⟨k, hk, rfl, hold⟩

/-- A processor goes to another place, and nobody has a block to mark. -/
theorem World.Inv.shared_update
    (hinv : (⟨heap, memlock, Function.update w.place j p, live⟩ : World N).Inv i l)
    (hw : ∀ m, m ≠ j → (w.place m).settled = w.place m) (hp : p.settled = p) :
  (⟨heap, memlock, Function.update w.place j p, live⟩ : World N).Shared i l
  := hinv.shared (settled_update hw hp)

/-- The world of a processor that lets its block grow has no marks. -/
theorem World.Shared.inv_of_growing (hs : w.Shared i l) (hj : (w.place j).growing = true) :
  w.Inv i l
  := by
  have hinv := hs.inv
  rw [settle_eq (hs.growing j hj)] at hinv
  exact hinv

/-- The world has no marks when no other processor is in a window. -/
theorem World.Shared.inv_of_alone
    (hs : w.Shared i l) (halone : w.Alone j) (hj : (w.place j).inWindow = false) :
  w.Inv i l
  := by
  have hinv := hs.inv
  rw [settle_eq] at hinv
  · exact hinv
  · intro m
    by_cases hmj : m = j
    · rw [hmj]
      exact HeapPlace.settled_of_not_inWindow hj
    · exact HeapPlace.settled_of_not_inWindow (halone m hmj)

/-- A step of a processor that lets its block grow. -/
theorem World.Shared.grows
    (hs : w.Shared i l) (hj : (w.place j).growing = true) (hp : p.settled = p)
    (hinv : w.Inv i l →
      ∃ l', (⟨heap, memlock, Function.update w.place j p, live⟩ : World N).Inv j l') :
  ∃ i' l', (⟨heap, memlock, Function.update w.place j p, live⟩ : World N).Shared i' l'
  := by
  obtain ⟨l', hinv⟩ := hinv (hs.inv_of_growing hj)
  exact ⟨j, l', hinv.shared_update (fun m _ => hs.growing j hj m) hp⟩

/-- A step of a processor while no other one is in a window. -/
theorem World.Shared.alone
    (hs : w.Shared i l) (halone : w.Alone j) (hj : (w.place j).inWindow = false) (hp : p.settled = p)
    (hinv : w.Inv i l →
      ∃ l', (⟨heap, memlock, Function.update w.place j p, live⟩ : World N).Inv j l') :
  ∃ i' l', (⟨heap, memlock, Function.update w.place j p, live⟩ : World N).Shared i' l'
  := by
  obtain ⟨l', hinv⟩ := hinv (hs.inv_of_alone halone hj)
  exact ⟨j, l', hinv.shared_update (fun m hm => HeapPlace.settled_of_not_inWindow (halone m hm)) hp⟩

/-- A safe step keeps the invariant. -/
theorem World.Shared.step (hs : w.Shared i l) (hsafe : w.Safe j) (hstep : World.Step j w w') :
  ∃ i' l', w'.Shared i' l'
  := by
  have hplace := hs.inv.places j
  cases hstep with
  | @malloc size hj hsize =>
      exact ⟨i, l, hs.goes_on (by rw [hj]; rfl) rfl (by rw [hj]; rfl) (le_refl size : size ≤ size)⟩
  | func5 hj hcall =>
      rw [World.Safe, hj] at hsafe
      exact ⟨j, hs.func5 hj hsafe.1 hsafe.2 hcall⟩
  | @store s stores after hj =>
      by_cases hsettled : (w.place j).settled = w.place j
      · exact ⟨j, l, hs.store_realloc hj hsettled⟩
      · cases after with
        | got p o => exact ⟨i, l, hs.store_mark hj⟩
        | _ =>
            rw [hj] at hsettled
            exact absurd rfl hsettled
  | got hj =>
      rw [settle_place, hj] at hplace
      exact ⟨i, l, hs.returns (by rw [hj]; rfl) (by rw [hj]; rfl) hplace⟩
  | free hj hp => exact ⟨i, l, hs.calls hj hp rfl rfl nofun⟩
  | freeCksm hj hcksm =>
      rw [settle_place, hj] at hplace
      exact ⟨i, l, hs.goes_on (by rw [hj]; rfl) rfl (by rw [hj]; rfl) hplace⟩
  | freeFree hj hfree =>
      rw [settle_place, hj] at hplace
      exact ⟨i, l, hs.goes_on (by rw [hj]; rfl) rfl (by rw [hj]; rfl) hplace⟩
  | func6 hj hcall =>
      rw [World.Safe, hj] at hsafe
      exact hs.alone hsafe (by rw [hj]; rfl) rfl (fun hinv => hinv.func6 hj hsafe hcall)
  | @reallocNull size hj hsize =>
      exact ⟨i, l, hs.goes_on (by rw [hj]; rfl) rfl (by rw [hj]; rfl) (le_refl size : size ≤ size)⟩
  | @realloc p old size hj hp =>
      refine ⟨i, l, hs.calls hj hp ?_ ?_ ?_⟩
      · split <;> rfl
      · split <;> rfl
      · split
        · exact nofun
        · trivial
  | reallocCksm hj hcksm => exact ⟨i, l, hs.goes_on (by rw [hj]; rfl) rfl (by rw [hj]; rfl) trivial⟩
  | reallocFree hj hfree => exact ⟨i, l, hs.goes_on (by rw [hj]; rfl) rfl (by rw [hj]; rfl) trivial⟩
  | reallocLarger hj hold hlt =>
      rw [World.Safe, hj] at hsafe
      exact ⟨i, l, hs.goes_on (by rw [hj]; rfl) rfl (by rw [hj]; rfl)
        ⟨hsafe, hlt, hs.read_size hj hold⟩⟩
  | reallocSame hj hold hle hlt =>
      rw [World.Safe, hj] at hsafe
      obtain ⟨k, hk, hdata, hsize⟩ := hs.read_size hj hold
      refine ⟨i, l, hs.returns (by rw [hj]; rfl) (by rw [hj]; rfl) ⟨k, hk, hdata, ?_⟩⟩
      rw [hsize]
      exact (le_roundUp hsafe).1.trans hle
  | reallocSmaller hj hold hle hge =>
      rw [World.Safe, hj] at hsafe
      exact ⟨i, l, hs.goes_on (by rw [hj]; rfl) rfl (by rw [hj]; rfl)
        ⟨hsafe, by omega, hs.read_size hj hold⟩⟩
  | shrinking hj =>
      rw [World.Safe, hj] at hsafe
      exact ⟨j, hs.shrinking hj hsafe⟩
  | reading hj =>
      rw [World.Safe, hj] at hsafe
      exact hs.alone hsafe (by rw [hj]; rfl) rfl (fun hinv => ⟨l, hinv.reading hj hsafe⟩)
  | locking hj hlock =>
      exact hs.grows (by rw [hj]; rfl) rfl (fun hinv => ⟨l, hinv.locking (some j) hj⟩)
  | testingFree hj hend hfree hle =>
      exact hs.grows (by rw [hj]; rfl) rfl (fun hinv => ⟨l, hinv.testingFree hj hend hfree hle⟩)
  | testingUsed hj hused =>
      exact hs.grows (by rw [hj]; rfl) rfl (fun hinv => ⟨l, hinv.testingUsed hj⟩)
  | walking hj hcurr hcond =>
      exact hs.grows (by rw [hj]; rfl) rfl (fun hinv => ⟨l, hinv.walking hj hcurr hcond⟩)
  | found hj hcurr =>
      exact hs.grows (by rw [hj]; rfl) rfl (fun hinv => ⟨l, hinv.found hj hcurr⟩)
  | linking hj hlink =>
      rw [World.Safe, hj] at hsafe
      exact hs.grows (by rw [hj]; rfl) rfl (fun hinv => hinv.linking hj hlink hsafe)
  | unlocking hj =>
      rw [settle_place, hj] at hplace
      exact ⟨i, l, hs.returns (by rw [hj]; rfl) (by rw [hj]; rfl) hplace⟩
  | unlockingMove hj =>
      rw [settle_place, hj] at hplace
      exact ⟨i, l, hs.goes_on (by rw [hj]; rfl) rfl (by rw [hj]; rfl) (le_roundUp hplace).1⟩
  | gotMove hj =>
      rw [World.Safe, hj] at hsafe
      exact ⟨i, l, hs.gotMove hj hsafe⟩
  | copying hj hm => exact ⟨i, l, hs.copying hj hm⟩
  | @copied p oldsize q size k hj hk =>
      rw [settle_place, hj] at hplace
      refine ⟨i, l, hs.goes_on (by rw [hj]; rfl) rfl ?_ ?_⟩
      · rw [hj]
        exact Multiset.pair_comm p q
      · rintro e he
        obtain rfl := Option.some.inj he
        obtain ⟨k, hk, hdata, hsize, -⟩ := hplace
        exact ⟨k, hk, hdata, hsize⟩
  | write hj hp ha hle hlt v => exact ⟨i, l, hs.write_live hp hle hlt⟩

/-- A heap with a free list in order is sound when the live blocks are used blocks. -/
theorem FreeOk.sound
    {N : Nat} {w : World N} {l : List Block} (hok : FreeOk w.heap l)
    (hallocated : ((used l).map Block.data : Multiset Nat) = w.allocated) (hnodup : w.allocated.Nodup)
    (hlive : ∀ e ∈ w.live, Fits l e.1 (e.2 ≤ ·)) :
  w.Sound l
  := by
  refine ⟨hok.tiles, hok.list, hok.size, hallocated, hlive, ?_, ?_⟩
  · rw [World.allocated, Multiset.nodup_add] at hnodup
    apply (List.pairwise_map.mp (Multiset.coe_nodup.mp hnodup.1)).imp_of_mem
    intro e e' he he' hne
    obtain ⟨k, hk, hdata, hle⟩ := hlive e he
    obtain ⟨k', hk', hdata', hle'⟩ := hlive e' he'
    rw [← hdata, ← hdata'] at hne ⊢
    rcases hok.tiles.eq_or_apart (used_subset hk) (used_subset hk') with rfl | happart | happart
    · exact absurd rfl hne
    · simp only [Block.data, Block.len] at happart ⊢
      omega
    · simp only [Block.data, Block.len] at happart ⊢
      omega
  · intro e he a ha
    obtain ⟨k, hk, hdata, hle⟩ := hlive e he
    obtain ⟨k', hk', hfree, rfl⟩ := mem_freeAddrs.mp ha
    obtain ⟨hmem, hkused⟩ := List.mem_filter.mp hk
    rw [hok.size k' hk' hfree, ← hdata]
    rcases hok.tiles.eq_or_apart hmem hk' with rfl | happart | happart
    · rw [hfree] at hkused
      exact absurd hkused Bool.false_ne_true
    · simp only [Block.data, Block.len] at happart ⊢
      omega
    · simp only [Block.data, Block.len] at happart ⊢
      omega

/-- The heap is sound at any time. -/
theorem World.Shared.sound (hs : w.Shared i l) :
  ∃ l', w.Sound l'
  := by
  -- The header that a processor marks is that of a block of the list, even between two stores of
  -- another processor to the free list.
  obtain ⟨l', hok, hused, hsub, hmarks⟩ : ∃ l', FreeOk w.settle.heap l' ∧
      ((used l').map Block.data : Multiset Nat) = (used l).map Block.data ∧
      (∀ k ∈ used l, k.data ∉ w.live.map Prod.fst ∨ k ∈ used l') ∧ InUsed l' w.marks := by
    by_cases hi : (w.settle.place i).inWindow = false
    · exact ⟨l, (hs.inv.wf hi).freeOk, rfl, fun k hk => .inr hk, hs.inUsed⟩
    · obtain ⟨l', hok, hused, hsub⟩ := hs.inv.stages.stage
      rw [settle_held] at hsub
      refine ⟨l', hok, hused, ?_, ?_⟩
      · intro k hk
        by_cases hheld : k.data ∈ (w.place i).held
        · left
          intro hlive
          have hnot := hs.inv.live_not_held (j := i) hlive
          rw [settle_held] at hnot
          exact hnot hheld
        · exact .inr (hsub k hk hheld)
      · intro a ha
        obtain ⟨m, hm⟩ := Set.mem_iUnion.mp ha
        obtain ⟨k, hk, hheld, hhas⟩ := hs.exists_block hm
        refine ⟨k, hsub k hk ?_, hhas⟩
        have hmi : m ≠ i := by
          rintro rfl
          apply hi
          rw [settle_place, HeapPlace.settled_inWindow]
          exact HeapPlace.not_inRealloc_of_mem_marks hm
        have hnot := hs.inv.held_disjoint (j := m) hmi (by rw [settle_held]; exact hheld)
        rw [settle_held] at hnot
        exact hnot
  replace hok : FreeOk w.heap l' := FreeOk.of_clear hok hmarks
  have hallocated := hs.inv.allocated
  have hnodup := hs.inv.allocated_nodup
  rw [settle_allocated] at hallocated hnodup
  have hlive : ∀ e ∈ w.live, ∃ k ∈ used l', k.data = e.1 ∧ e.2 ≤ k.size := by
    intro e he
    obtain ⟨k, hk, hdata, hsize⟩ := hs.inv.live e he
    have hmem : k.data ∈ w.live.map Prod.fst := by
      rw [hdata]
      exact List.mem_map_of_mem he
    exact ⟨k, (hsub k hk).resolve_left (fun hnot => hnot hmem), hdata, hsize⟩
  exact ⟨l', hok.sound (hused.trans hallocated) hnodup hlive⟩

end Settle

/-- All processors are about to call. -/
def startWorld (N : Nat) (h : Heap) : World N := ⟨h, none, fun _ => .idle, []⟩

/-- In every run of safe steps, for any number of processors, the heap is sound in every state. -/
theorem shared_heap_sound
    (N : Nat) (valloc : Nat → Option Nat) (hvalloc : Valloc valloc) (size : Nat)
    (hsize : nodesize + 8 ≤ size) (hround : size ≤ 2 ^ 64 - 8) (mem : Mem) (h : Heap)
    (hinit : globalHeapInit valloc size mem = some h) (w : World (N + 1))
    (hrun : ReflTransGen World.SafeStep (startWorld (N + 1) h) w) :
  ∃ l, w.Sound l
  := by
  obtain ⟨l, hl⟩ := Client.Inv.init hvalloc hsize (by omega : size + 7 < 2 ^ 64) hinit
  have hshared : ∃ i l, w.Shared i l := by
    induction hrun with
    | refl =>
        have hinv : (startWorld (N + 1) h).Inv 0 l := by
          refine ⟨fun _ _ => rfl, hl.heap, hl.heap.freeOk.stage, fun _ _ _ => nofun, ?_, nofun,
            fun _ => trivial⟩
          have hused := Multiset.coe_eq_coe.mpr hl.used
          rw [← hused]
          simp [World.allocated, startWorld, HeapPlace.held]
        exact ⟨0, l, hinv.shared (fun _ => rfl)⟩
    | tail _ hstep ih =>
        obtain ⟨i, l, hs⟩ := ih
        obtain ⟨j, hsafe, hstep⟩ := hstep
        exact hs.step hsafe hstep
  obtain ⟨i, l, hs⟩ := hshared
  exact hs.sound

/-- Two processors allocate, and the server gives the second one its block before the first one has
marked its own. -/
theorem shared_heap_sound_two :
  ∃ h w, globalHeapInit smallValloc 200 (fun _ => 0) = some h ∧ w.live = [(4168, 8), (4128, 8)] ∧
    ∃ l, World.Sound (w : World 2) l
  := by
  obtain ⟨h, hinit, h₁, hcall₁, h₂, hcall₂⟩ :
      ∃ h, globalHeapInit smallValloc 200 (fun _ => 0) = some h ∧
        ∃ h₁, func5 9 8 "geo.c" h = .ok (4096, h₁) ∧
        ∃ h₂, func5 9 8 "geo.c" h₁ = .ok (4136, h₂) := ⟨_, rfl, _, rfl, _, rfl⟩
  have hrun₁ : ReflTransGen World.SafeStep (startWorld 2 h) _ :=
    .single ⟨0, trivial, .malloc rfl (by decide : 8 ≠ 0)⟩
  have hrun₂ := hrun₁.tail ⟨1, trivial, .malloc rfl (by decide : 8 ≠ 0)⟩
  have hrun₃ := hrun₂.tail ⟨0, ⟨Fin.forall_fin_two.mpr ⟨fun hne => absurd rfl hne, fun _ => rfl⟩,
    by decide⟩, .func5 rfl hcall₁⟩
  have hrun₄ := hrun₃.tail ⟨1, ⟨Fin.forall_fin_two.mpr ⟨fun _ => rfl, fun hne => absurd rfl hne⟩,
    by decide⟩, .func5 rfl hcall₂⟩
  have hrun₅ := (hrun₄.tail ⟨0, trivial, .store rfl⟩).tail ⟨1, trivial, .store rfl⟩
  have hrun₆ := (hrun₅.tail ⟨1, trivial, .store rfl⟩).tail ⟨0, trivial, .store rfl⟩
  have hrun₇ := (hrun₆.tail ⟨0, trivial, .got rfl⟩).tail ⟨1, trivial, .got rfl⟩
  refine ⟨h, _, hinit, ?_, shared_heap_sound 1 smallValloc valloc_small 200 (by decide) (by decide)
    (fun _ => 0) h hinit _ hrun₇⟩
  rfl

/-- One processor frees a block while another has a block that lies behind it and is not marked yet:
the block is joined to the free one, and then returned to its client. -/
theorem shared_heap_overlap :
  ∃ h w, globalHeapInit smallValloc 200 (fun _ => 0) = some h ∧
    ReflTransGen (fun w w' => ∃ i, World.Step i w w') (startWorld 2 h) w ∧ ∀ l, ¬ World.Sound w l
  := by
  obtain ⟨h, hinit, h₁, hcall₁, h₂, hcall₂, hcksm, hfree, h₃, hcall₃, hlist, hsize⟩ :
      ∃ h, globalHeapInit smallValloc 200 (fun _ => 0) = some h ∧
        ∃ h₁, func5 9 8 "geo.c" h = .ok (4096, h₁) ∧
        ∃ h₂, func5 9 8 "geo.c" (mark 4096 h₁) = .ok (4136, h₂) ∧
        h₂.get (nodeAdd 4128 (2 ^ 64 - nodesize)) .cksm = CKSM ∧
        h₂.get (nodeAdd 4128 (2 ^ 64 - nodesize)) .free = 0 ∧
        ∃ h₃, func6 9 (nodeAdd 4128 (2 ^ 64 - nodesize)) h₂ = .ok h₃ ∧
        (mark 4136 h₃).freelist = 4096 ∧ (mark 4136 h₃).get 4096 .size = 48 :=
    ⟨_, rfl, _, rfl, _, rfl, rfl, rfl, _, rfl, rfl, rfl⟩
  have hrun₁ : ReflTransGen (fun w w' => ∃ i, World.Step i w w') (startWorld 2 h) _ :=
    .single ⟨0, .malloc rfl (by decide : 8 ≠ 0)⟩
  have hrun₂ := ((hrun₁.tail ⟨0, .func5 rfl hcall₁⟩).tail ⟨0, .store rfl⟩).tail ⟨0, .store rfl⟩
  have hrun₃ := (hrun₂.tail ⟨0, .got rfl⟩).tail ⟨1, .malloc rfl (by decide : 8 ≠ 0)⟩
  have hrun₄ := hrun₃.tail ⟨1, .func5 rfl hcall₂⟩
  have hrun₅ := hrun₄.tail ⟨0, .free rfl (by decide : ((4128, 8) : Nat × Nat) ∈ [(4128, 8)])⟩
  have hrun₆ := (hrun₅.tail ⟨0, .freeCksm rfl hcksm⟩).tail ⟨0, .freeFree rfl hfree⟩
  have hrun₇ := hrun₆.tail ⟨0, .func6 rfl hcall₃⟩
  have hrun₈ := ((hrun₇.tail ⟨1, .store rfl⟩).tail ⟨1, .store rfl⟩).tail ⟨1, .got rfl⟩
  obtain ⟨w, hrun, hheap, hlive⟩ : ∃ w, ReflTransGen (fun w w' => ∃ i, World.Step i w w')
      (startWorld 2 h) w ∧ w.heap = mark 4136 h₃ ∧ w.live = [(4168, 8)] := ⟨_, hrun₈, rfl, rfl⟩
  refine ⟨h, w, hinit, hrun, ?_⟩
  intro l hsound
  have hlink := hsound.list
  have hstart : w.heap.link 0 = 4096 := by
    rw [hheap]
    exact hlist
  cases hl : freeAddrs l with
  | nil =>
      rw [hl] at hlink
      have hzero : w.heap.link 0 = 0 := hlink
      rw [hstart] at hzero
      exact absurd hzero (by decide)
  | cons a t =>
      rw [hl] at hlink
      obtain rfl : 4096 = a := hstart.symm.trans hlink.1
      have hout := hsound.outside (4168, 8) (by rw [hlive]; exact List.mem_cons_self) 4096
        (by rw [hl]; exact List.mem_cons_self)
      rw [hheap, hsize, nodesize] at hout
      omega

end Raytrace
