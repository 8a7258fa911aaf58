import Ffwd.Lib.Counting
import Ffwd.Raytrace.HeapRuns

/-!
# Processors that share the global heap

The server runs `func5` and `func6` one at a time, but the processors themselves read and write
headers around them: `GlobalMalloc` marks the block after `func5` has taken it off the free list, and
`GlobalRealloc` changes blocks and the free list on its own, under a lock the server does not take.
A step of a processor is a call, a return, a read or a store, or it lets the server run a function.
-/

namespace Raytrace

open Linked (Path)
open Tiling (Tiles)
open Relation (ReflTransGen)

/-! ### Processors -/

/-- A store of a processor: to a word of memory, or to `gm->freelist`. -/
inductive Store where
  | word (a v : Nat)
  | freelist (v : Nat)

def Store.apply (h : Heap) : Store → Heap
  | .word a v => h.write a v
  | .freelist v => { h with freelist := v }

/-- `a->f = v` -/
def Store.field (a : Nat) (f : Field) (v : Nat) : Store := .word (a + f.offset) v

/-- `if (!prev) gm->freelist = v; else prev->next = v;` -/
def Store.link (prev v : Nat) : Store := if prev = 0 then .freelist v else .field prev .next v

/-- What a call of `GlobalMalloc` is for: the size the client asked for, and for `GlobalRealloc` the
block to be moved with its size. -/
structure Order where
  size : Nat
  move : Option (Nat × Nat)

/-- Where a processor is. The pointers are those of the data; `back` is what `GlobalRealloc` returns
when it calls `GlobalFree`, with the size the client asked for. -/
inductive HeapPlace where
  | idle
  /-- `GlobalMalloc` is about to let the server run `func5`. -/
  | allocating (n : Nat) (order : Order)
  /-- There are stores to be made. -/
  | writing (stores : List Store) (after : HeapPlace)
  /-- `GlobalMalloc` returns. -/
  | got (p : Nat) (order : Order)
  /-- `GlobalFree` is about to read the checksum, to read `free`, and to let the server run `func6`. -/
  | freeCksm (p : Nat) (back : Option (Nat × Nat))
  | freeFree (p : Nat) (back : Option (Nat × Nat))
  | freeing (p : Nat) (back : Option (Nat × Nat))
  /-- `GlobalRealloc` is about to read the checksum, `free` and the size of the block. -/
  | reallocCksm (p size : Nat)
  | reallocFree (p size : Nat)
  | reallocSize (p size : Nat)
  /-- It is about to cut off the end of the block. -/
  | shrinking (p size oldsize : Nat)
  /-- It is about to read the size of the next block. -/
  | reading (p size oldsize : Nat)
  /-- It is about to take the lock. -/
  | locking (p size oldsize totsize : Nat)
  /-- It is about to read whether the next block is free. -/
  | testing (p size oldsize totsize : Nat)
  /-- It is about to read the pointer of a block of the free list, or its start. -/
  | walking (p size oldsize totsize prev : Nat)
  /-- It is about to read the pointer of the next block. -/
  | linking (p size oldsize totsize prev : Nat)
  /-- It is about to release the lock, and then to return, or to move the block. -/
  | unlocking (p size : Nat) (oldsize : Option Nat)
  /-- It is about to copy the word with the number `k`. -/
  | copying (q size p oldsize k : Nat)

/-- The stores that are still to be made. -/
def HeapPlace.pending : HeapPlace → List Store
  | .writing stores _ => stores
  | _ => []

/-- Is the processor between `func5` and its last store, or in the part of `GlobalRealloc` that
changes headers? -/
def HeapPlace.inWindow : HeapPlace → Bool
  | .writing _ _ => true
  | .locking _ _ _ _ => true
  | .testing _ _ _ _ => true
  | .walking _ _ _ _ _ => true
  | .linking _ _ _ _ _ => true
  | _ => false

/-- Is the processor in the part of `GlobalRealloc` that changes headers? A processor that marks the
block it got from `func5` is not. -/
def HeapPlace.inRealloc : HeapPlace → Bool
  | .writing _ (.got _ _) => false
  | p => p.inWindow

variable {N : Nat}

structure World (N : Nat) where
  heap : Heap
  /-- The holder of `gm->memlock`. -/
  memlock : Option (Fin N)
  place : Fin N → HeapPlace
  /-- The blocks that clients have, with the sizes they asked for. -/
  live : List (Nat × Nat)

/-- The processor goes to a place. -/
def World.goto (w : World N) (i : Fin N) (p : HeapPlace) : World N :=
  { w with place := Function.update w.place i p }

/-- The stores of `GlobalMalloc` behind `func5`. -/
def markStores (curr : Nat) : List Store := [.field curr .next 0, .field curr .free 0]

/-- The stores of `GlobalRealloc` that cut off the end of a block. -/
def shrinkStores (p newsize oldsize : Nat) : List Store :=
  let pn := nodeAdd p (2 ^ 64 - nodesize)
  let next := nodeAdd p newsize
  [.field pn .size newsize, .field next .size (oldsize - nodesize - newsize), .field next .next 0,
    .field next .free 0, .field next .cksm CKSM]

/-- The stores of `GlobalRealloc` that add the next block to a block. -/
def joinStores (p oldsize totsize prev link : Nat) : List Store :=
  let pn := nodeAdd p (2 ^ 64 - nodesize)
  let next := nodeAdd p oldsize
  [.link prev link, .field next .next 0, .field next .free 0, .field pn .size totsize]

/-- The stores of `GlobalRealloc` that add a part of the next block to a block. -/
def splitStores (p newsize oldsize totsize prev link : Nat) : List Store :=
  let pn := nodeAdd p (2 ^ 64 - nodesize)
  let next := nodeAdd p oldsize
  let node := nodeAdd p newsize
  [.field node .next link, .field node .size (totsize - nodesize - newsize), .field node .free 1,
    .field node .cksm CKSM, .link prev node, .field next .next 0, .field next .free 0,
    .field pn .size newsize]

/-- One step of a processor. -/
inductive World.Step (i : Fin N) : World N → World N → Prop where
  /-- A client calls `GlobalMalloc`. -/
  | malloc {w : World N} {size : Nat} (hi : w.place i = .idle) (hsize : size ≠ 0) :
    Step i w (w.goto i (.allocating size ⟨size, none⟩))
  | func5 {w : World N} {n m curr : Nat} {o : Order} {msg : String} {h : Heap}
      (hi : w.place i = .allocating m o) (hcall : func5 n m msg w.heap = .ok (curr, h)) :
    Step i w ({ w with heap := h }.goto i
      (.writing (markStores curr) (.got (nodeAdd curr nodesize) o)))
  /-- A store is made. -/
  | store {w : World N} {s : Store} {stores : List Store} {after : HeapPlace}
      (hi : w.place i = .writing (s :: stores) after) :
    Step i w ({ w with heap := s.apply w.heap }.goto i
      (if stores.isEmpty then after else .writing stores after))
  /-- `GlobalMalloc` returns to the client. -/
  | got {w : World N} {p size : Nat} (hi : w.place i = .got p ⟨size, none⟩) :
    Step i w ({ w with live := (p, size) :: w.live }.goto i .idle)
  /-- A client calls `GlobalFree`. -/
  | free {w : World N} {p size : Nat} (hi : w.place i = .idle) (hp : (p, size) ∈ w.live) :
    Step i w ({ w with live := w.live.erase (p, size) }.goto i (.freeCksm p none))
  | freeCksm {w : World N} {p : Nat} {back : Option (Nat × Nat)} (hi : w.place i = .freeCksm p back)
      (hcksm : w.heap.get (nodeAdd p (2 ^ 64 - nodesize)) .cksm = CKSM) :
    Step i w (w.goto i (.freeFree p back))
  | freeFree {w : World N} {p : Nat} {back : Option (Nat × Nat)} (hi : w.place i = .freeFree p back)
      (hfree : w.heap.get (nodeAdd p (2 ^ 64 - nodesize)) .free = 0) :
    Step i w (w.goto i (.freeing p back))
  | func6 {w : World N} {n p : Nat} {back : Option (Nat × Nat)} {h : Heap}
      (hi : w.place i = .freeing p back)
      (hcall : func6 n (nodeAdd p (2 ^ 64 - nodesize)) w.heap = .ok h) :
    Step i w ({ w with heap := h, live := back.toList ++ w.live }.goto i .idle)
  /-- A client calls `GlobalRealloc`; with `NULL` it allocates, with the size zero it frees. -/
  | reallocNull {w : World N} {size : Nat} (hi : w.place i = .idle) (hsize : size ≠ 0) :
    Step i w (w.goto i (.allocating size ⟨size, none⟩))
  | realloc {w : World N} {p old size : Nat} (hi : w.place i = .idle) (hp : (p, old) ∈ w.live) :
    Step i w ({ w with live := w.live.erase (p, old) }.goto i
      (if size = 0 then .freeCksm p none else .reallocCksm p size))
  | reallocCksm {w : World N} {p size : Nat} (hi : w.place i = .reallocCksm p size)
      (hcksm : w.heap.get (nodeAdd p (2 ^ 64 - nodesize)) .cksm = CKSM) :
    Step i w (w.goto i (.reallocFree p size))
  | reallocFree {w : World N} {p size : Nat} (hi : w.place i = .reallocFree p size)
      (hfree : w.heap.get (nodeAdd p (2 ^ 64 - nodesize)) .free = 0) :
    Step i w (w.goto i (.reallocSize p size))
  /-- The new size is compared with the old one. -/
  | reallocLarger {w : World N} {p size oldsize : Nat} (hi : w.place i = .reallocSize p size)
      (hold : w.heap.get (nodeAdd p (2 ^ 64 - nodesize)) .size = oldsize)
      (hlt : oldsize < roundUp size) :
    Step i w (w.goto i (.reading p size oldsize))
  | reallocSame {w : World N} {p size oldsize : Nat} (hi : w.place i = .reallocSize p size)
      (hold : w.heap.get (nodeAdd p (2 ^ 64 - nodesize)) .size = oldsize)
      (hle : roundUp size ≤ oldsize) (hlt : oldsize - roundUp size < THRESHOLD) :
    Step i w ({ w with live := (p, size) :: w.live }.goto i .idle)
  | reallocSmaller {w : World N} {p size oldsize : Nat} (hi : w.place i = .reallocSize p size)
      (hold : w.heap.get (nodeAdd p (2 ^ 64 - nodesize)) .size = oldsize)
      (hle : roundUp size ≤ oldsize) (hge : THRESHOLD ≤ oldsize - roundUp size) :
    Step i w (w.goto i (.shrinking p size oldsize))
  /-- The end of the block is about to be cut off, and then to be freed. -/
  | shrinking {w : World N} {p size oldsize : Nat} (hi : w.place i = .shrinking p size oldsize) :
    Step i w (w.goto i (.writing (shrinkStores p (roundUp size) oldsize)
      (.freeCksm (nodeAdd (nodeAdd p (roundUp size)) nodesize) (some (p, size)))))
  | reading {w : World N} {p size oldsize : Nat} (hi : w.place i = .reading p size oldsize) :
    Step i w (w.goto i (.locking p size oldsize
      ((oldsize + nodesize + w.heap.get (nodeAdd p oldsize) .size) % 2 ^ 64)))
  | locking {w : World N} {p size oldsize totsize : Nat}
      (hi : w.place i = .locking p size oldsize totsize) (hlock : w.memlock = none) :
    Step i w ({ w with memlock := some i }.goto i (.testing p size oldsize totsize))
  /-- The next block is free and large enough. -/
  | testingFree {w : World N} {p size oldsize totsize : Nat}
      (hi : w.place i = .testing p size oldsize totsize) (hend : nodeAdd p oldsize < w.heap.endmem)
      (hfree : w.heap.get (nodeAdd p oldsize) .free ≠ 0) (hle : roundUp size ≤ totsize) :
    Step i w (w.goto i (.walking p size oldsize totsize 0))
  /-- The block has to be moved. -/
  | testingUsed {w : World N} {p size oldsize totsize : Nat}
      (hi : w.place i = .testing p size oldsize totsize)
      (hused : ¬ (nodeAdd p oldsize < w.heap.endmem ∧ w.heap.get (nodeAdd p oldsize) .free ≠ 0 ∧
        roundUp size ≤ totsize)) :
    Step i w (w.goto i (.unlocking p size (some oldsize)))
  | walking {w : World N} {p size oldsize totsize prev curr : Nat}
      (hi : w.place i = .walking p size oldsize totsize prev) (hcurr : w.heap.link prev = curr)
      (hcond : curr ≠ 0 ∧ curr < nodeAdd p oldsize ∧ curr < w.heap.endmem) :
    Step i w (w.goto i (.walking p size oldsize totsize curr))
  | found {w : World N} {p size oldsize totsize prev : Nat}
      (hi : w.place i = .walking p size oldsize totsize prev)
      (hcurr : w.heap.link prev = nodeAdd p oldsize) :
    Step i w (w.goto i (.linking p size oldsize totsize prev))
  | linking {w : World N} {p size oldsize totsize prev link : Nat}
      (hi : w.place i = .linking p size oldsize totsize prev)
      (hlink : w.heap.get (nodeAdd p oldsize) .next = link) :
    Step i w (w.goto i (.writing
      (if totsize - roundUp size < THRESHOLD then
        joinStores p oldsize totsize prev link
      else
        splitStores p (roundUp size) oldsize totsize prev link)
      (.unlocking p size none)))
  /-- The block has been made larger. -/
  | unlocking {w : World N} {p size : Nat} (hi : w.place i = .unlocking p size none) :
    Step i w ({ w with memlock := none, live := (p, size) :: w.live }.goto i .idle)
  | unlockingMove {w : World N} {p size oldsize : Nat}
      (hi : w.place i = .unlocking p size (some oldsize)) :
    Step i w ({ w with memlock := none }.goto i
      (.allocating (roundUp size) ⟨size, some (p, oldsize)⟩))
  /-- The words of the block are copied to the new one. -/
  | gotMove {w : World N} {p oldsize q size : Nat}
      (hi : w.place i = .got q ⟨size, some (p, oldsize)⟩) :
    Step i w (w.goto i (.copying q size p oldsize 0))
  | copying {w : World N} {p oldsize q size k : Nat} (hi : w.place i = .copying q size p oldsize k)
      (hk : k < oldsize / 4) :
    Step i w ({ w with heap := w.heap.write (nodeAdd q (8 * k)) (w.heap.mem (nodeAdd p (8 * k))) }.goto
      i (.copying q size p oldsize (k + 1)))
  | copied {w : World N} {p oldsize q size k : Nat} (hi : w.place i = .copying q size p oldsize k)
      (hk : ¬ k < oldsize / 4) :
    Step i w (w.goto i (.freeCksm p (some (q, size))))
  /-- A client writes into a block. -/
  | write {w : World N} {p size a : Nat} (hi : w.place i = .idle) (hp : (p, size) ∈ w.live)
      (ha : 8 ∣ a) (hle : p ≤ a) (hlt : a < p + size) (v : Nat) :
    Step i w { w with heap := w.heap.write a v }

/-! ### Where it is safe -/

/-- No other processor is in a window. -/
def World.Alone (w : World N) (i : Fin N) : Prop := ∀ j, j ≠ i → (w.place j).inWindow = false

/-- No other processor is in the part of `GlobalRealloc` that changes headers. -/
def World.NoRealloc (w : World N) (i : Fin N) : Prop := ∀ j, j ≠ i → (w.place j).inRealloc = false

/-- The condition under which a processor may go on. It does not let the server run `func5` and does
not start to cut off the end of a block while another processor is in the part of `GlobalRealloc` that
changes headers; other processors may still have to mark the blocks they got. It does not let the
server run `func6` and does not start to let a block grow while another processor is in a window. It
does not add eight or sixteen bytes of a free block to a block, unless with sixteen bytes the free
block is the last one; it does not copy beyond the new block, as `GlobalRealloc` does that takes the
size in bytes for a multiple of the size in words by four; and the sizes can be rounded up. -/
def World.Safe (w : World N) (i : Fin N) : Prop :=
  match w.place i with
  | .allocating n _ => w.NoRealloc i ∧ n + 7 < 2 ^ 64
  | .freeing _ _ => w.Alone i
  | .reallocSize _ size => size + 7 < 2 ^ 64
  | .shrinking _ _ _ => w.NoRealloc i
  | .reading _ _ _ => w.Alone i
  | .linking p size oldsize totsize _ =>
      totsize - roundUp size < THRESHOLD ∨ oldsize + 16 < roundUp size ∨
        roundUp size = oldsize + 16 ∧ w.heap.get (nodeAdd p oldsize) .next = 0
  | .got q ⟨_, some (_, oldsize)⟩ =>
      2 * oldsize ≤ w.heap.get (nodeAdd q (2 ^ 64 - nodesize)) .size
  | _ => True

/-- A step that is safe. -/
def World.SafeStep (w w' : World N) : Prop := ∃ i, w.Safe i ∧ World.Step i w w'

/-! ### What has been allocated -/

/-- The block an order holds. -/
def Order.held (o : Order) : Multiset Nat :=
  match o.move with
  | none => 0
  | some (p, _) => {p}

/-- The block that is returned later. -/
def backHeld : Option (Nat × Nat) → Multiset Nat
  | none => 0
  | some (q, _) => {q}

/-- The blocks a processor holds in a call: those it has been given by the server and has not returned
to the client, and those it has got from the client and are not freed. -/
def HeapPlace.held : HeapPlace → Multiset Nat
  | .idle => 0
  | .allocating _ o => o.held
  | .writing _ after => after.held
  | .got p o => p ::ₘ o.held
  | .freeCksm p back => p ::ₘ backHeld back
  | .freeFree p back => p ::ₘ backHeld back
  | .freeing p back => p ::ₘ backHeld back
  | .reallocCksm p _ => {p}
  | .reallocFree p _ => {p}
  | .reallocSize p _ => {p}
  | .shrinking p _ _ => {p}
  | .reading p _ _ => {p}
  | .locking p _ _ _ => {p}
  | .testing p _ _ _ => {p}
  | .walking p _ _ _ _ => {p}
  | .linking p _ _ _ _ => {p}
  | .unlocking p _ _ => {p}
  | .copying q _ p _ _ => {q, p}

/-- The blocks that have been taken off the free list and have not been put back. -/
def World.allocated (w : World N) : Multiset Nat :=
  (w.live.map Prod.fst : Multiset Nat) + ∑ i, (w.place i).held

/-- The heap is cut into blocks; the free list has exactly the blocks that are not allocated; the
blocks of the clients are as large as they asked for, do not overlap, and lie outside of all blocks
of the free list. -/
structure World.Sound (w : World N) (l : List Block) : Prop where
  tiles : Tiles Block.addr Block.len w.heap.begmem l w.heap.endmem
  list : Path w.heap.link 0 (freeAddrs l) 0
  size : ∀ k ∈ l, k.free = true → w.heap.get k.addr .size = k.size
  allocated : ((used l).map Block.data : Multiset Nat) = w.allocated
  live : ∀ e ∈ w.live, ∃ k ∈ used l, k.data = e.1 ∧ e.2 ≤ k.size
  disjoint : w.live.Pairwise (fun e e' => e.1 + e.2 ≤ e'.1 ∨ e'.1 + e'.2 ≤ e.1)
  outside : ∀ e ∈ w.live, ∀ a ∈ freeAddrs l,
    e.1 + e.2 ≤ a ∨ a + nodesize + w.heap.get a .size ≤ e.1

end Raytrace
