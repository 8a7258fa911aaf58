import Mathlib

/-!
# The delegated functions of the items

The functions the threads call put their arguments into a structure on their stack, delegate a
function that takes the address of the structure, calls the function that does the work and puts
its result into the structure, and return what they find there. The types are those of a 64-bit
machine, and an assignment between types of different width truncates or extends.
-/

namespace Memcached

/-! ### Types -/

abbrev Pointer : Type := BitVec 64

/-- `size_t` -/
abbrev Size : Type := BitVec 64

abbrev CInt : Type := BitVec 32

/-- `unsigned int`, which is also the type of `rel_time_t` and of an enumeration. -/
abbrev CUnsigned : Type := BitVec 32

/-- An integer as a truth value. -/
def CInt.toBool (i : CInt) : Bool := i != 0

/-- A pointer assigned to an `int`. -/
def Pointer.toInt (p : Pointer) : CInt := p.setWidth 32

/-- An `int` assigned to a pointer. -/
def CInt.toPointer (i : CInt) : Pointer := i.signExtend 64

/-! ### Delegation of a structure -/

section Delegate

variable {S C R A : Type}

/-- The function that is delegated: it takes the address of the structure in memory. -/
def delegated (call : C → StateM S R) (store : C → R → C) (ctx : Pointer) :
    StateM (S × (Pointer → C)) Unit := do
  let (s, mem) ← get
  let (result, s) := call (mem ctx) s
  set (s, Function.update mem ctx (store (mem ctx) result))

/-- `FFWD_EXEC` runs the function at the server, with the words of the request as arguments. -/
def ffwdExec (f : Pointer → StateM (S × (Pointer → C)) Unit) (argv : List Pointer) :
    StateM (S × (Pointer → C)) Unit :=
  f (argv.getD 0 0)

/-- The structure is at the given address, where `fill` writes the arguments and `result` reads
the result. -/
def wrapper (fill : C → C) (f : Pointer → StateM (S × (Pointer → C)) Unit) (result : C → A)
    (ctx : Pointer) : StateM (S × (Pointer → C)) A := do
  let (s, mem) ← get
  set (s, Function.update mem ctx (fill (mem ctx)))
  ffwdExec f [ctx]
  let (_, mem) ← get
  return result (mem ctx)

/-- A wrapper returns what the call returns, and does to the items what the call does. -/
def Transparent (w : StateM (S × (Pointer → C)) A) (call : StateM S A) : Prop :=
  ∀ s mem, (w (s, mem)).1 = (call s).1 ∧ (w (s, mem)).2.1 = (call s).2

/-- A wrapper gives the call the structure it has filled. -/
theorem wrapper_apply
    (fill : C → C) (call : C → StateM S R) (store : C → R → C) (result : C → A) (ctx : Pointer)
    (s : S) (mem : Pointer → C) :
  (wrapper fill (delegated call store) result ctx (s, mem)).1 =
      result (store (fill (mem ctx)) (call (fill (mem ctx)) s).1) ∧
    (wrapper fill (delegated call store) result ctx (s, mem)).2.1 = (call (fill (mem ctx)) s).2
  := by
  generalize hfilled : Function.update mem ctx (fill (mem ctx)) = filled
  have hctx : filled ctx = fill (mem ctx) := by
    rw [← hfilled]
    exact Function.update_self _ _ _
  have hrun : wrapper fill (delegated call store) result ctx (s, mem) =
      (result (Function.update filled ctx (store (filled ctx) (call (filled ctx) s).1) ctx),
        (call (filled ctx) s).2,
        Function.update filled ctx (store (filled ctx) (call (filled ctx) s).1)) := by
    rw [← hfilled]
    rfl
  rw [hrun, Function.update_self, hctx]
  exact ⟨rfl, rfl⟩

end Delegate

/-! ### The functions -/

section Functions

variable {S : Type}

structure Context1 where
  key : Pointer
  nkey : Size
  flags : CInt
  exptime : CUnsigned
  nbytes : CInt
  it : Pointer

structure Context3 where
  key : Pointer
  nkey : Size
  it : Pointer

structure Context5 where
  item : Pointer
  ret : CInt

structure Context8 where
  c : Pointer
  key : Pointer
  nkey : Size
  incr : CInt
  delta : BitVec 64
  buf : Pointer
  cas : Pointer
  ret : CInt

structure Context9 where
  item : Pointer
  comm : CInt
  c : Pointer
  ret : CInt

structure Context10 where
  slabsClsid : CUnsigned
  limit : CUnsigned
  bytes : Pointer
  ret : CInt

/-- The functions that do the work, on the state of the items. -/
structure Workers (S : Type) where
  doItemAlloc (key : Pointer) (nkey : Size) (flags : CInt) (exptime : CUnsigned) (nbytes : CInt) :
    StateM S Pointer
  doItemGet (key : Pointer) (nkey : Size) : StateM S Pointer
  doItemLink (it : Pointer) : StateM S CInt
  doAddDelta (c key : Pointer) (nkey : Size) (incr : Bool) (delta : BitVec 64) (buf cas : Pointer) :
    StateM S CUnsigned
  doStoreItem (it : Pointer) (comm : CInt) (c : Pointer) : StateM S CUnsigned
  doItemCachedump (slabsClsid limit : CUnsigned) (bytes : Pointer) : StateM S Pointer

variable (w : Workers S)

def func1 : Pointer → StateM (S × (Pointer → Context1)) Unit :=
  delegated (fun ctx1 => w.doItemAlloc ctx1.key ctx1.nkey ctx1.flags ctx1.exptime ctx1.nbytes)
    (fun ctx1 it => { ctx1 with it := it })

def itemAlloc (key : Pointer) (nkey : Size) (flags : CInt) (exptime : CUnsigned) (nbytes : CInt) :
    Pointer → StateM (S × (Pointer → Context1)) Pointer :=
  wrapper (fun ctx1 => { ctx1 with
      key := key, nkey := nkey, flags := flags, exptime := exptime, nbytes := nbytes })
    (func1 w) (fun ctx1 => ctx1.it)

def func3 : Pointer → StateM (S × (Pointer → Context3)) Unit :=
  delegated (fun ctx3 => w.doItemGet ctx3.key ctx3.nkey) (fun ctx3 it => { ctx3 with it := it })

def itemGet (key : Pointer) (nkey : Size) : Pointer → StateM (S × (Pointer → Context3)) Pointer :=
  wrapper (fun ctx3 => { ctx3 with key := key, nkey := nkey }) (func3 w) (fun ctx3 => ctx3.it)

def func5 : Pointer → StateM (S × (Pointer → Context5)) Unit :=
  delegated (fun ctx5 => w.doItemLink ctx5.item) (fun ctx5 ret => { ctx5 with ret := ret })

def itemLink (item : Pointer) : Pointer → StateM (S × (Pointer → Context5)) CInt :=
  wrapper (fun ctx5 => { ctx5 with item := item }) (func5 w) (fun ctx5 => ctx5.ret)

def func8 : Pointer → StateM (S × (Pointer → Context8)) Unit :=
  delegated (fun ctx8 => w.doAddDelta ctx8.c ctx8.key ctx8.nkey ctx8.incr.toBool ctx8.delta
    ctx8.buf ctx8.cas) (fun ctx8 ret => { ctx8 with ret := ret })

def addDelta (c key : Pointer) (nkey : Size) (incr : CInt) (delta : BitVec 64)
    (buf cas : Pointer) : Pointer → StateM (S × (Pointer → Context8)) CUnsigned :=
  wrapper (fun ctx8 => { ctx8 with
      c := c, key := key, nkey := nkey, incr := incr, delta := delta, buf := buf, cas := cas })
    (func8 w) (fun ctx8 => ctx8.ret)

def func9 : Pointer → StateM (S × (Pointer → Context9)) Unit :=
  delegated (fun ctx9 => w.doStoreItem ctx9.item ctx9.comm ctx9.c)
    (fun ctx9 ret => { ctx9 with ret := ret })

def storeItem (item : Pointer) (comm : CInt) (c : Pointer) :
    Pointer → StateM (S × (Pointer → Context9)) CUnsigned :=
  wrapper (fun ctx9 => { ctx9 with item := item, comm := comm, c := c }) (func9 w)
    (fun ctx9 => ctx9.ret)

/-- The structure has an `int` for the pointer that is returned. -/
def func10 : Pointer → StateM (S × (Pointer → Context10)) Unit :=
  delegated (fun ctx10 => w.doItemCachedump ctx10.slabsClsid ctx10.limit ctx10.bytes)
    (fun ctx10 buffer => { ctx10 with ret := buffer.toInt })

def itemCachedump (slabsClsid limit : CUnsigned) (bytes : Pointer) :
    Pointer → StateM (S × (Pointer → Context10)) Pointer :=
  wrapper (fun ctx10 => { ctx10 with slabsClsid := slabsClsid, limit := limit, bytes := bytes })
    (func10 w) (fun ctx10 => ctx10.ret.toPointer)

/-- Every wrapper is as the call of the function that does the work, wherever its structure is on
the stack. -/
structure AllTransparent : Prop where
  itemAlloc : ∀ key nkey flags exptime nbytes ctx1,
    Transparent (itemAlloc w key nkey flags exptime nbytes ctx1)
      (w.doItemAlloc key nkey flags exptime nbytes)
  itemGet : ∀ key nkey ctx3, Transparent (itemGet w key nkey ctx3) (w.doItemGet key nkey)
  itemLink : ∀ item ctx5, Transparent (itemLink w item ctx5) (w.doItemLink item)
  addDelta : ∀ c key nkey incr delta buf cas ctx8,
    Transparent (addDelta w c key nkey incr delta buf cas ctx8)
      (w.doAddDelta c key nkey incr.toBool delta buf cas)
  storeItem : ∀ item comm c ctx9,
    Transparent (storeItem w item comm c ctx9) (w.doStoreItem item comm c)
  itemCachedump : ∀ slabsClsid limit bytes ctx10,
    Transparent (itemCachedump w slabsClsid limit bytes ctx10)
      (w.doItemCachedump slabsClsid limit bytes)

end Functions

/-! ### Which pointers an `int` has room for -/

/-- The address is in the first or in the last two gigabytes. -/
def Pointer.FitsInt (p : Pointer) : Prop := p.toNat < 2 ^ 31 ∨ 2 ^ 64 - 2 ^ 31 ≤ p.toNat

theorem toPointer_toInt_iff (p : Pointer) :
  p.toInt.toPointer = p ↔ p.FitsInt
  := by
  have hlt := p.isLt
  rw [Pointer.FitsInt, ← BitVec.toNat_inj, CInt.toPointer, Pointer.toInt, BitVec.toNat_signExtend,
    BitVec.msb_eq_decide, BitVec.toNat_setWidth, BitVec.toNat_setWidth]
  by_cases hmsb : 2 ^ (32 - 1) ≤ p.toNat % 2 ^ 32
  · rw [decide_eq_true hmsb, if_pos rfl]
    omega
  · rw [decide_eq_false hmsb, if_neg (by decide)]
    omega

/-- `item_cachedump` returns the pointer the way an `int` keeps it. -/
theorem itemCachedump_apply {S : Type} (w : Workers S) (slabsClsid limit : CUnsigned)
    (bytes ctx10 : Pointer) (s : S) (mem : Pointer → Context10) :
  (itemCachedump w slabsClsid limit bytes ctx10 (s, mem)).1 =
      (w.doItemCachedump slabsClsid limit bytes s).1.toInt.toPointer ∧
    (itemCachedump w slabsClsid limit bytes ctx10 (s, mem)).2.1 =
      (w.doItemCachedump slabsClsid limit bytes s).2
  := wrapper_apply _ _ _ _ ctx10 s mem

/-- The wrappers are transparent if and only if every buffer `do_item_cachedump` returns is at an
address an `int` has room for. -/
theorem wrappers_transparent_iff {S : Type} (w : Workers S) :
  AllTransparent w ↔
    ∀ slabsClsid limit bytes s, (w.doItemCachedump slabsClsid limit bytes s).1.FitsInt
  := by
  constructor
  · intro h slabsClsid limit bytes s
    have hvalue := (h.itemCachedump slabsClsid limit bytes 0 s (fun _ => ⟨0, 0, 0, 0⟩)).1
    rw [(itemCachedump_apply w slabsClsid limit bytes 0 s _).1] at hvalue
    exact (toPointer_toInt_iff _).mp hvalue
  · intro h
    constructor
    · intro key nkey flags exptime nbytes ctx1 s mem
      exact wrapper_apply _ _ _ _ ctx1 s mem
    · intro key nkey ctx3 s mem
      exact wrapper_apply _ _ _ _ ctx3 s mem
    · intro item ctx5 s mem
      exact wrapper_apply _ _ _ _ ctx5 s mem
    · intro c key nkey incr delta buf cas ctx8 s mem
      exact wrapper_apply _ _ _ _ ctx8 s mem
    · intro item comm c ctx9 s mem
      exact wrapper_apply _ _ _ _ ctx9 s mem
    · intro slabsClsid limit bytes ctx10 s mem
      obtain ⟨hvalue, heffect⟩ := itemCachedump_apply w slabsClsid limit bytes ctx10 s mem
      refine ⟨hvalue.trans ?_, heffect⟩
      exact (toPointer_toInt_iff _).mpr (h slabsClsid limit bytes s)

/-- A buffer of two megabytes that `malloc` takes from a mapping, far from the first addresses. -/
theorem wrappers_not_transparent :
  ¬ AllTransparent ({
      doItemAlloc := fun _ _ _ _ _ => pure 0
      doItemGet := fun _ _ => pure 0
      doItemLink := fun _ => pure 0
      doAddDelta := fun _ _ _ _ _ _ _ => pure 0
      doStoreItem := fun _ _ _ => pure 0
      doItemCachedump := fun _ _ _ => pure 0x7f1200000010#64 } : Workers Unit)
  := by
  intro h
  have hvalue := (h.itemCachedump 1 0 0 0 () (fun _ => ⟨0, 0, 0, 0⟩)).1
  rw [(itemCachedump_apply _ 1 0 0 0 () _).1] at hvalue
  exact absurd hvalue (by decide)

end Memcached
