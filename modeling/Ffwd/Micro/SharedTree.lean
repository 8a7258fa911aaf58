import Ffwd.Delegation.Objects
import Ffwd.Micro.Shards

/-!
# The trees as one set

The clients of the tree benchmark delegate every operation to the server that has the tree of the key.
With the protocol in between, and with any number of clients and servers, what they see is what they
would see of one set of keys.
-/

namespace Micro

open Delegation (Word Exec Service Delegated Move delegated_linearizable)
open Concurrent (Object Event)

variable {Addr : Type} [DecidableEq Addr]

/-! ### The operations of the clients -/

/-- `list_ins`, `list_del` and `list_find`. Keys are remainders of what `rand_r` returns. -/
inductive TreeCall where
  | ins (key : Fin (2 ^ 31))
  | del (key : Fin (2 ^ 31))
  | find (key : Fin (2 ^ 31))
  deriving DecidableEq

def TreeCall.key : TreeCall → Fin (2 ^ 31)
  | ins key => key
  | del key => key
  | find key => key

/-- The addresses of the functions that are delegated. -/
structure Functions where
  listIns : Word
  listDel : Word
  listFind : Word
  del_ne_ins : listDel ≠ listIns
  find_ne_ins : listFind ≠ listIns
  find_ne_del : listFind ≠ listDel

def Functions.fptr (F : Functions) : TreeCall → Word
  | .ins _ => F.listIns
  | .del _ => F.listDel
  | .find _ => F.listFind

/-- `malloc`, which returns an address that is not allocated. -/
structure Malloc (Addr : Type) where
  alloc : Finset Addr → Addr
  alloc_notMem : ∀ used, alloc used ∉ used

def ofBool (b : Bool) : Word := if b then 1 else 0

/-- The low half of a register, as the `int` that a function takes. -/
def intOf (w : Word) : Int := (w.setWidth 32).toInt

section

variable (F : Functions) (malloc : Malloc Addr) (maxServers : Nat) (tree : Int → Addr)

/-- What a server does when it calls one of the functions. -/
def callTree (fptr : Word) (argv : List Word) (m : Memory Addr) : Memory Addr × Word :=
  let key := intOf (argv.headD 0)
  if fptr = F.listIns then
    match listInsFfwd maxServers tree m (malloc.alloc m.used) key with
    | some (m, ret) => (m, ofBool ret)
    | none => (m, 0)
  else if fptr = F.listDel then
    match listDelFfwd maxServers tree m key with
    | some (m, ret) => (m, ofBool ret)
    | none => (m, 0)
  else if fptr = F.listFind then
    match listFindFfwd maxServers tree m key with
    | some ret => (m, ofBool ret)
    | none => (m, 0)
  else (m, 0)

/-- The operations as they are delegated: a key goes to the server of its remainder. A server has the
memory of the nodes of its own tree. -/
def treeService : Service TreeCall (Memory Addr) where
  exec c := ⟨c.key % maxServers, F.fptr c, [BitVec.ofNat 64 c.key]⟩
  call := callTree F malloc maxServers tree
  call_args c argv m hargv := by
    obtain _ | ⟨a, argv⟩ := argv
    · cases hargv
    · obtain ⟨rfl, -⟩ := List.cons.inj hargv
      rfl

end

/-! ### The set -/

/-- A set of keys with its operations. -/
def keySet : Object TreeCall Word (Finset Int) where
  apply c keys :=
    match c with
    | .ins key => (insert (key : Int) keys, ofBool ((key : Int) ∉ keys))
    | .del key => (keys.erase key, ofBool ((key : Int) ∈ keys))
    | .find key => (keys, ofBool ((key : Int) ∈ keys))

/-- Every server has the tree of the keys that go to it. -/
def Sharded (maxServers : Nat) (tree : Int → Addr) (memory : Nat → Memory Addr) (keys : Finset Int) : Prop :=
  ∀ j < maxServers, (memory j).Represents (tree j) {k ∈ keys | k.tmod maxServers = j}

theorem intOf_key (key : Fin (2 ^ 31)) :
  intOf (BitVec.ofNat 64 key) = key
  := by
  have hlt := key.isLt
  rw [intOf, BitVec.toInt_setWidth, BitVec.toNat_ofNat, Nat.mod_eq_of_lt (by omega), Int.bmod]
  omega

omit [DecidableEq Addr] in
/-- What becomes of the shards when the keys of one of them change. -/
theorem Sharded.update
    {maxServers : Nat} {tree : Int → Addr} {memory : Nat → Memory Addr} {keys keys' : Finset Int} {key : Int}
    {m : Memory Addr} {j : Nat} (h : Sharded maxServers tree memory keys) (hj : key.tmod maxServers = j)
    (hm : m.Represents (tree j) {k ∈ keys' | k.tmod maxServers = j})
    (hkeys : ∀ k, k ≠ key → (k ∈ keys' ↔ k ∈ keys)) :
  Sharded maxServers tree (Function.update memory j m) keys'
  := by
  intro i hi
  by_cases hij : i = j
  · subst hij
    rw [Function.update_self]
    exact hm
  · rw [Function.update_of_ne hij]
    have hsame : keys'.filter (fun k => k.tmod maxServers = (i : Int))
        = keys.filter (fun k => k.tmod maxServers = (i : Int)) := by
      ext k
      simp only [Finset.mem_filter]
      constructor
      · rintro ⟨hk, hki⟩
        refine ⟨(hkeys k ?_).mp hk, hki⟩
        rintro rfl
        omega
      · rintro ⟨hk, hki⟩
        refine ⟨(hkeys k ?_).mpr hk, hki⟩
        rintro rfl
        omega
    rw [hsame]
    exact h i hi

theorem key_tmod (key : Fin (2 ^ 31)) (maxServers : Nat) :
  ((key : Nat) : Int).tmod maxServers = (key % maxServers : Nat)
  := by
  rw [Int.tmod_eq_emod_of_nonneg (Int.natCast_nonneg _)]
  rfl

variable {F : Functions} {malloc : Malloc Addr} {maxServers : Nat} {tree : Int → Addr}

theorem callTree_ins
    {key : Fin (2 ^ 31)} {m m' : Memory Addr} {ret : Bool}
    (h : listInsFfwd maxServers tree m (malloc.alloc m.used) (key : Nat) = some (m', ret)) :
  callTree F malloc maxServers tree F.listIns [BitVec.ofNat 64 key] m = (m', ofBool ret)
  := by
  rw [callTree, if_pos rfl, List.headD_cons, intOf_key, h]

theorem callTree_del
    {key : Fin (2 ^ 31)} {m m' : Memory Addr} {ret : Bool}
    (h : listDelFfwd maxServers tree m (key : Nat) = some (m', ret)) :
  callTree F malloc maxServers tree F.listDel [BitVec.ofNat 64 key] m = (m', ofBool ret)
  := by
  rw [callTree, if_neg F.del_ne_ins, if_pos rfl, List.headD_cons, intOf_key, h]

theorem callTree_find
    {key : Fin (2 ^ 31)} {m : Memory Addr} {ret : Bool}
    (h : listFindFfwd maxServers tree m (key : Nat) = some ret) :
  callTree F malloc maxServers tree F.listFind [BitVec.ofNat 64 key] m = (m, ofBool ret)
  := by
  rw [callTree, if_neg F.find_ne_ins, if_neg F.find_ne_del, if_pos rfl, List.headD_cons, intOf_key, h]

omit [DecidableEq Addr] in
/-- The tree of a key. -/
theorem Sharded.tree_of
    {memory : Nat → Memory Addr} {keys : Finset Int} (hservers : 1 ≤ maxServers)
    (h : Sharded maxServers tree memory keys) (key : Fin (2 ^ 31)) :
  (memory (key % maxServers)).Represents (treeOf maxServers tree (key : Nat))
    {k ∈ keys | k.tmod maxServers = (key % maxServers : Nat)}
  := by
  rw [treeOf, key_tmod]
  exact h _ (Nat.mod_lt _ hservers)

/-- The delegated operations are those of the set. -/
theorem treeService_refines (hservers : 1 ≤ maxServers) :
  (treeService F malloc maxServers tree).object.Refines keySet (Sharded maxServers tree)
  := by
  intro c memory keys h
  have hshard := h.tree_of hservers c.key
  have htmod := key_tmod c.key maxServers
  have hmem : ((c.key : Nat) : Int) ∈ keys.filter (fun k => k.tmod maxServers = ((c.key % maxServers : Nat) : Int))
      ↔ ((c.key : Nat) : Int) ∈ keys := by
    rw [Finset.mem_filter]
    exact and_iff_left htmod
  have happly : (treeService F malloc maxServers tree).object.apply c memory
      = (fun r => (Function.update memory (c.key % maxServers) r.1, r.2))
        (callTree F malloc maxServers tree (F.fptr c) [BitVec.ofNat 64 c.key] (memory (c.key % maxServers))) := rfl
  rw [happly]
  cases c with
  | ins key =>
      simp only [TreeCall.key, Functions.fptr] at *
      obtain ⟨m', hins, hm'⟩ := hshard.listInsFfwd (malloc.alloc_notMem (memory (key % maxServers)).used)
      rw [treeOf, htmod] at hm'
      rw [callTree_ins hins]
      refine ⟨?_, h.update htmod ?_ ?_⟩
      · simp only [keySet, hmem]
      · simp only [keySet, Finset.filter_insert, htmod, if_true]
        exact hm'
      · intro k hk
        simp only [keySet, Finset.mem_insert]
        exact or_iff_right hk
  | del key =>
      simp only [TreeCall.key, Functions.fptr] at *
      obtain ⟨m', hdel, hm'⟩ := hshard.listDelFfwd
      rw [treeOf, htmod] at hm'
      rw [callTree_del hdel]
      refine ⟨?_, h.update htmod ?_ ?_⟩
      · simp only [keySet, hmem]
      · simp only [keySet, Finset.filter_erase]
        exact hm'
      · intro k hk
        simp only [keySet, Finset.mem_erase]
        exact and_iff_right hk
  | find key =>
      simp only [TreeCall.key, Functions.fptr] at *
      rw [callTree_find hshard.listFindFfwd]
      refine ⟨?_, ?_⟩
      · simp only [keySet, hmem]
      · rw [Function.update_eq_self]
        exact h

/-- The delegated trees are a linearizable set of keys, for any number of clients and servers and every
interleaving of their steps. -/
theorem shared_tree_linearizable
    {ι : Type} [DecidableEq ι] (F : Functions) (malloc : Malloc Addr) (maxServers : Nat) (tree : Int → Addr)
    (L : Delegation.Layout ι) (memory : Nat → Memory Addr) (keys : Finset Int) (hservers : 1 ≤ maxServers)
    (hkeys : Sharded maxServers tree memory keys) (moves : List (Move ι TreeCall))
    (d : Delegated ι (Memory Addr)) (h : List (Event ι TreeCall Word))
    (hrun : ((treeService F malloc maxServers tree).system L).run ⟨Delegation.State.init ι, memory⟩ moves
      = some (d, h)) :
  keySet.Linearizable keys h
  := (delegated_linearizable _ L memory moves d h hrun).refine (treeService_refines hservers) hkeys

def functions : Functions where
  listIns := 1
  listDel := 2
  listFind := 3
  del_ne_ins := by decide
  find_ne_ins := by decide
  find_ne_del := by decide

/-- Addresses are given in increasing order. -/
def upwards : Malloc Nat where
  alloc used := used.sup id + 1
  alloc_notMem used h := by
    have hle := Finset.le_sup (f := id) h
    simp only [id_eq] at hle
    omega

/-- Two trees with nothing below their roots. -/
def twoRoots (j : Nat) : Memory Nat :=
  rluNewNode ⟨fun _ => 0, fun _ _ => none, ∅⟩ j intMax

/-- One client puts a key into one of two trees while the other looks for it, which then puts a key into
the other tree. -/
def treeMoves : List (Move Bool TreeCall) :=
  [Move.start false (TreeCall.ins 4), Move.start true (TreeCall.find 4)] ++
    List.replicate 6 (Move.client false) ++ List.replicate 6 (Move.client true) ++
    List.replicate 18 (Move.server 0) ++ List.replicate 2 (Move.client true) ++
    [Move.start true (TreeCall.ins 7)] ++ List.replicate 6 (Move.client true) ++
    List.replicate 12 (Move.server 1) ++ List.replicate 2 (Move.client true) ++
    List.replicate 2 (Move.client false)

/-- What the two clients see. -/
def treeHistory : List (Event Bool TreeCall Word) :=
  [.call false (.ins 4), .call true (.find 4), .ret true 1, .call true (.ins 7), .ret true 1, .ret false 1]

theorem shared_tree_linearizable_two :
  (∃ d, ((treeService functions upwards 2 Int.toNat).system Delegation.boolLayout).run
      ⟨Delegation.State.init Bool, twoRoots⟩ treeMoves = some (d, treeHistory)) ∧
    keySet.Linearizable ∅ treeHistory
  := by
  have hseen : (((treeService functions upwards 2 Int.toNat).system Delegation.boolLayout).run
      ⟨Delegation.State.init Bool, twoRoots⟩ treeMoves).map Prod.snd = some treeHistory := by
    decide +kernel
  obtain ⟨⟨d, h⟩, hrun, rfl⟩ := Option.map_eq_some_iff.mp hseen
  refine ⟨⟨d, hrun⟩, ?_⟩
  apply shared_tree_linearizable functions upwards 2 Int.toNat Delegation.boolLayout twoRoots ∅ (by decide) _
    treeMoves d _ hrun
  intro j _
  exact represents_root _ j

end Micro
