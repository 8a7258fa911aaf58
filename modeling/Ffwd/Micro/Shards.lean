import Ffwd.Micro.Tree

/-!
# The trees of all the servers

`list_global_init` fills one tree for each server, and the operations of a client choose the
tree of a key by the remainder of the key. `Forest` says that the trees are search trees on
nodes of their own. Whether the keys are where the operations look for them depends on the
keys the initialisation draws, since it puts them into a tree whatever their remainder is.
-/

namespace Micro

open Linked

variable {Addr : Type} [DecidableEq Addr]

/-! ### The initialisation -/

/-- The rounds of the loop that fills one tree, with what `rand` returns in each of them and
the address `malloc` returns if a node is made. The loop ends when enough keys are in the
tree: there is no result if it does not end, or is at its end before the last of the draws,
and none if an address is not free. -/
def fillTree (valueRange : Int) (root : Addr) :
    Nat → Memory Addr → List (Int × Addr) → Option (Memory Addr)
  | 0, m, [] => some m
  | 0, _, _ :: _ => none
  | _ + 1, _, [] => none
  | i + 1, m, (rand, new) :: draws =>
      if valueRange = 0 ∨ new ∈ m.used then none
      else match insertBelow m root new (rand.tmod valueRange) with
        | none => none
        | some (m', true) => fillTree valueRange root i m' draws
        | some (m', false) => fillTree valueRange root (i + 1) m' draws

section Init

variable (maxServers : Int) (tree : Int → Addr) (initSize valueRange : Int)
  (draws : Int → List (Int × Addr))

/-- One server: a root, and `init_size/MAX_SERVERS` keys below it. -/
def initTree (m : Memory Addr) (j : Int) : Option (Memory Addr) :=
  if tree j ∈ m.used then none
  else fillTree valueRange (tree j) (initSize.tdiv maxServers).toNat
    (rluNewNode m (tree j) intMax) (draws j)

/-- The first servers, one after the other. -/
def initTrees (m : Memory Addr) : Nat → Option (Memory Addr)
  | 0 => some m
  | j + 1 => do
      let m ← initTrees m j
      initTree maxServers tree initSize valueRange draws m j

/-- All the servers; `draws j` is what `rand` and `malloc` return while the tree of the server
`j` is filled. -/
def listGlobalInit (m : Memory Addr) : Option (Memory Addr) :=
  initTrees maxServers tree initSize valueRange draws m maxServers.toNat

omit [DecidableEq Addr] in
/-- The keys that are drawn for a server. -/
def drawnKeys (j : Int) : Finset Int :=
  ((draws j).map (fun draw => draw.1.tmod valueRange)).toFinset

/-- The keys that are drawn for all the servers. -/
def allDrawn : Finset Int :=
  (Finset.range maxServers.toNat).biUnion (fun j => drawnKeys valueRange draws j)

end Init

/-! ### Runs -/

section Runs

variable (maxServers : Int) (tree : Int → Addr)

def TreeOp.exec (m : Memory Addr) : TreeOp Addr → Option (Memory Addr × Bool)
  | .ins key new => listInsFfwd maxServers tree m new key
  | .del key => listDelFfwd maxServers tree m key
  | .find key => (listFindFfwd maxServers tree m key).map (fun found => (m, found))

/-- An insertion is given an address that is free. -/
def TreeOp.Fresh (m : Memory Addr) : TreeOp Addr → Prop
  | .ins _ new => new ∉ m.used
  | .del _ => True
  | .find _ => True

/-- What an operation does to the keys that are put in and not deleted. -/
def TreeOp.effect (keys : Finset Int) : TreeOp Addr → Finset Int
  | .ins key _ => insert key keys
  | .del key => keys.erase key
  | .find _ => keys

/-- The operations return one after the other, and what they lead to has the property. -/
def Memory.After (P : Memory Addr → Finset Int → Prop) :
    Memory Addr → Finset Int → List (TreeOp Addr) → Prop
  | m, keys, [] => P m keys
  | m, keys, op :: ops =>
      op.Fresh m → ∃ m' result, op.exec maxServers tree m = some (m', result) ∧
        Memory.After P m' (op.effect keys) ops

/-- The key is stored in the tree below the root. -/
def Memory.Stored (m : Memory Addr) (root : Addr) (key : Int) : Prop :=
  ∃ l, InOrder m.child (m.child root false) l ∧ key ∈ l.map m.value

/-- The keys are stored in the trees the operations look for them in: those that have been put
in and not deleted are found, and none is stored in two trees. -/
structure Memory.Sharded (m : Memory Addr) (keys : Finset Int) : Prop where
  placed : ∀ j, 0 ≤ j → j < maxServers → ∀ key, m.Stored (tree j) key → key.tmod maxServers = j
  found : ∀ key ∈ keys, listFindFfwd maxServers tree m key = some true
  once : ∀ i j, 0 ≤ i → i < maxServers → 0 ≤ j → j < maxServers →
    ∀ key, m.Stored (tree i) key → m.Stored (tree j) key → i = j

/-- The first `n` trees are search trees for the given keys, with different nodes. -/
structure Memory.Forest (m : Memory Addr) (n : Int) (keys : Int → Finset Int)
    (nodes : Int → List Addr) : Prop where
  ordered : ∀ j, 0 ≤ j → j < n → m.Ordered (tree j) (nodes j)
  keys : ∀ j, 0 ≤ j → j < n → ((nodes j).map m.value).toFinset = keys j
  separate : ∀ i j, 0 ≤ i → i < n → 0 ≤ j → j < n → i ≠ j →
    ∀ a ∈ tree i :: nodes i, a ∉ tree j :: nodes j

end Runs

/-! ### What the other trees see of an operation -/

section Framed

variable {m m' : Memory Addr} {root : Addr} {l s : List Addr}

omit [DecidableEq Addr] in
theorem Memory.Ordered.framed (h : m.Ordered root l) (hframed : m.Framed m' s)
    (hs : ∀ a ∈ root :: l, a ∉ s) :
  m'.Ordered root l ∧ l.map m'.value = l.map m.value
  := by
  have hmem : ∀ a ∈ l, a ∉ s := fun a ha => hs a (List.mem_cons_of_mem root ha)
  refine ⟨⟨?_, ?_, h.root_notMem, ?_⟩, ?_⟩
  · rw [hframed.child root (hs root List.mem_cons_self)]
    apply h.inOrder.congr
    intro a ha
    exact hframed.child a (hmem a ha)
  · apply h.increasing.imp_of_mem
    intro a b ha hb hlt
    rw [hframed.value a (hmem a ha), hframed.value b (hmem b hb)]
    exact hlt
  · intro a ha
    exact hframed.used a (hs a ha) (h.used a ha)
  · apply List.map_congr_left
    intro a ha
    exact hframed.value a (hmem a ha)

variable {tree : Int → Addr} {n : Int} {keys : Int → Finset Int} {nodes : Int → List Addr}

omit [DecidableEq Addr] in
/-- The nodes of one tree change: a node that is new to it was free before. -/
theorem Memory.Forest.change {i : Int} {keys' : Finset Int} (h : m.Forest tree n keys nodes)
    (hi : 0 ≤ i) (hin : i < n) (hbecomes : m.Becomes m' (tree i) s keys')
    (hs : ∀ a ∈ s, a ∈ nodes i ∨ a ∉ m.used) :
  ∃ nodes', m'.Forest tree n (Function.update keys i keys') nodes'
  := by
  obtain ⟨⟨l, hordered, hkeys, hl⟩, hframed⟩ := hbecomes
  have houtside : ∀ j, 0 ≤ j → j < n → j ≠ i → ∀ a ∈ tree j :: nodes j, a ∉ tree i :: s := by
    intro j hj hjn hne a ha hmem
    have hi_mem := h.separate j i hj hjn hi hin hne a ha
    have hused := (h.ordered j hj hjn).used a ha
    rcases List.mem_cons.mp hmem with rfl | hmem
    · exact hi_mem List.mem_cons_self
    · rcases hs a hmem with hmem | hfree
      · exact hi_mem (List.mem_cons_of_mem _ hmem)
      · exact hfree hused
  have hlist : ∀ a ∈ tree i :: l, a ∈ tree i :: s := by
    intro a ha
    rcases List.mem_cons.mp ha with rfl | ha
    · exact List.mem_cons_self
    · exact List.mem_cons_of_mem _ (hl a ha)
  refine ⟨Function.update nodes i l, ?_, ?_, ?_⟩
  · intro j hj hjn
    by_cases hne : j = i
    · subst hne
      rw [Function.update_self]
      exact hordered
    · rw [Function.update_of_ne hne]
      exact ((h.ordered j hj hjn).framed hframed (houtside j hj hjn hne)).1
  · intro j hj hjn
    by_cases hne : j = i
    · subst hne
      rw [Function.update_self, Function.update_self]
      exact hkeys
    · rw [Function.update_of_ne hne, Function.update_of_ne hne,
        ((h.ordered j hj hjn).framed hframed (houtside j hj hjn hne)).2]
      exact h.keys j hj hjn
  · intro j k hj hjn hk hkn hne a ha
    by_cases hji : j = i
    · subst hji
      rw [Function.update_self] at ha
      rw [Function.update_of_ne hne.symm]
      intro hmem
      exact houtside k hk hkn hne.symm a hmem (hlist a ha)
    · rw [Function.update_of_ne hji] at ha
      by_cases hki : k = i
      · subst hki
        rw [Function.update_self]
        intro hmem
        exact houtside j hj hjn hji a ha (hlist a hmem)
      · rw [Function.update_of_ne hki]
        exact h.separate j k hj hjn hk hkn hne a ha

omit [DecidableEq Addr] in
theorem Memory.Forest.stored_iff {j key : Int} (h : m.Forest tree n keys nodes)
    (hj : 0 ≤ j) (hjn : j < n) :
  m.Stored (tree j) key ↔ key ∈ keys j
  := by
  rw [← h.keys j hj hjn, List.mem_toFinset]
  constructor
  · rintro ⟨l, hl, hkey⟩
    rw [(h.ordered j hj hjn).inOrder.unique hl]
    exact hkey
  · intro hkey
    exact ⟨nodes j, (h.ordered j hj hjn).inOrder, hkey⟩

end Framed

/-! ### What the initialisation makes -/

section Init

variable {tree : Int → Addr} {m m' : Memory Addr} {maxServers initSize valueRange : Int}
  {draws : Int → List (Int × Addr)} {n : Int} {keys : Int → Finset Int} {nodes : Int → List Addr}

/-- A loop that ends has put in what it has drawn. -/
theorem Memory.Forest.fillTree {j : Int} {i : Nat} {drawn : List (Int × Addr)}
    (h : m.Forest tree n keys nodes) (hj : 0 ≤ j) (hjn : j < n)
    (hfill : fillTree valueRange (tree j) i m drawn = some m') :
  ∃ nodes', m'.Forest tree n
    (Function.update keys j
      (keys j ∪ (drawn.map (fun draw => draw.1.tmod valueRange)).toFinset)) nodes'
  := by
  induction drawn generalizing m i keys nodes with
  | nil =>
      cases i with
      | zero =>
          obtain rfl := Option.some.inj hfill
          simp only [List.map_nil, List.toFinset_nil, Finset.union_empty, Function.update_eq_self]
          exact ⟨nodes, h⟩
      | succ i => cases hfill
  | cons draw drawn ih =>
      obtain ⟨rand, new⟩ := draw
      cases i with
      | zero => cases hfill
      | succ i =>
          rw [Micro.fillTree] at hfill
          by_cases hguard : valueRange = 0 ∨ new ∈ m.used
          · rw [if_pos hguard] at hfill
            cases hfill
          rw [if_neg hguard] at hfill
          push Not at hguard
          obtain ⟨m₁, hins, hbecomes⟩ :=
            (h.ordered j hj hjn).insertBelow (rand.tmod valueRange) hguard.2
          rw [h.keys j hj hjn] at hins hbecomes
          obtain ⟨nodes₁, hforest⟩ := h.change hj hjn hbecomes (by
            intro a ha
            rcases List.mem_cons.mp ha with rfl | ha
            · exact .inr hguard.2
            · exact .inl ha)
          rw [hins] at hfill
          have hrest : ∃ i', Micro.fillTree valueRange (tree j) i' m₁ drawn = some m' := by
            cases hnew : decide (rand.tmod valueRange ∉ keys j) <;> rw [hnew] at hfill
            · exact ⟨_, hfill⟩
            · exact ⟨_, hfill⟩
          obtain ⟨i', hrest⟩ := hrest
          obtain ⟨nodes', hforest'⟩ := ih hforest hrest
          rw [Function.update_idem, Function.update_self] at hforest'
          refine ⟨nodes', ?_⟩
          rw [List.map_cons, List.toFinset_cons, Finset.union_insert, ← Finset.insert_union]
          exact hforest'

/-- A new root, and no node below it. -/
theorem Memory.Forest.root (h : m.Forest tree n keys nodes) (hfree : tree n ∉ m.used) :
  (rluNewNode m (tree n) intMax).Forest tree (n + 1) (Function.update keys n ∅)
    (Function.update nodes n [])
  := by
  have hne : ∀ j, 0 ≤ j → j < n → ∀ a ∈ tree j :: nodes j, a ≠ tree n := by
    rintro j hj hjn a ha rfl
    exact hfree ((h.ordered j hj hjn).used _ ha)
  have hframed : m.Framed (rluNewNode m (tree n) intMax) [tree n] := by
    refine ⟨?_, ?_, ?_⟩
    · intro a ha
      exact Function.update_of_ne (List.ne_of_not_mem_cons ha) _ _
    · intro a ha
      exact Function.update_of_ne (List.ne_of_not_mem_cons ha) _ _
    · intro a _ hused
      exact Finset.mem_insert_of_mem hused
  have hother : ∀ j, 0 ≤ j → j < n →
      (rluNewNode m (tree n) intMax).Ordered (tree j) (nodes j) ∧
        (nodes j).map (rluNewNode m (tree n) intMax).value = (nodes j).map m.value := by
    intro j hj hjn
    apply (h.ordered j hj hjn).framed hframed
    intro a ha
    rw [List.mem_singleton]
    exact hne j hj hjn a ha
  refine ⟨?_, ?_, ?_⟩
  · intro j hj hjn
    by_cases hjeq : j = n
    · subst hjeq
      rw [Function.update_self]
      refine ⟨?_, List.Pairwise.nil, List.not_mem_nil, ?_⟩
      · simp only [rluNewNode, Function.update_self]
        exact .nil
      · intro a ha
        obtain rfl := List.mem_singleton.mp ha
        exact Finset.mem_insert_self _ _
    · rw [Function.update_of_ne hjeq]
      exact (hother j hj (by omega)).1
  · intro j hj hjn
    by_cases hjeq : j = n
    · subst hjeq
      rw [Function.update_self, Function.update_self]
      rfl
    · rw [Function.update_of_ne hjeq, Function.update_of_ne hjeq, (hother j hj (by omega)).2]
      exact h.keys j hj (by omega)
  · intro i j hi hin hj hjn hij a ha hmem
    by_cases hieq : i = n
    · subst hieq
      rw [Function.update_self, List.mem_singleton] at ha
      rw [Function.update_of_ne hij.symm] at hmem
      exact hne j hj (by omega) a hmem ha
    · rw [Function.update_of_ne hieq] at ha
      by_cases hjeq : j = n
      · subst hjeq
        rw [Function.update_self, List.mem_singleton] at hmem
        exact hne i hi (by omega) a ha hmem
      · rw [Function.update_of_ne hjeq] at hmem
        exact h.separate i j hi (by omega) hj (by omega) hij a ha hmem

/-- The first trees have the keys drawn for them. -/
theorem initTrees_forest {k : Nat}
    (hinit : initTrees maxServers tree initSize valueRange draws m k = some m') :
  ∃ nodes, m'.Forest tree k (drawnKeys valueRange draws) nodes
  := by
  induction k generalizing m' with
  | zero =>
      refine ⟨fun _ => [], ?_, ?_, ?_⟩
      all_goals intros; omega
  | succ k ih =>
      rw [initTrees] at hinit
      cases hk : initTrees maxServers tree initSize valueRange draws m k with
      | none =>
          rw [hk] at hinit
          cases hinit
      | some m₁ =>
          rw [hk] at hinit
          replace hinit : initTree maxServers tree initSize valueRange draws m₁ k = some m' := hinit
          obtain ⟨nodes, hforest⟩ := ih hk
          rw [initTree] at hinit
          by_cases hused : tree k ∈ m₁.used
          · rw [if_pos hused] at hinit
            cases hinit
          rw [if_neg hused] at hinit
          obtain ⟨nodes', hforest'⟩ :=
            (hforest.root hused).fillTree (Int.natCast_nonneg k) (lt_add_one _) hinit
          rw [Function.update_self, Function.update_idem, Finset.empty_union] at hforest'
          refine ⟨nodes', ?_⟩
          rw [Nat.cast_succ]
          rw [← Function.update_eq_self (k : Int) (drawnKeys valueRange draws)]
          exact hforest'

/-- Every server has the keys drawn for it. -/
theorem listGlobalInit_forest (hservers : 1 ≤ maxServers)
    (hinit : listGlobalInit maxServers tree initSize valueRange draws m = some m') :
  ∃ nodes, m'.Forest tree maxServers (drawnKeys valueRange draws) nodes
  := by
  obtain ⟨nodes, hforest⟩ := initTrees_forest hinit
  rw [Int.toNat_of_nonneg (by omega)] at hforest
  exact ⟨nodes, hforest⟩

end Init

/-! ### What the operations keep -/

section Operations

variable {maxServers : Int} {tree : Int → Addr} {m : Memory Addr} {keys : Finset Int}

/-- Every tree has those of the keys whose remainder is its number. -/
def Memory.Routed (maxServers : Int) (tree : Int → Addr) (m : Memory Addr) (keys : Finset Int) :
    Prop :=
  (∀ key ∈ keys, 0 ≤ key.tmod maxServers) ∧
    ∃ nodes, m.Forest tree maxServers (fun j => {key ∈ keys | key.tmod maxServers = j}) nodes

theorem Memory.Routed.sharded (hservers : 1 ≤ maxServers) (h : m.Routed maxServers tree keys) :
  m.Sharded maxServers tree keys
  := by
  obtain ⟨hnonneg, nodes, hforest⟩ := h
  have hplaced : ∀ j, 0 ≤ j → j < maxServers → ∀ key, m.Stored (tree j) key →
      key.tmod maxServers = j := by
    intro j hj hjn key hstored
    rw [hforest.stored_iff hj hjn, Finset.mem_filter] at hstored
    exact hstored.2
  refine ⟨hplaced, ?_, ?_⟩
  · intro key hkey
    have hj := hnonneg key hkey
    have hjn := Int.tmod_lt_of_pos key (show 0 < maxServers by omega)
    have hrepresents : m.Represents (treeOf maxServers tree key)
        {k ∈ keys | k.tmod maxServers = key.tmod maxServers} :=
      ⟨_, hforest.ordered _ hj hjn, hforest.keys _ hj hjn⟩
    rw [hrepresents.listFindFfwd]
    simp [hkey]
  · intro i j hi hin hj hjn key hkeyi hkeyj
    rw [← hplaced i hi hin key hkeyi]
    exact hplaced j hj hjn key hkeyj

omit [DecidableEq Addr] in
/-- One tree changes its keys as the set of all the keys does. -/
theorem Memory.Routed.becomes
    {m' : Memory Addr} {key : Int} {s : List Addr} {keys' keys'' : Finset Int}
    {nodes : Int → List Addr}
    (hforest : m.Forest tree maxServers
      (fun j => {key ∈ keys | key.tmod maxServers = j}) nodes)
    (hj : 0 ≤ key.tmod maxServers) (hjn : key.tmod maxServers < maxServers)
    (hbecomes : m.Becomes m' (treeOf maxServers tree key) s keys'')
    (hs : ∀ a ∈ s, a ∈ nodes (key.tmod maxServers) ∨ a ∉ m.used)
    (hnonneg : ∀ k ∈ keys', 0 ≤ k.tmod maxServers)
    (hsame : keys'' = {k ∈ keys' | k.tmod maxServers = key.tmod maxServers})
    (hother : ∀ k, k ≠ key → (k ∈ keys' ↔ k ∈ keys)) :
  m'.Routed maxServers tree keys'
  := by
  obtain ⟨nodes', hforest'⟩ := hforest.change hj hjn hbecomes hs
  refine ⟨hnonneg, nodes', ?_⟩
  convert hforest' using 1
  funext j
  by_cases hjeq : j = key.tmod maxServers
  · subst hjeq
    rw [Function.update_self, hsame]
  · rw [Function.update_of_ne hjeq]
    ext k
    rw [Finset.mem_filter, Finset.mem_filter]
    by_cases hk : k = key
    · subst hk
      simp [Ne.symm hjeq]
    · rw [hother k hk]

/-- An operation returns, and its key goes into the tree it is looked for in. -/
theorem Memory.Routed.exec {op : TreeOp Addr} (hservers : 1 ≤ maxServers)
    (h : m.Routed maxServers tree keys) (hkey : 0 ≤ op.key) (hfresh : op.Fresh m) :
  ∃ m' result, op.exec maxServers tree m = some (m', result) ∧
    m'.Routed maxServers tree (op.effect keys)
  := by
  have hj : 0 ≤ op.key.tmod maxServers := Int.tmod_nonneg maxServers hkey
  have hjn := Int.tmod_lt_of_pos op.key (show 0 < maxServers by omega)
  have hrouted := h
  obtain ⟨hnonneg, nodes, hforest⟩ := h
  have hordered := hforest.ordered _ hj hjn
  have hkeys := hforest.keys _ hj hjn
  cases op with
  | ins key new =>
      obtain ⟨m', hins, hbecomes⟩ := hordered.insertBelow key hfresh
      rw [hkeys] at hbecomes
      refine ⟨m', _, hins, ?_⟩
      apply Memory.Routed.becomes hforest hj hjn hbecomes
      · intro a ha
        rcases List.mem_cons.mp ha with rfl | ha
        · exact .inr hfresh
        · exact .inl ha
      · intro k hk
        rcases Finset.mem_insert.mp hk with rfl | hk
        · exact hj
        · exact hnonneg k hk
      · rw [TreeOp.effect, TreeOp.key, Finset.filter_insert, if_pos rfl]
      · intro k hk
        exact Finset.mem_insert.trans (or_iff_right hk)
  | del key =>
      obtain ⟨m', hdel, hbecomes⟩ := Memory.Ordered.listDelFfwd hordered
      rw [hkeys] at hbecomes
      refine ⟨m', _, hdel, ?_⟩
      apply Memory.Routed.becomes hforest hj hjn hbecomes
      · intro a ha
        exact .inl ha
      · intro k hk
        exact hnonneg k (Finset.mem_of_mem_erase hk)
      · ext k
        rw [Finset.mem_erase, Finset.mem_filter, Finset.mem_filter]
        have heffect : k ∈ (TreeOp.del key : TreeOp Addr).effect keys ↔ k ≠ key ∧ k ∈ keys :=
          Finset.mem_erase
        rw [heffect]
        exact and_assoc.symm
      · intro k hk
        exact Finset.mem_erase.trans (and_iff_right hk)
  | find key =>
      have hrepresents : m.Represents (treeOf maxServers tree key) _ := ⟨_, hordered, hkeys⟩
      exact ⟨m, _, congrArg (Option.map _) hrepresents.listFindFfwd, hrouted⟩

theorem Memory.Routed.after (hservers : 1 ≤ maxServers) (h : m.Routed maxServers tree keys)
    (ops : List (TreeOp Addr)) (hops : ∀ op ∈ ops, 0 ≤ op.key) :
  Memory.After maxServers tree (Memory.Sharded maxServers tree) m keys ops
  := by
  induction ops generalizing m keys with
  | nil => exact h.sharded hservers
  | cons op ops ih =>
      intro hfresh
      obtain ⟨m', result, hexec, hrouted⟩ := h.exec hservers (hops op List.mem_cons_self) hfresh
      refine ⟨m', result, hexec, ?_⟩
      exact ih hrouted (fun op hop => hops op (List.mem_cons_of_mem _ hop))

end Operations

/-- The initialisation agrees with the operations for as long as they go on if and only if every
key that is drawn while a tree is filled has the number of the tree as its remainder. -/
theorem trees_sharded_iff
    (maxServers : Int) (tree : Int → Addr) (initSize valueRange : Int)
    (draws : Int → List (Int × Addr)) (m m' : Memory Addr) (hservers : 1 ≤ maxServers)
    (hinit : listGlobalInit maxServers tree initSize valueRange draws m = some m') :
  (∀ ops, (∀ op ∈ ops, 0 ≤ op.key) →
    Memory.After maxServers tree (Memory.Sharded maxServers tree) m'
      (allDrawn maxServers valueRange draws) ops) ↔
  ∀ j, 0 ≤ j → j < maxServers →
    ∀ draw ∈ draws j, (draw.1.tmod valueRange).tmod maxServers = j
  := by
  obtain ⟨nodes, hforest⟩ := listGlobalInit_forest hservers hinit
  have hdrawn : ∀ j key, key ∈ drawnKeys valueRange draws j ↔
      ∃ draw ∈ draws j, draw.1.tmod valueRange = key := by
    intro j key
    rw [drawnKeys, List.mem_toFinset, List.mem_map]
  constructor
  · intro h j hj hjn draw hdraw
    have hsharded : m'.Sharded maxServers tree (allDrawn maxServers valueRange draws) := h [] nofun
    apply hsharded.placed j hj hjn
    rw [hforest.stored_iff hj hjn, hdrawn]
    exact ⟨draw, hdraw, rfl⟩
  · intro h ops hops
    have hall : ∀ key, key ∈ allDrawn maxServers valueRange draws ↔
        ∃ j, 0 ≤ j ∧ j < maxServers ∧ key ∈ drawnKeys valueRange draws j := by
      intro key
      simp only [allDrawn, Finset.mem_biUnion, Finset.mem_range]
      constructor
      · rintro ⟨j, hj, hkey⟩
        exact ⟨j, by omega, by omega, hkey⟩
      · rintro ⟨j, hj, hjn, hkey⟩
        refine ⟨j.toNat, by omega, ?_⟩
        rw [Int.toNat_of_nonneg hj]
        exact hkey
    have hremainder : ∀ j, 0 ≤ j → j < maxServers → ∀ key ∈ drawnKeys valueRange draws j,
        key.tmod maxServers = j := by
      intro j hj hjn key hkey
      obtain ⟨draw, hdraw, rfl⟩ := (hdrawn j key).mp hkey
      exact h j hj hjn draw hdraw
    apply Memory.Routed.after hservers _ ops hops
    refine ⟨?_, nodes, ⟨hforest.ordered, ?_, hforest.separate⟩⟩
    · intro key hkey
      obtain ⟨j, hj, hjn, hkey⟩ := (hall key).mp hkey
      rw [hremainder j hj hjn key hkey]
      exact hj
    · intro j hj hjn
      rw [hforest.keys j hj hjn]
      ext key
      rw [Finset.mem_filter, hall]
      constructor
      · intro hkey
        exact ⟨⟨j, hj, hjn, hkey⟩, hremainder j hj hjn key hkey⟩
      · rintro ⟨⟨i, hi, hin, hkey⟩, hj⟩
        rw [← hj, hremainder i hi hin key hkey]
        exact hkey

/-- Two servers with a key each, the even key for the first and the odd one for the second. -/
theorem trees_sharded_iff_two :
  let draws : Int → List (Int × Nat) := fun j => [(14 + j, 5 + 2 * j.toNat)]
  ∃ m', listGlobalInit 2 (fun j => 4 + 2 * j.toNat) 2 10 draws ⟨fun _ => 0, fun _ _ => none, ∅⟩ =
      some m' ∧
    ∀ ops, (∀ op ∈ ops, 0 ≤ op.key) →
      Memory.After 2 (fun j => 4 + 2 * j.toNat)
        (Memory.Sharded 2 (fun j => 4 + 2 * j.toNat)) m' (allDrawn 2 10 draws) ops
  := by
  intro draws
  obtain ⟨m', hinit⟩ : ∃ m', listGlobalInit 2 (fun j => 4 + 2 * j.toNat) 2 10 draws
      ⟨fun _ => 0, fun _ _ => none, ∅⟩ = some m' :=
    Option.isSome_iff_exists.mp (by decide)
  refine ⟨m', hinit, (trees_sharded_iff 2 _ 2 10 draws _ m' (by decide) hinit).mpr ?_⟩
  intro j hj hjn draw hdraw
  obtain rfl := List.mem_singleton.mp hdraw
  interval_cases j
  · decide
  · decide

/-- The second of two servers draws an even key, which is not found. -/
theorem trees_not_sharded :
  let tree : Int → Nat := fun j => 4 + 2 * j.toNat
  let draws : Int → List (Int × Nat) := fun j => [(14 - 2 * j, 5 + 2 * j.toNat)]
  ∃ m', listGlobalInit 2 tree 2 10 draws ⟨fun _ => 0, fun _ _ => none, ∅⟩ = some m' ∧
    ¬ ∀ ops, (∀ op ∈ ops, 0 ≤ op.key) →
      Memory.After 2 tree (Memory.Sharded 2 tree) m' (allDrawn 2 10 draws) ops
  := by
  intro tree draws
  refine ⟨_, rfl, ?_⟩
  intro h
  have hsharded := h [] nofun
  have hfound := hsharded.found 2 (by decide)
  cases hfound

end Micro
