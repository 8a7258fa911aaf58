import Ffwd.Lib.InOrder

/-!
# The delegated search tree

The binary search tree of the micro-benchmarks, one tree for each server, under a root whose
value is never compared. The operations walk down from the root along the links, remember the
link they came by, and change it. `Represents` says that the nodes below the root, read in
order, have strictly increasing values, those of a set of keys.
-/

namespace Micro

open Linked

variable {Addr : Type} [DecidableEq Addr]

/-! ### The operations -/

/-- The memory the nodes are in; `used` are the nodes that have been allocated and not freed. -/
structure Memory (Addr : Type) where
  value : Addr → Int
  child : Addr → Bool → Option Addr
  used : Finset Addr

def intMax : Int := 2147483647

/-- A new node, at the address `malloc` returns. -/
def rluNewNode (m : Memory Addr) (new : Addr) (key : Int) : Memory Addr where
  value := Function.update m.value new key
  child := Function.update m.child new (fun _ => none)
  used := insert new m.used

/-- `a->child[d] = o` -/
def Memory.setChild (m : Memory Addr) (a : Addr) (d : Bool) (o : Option Addr) : Memory Addr :=
  { m with child := Linked.setChild m.child a d o }

@[simp]
theorem Memory.setChild_value (m : Memory Addr) (a : Addr) (d : Bool) (o : Option Addr) :
  (m.setChild a d o).value = m.value
  := rfl

@[simp]
theorem Memory.setChild_child (m : Memory Addr) (a : Addr) (d : Bool) (o : Option Addr) :
  (m.setChild a d o).child = Linked.setChild m.child a d o
  := rfl

@[simp]
theorem Memory.setChild_used (m : Memory Addr) (a : Addr) (d : Bool) (o : Option Addr) :
  (m.setChild a d o).used = m.used
  := rfl

def Memory.free (m : Memory Addr) (a : Addr) : Memory Addr :=
  { m with used := m.used.erase a }

/-- The loop that looks for a key: the node and the link the walk came by, and the node found.
It gives up after as many rounds as there are nodes. -/
def search (m : Memory Addr) (key : Int) :
    Nat → Addr → Bool → Option Addr → Option (Addr × Bool × Option Addr)
  | _, prev, direction, none => some (prev, direction, none)
  | 0, _, _, some _ => none
  | n + 1, prev, direction, some cur =>
      if m.value cur > key then search m key n cur false (m.child cur false)
      else if m.value cur < key then search m key n cur true (m.child cur true)
      else some (prev, direction, some cur)

/-- The loop that looks for the successor of a node with a right child. -/
def successor (m : Memory Addr) (n : Nat) (prevSucc succ : Addr) : Option (Addr × Addr) :=
  match m.child succ false, n with
  | none, _ => some (prevSucc, succ)
  | some _, 0 => none
  | some next, n + 1 => successor m n succ next

def insertBelow (m : Memory Addr) (root new : Addr) (key : Int) : Option (Memory Addr × Bool) := do
  let (prev, direction, cur) ← search m key m.used.card root false (m.child root false)
  match cur with
  | none => return ((rluNewNode m new key).setChild prev direction (some new), true)
  | some _ => return (m, false)

/-- The successor takes the place of a node with two children. -/
def splice (m : Memory Addr) (prev : Addr) (direction : Bool) (cur prevSucc succ : Addr)
    (curChildL curChildR : Option Addr) : Memory Addr :=
  let m := m.setChild prev direction (some succ)
  if prevSucc = cur then
    m.setChild succ false curChildL
  else
    let m := m.setChild prevSucc false (m.child succ true)
    let m := m.setChild succ false curChildL
    m.setChild succ true curChildR

/-- The trees are in an array with an entry for each server: `tree i` is the root of the tree
of the server `i`, which has the keys `key % MAX_SERVERS = i`. -/
def treeOf (maxServers : Int) (tree : Int → Addr) (key : Int) : Addr := tree (key.tmod maxServers)

section Shards

variable (maxServers : Int) (tree : Int → Addr)

def listInsFfwd (m : Memory Addr) (new : Addr) (key : Int) : Option (Memory Addr × Bool) :=
  insertBelow m (treeOf maxServers tree key) new key

def listDelFfwd (m : Memory Addr) (key : Int) : Option (Memory Addr × Bool) := do
  let root := treeOf maxServers tree key
  let (prev, direction, cur) ← search m key m.used.card root false (m.child root false)
  match cur with
  | none => return (m, false)
  | some cur =>
      match m.child cur false, m.child cur true with
      | none, curChildR => return ((m.setChild prev direction curChildR).free cur, true)
      | curChildL, none => return ((m.setChild prev direction curChildL).free cur, true)
      | curChildL, some curChildR =>
          let (prevSucc, succ) ← successor m m.used.card cur curChildR
          return ((splice m prev direction cur prevSucc succ curChildL (some curChildR)).free cur, true)

def listFindFfwd (m : Memory Addr) (key : Int) : Option Bool := do
  let root := treeOf maxServers tree key
  let (_, _, cur) ← search m key m.used.card root false (m.child root false)
  return cur.isSome

end Shards

/-! ### What the tree represents -/

/-- The nodes below the root are those of the list in order, their values increase, and all of
them and the root are allocated. -/
structure Memory.Ordered (m : Memory Addr) (root : Addr) (l : List Addr) : Prop where
  inOrder : InOrder m.child (m.child root false) l
  increasing : l.Pairwise (fun a b => m.value a < m.value b)
  root_notMem : root ∉ l
  used : ∀ a ∈ root :: l, a ∈ m.used

/-- Nothing is changed at the nodes that are not in the list. -/
structure Memory.Framed (m m' : Memory Addr) (s : List Addr) : Prop where
  value : ∀ a ∉ s, m'.value a = m.value a
  child : ∀ a ∉ s, m'.child a = m.child a
  used : ∀ a ∉ s, a ∈ m.used → a ∈ m'.used

/-- An operation turns the tree below the root into one with the given keys, whose nodes are
in the list, and leaves the nodes outside the list as they are. -/
structure Memory.Becomes (m m' : Memory Addr) (root : Addr) (s : List Addr) (keys : Finset Int) :
    Prop where
  tree : ∃ l, m'.Ordered root l ∧ (l.map m'.value).toFinset = keys ∧ ∀ a ∈ l, a ∈ s
  framed : m.Framed m' (root :: s)

/-- The tree below the root is a binary search tree, and its values are the keys of a set. -/
def Memory.Represents (m : Memory Addr) (root : Addr) (keys : Finset Int) : Prop :=
  ∃ l, m.Ordered root l ∧ (l.map m.value).toFinset = keys

variable {m : Memory Addr} {root : Addr} {l l₁ l₂ : List Addr}

omit [DecidableEq Addr] in
theorem Memory.Becomes.represents
    {m' : Memory Addr} {s : List Addr} {keys : Finset Int} (h : m.Becomes m' root s keys) :
  m'.Represents root keys
  := by
  obtain ⟨l, hordered, hkeys, -⟩ := h.tree
  exact ⟨l, hordered, hkeys⟩

omit [DecidableEq Addr] in
theorem Memory.Framed.refl (m : Memory Addr) (s : List Addr) :
  m.Framed m s
  := ⟨fun _ _ => rfl, fun _ _ => rfl, fun _ _ h => h⟩

omit [DecidableEq Addr] in
theorem Memory.Ordered.nodup (h : m.Ordered root l) :
  (root :: l).Nodup
  := by
  rw [List.nodup_cons]
  refine ⟨h.root_notMem, ?_⟩
  apply h.increasing.imp
  rintro a b hlt rfl
  exact lt_irrefl _ hlt

theorem Memory.Ordered.length_le (h : m.Ordered root l) :
  l.length ≤ m.used.card
  := by
  have hnodup := (List.nodup_cons.mp h.nodup).2
  rw [← List.toFinset_card_of_nodup hnodup]
  apply Finset.card_le_card
  intro a ha
  apply h.used a (List.mem_cons_of_mem root (List.mem_toFinset.mp ha))

/-- Where a search ends: a hole, with smaller values before it and larger ones behind it, that
is empty or has a tree with the key at its top. -/
structure Found (m : Memory Addr) (key : Int) (p : Addr) (d : Bool) (l : List Addr)
    (prev : Addr) (direction : Bool) (cur : Option Addr) (l₁ mid l₂ : List Addr) : Prop where
  split : l = l₁ ++ mid ++ l₂
  hole : Hole m.child p d prev direction l₁ l₂
  link : m.child prev direction = cur
  tree : InOrder m.child cur mid
  before : ∀ a ∈ l₁, m.value a < key
  behind : ∀ a ∈ l₂, key < m.value a
  top : ∀ a, cur = some a → m.value a = key

omit [DecidableEq Addr] in
theorem search_found
    {n : Nat} {p : Addr} {d : Bool} {o : Option Addr} (key : Int)
    (hlink : m.child p d = o) (htree : InOrder m.child o l)
    (hincreasing : l.Pairwise (fun a b => m.value a < m.value b)) (hn : l.length ≤ n) :
  ∃ prev direction cur l₁ mid l₂,
    search m key n p d o = some (prev, direction, cur) ∧
      Found m key p d l prev direction cur l₁ mid l₂
  := by
  induction htree generalizing n p d with
  | nil =>
      refine ⟨p, d, none, [], [], [], by rw [search], rfl, .here, hlink, .nil, ?_, ?_, ?_⟩
      all_goals simp
  | @node a l r left right ihleft ihright =>
      obtain ⟨hl, hr, hlr⟩ := List.pairwise_append.mp hincreasing
      obtain ⟨ha, hr⟩ := List.pairwise_cons.mp hr
      rw [List.length_append, List.length_cons] at hn
      obtain ⟨n, rfl⟩ : ∃ n', n = n' + 1 := ⟨n - 1, by omega⟩
      by_cases hgt : m.value a > key
      · obtain ⟨prev, direction, cur, l₁, mid, l₂, hsearch, hfound⟩ :=
          ihleft (n := n) rfl hl (by omega)
        refine ⟨prev, direction, cur, l₁, mid, l₂ ++ a :: r, ?_, ?_⟩
        · rw [search, if_pos hgt, hsearch]
        · refine ⟨?_, .left hlink right hfound.hole, hfound.link, hfound.tree, hfound.before, ?_,
            hfound.top⟩
          · rw [hfound.split]
            simp
          · intro b hb
            rcases List.mem_append.mp hb with hb | hb
            · exact hfound.behind b hb
            · rcases List.mem_cons.mp hb with rfl | hb
              · exact hgt
              · exact lt_trans hgt (ha b hb)
      · by_cases hlt : m.value a < key
        · obtain ⟨prev, direction, cur, l₁, mid, l₂, hsearch, hfound⟩ :=
            ihright (n := n) rfl hr (by omega)
          refine ⟨prev, direction, cur, l ++ a :: l₁, mid, l₂, ?_, ?_⟩
          · rw [search, if_neg hgt, if_pos hlt, hsearch]
          · refine ⟨?_, .right hlink left hfound.hole, hfound.link, hfound.tree, ?_, hfound.behind,
              hfound.top⟩
            · rw [hfound.split]
              simp
            · intro b hb
              rcases List.mem_append.mp hb with hb | hb
              · exact lt_trans (hlr b hb a List.mem_cons_self) hlt
              · rcases List.mem_cons.mp hb with rfl | hb
                · exact hlt
                · exact hfound.before b hb
        · refine ⟨p, d, some a, [], l ++ a :: r, [], ?_, ?_⟩
          · rw [search, if_neg hgt, if_neg hlt]
          · refine ⟨by simp, .here, hlink, .node left right, by simp, by simp, ?_⟩
            rintro b ⟨⟩
            omega

omit [DecidableEq Addr] in
/-- The key is one of those the tree has if and only if the search finds a node. -/
theorem Found.isSome_iff
    {key : Int} {p prev : Addr} {d direction : Bool} {cur : Option Addr} {mid : List Addr}
    (h : Found m key p d l prev direction cur l₁ mid l₂) :
  cur.isSome ↔ key ∈ (l.map m.value).toFinset
  := by
  rw [List.mem_toFinset, List.mem_map]
  constructor
  · intro hcur
    obtain ⟨a, rfl⟩ := Option.isSome_iff_exists.mp hcur
    obtain ⟨left, right, rfl, -, -⟩ := h.tree.cases_some
    refine ⟨a, ?_, h.top a rfl⟩
    rw [h.split]
    simp
  · rintro ⟨a, ha, hvalue⟩
    cases cur with
    | some b => rfl
    | none =>
        obtain rfl := h.tree.eq_nil
        rw [h.split] at ha
        rcases List.mem_append.mp ha with ha | ha
        · have := h.before a (by simpa using ha)
          omega
        · have := h.behind a ha
          omega

section Change

variable {key : Int} {prev : Addr} {direction : Bool} {cur : Option Addr} {mid : List Addr}

omit [DecidableEq Addr] in
/-- The node the search came by is the root or a node of the tree outside the hole. -/
theorem Found.prev_mem (h : Found m key root false l prev direction cur l₁ mid l₂) :
  prev ∈ root :: (l₁ ++ l₂)
  := by
  rcases h.hole.eq_or_mem with ⟨rfl, -⟩ | hmem
  · exact List.mem_cons_self
  · exact List.mem_cons_of_mem root hmem

omit [DecidableEq Addr] in
/-- Another tree in the place where the search has ended. -/
theorem Found.replace
    {child' : Addr → Bool → Option Addr} {mid' : List Addr}
    (h : Found m key root false l prev direction cur l₁ mid l₂) (hnodup : (root :: l).Nodup)
    (hcongr : ∀ a ∈ root :: (l₁ ++ l₂), ∀ f,
      (a, f) ≠ (prev, direction) → child' a f = m.child a f)
    (htree : InOrder child' (child' prev direction) mid') :
  InOrder child' (child' root false) (l₁ ++ mid' ++ l₂)
  := by
  have hsub : (root :: (l₁ ++ l₂)).Sublist (root :: l) := by
    rw [h.split, List.append_assoc]
    apply List.Sublist.cons_cons
    apply List.Sublist.append (List.Sublist.refl l₁)
    exact List.sublist_append_right mid l₂
  exact Hole.fill (h.hole.congr (List.Nodup.sublist hsub hnodup) hcongr) htree

/-- A new node in the place where the search has ended. -/
theorem Found.attach
    {new : Addr} (h : Found m key root false l prev direction none l₁ [] l₂)
    (hordered : m.Ordered root l) (hnew : new ∉ m.used) :
  ((rluNewNode m new key).setChild prev direction (some new)).Ordered root (l₁ ++ [new] ++ l₂)
  := by
  have hl : l = l₁ ++ l₂ := by
    rw [h.split, List.append_nil]
  have hne : ∀ a ∈ root :: l, a ≠ new := by
    rintro a ha rfl
    exact hnew (hordered.used a ha)
  have hprev : prev ∈ root :: l := by
    rw [hl]
    exact h.prev_mem
  have hvalue : ∀ a ∈ root :: l, (rluNewNode m new key).value a = m.value a := by
    intro a ha
    exact Function.update_of_ne (hne a ha) _ _
  have hvalue_new : (rluNewNode m new key).value new = key := Function.update_self _ _ _
  have hchild : ∀ a ∈ root :: l, (rluNewNode m new key).child a = m.child a := by
    intro a ha
    exact Function.update_of_ne (hne a ha) _ _
  have hchild_new : (rluNewNode m new key).child new = fun _ => none := Function.update_self _ _ _
  constructor
  · apply h.replace hordered.nodup
    · intro a ha f hf
      rw [Memory.setChild_child, setChild_of_ne hf, hchild a (by rw [hl]; exact ha)]
    · rw [Memory.setChild_child, setChild_self]
      have hempty :
          ∀ f, Linked.setChild (rluNewNode m new key).child prev direction (some new) new f = none := by
        intro f
        rw [setChild_of_node_ne (hne prev hprev).symm, hchild_new]
      apply InOrder.node (l := []) (r := [])
      · rw [hempty]
        exact .nil
      · rw [hempty]
        exact .nil
  · have hincreasing := hordered.increasing
    rw [hl, List.pairwise_append] at hincreasing
    obtain ⟨hl₁, hl₂, hlt⟩ := hincreasing
    have hmem₁ : ∀ a ∈ l₁, (rluNewNode m new key).value a = m.value a := by
      intro a ha
      apply hvalue
      simp [hl, ha]
    have hmem₂ : ∀ a ∈ l₂, (rluNewNode m new key).value a = m.value a := by
      intro a ha
      apply hvalue
      simp [hl, ha]
    rw [Memory.setChild_value, List.append_assoc, List.singleton_append, List.pairwise_append,
      List.pairwise_cons]
    refine ⟨?_, ⟨?_, ?_⟩, ?_⟩
    · apply hl₁.imp_of_mem
      intro a b ha hb hab
      rw [hmem₁ a ha, hmem₁ b hb]
      exact hab
    · intro b hb
      rw [hvalue_new, hmem₂ b hb]
      exact h.behind b hb
    · apply hl₂.imp_of_mem
      intro a b ha hb hab
      rw [hmem₂ a ha, hmem₂ b hb]
      exact hab
    · intro a ha b hb
      rw [hmem₁ a ha]
      rcases List.mem_cons.mp hb with rfl | hb
      · rw [hvalue_new]
        exact h.before a ha
      · rw [hmem₂ b hb]
        exact hlt a ha b hb
  · intro hmem
    have hroot := hordered.root_notMem
    have hroot_new := hne root List.mem_cons_self
    rw [hl] at hroot
    simp only [List.mem_append, List.mem_singleton] at hmem hroot
    tauto
  · intro a ha
    have hused := hordered.used a
    rw [hl] at hused
    simp only [List.mem_cons, List.mem_append, List.not_mem_nil, or_false] at ha hused
    simp only [rluNewNode, Memory.setChild_used, Finset.mem_insert]
    tauto

omit [DecidableEq Addr] in
/-- The nodes of the tree found are different, and they are not outside of it. -/
theorem Found.disjoint
    (h : Found m key root false l prev direction cur l₁ mid l₂) (hordered : m.Ordered root l) :
  (∀ a ∈ root :: (l₁ ++ l₂), ∀ b ∈ mid, a ≠ b) ∧ mid.Nodup
  := by
  have hnodup := hordered.nodup
  have hperm : (root :: l).Perm (root :: (l₁ ++ l₂) ++ mid) := by
    rw [h.split, List.cons_append, List.perm_cons, List.append_assoc, List.append_assoc]
    exact List.perm_append_comm.append_left l₁
  rw [hperm.nodup_iff, List.nodup_append] at hnodup
  exact ⟨hnodup.2.2, hnodup.2.1⟩

/-- The node found is taken out and freed, and the links below it are changed such that the
rest of its tree takes its place. -/
theorem Found.detach
    {c : Addr} {left right : List Addr} (m' : Memory Addr)
    (h : Found m key root false l prev direction (some c) l₁ (left ++ c :: right) l₂)
    (hordered : m.Ordered root l) (hvalue : m'.value = m.value) (hused : m'.used = m.used)
    (hcongr : ∀ a ∉ left ++ c :: right, ∀ f,
      (a, f) ≠ (prev, direction) → m'.child a f = m.child a f)
    (htree : InOrder m'.child (m'.child prev direction) (left ++ right)) :
  m.Becomes (m'.free c) root l ((l.map m.value).toFinset.erase key)
  := by
  have hl : l = (l₁ ++ left) ++ c :: (right ++ l₂) := by
    rw [h.split]
    simp
  have hrest : l₁ ++ (left ++ right) ++ l₂ = (l₁ ++ left) ++ (right ++ l₂) := by simp
  have hkey : m.value c = key := h.top c rfl
  have hsub : ((l₁ ++ left) ++ (right ++ l₂)).Sublist l := by
    rw [hl]
    simp
  have hne : ∀ a ∈ (l₁ ++ left) ++ (right ++ l₂), m.value a ≠ key := by
    have hincreasing := hordered.increasing
    rw [hl, List.pairwise_append, List.pairwise_cons] at hincreasing
    obtain ⟨-, ⟨hbehind, -⟩, hbefore⟩ := hincreasing
    intro a ha
    rcases List.mem_append.mp ha with ha | ha
    · have := hbefore a ha c List.mem_cons_self
      omega
    · have := hbehind a ha
      omega
  have hdisjoint := (h.disjoint hordered).1
  have hreplace := h.replace hordered.nodup
    (fun a ha f hf => hcongr a (fun hmem => hdisjoint a ha a hmem rfl) f hf) htree
  rw [hrest] at hreplace
  have houtside : ∀ a ∉ root :: l, a ∉ left ++ c :: right ∧ a ≠ prev ∧ a ≠ c := by
    intro a ha
    have hprev := h.prev_mem
    rw [h.split] at ha
    refine ⟨?_, ?_, ?_⟩
    · intro hmem
      simp only [List.mem_cons, List.mem_append] at ha hmem
      tauto
    · rintro rfl
      simp only [List.mem_cons, List.mem_append] at ha hprev
      tauto
    · rintro rfl
      simp at ha
  refine ⟨⟨(l₁ ++ left) ++ (right ++ l₂), ⟨hreplace, ?_, ?_, ?_⟩, ?_, hsub.subset⟩, ?_, ?_, ?_⟩
  · show List.Pairwise (fun a b => m'.value a < m'.value b) _
    rw [hvalue]
    exact hordered.increasing.sublist hsub
  · intro hmem
    exact hordered.root_notMem (hsub.subset hmem)
  · intro a ha
    show a ∈ m'.used.erase c
    rw [hused, Finset.mem_erase]
    refine ⟨?_, hordered.used a ((hsub.cons_cons root).subset ha)⟩
    rintro rfl
    rcases List.mem_cons.mp ha with rfl | ha
    · apply hordered.root_notMem
      rw [hl]
      simp
    · exact hne a ha hkey
  · show (List.map m'.value _).toFinset = _
    rw [hvalue, hl, List.map_append,
      (List.map_append : List.map m.value (l₁ ++ left ++ c :: (right ++ l₂)) = _), List.map_cons]
    ext k
    simp only [List.mem_toFinset, Finset.mem_erase, List.mem_append, List.mem_cons, hkey]
    constructor
    · intro hk
      refine ⟨?_, by tauto⟩
      rintro rfl
      rw [← List.mem_append, ← List.map_append, List.mem_map] at hk
      obtain ⟨a, ha, hvalue⟩ := hk
      exact hne a ha hvalue
    · rintro ⟨hk, hmem⟩
      tauto
  · intro a _
    exact congrFun hvalue a
  · intro a ha
    obtain ⟨hmid, hprev, -⟩ := houtside a ha
    funext f
    apply hcongr a hmid f
    rintro ⟨⟩
    exact hprev rfl
  · intro a ha hmem
    show a ∈ m'.used.erase c
    rw [hused]
    exact Finset.mem_erase_of_ne_of_mem (houtside a ha).2.2 hmem

/-- The node found has at most one child, which takes its place. -/
theorem Found.bypass
    {c : Addr} {left right : List Addr} {o : Option Addr}
    (h : Found m key root false l prev direction (some c) l₁ (left ++ c :: right) l₂)
    (hordered : m.Ordered root l) (htree : InOrder m.child o (left ++ right)) :
  m.Becomes ((m.setChild prev direction o).free c) root l ((l.map m.value).toFinset.erase key)
  := by
  have hdisjoint := (h.disjoint hordered).1
  apply h.detach (m.setChild prev direction o) hordered rfl rfl
  · intro a ha f hf
    rw [Memory.setChild_child, setChild_of_ne hf]
  · rw [Memory.setChild_child, setChild_self]
    apply htree.congr
    intro a ha
    apply setChild_of_node_ne
    apply (hdisjoint prev h.prev_mem a _).symm
    simp only [List.mem_append, List.mem_cons] at ha ⊢
    tauto

end Change

omit [DecidableEq Addr] in
/-- Where the search for a successor ends: at the first node in order. -/
theorem successor_found
    {n : Nat} {p s : Addr} {d : Bool} {r : List Addr}
    (hlink : m.child p d = some s) (htree : InOrder m.child (some s) r) (hn : r.length ≤ n) :
  ∃ prevSucc succ e mid r₂, successor m n p s = some (prevSucc, succ) ∧
    r = succ :: (mid ++ r₂) ∧ m.child succ false = none ∧
    InOrder m.child (m.child succ true) mid ∧ Hole m.child p d prevSucc e [] r₂ ∧
    m.child prevSucc e = some succ ∧
    ((prevSucc = p ∧ e = d ∧ succ = s ∧ r₂ = []) ∨ (prevSucc ∈ r₂ ∧ e = false))
  := by
  induction n generalizing p s d r with
  | zero =>
      obtain ⟨left, right, rfl, -, -⟩ := htree.cases_some
      simp at hn
  | succ n ih =>
      obtain ⟨left, right, rfl, hleft, hright⟩ := htree.cases_some
      cases hnext : m.child s false with
      | none =>
          rw [hnext] at hleft
          obtain rfl := hleft.eq_nil
          refine ⟨p, s, d, right, [], ?_, by simp, hnext, hright, .here, hlink, .inl
            ⟨rfl, rfl, rfl, rfl⟩⟩
          unfold successor
          rw [hnext]
      | some next =>
          rw [hnext] at hleft
          have hlen : left.length ≤ n := by
            rw [List.length_append, List.length_cons] at hn
            omega
          obtain ⟨prevSucc, succ, e, mid, r₂, hsucc, rfl, hfirst, hmid, hhole, hlast, hcases⟩ :=
            ih hnext hleft hlen
          refine ⟨prevSucc, succ, e, mid, r₂ ++ s :: right, ?_, by simp, hfirst, hmid,
            .left hlink hright hhole, hlast, .inr ?_⟩
          · unfold successor
            rw [hnext]
            exact hsucc
          · rcases hcases with ⟨rfl, rfl, -, rfl⟩ | ⟨hmem, rfl⟩
            · exact ⟨by simp, rfl⟩
            · exact ⟨List.mem_append_left _ hmem, rfl⟩

section Splice

variable {key : Int} {prev c succ : Addr} {direction : Bool} {left mid : List Addr}

/-- The successor of the node found is its right child. -/
theorem Found.splice_child
    (h : Found m key root false l prev direction (some c) l₁ (left ++ c :: succ :: mid) l₂)
    (hordered : m.Ordered root l) (hleft : InOrder m.child (m.child c false) left)
    (hmid : InOrder m.child (m.child succ true) mid) (curChildR : Option Addr) :
  m.Becomes ((splice m prev direction c c succ (m.child c false) curChildR).free c)
    root l ((l.map m.value).toFinset.erase key)
  := by
  obtain ⟨hdisjoint, hnodup⟩ := h.disjoint hordered
  have hprev : ∀ b ∈ left ++ c :: succ :: mid, b ≠ prev := by
    intro b hb
    exact (hdisjoint prev h.prev_mem b hb).symm
  have hsucc_prev : succ ≠ prev := hprev succ (by simp)
  apply h.detach _ hordered
  · simp [Micro.splice]
  · simp [Micro.splice]
  · intro a ha f hf
    simp only [Micro.splice, if_true, Memory.setChild_child]
    have hsucc : a ≠ succ := fun h => ha (by simp [h])
    rw [setChild_of_node_ne hsucc, setChild_of_ne hf]
  · simp only [Micro.splice, if_true, Memory.setChild_child]
    rw [setChild_of_node_ne hsucc_prev.symm, setChild_self]
    apply InOrder.node
    · rw [setChild_self]
      apply hleft.congr
      intro a ha
      rw [setChild_of_node_ne (by grind), setChild_of_node_ne (hprev a (by simp [ha]))]
    · rw [setChild_of_ne (by simp), setChild_of_node_ne hsucc_prev]
      apply hmid.congr
      intro a ha
      rw [setChild_of_node_ne (by grind), setChild_of_node_ne (hprev a (by simp [ha]))]

/-- The successor of the node found is deeper in its right subtree. -/
theorem Found.splice_deep
    {prevSucc curChildR : Addr} {r₂ : List Addr}
    (h : Found m key root false l prev direction (some c) l₁ (left ++ c :: succ :: (mid ++ r₂)) l₂)
    (hordered : m.Ordered root l) (hleft : InOrder m.child (m.child c false) left)
    (hmid : InOrder m.child (m.child succ true) mid)
    (hhole : Hole m.child c true prevSucc false [] r₂) (hmem : prevSucc ∈ r₂)
    (hchildR : m.child c true = some curChildR) :
  m.Becomes ((splice m prev direction c prevSucc succ (m.child c false) (some curChildR)).free c)
    root l ((l.map m.value).toFinset.erase key)
  := by
  obtain ⟨hdisjoint, hnodup⟩ := h.disjoint hordered
  have hprev : ∀ b ∈ left ++ c :: succ :: (mid ++ r₂), b ≠ prev := by
    intro b hb
    exact (hdisjoint prev h.prev_mem b hb).symm
  have hsucc_prev : succ ≠ prev := hprev succ (by simp)
  have hps_prev : prevSucc ≠ prev := hprev prevSucc (by simp [hmem])
  have hps_c : prevSucc ≠ c := by grind
  have hps_succ : prevSucc ≠ succ := by grind
  have hinner : (c :: ([] ++ r₂)).Nodup := by grind
  have hsplice : ∃ m', splice m prev direction c prevSucc succ (m.child c false) (some curChildR) = m'
      ∧ m'.value = m.value ∧ m'.used = m.used ∧ m'.child prev direction = some succ ∧
      m'.child succ false = m.child c false ∧ m'.child succ true = some curChildR ∧
      m'.child prevSucc false = m.child succ true ∧
      ∀ a f, a ≠ succ → (a, f) ≠ (prevSucc, false) → (a, f) ≠ (prev, direction) →
        m'.child a f = m.child a f := by
    refine ⟨_, rfl, ?_⟩
    simp only [Micro.splice, if_neg hps_c, Memory.setChild_child, Memory.setChild_value,
      Memory.setChild_used]
    refine ⟨trivial, trivial, ?_, ?_, ?_, ?_, ?_⟩
    · rw [setChild_of_node_ne hsucc_prev.symm, setChild_of_node_ne hsucc_prev.symm,
        setChild_of_node_ne hps_prev.symm, setChild_self]
    · rw [setChild_of_ne (by simp), setChild_self]
    · rw [setChild_self]
    · rw [setChild_of_node_ne hps_succ, setChild_of_node_ne hps_succ, setChild_self,
        setChild_of_node_ne hsucc_prev]
    · intro a f hsucc hps hprev
      rw [setChild_of_node_ne hsucc, setChild_of_node_ne hsucc, setChild_of_ne hps,
        setChild_of_ne hprev]
  obtain ⟨m', hm', hvalue, hused, hlink, hlink_left, hlink_right, hlink_ps, hother⟩ := hsplice
  rw [hm']
  apply h.detach _ hordered hvalue hused
  · intro a ha f hf
    have hsucc : a ≠ succ := fun h => ha (by simp [h])
    have hps : a ≠ prevSucc := fun h => ha (by simp [h, hmem])
    exact hother a f hsucc (by simp [hps]) hf
  · rw [hlink]
    apply InOrder.node
    · rw [hlink_left]
      apply hleft.congr
      intro a ha
      funext f
      apply hother <;> grind
    · rw [hlink_right, ← hchildR, ← hother c true (by grind) (by simp) (by grind)]
      have hhole' : Hole m'.child c true prevSucc false [] r₂ := by
        apply hhole.congr hinner
        intro a ha f hf
        apply hother a f (by grind) hf (by grind)
      apply hhole'.fill
      rw [hlink_ps]
      apply hmid.congr
      intro a ha
      funext f
      apply hother <;> grind

end Splice

/-! ### The operations on a set -/

theorem Memory.Ordered.insertBelow
    {new : Addr} (h : m.Ordered root l) (key : Int) (hnew : new ∉ m.used) :
  ∃ m', insertBelow m root new key = some (m', decide (key ∉ (l.map m.value).toFinset)) ∧
    m.Becomes m' root (new :: l) (insert key (l.map m.value).toFinset)
  := by
  obtain ⟨prev, direction, cur, l₁, mid, l₂, hsearch, hfound⟩ :=
    search_found key rfl h.inOrder h.increasing h.length_le
  have hiff := hfound.isSome_iff
  cases cur with
  | some c =>
      have hmem : key ∈ (l.map m.value).toFinset := hiff.mp rfl
      refine ⟨m, ?_, ⟨l, h, ?_, fun a => List.mem_cons_of_mem new⟩, .refl m _⟩
      · simp [Micro.insertBelow, hsearch, hmem]
      · rw [Finset.insert_eq_of_mem hmem]
  | none =>
      have hmem : key ∉ (l.map m.value).toFinset := fun hmem => by simpa using hiff.mpr hmem
      obtain rfl := hfound.tree.eq_nil
      have hattach := hfound.attach h hnew
      have hl : l = l₁ ++ l₂ := by
        rw [hfound.split, List.append_nil]
      have hprev : prev ∈ root :: l := by
        rw [hl]
        exact hfound.prev_mem
      refine ⟨_, ?_, ⟨l₁ ++ [new] ++ l₂, hattach, ?_, ?_⟩, ?_, ?_, ?_⟩
      · rw [Micro.insertBelow, hsearch]
        simp [hmem]
      · have hvalue : ∀ a ∈ l, (rluNewNode m new key).value a = m.value a := by
          intro a ha
          apply Function.update_of_ne
          rintro rfl
          exact hnew (h.used a (List.mem_cons_of_mem root ha))
        rw [Memory.setChild_value, ← List.map_congr_left hvalue, hl]
        ext k
        simp [rluNewNode]
      · intro a ha
        rw [hl]
        simp only [List.mem_append, List.mem_cons, List.not_mem_nil, or_false] at ha ⊢
        tauto
      · intro a ha
        apply Function.update_of_ne
        rintro rfl
        simp at ha
      · intro a ha
        rw [Memory.setChild_child, setChild_of_node_ne]
        · apply Function.update_of_ne
          rintro rfl
          simp at ha
        · rintro rfl
          simp only [List.mem_cons] at ha hprev
          tauto
      · intro a _ hused
        exact Finset.mem_insert_of_mem hused

section Shards

variable {maxServers : Int} {tree : Int → Addr} {keys : Finset Int}

theorem Memory.Represents.listInsFfwd
    {new : Addr} {key : Int} (h : m.Represents (treeOf maxServers tree key) keys)
    (hnew : new ∉ m.used) :
  ∃ m', listInsFfwd maxServers tree m new key = some (m', decide (key ∉ keys)) ∧
    m'.Represents (treeOf maxServers tree key) (insert key keys)
  := by
  obtain ⟨l, hordered, rfl⟩ := h
  obtain ⟨m', hins, hm'⟩ := hordered.insertBelow key hnew
  exact ⟨m', hins, hm'.represents⟩

theorem Memory.Ordered.listDelFfwd
    {key : Int} (hordered : m.Ordered (treeOf maxServers tree key) l) :
  ∃ m', listDelFfwd maxServers tree m key = some (m', decide (key ∈ (l.map m.value).toFinset)) ∧
    m.Becomes m' (treeOf maxServers tree key) l ((l.map m.value).toFinset.erase key)
  := by
  obtain ⟨prev, direction, cur, l₁, mid, l₂, hsearch, hfound⟩ :=
    search_found key rfl hordered.inOrder hordered.increasing hordered.length_le
  have hiff := hfound.isSome_iff
  cases cur with
  | none =>
      have hmem : key ∉ (l.map m.value).toFinset := fun hmem => by simpa using hiff.mpr hmem
      refine ⟨m, ?_, ⟨l, hordered, ?_, fun a ha => ha⟩, .refl m _⟩
      · rw [Micro.listDelFfwd, hsearch]
        simp [hmem]
      · rw [Finset.erase_eq_of_notMem hmem]
  | some c =>
      have hmem : key ∈ (l.map m.value).toFinset := hiff.mp rfl
      obtain ⟨left, right, rfl, hleft, hright⟩ := hfound.tree.cases_some
      cases hchildL : m.child c false with
      | none =>
          rw [hchildL] at hleft
          obtain rfl := hleft.eq_nil
          refine ⟨(m.setChild prev direction (m.child c true)).free c, ?_, ?_⟩
          · rw [Micro.listDelFfwd, hsearch]
            simp [hmem, hchildL]
          · exact hfound.bypass hordered hright
      | some curChildL =>
          cases hchildR : m.child c true with
          | none =>
              rw [hchildR] at hright
              obtain rfl := hright.eq_nil
              refine ⟨(m.setChild prev direction (m.child c false)).free c, ?_, ?_⟩
              · rw [Micro.listDelFfwd, hsearch]
                simp [hmem, hchildL, hchildR]
              · apply hfound.bypass hordered
                rw [List.append_nil]
                exact hleft
          | some curChildR =>
              rw [hchildR] at hright
              have hlen : right.length ≤ m.used.card := by
                have := hordered.length_le
                rw [hfound.split] at this
                simp only [List.length_append, List.length_cons] at this
                omega
              obtain ⟨prevSucc, succ, e, mid, r₂, hsucc, rfl, -, hmid, hhole, -, hcases⟩ :=
                successor_found hchildR hright hlen
              refine ⟨(splice m prev direction c prevSucc succ (m.child c false)
                (some curChildR)).free c, ?_, ?_⟩
              · rw [Micro.listDelFfwd, hsearch]
                simp [hmem, hchildL, hchildR, hsucc]
              · rcases hcases with ⟨rfl, rfl, rfl, rfl⟩ | ⟨hps, rfl⟩
                · rw [List.append_nil] at hfound
                  exact hfound.splice_child hordered hleft hmid (some succ)
                · exact hfound.splice_deep hordered hleft hmid hhole hps hchildR

theorem Memory.Represents.listDelFfwd
    {key : Int} (h : m.Represents (treeOf maxServers tree key) keys) :
  ∃ m', listDelFfwd maxServers tree m key = some (m', decide (key ∈ keys)) ∧
    m'.Represents (treeOf maxServers tree key) (keys.erase key)
  := by
  obtain ⟨l, hordered, rfl⟩ := h
  obtain ⟨m', hdel, hm'⟩ := hordered.listDelFfwd
  exact ⟨m', hdel, hm'.represents⟩

theorem Memory.Represents.listFindFfwd
    {key : Int} (h : m.Represents (treeOf maxServers tree key) keys) :
  listFindFfwd maxServers tree m key = some (decide (key ∈ keys))
  := by
  obtain ⟨l, hordered, rfl⟩ := h
  obtain ⟨prev, direction, cur, l₁, mid, l₂, hsearch, hfound⟩ :=
    search_found key rfl hordered.inOrder hordered.increasing hordered.length_le
  have hiff := hfound.isSome_iff
  rw [Micro.listFindFfwd, hsearch]
  simp only [Option.pure_def, Option.bind_eq_bind, Option.bind_some, Option.some.injEq]
  rw [Bool.eq_iff_iff, hiff, decide_eq_true_iff]

end Shards

/-! ### Sequences of operations -/

/-- An operation; an insertion comes with the address `malloc` returns if it asks for a node. -/
inductive TreeOp (Addr : Type) where
  | ins (key : Int) (new : Addr)
  | del (key : Int)
  | find (key : Int)

def TreeOp.key : TreeOp Addr → Int
  | .ins key _ => key
  | .del key => key
  | .find key => key

section Runs

variable (maxServers : Int) (tree : Int → Addr)

/-- Along a sequence of operations on the tree with the given root, the tree is a search tree
for the set the abstract operations make, and every operation returns what the abstract one
does. The address an insertion gets from `malloc` is not allocated. -/
def Memory.Correct (m : Memory Addr) (root : Addr) (keys : Finset Int) :
    List (TreeOp Addr) → Prop
  | [] => m.Represents root keys
  | .ins key new :: ops =>
      m.Represents root keys ∧ (new ∉ m.used →
        ∃ m', listInsFfwd maxServers tree m new key = some (m', decide (key ∉ keys)) ∧
          m'.Correct root (insert key keys) ops)
  | .del key :: ops =>
      m.Represents root keys ∧
        ∃ m', listDelFfwd maxServers tree m key = some (m', decide (key ∈ keys)) ∧
          m'.Correct root (keys.erase key) ops
  | .find key :: ops =>
      m.Represents root keys ∧
        listFindFfwd maxServers tree m key = some (decide (key ∈ keys)) ∧
          m.Correct root keys ops

/-- The rounds of `list_global_init` for one server, with the keys that are drawn, and what
follows them. A key that is in the tree already is passed over. -/
def Memory.InitThen (m : Memory Addr) (root : Addr) (keys : Finset Int)
    (P : Memory Addr → Finset Int → Prop) : List (Int × Addr) → Prop
  | [] => P m keys
  | (key, new) :: draws =>
      new ∉ m.used →
        ∃ m', insertBelow m root new key = some (m', decide (key ∉ keys)) ∧
          m'.InitThen root (insert key keys) P draws

theorem Memory.Represents.correct
    {keys : Finset Int} (i : Int) (h : m.Represents (tree i) keys) (ops : List (TreeOp Addr))
    (hops : ∀ op ∈ ops, op.key.tmod maxServers = i) :
  m.Correct maxServers tree (tree i) keys ops
  := by
  induction ops generalizing m keys with
  | nil => exact h
  | cons op ops ih =>
      have hroot : treeOf maxServers tree op.key = tree i :=
        congrArg tree (hops op List.mem_cons_self)
      have hops' : ∀ op ∈ ops, op.key.tmod maxServers = i := fun op hop =>
        hops op (List.mem_cons_of_mem _ hop)
      rw [← hroot] at h ih ⊢
      cases op with
      | ins key new =>
          refine ⟨h, fun hnew => ?_⟩
          obtain ⟨m', hins, hm'⟩ := h.listInsFfwd hnew
          exact ⟨m', hins, ih hm' hops'⟩
      | del key =>
          refine ⟨h, ?_⟩
          obtain ⟨m', hdel, hm'⟩ := h.listDelFfwd
          exact ⟨m', hdel, ih hm' hops'⟩
      | find key => exact ⟨h, h.listFindFfwd, ih h hops'⟩

theorem Memory.Represents.initThen
    {keys : Finset Int} {P : Memory Addr → Finset Int → Prop} (h : m.Represents root keys)
    (hP : ∀ m keys, m.Represents root keys → P m keys) (draws : List (Int × Addr)) :
  m.InitThen root keys P draws
  := by
  induction draws generalizing m keys with
  | nil => exact hP m keys h
  | cons draw draws ih =>
      intro hnew
      obtain ⟨l, hordered, rfl⟩ := h
      obtain ⟨m', hins, hm'⟩ := hordered.insertBelow draw.1 hnew
      exact ⟨m', hins, ih hm'.represents⟩

/-- A root with the largest value, and nothing below it. -/
theorem represents_root (m : Memory Addr) (root : Addr) :
  (rluNewNode m root intMax).Represents root ∅
  := by
  refine ⟨[], ⟨?_, List.Pairwise.nil, List.not_mem_nil, ?_⟩, rfl⟩
  · simp only [rluNewNode, Function.update_self]
    exact .nil
  · intro a ha
    obtain rfl := List.mem_singleton.mp ha
    exact Finset.mem_insert_self _ _

/-- The tree of a server, filled with the keys that are drawn for it: along every sequence of
operations on such keys, they answer as those of a set do, and the tree stays a search tree. -/
theorem tree_refines_set
    (m : Memory Addr) (i : Int) (draws : List (Int × Addr)) (ops : List (TreeOp Addr))
    (hops : ∀ op ∈ ops, op.key.tmod maxServers = i) :
  (rluNewNode m (tree i) intMax).InitThen (tree i) ∅
    (fun m keys => m.Correct maxServers tree (tree i) keys ops) draws
  := by
  apply (represents_root m (tree i)).initThen
  intro m keys h
  exact h.correct maxServers tree i ops hops

end Runs

/-- On the keys of the server `1` of four: the key `9` is deleted while its node has two
children, and then `17`, whose successor is below its right child. -/
theorem tree_refines_set_twoChildren :
  let ops : List (TreeOp Nat) :=
    [.ins 29 13, .ins 21 14, .del 9, .find 5, .ins 25 10, .del 17, .find 21]
  (∀ op ∈ ops, op.key.tmod 4 = 1) ∧
    (rluNewNode ⟨fun _ => 0, fun _ _ => none, ∅⟩ 1 intMax).InitThen 1 ∅
      (fun m keys => m.Correct 4 Int.toNat 1 keys ops) [(9, 10), (5, 11), (17, 12)]
  := by
  refine ⟨by decide, ?_⟩
  apply tree_refines_set 4 Int.toNat _ 1
  decide

end Micro
