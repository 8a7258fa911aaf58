import Ffwd.Lib.Path
import Ffwd.Micro.Tree

/-!
# The skip list

The skip list of the micro-benchmarks: a ring of nodes for every level, all through the header,
with the keys in increasing order. An operation walks down the levels, remembers in `update`
the last node before the key on every level, and links a node in or out behind these.
`Levels` says that the ring of a level has those nodes of the ring of the lowest level whose
height reaches it.
-/

namespace Micro

open Linked

variable {Addr : Type} [DecidableEq Addr]

/-! ### The operations -/

structure SkipList (Addr : Type) where
  key : Addr → Int
  value : Addr → Int
  forward : Addr → Nat → Addr
  header : Addr
  level : Nat
  used : Finset Addr

/-- `a->forward[i] = b` -/
def setForward (forward : Addr → Nat → Addr) (a : Addr) (i : Nat) (b : Addr) : Addr → Nat → Addr :=
  Function.update forward a (Function.update (forward a) i b)

/-- The level of a new node, for the outcomes of `rand() < RAND_MAX / 2`. -/
def randLevel (levelmax : Nat) (level : Nat) : List Bool → Nat
  | true :: coins => if level < levelmax then randLevel levelmax (level + 1) coins else level
  | _ => level

def skiplistInit (s : SkipList Addr) (levelmax : Nat) (header : Addr) : SkipList Addr where
  key := Function.update s.key header intMax
  value := s.value
  forward := Function.update s.forward header
    (fun i => if i ≤ levelmax then header else s.forward header i)
  header := header
  level := 1
  used := insert header s.used

/-- The loop through the levels from `i` down to `1`: the last node before the key on the
lowest level, and on every level in `update`. -/
def descend (s : SkipList Addr) (key : Int) :
    Nat → Addr → (Nat → Addr) → Option (Addr × (Nat → Addr))
  | 0, x, update => some (x, update)
  | i + 1, x, update => do
      let x ← walk (s.forward · (i + 1)) (fun a => s.key a < key) s.used.card x
      descend s key i x (Function.update update (i + 1) x)

/-- The loop that puts the node `x` behind those of `update`, on the levels up to `i`. -/
def linkNode (update : Nat → Addr) (x : Addr) :
    Nat → (Addr → Nat → Addr) → (Addr → Nat → Addr)
  | 0, forward => forward
  | i + 1, forward =>
      let forward := linkNode update x i forward
      let forward := setForward forward x (i + 1) (forward (update (i + 1)) (i + 1))
      setForward forward (update (i + 1)) (i + 1) x

/-- The loop that takes the node `x` out from behind those of `update`, on `n` levels from `i`
on, up to the first that does not have it there. -/
def unlinkNode (update : Nat → Addr) (x : Addr) :
    Nat → Nat → (Addr → Nat → Addr) → (Addr → Nat → Addr)
  | 0, _, forward => forward
  | n + 1, i, forward =>
      if forward (update i) i ≠ x then forward
      else unlinkNode update x n (i + 1) (setForward forward (update i) i (forward x i))

/-- The loop that lowers the level of the list. -/
def lowerLevel (forward : Addr → Nat → Addr) (header : Addr) : Nat → Nat
  | 0 => 0
  | 1 => 1
  | i + 2 => if forward header (i + 2) = header then lowerLevel forward header (i + 1) else i + 2

/-- The new node is at the address `new`; `update` is the array on the stack, as it is found. -/
def skiplistInsert (s : SkipList Addr) (levelmax : Nat) (update : Nat → Addr) (coins : List Bool)
    (new : Addr) (key value : Int) : Option (SkipList Addr × Int) := do
  let (x, update) ← descend s key s.level s.header update
  let x := s.forward x 1
  if key = s.key x then
    return ({ s with value := Function.update s.value x value }, 0)
  else
    let level := randLevel levelmax 1 coins
    let update := fun i => if s.level < i ∧ i ≤ level then s.header else update i
    return ({ s with
      level := if level > s.level then level else s.level
      key := Function.update s.key new key
      value := Function.update s.value new value
      forward := linkNode update new level s.forward
      used := insert new s.used }, 0)

def skiplistSearch (s : SkipList Addr) (key : Int) : Option (Option Addr) := do
  let (x, _) ← descend s key s.level s.header (fun _ => s.header)
  if s.key (s.forward x 1) = key then
    return some (s.forward x 1)
  else
    return none

def skiplistDelete (s : SkipList Addr) (update : Nat → Addr) (key : Int) :
    Option (SkipList Addr × Int) := do
  let (x, update) ← descend s key s.level s.header update
  let x := s.forward x 1
  if s.key x = key then
    let forward := unlinkNode update x s.level 1 s.forward
    return ({ s with
      forward := forward
      level := lowerLevel forward s.header s.level
      used := s.used.erase x }, 0)
  else
    return (s, 1)

/-! ### Writes on one level -/

theorem setForward_at (forward : Addr → Nat → Addr) (a b : Addr) (i j : Nat) :
  (setForward forward a i b · j)
    = if j = i then Function.update (forward · i) a b else (forward · j)
  := by
  funext c
  by_cases hc : c = a
  · subst hc
    by_cases hj : j = i
    · subst hj
      simp [setForward]
    · simp [setForward, hj]
  · by_cases hj : j = i
    · subst hj
      simp [setForward, hc]
    · simp [setForward, hc, hj]

theorem linkNode_at (update : Nat → Addr) (x : Addr) (n i : Nat) (forward : Addr → Nat → Addr) :
  (linkNode update x n forward · i)
    = if 1 ≤ i ∧ i ≤ n then
        Function.update (Function.update (forward · i) x (forward (update i) i)) (update i) x
      else (forward · i)
  := by
  induction n with
  | zero =>
      rw [linkNode, if_neg (by omega)]
  | succ n ih =>
      rw [linkNode, setForward_at]
      by_cases hi : i = n + 1
      · subst hi
        rw [if_neg (by omega)] at ih
        have hvalue : ∀ a, linkNode update x n forward a (n + 1) = forward a (n + 1) := congrFun ih
        rw [if_pos rfl, if_pos (by omega), setForward_at, if_pos rfl, hvalue, ih]
      · rw [if_neg hi, setForward_at, if_neg hi, ih]
        by_cases hn : 1 ≤ i ∧ i ≤ n
        · rw [if_pos hn, if_pos (by omega)]
        · rw [if_neg hn, if_neg (by omega)]

/-- The node is behind those of `update` on the levels up to `h`. -/
theorem unlinkNode_at
    {update : Nat → Addr} {x : Addr} {n i h : Nat} {forward : Addr → Nat → Addr} (hh : i ≤ h + 1)
    (hn : h < i + n) (hlinked : ∀ j, i ≤ j → j ≤ h → forward (update j) j = x)
    (hunlinked : h + 1 < i + n → forward (update (h + 1)) (h + 1) ≠ x) (j : Nat) :
  (unlinkNode update x n i forward · j)
    = if i ≤ j ∧ j ≤ h then Function.update (forward · j) (update j) (forward x j)
      else (forward · j)
  := by
  induction n generalizing i forward with
  | zero => rw [unlinkNode, if_neg (by omega)]
  | succ n ih =>
      rw [unlinkNode]
      by_cases hi : i ≤ h
      · rw [if_neg (by rw [hlinked i (Nat.le_refl i) hi]; exact fun hne => hne rfl)]
        have hother : ∀ a k, i + 1 ≤ k →
            setForward forward (update i) i (forward x i) a k = forward a k := by
          intro a k hk
          have := congrFun (setForward_at forward (update i) (forward x i) i k) a
          rw [if_neg (by omega)] at this
          exact this
        rw [ih (by omega) (by omega)]
        · rw [setForward_at]
          by_cases hj : j = i
          · subst hj
            rw [if_neg (by omega), if_pos rfl, if_pos (by omega)]
          · rw [if_neg hj]
            by_cases hj' : i + 1 ≤ j ∧ j ≤ h
            · rw [if_pos hj', if_pos (by omega), hother x j hj'.1]
            · rw [if_neg hj', if_neg (by omega)]
        · intro k hk hkh
          rw [hother _ k hk]
          exact hlinked k (by omega) hkh
        · intro hlt
          rw [hother _ _ (by omega)]
          exact hunlinked (by omega)
      · obtain rfl : i = h + 1 := by omega
        rw [if_pos (hunlinked (by omega)), if_neg (by omega)]

theorem lowerLevel_spec (forward : Addr → Nat → Addr) (header : Addr) {n : Nat} (hn : 1 ≤ n) :
  1 ≤ lowerLevel forward header n ∧ lowerLevel forward header n ≤ n ∧
    (∀ i, lowerLevel forward header n < i → i ≤ n → forward header i = header) ∧
    (lowerLevel forward header n = 1 ∨
      forward header (lowerLevel forward header n) ≠ header)
  := by
  induction n with
  | zero => omega
  | succ n ih =>
      cases n with
      | zero => exact ⟨Nat.le_refl 1, Nat.le_refl 1, fun i hi hi' => by simp [lowerLevel] at hi; omega, .inl rfl⟩
      | succ n =>
          rw [lowerLevel]
          by_cases hempty : forward header (n + 2) = header
          · rw [if_pos hempty]
            obtain ⟨hpos, hle, hlowered, htop⟩ := ih (by omega)
            refine ⟨hpos, by omega, ?_, htop⟩
            intro i hi hi'
            by_cases hlast : i = n + 2
            · rw [hlast, hempty]
            · exact hlowered i hi (by omega)
          · rw [if_neg hempty]
            exact ⟨by omega, by omega, fun i hi hi' => by omega, .inr hempty⟩

theorem randLevel_bounds {levelmax level : Nat} (h : level ≤ levelmax) (coins : List Bool) :
  level ≤ randLevel levelmax level coins ∧ randLevel levelmax level coins ≤ levelmax
  := by
  induction coins generalizing level with
  | nil => exact ⟨Nat.le_refl level, h⟩
  | cons coin coins ih =>
      cases coin with
      | false => exact ⟨Nat.le_refl level, h⟩
      | true =>
          rw [randLevel]
          by_cases hlt : level < levelmax
          · rw [if_pos hlt]
            have := @ih (level + 1) hlt
            omega
          · rw [if_neg hlt]
            exact ⟨Nat.le_refl level, h⟩

/-! ### The rings -/

/-- The ring of a level has the nodes of the list whose height reaches it. -/
structure SkipList.Levels (s : SkipList Addr) (levelmax : Nat) (l : List Addr)
    (height : Addr → Nat) : Prop where
  rings : ∀ i, 1 ≤ i → i ≤ levelmax →
    Path (s.forward · i) s.header (l.filter (i ≤ height ·)) s.header
  increasing : l.Pairwise (fun a b => s.key a < s.key b)
  below : ∀ a ∈ l, s.key a < intMax
  header : s.key s.header = intMax
  heights : ∀ a ∈ l, 1 ≤ height a ∧ height a ≤ s.level
  level : 1 ≤ s.level ∧ s.level ≤ levelmax
  top : s.level = 1 ∨ ∃ a ∈ l, height a = s.level
  used : ∀ a ∈ s.header :: l, a ∈ s.used

variable {s : SkipList Addr} {levelmax : Nat} {l : List Addr} {height : Addr → Nat}

omit [DecidableEq Addr] in
theorem SkipList.Levels.nodup (h : s.Levels levelmax l height) :
  (s.header :: l).Nodup
  := by
  rw [List.nodup_cons]
  refine ⟨fun hmem => ?_, ?_⟩
  · have := h.below _ hmem
    rw [h.header] at this
    exact lt_irrefl _ this
  · apply h.increasing.imp
    rintro a b hlt rfl
    exact lt_irrefl _ hlt

theorem SkipList.Levels.length_le (h : s.Levels levelmax l height) :
  l.length ≤ s.used.card
  := by
  rw [← List.toFinset_card_of_nodup (List.nodup_cons.mp h.nodup).2]
  apply Finset.card_le_card
  intro a ha
  apply h.used a (List.mem_cons_of_mem _ (List.mem_toFinset.mp ha))

omit [DecidableEq Addr] in
/-- The nodes before a key and those from it on. -/
theorem SkipList.Levels.split (h : s.Levels levelmax l height) (key : Int) :
  ∃ l₁ l₂, l = l₁ ++ l₂ ∧ (∀ a ∈ l₁, s.key a < key) ∧ ∀ a ∈ l₂, key ≤ s.key a
  := by
  have hl := List.takeWhile_append_dropWhile (p := fun a => decide (s.key a < key)) (l := l)
  refine ⟨_, _, hl.symm, ?_, ?_⟩
  · intro a ha
    simpa using List.mem_takeWhile_imp ha
  · have hincreasing := h.increasing
    rw [← hl, List.pairwise_append] at hincreasing
    have hhead := List.head?_dropWhile_not (fun a => decide (s.key a < key)) l
    cases hdrop : l.dropWhile (fun a => decide (s.key a < key)) with
    | nil => simp
    | cons b l₂ =>
        rw [hdrop] at hincreasing hhead
        have hb : key ≤ s.key b := by simpa using hhead
        intro a ha
        rcases List.mem_cons.mp ha with rfl | ha
        · exact hb
        · exact le_of_lt (lt_of_le_of_lt hb ((List.pairwise_cons.mp hincreasing.2.1).1 a ha))

section Descend

variable {l₁ l₂ : List Addr} {key : Int}

/-- The last node before the key on a level. -/
def SkipList.pred (s : SkipList Addr) (l₁ : List Addr) (height : Addr → Nat) (i : Nat) : Addr :=
  last s.header (l₁.filter (i ≤ height ·))

/-- On a level, the walk from a node before the key ends at the last such node. -/
theorem SkipList.Levels.walk_eq
    {i : Nat} {x : Addr} (h : s.Levels levelmax (l₁ ++ l₂) height) (hkey : key < intMax)
    (hl₁ : ∀ a ∈ l₁, s.key a < key) (hl₂ : ∀ a ∈ l₂, key ≤ s.key a) (hi : 1 ≤ i)
    (hlevel : i ≤ levelmax) (hx : x ∈ s.header :: l₁.filter (i ≤ height ·)) :
  walk (s.forward · i) (fun a => s.key a < key) s.used.card x = some (s.pred l₁ height i)
  := by
  have hring := h.rings i hi hlevel
  have hlength := h.length_le
  rw [List.filter_append] at hring
  rw [List.length_append] at hlength
  apply walk_eq_of_mem hring hx
  · have := l₁.length_filter_le (i ≤ height ·)
    omega
  · intro a ha
    exact decide_eq_true (hl₁ a (List.mem_of_mem_filter ha))
  · rw [decide_eq_false_iff_not, not_lt]
    cases hfilter : l₂.filter (i ≤ height ·) with
    | nil =>
        rw [List.head?_nil, Option.getD_none, h.header]
        exact le_of_lt hkey
    | cons a l =>
        apply hl₂ a
        apply List.mem_of_mem_filter (p := fun a => decide (i ≤ height a))
        rw [hfilter]
        exact List.mem_cons_self

omit [DecidableEq Addr] in
theorem SkipList.pred_mem (s : SkipList Addr) (l₁ : List Addr) (height : Addr → Nat) (i : Nat) :
  s.pred l₁ height i ∈ s.header :: l₁.filter (i ≤ height ·)
  := last_mem

/-- The loop through the levels finds the last node before the key on each of them. -/
theorem SkipList.Levels.descend_eq
    {i : Nat} {x : Addr} (h : s.Levels levelmax (l₁ ++ l₂) height) (hkey : key < intMax)
    (hl₁ : ∀ a ∈ l₁, s.key a < key) (hl₂ : ∀ a ∈ l₂, key ≤ s.key a)
    (hi : i ≤ levelmax) (hx : x ∈ s.header :: l₁.filter (i ≤ height ·)) (update : Nat → Addr) :
  ∃ y update', descend s key i x update = some (y, update') ∧
    (1 ≤ i → y = s.pred l₁ height 1) ∧
    (∀ j, 1 ≤ j → j ≤ i → update' j = s.pred l₁ height j) ∧ ∀ j, i < j → update' j = update j
  := by
  induction i generalizing x update with
  | zero => exact ⟨x, update, rfl, by omega, by omega, fun _ _ => rfl⟩
  | succ i ih =>
      have hmem : s.pred l₁ height (i + 1) ∈ s.header :: l₁.filter (i ≤ height ·) := by
        rcases List.mem_cons.mp (s.pred_mem l₁ height (i + 1)) with hp | hp
        · rw [hp]
          exact List.mem_cons_self
        · rw [List.mem_filter, decide_eq_true_iff] at hp
          apply List.mem_cons_of_mem
          rw [List.mem_filter, decide_eq_true_iff]
          exact ⟨hp.1, by omega⟩
      obtain ⟨y, update', hdescend, hy, hupdate, hrest⟩ :=
        ih (by omega) hmem (Function.update update (i + 1) (s.pred l₁ height (i + 1)))
      refine ⟨y, update', ?_, ?_, ?_, ?_⟩
      · rw [descend, h.walk_eq hkey hl₁ hl₂ (by omega) hi hx]
        exact hdescend
      · intro _
        by_cases hzero : i = 0
        · subst hzero
          cases hdescend
          rfl
        · exact hy (by omega)
      · intro j hj hji
        by_cases hlast : j = i + 1
        · subst hlast
          rw [hrest _ (Nat.lt_succ_self i), Function.update_self]
        · exact hupdate j hj (by omega)
      · intro j hj
        rw [hrest j (by omega), Function.update_of_ne (by omega)]

omit [DecidableEq Addr] in
/-- The node behind the last one before the key. -/
theorem SkipList.Levels.forward_pred
    {i : Nat} (h : s.Levels levelmax (l₁ ++ l₂) height) (hi : 1 ≤ i) (hlevel : i ≤ levelmax) :
  s.forward (s.pred l₁ height i) i = ((l₂.filter (i ≤ height ·)).head?.getD s.header)
  := by
  have hring := h.rings i hi hlevel
  rw [List.filter_append, Path.append_iff] at hring
  exact hring.1.next_last

end Descend

/-! ### Linking a node in -/

section Link

variable {l₁ l₂ : List Addr} {key : Int} {new : Addr}

omit [DecidableEq Addr] in
theorem SkipList.Levels.pred_eq_header
    {i : Nat} (h : s.Levels levelmax (l₁ ++ l₂) height) (hi : s.level < i) :
  s.pred l₁ height i = s.header
  := by
  have hempty : l₁.filter (i ≤ height ·) = [] := by
    rw [List.filter_eq_nil_iff]
    intro a ha
    have := (h.heights a (List.mem_append_left l₂ ha)).2
    simp only [decide_eq_true_eq]
    omega
  rw [SkipList.pred, hempty, last_nil]

theorem filter_update_height {v i : Nat} (hnew : new ∉ l) :
  l.filter (i ≤ Function.update height new v ·) = l.filter (i ≤ height ·)
  := by
  apply List.filter_congr
  intro a ha
  rw [Function.update_of_ne]
  rintro rfl
  exact hnew ha

theorem SkipList.Levels.link
    {level : Nat} (h : s.Levels levelmax (l₁ ++ l₂) height) (update : Nat → Addr)
    (hkey : key < intMax) (hl₁ : ∀ a ∈ l₁, s.key a < key) (hl₂ : ∀ a ∈ l₂, key < s.key a)
    (hnew : new ∉ s.used) (hlevel : 1 ≤ level ∧ level ≤ levelmax)
    (hupdate : ∀ i, 1 ≤ i → i ≤ level → update i = s.pred l₁ height i) (value : Addr → Int) :
  SkipList.Levels { s with
      level := if level > s.level then level else s.level
      key := Function.update s.key new key
      value := value
      forward := linkNode update new level s.forward
      used := insert new s.used } levelmax (l₁ ++ new :: l₂) (Function.update height new level)
  := by
  have hne : ∀ a ∈ s.header :: (l₁ ++ l₂), a ≠ new := by
    rintro a ha rfl
    exact hnew (h.used a ha)
  have hnew₁ : new ∉ l₁ := fun hmem => hne new (by simp [hmem]) rfl
  have hnew₂ : new ∉ l₂ := fun hmem => hne new (by simp [hmem]) rfl
  have hkeys : ∀ a ∈ s.header :: (l₁ ++ l₂), Function.update s.key new key a = s.key a := by
    intro a ha
    exact Function.update_of_ne (hne a ha) _ _
  constructor
  · intro i hi hi'
    have hring := h.rings i hi hi'
    rw [List.filter_append] at hring
    rw [List.filter_append, filter_update_height hnew₁, List.filter_cons, Function.update_self,
      filter_update_height hnew₂]
    show Path (fun a => linkNode update new level s.forward a i) s.header _ s.header
    rw [linkNode_at]
    by_cases hle : i ≤ level
    · rw [if_pos ⟨hi, hle⟩, if_pos (decide_eq_true hle), hupdate i hi hle]
      have hsub : (s.header :: (l₁.filter (i ≤ height ·) ++ l₂.filter (i ≤ height ·))).Sublist
          (s.header :: (l₁ ++ l₂)) :=
        (List.filter_sublist.append List.filter_sublist).cons_cons _
      apply hring.insert (List.Nodup.sublist hsub h.nodup)
      intro hmem
      exact hne new (hsub.subset hmem) rfl
    · rw [if_neg (by omega), if_neg (by rw [decide_eq_true_iff]; exact hle)]
      exact hring
  · have hincreasing := List.pairwise_append.mp h.increasing
    show List.Pairwise (fun a b => Function.update s.key new key a < Function.update s.key new key b) _
    rw [List.pairwise_append, List.pairwise_cons]
    refine ⟨?_, ⟨?_, ?_⟩, ?_⟩
    · apply hincreasing.1.imp_of_mem
      intro a b ha hb hab
      rw [hkeys a (by simp [ha]), hkeys b (by simp [hb])]
      exact hab
    · intro b hb
      rw [Function.update_self, hkeys b (by simp [hb])]
      exact hl₂ b hb
    · apply hincreasing.2.1.imp_of_mem
      intro a b ha hb hab
      rw [hkeys a (by simp [ha]), hkeys b (by simp [hb])]
      exact hab
    · intro a ha b hb
      rw [hkeys a (by simp [ha])]
      rcases List.mem_cons.mp hb with rfl | hb
      · rw [Function.update_self]
        exact hl₁ a ha
      · rw [hkeys b (by simp [hb])]
        exact hincreasing.2.2 a ha b hb
  · intro a ha
    show Function.update s.key new key a < intMax
    rw [List.mem_append, List.mem_cons] at ha
    by_cases heq : a = new
    · rw [heq, Function.update_self]
      exact hkey
    · have hmem : a ∈ l₁ ++ l₂ := by
        rw [List.mem_append]
        tauto
      rw [hkeys a (List.mem_cons_of_mem _ hmem)]
      exact h.below a hmem
  · exact (hkeys s.header List.mem_cons_self).trans h.header
  · intro a ha
    show 1 ≤ Function.update height new level a ∧ Function.update height new level a
      ≤ if level > s.level then level else s.level
    rw [List.mem_append, List.mem_cons] at ha
    by_cases heq : a = new
    · rw [heq, Function.update_self]
      split <;> omega
    · have := h.heights a (by rw [List.mem_append]; tauto)
      rw [Function.update_of_ne heq]
      split <;> omega
  · have := h.level
    show 1 ≤ (if level > s.level then level else s.level) ∧
      (if level > s.level then level else s.level) ≤ levelmax
    split <;> omega
  · show (if level > s.level then level else s.level) = 1 ∨ ∃ a ∈ l₁ ++ new :: l₂,
      Function.update height new level a = if level > s.level then level else s.level
    split
    · exact .inr ⟨new, by simp, Function.update_self _ _ _⟩
    · rcases h.top with htop | ⟨a, ha, htop⟩
      · exact .inl htop
      · refine .inr ⟨a, ?_, ?_⟩
        · simp only [List.mem_append, List.mem_cons] at ha ⊢
          tauto
        · rw [Function.update_of_ne (hne a (List.mem_cons_of_mem _ ha)), htop]
  · intro a ha
    have hused := h.used a
    show a ∈ insert new s.used
    rw [Finset.mem_insert]
    simp only [List.mem_cons, List.mem_append] at ha hused
    tauto

end Link

/-! ### Linking a node out -/

section Unlink

variable {l₁ l₂ : List Addr} {x : Addr}

omit [DecidableEq Addr] in
theorem SkipList.Levels.notMem_rest (h : s.Levels levelmax (l₁ ++ x :: l₂) height) :
  x ∉ s.header :: (l₁ ++ l₂)
  := by
  have hnodup := h.nodup
  intro hmem
  grind

/-- The writes of the loop that takes a node out. -/
theorem SkipList.Levels.unlinkNode_eq
    {update : Nat → Addr} (h : s.Levels levelmax (l₁ ++ x :: l₂) height)
    (hupdate : ∀ i, 1 ≤ i → i ≤ s.level → update i = s.pred l₁ height i) (i : Nat) :
  (unlinkNode update x s.level 1 s.forward · i)
    = if 1 ≤ i ∧ i ≤ height x then Function.update (s.forward · i) (update i) (s.forward x i)
      else (s.forward · i)
  := by
  have hx := h.heights x (by simp)
  have hlevel := h.level
  apply unlinkNode_at (by omega) (by omega)
  · intro j hj hjx
    rw [hupdate j hj (by omega), h.forward_pred hj (by omega), List.filter_cons,
      if_pos (decide_eq_true hjx)]
    rfl
  · intro hlt heq
    rw [hupdate _ (by omega) (by omega), h.forward_pred (by omega) (by omega), List.filter_cons,
      if_neg (by simp)] at heq
    apply h.notMem_rest
    rw [← heq]
    cases hfilter : l₂.filter (height x + 1 ≤ height ·) with
    | nil => simp
    | cons a l =>
        have ha : a ∈ l₂ := by
          apply List.mem_of_mem_filter (p := fun a => decide (height x + 1 ≤ height a))
          rw [hfilter]
          exact List.mem_cons_self
        simp [ha]

theorem SkipList.Levels.unlink
    {update : Nat → Addr} (h : s.Levels levelmax (l₁ ++ x :: l₂) height)
    (hupdate : ∀ i, 1 ≤ i → i ≤ s.level → update i = s.pred l₁ height i) :
  SkipList.Levels { s with
      forward := unlinkNode update x s.level 1 s.forward
      level := lowerLevel (unlinkNode update x s.level 1 s.forward) s.header s.level
      used := s.used.erase x } levelmax (l₁ ++ l₂) height
  := by
  have hx := h.heights x (by simp)
  have hlevel := h.level
  have hsub : (l₁ ++ l₂).Sublist (l₁ ++ x :: l₂) := by simp
  have hnodup := h.nodup
  have hx_notMem := h.notMem_rest
  have hrings : ∀ i, 1 ≤ i → i ≤ levelmax →
      Path (unlinkNode update x s.level 1 s.forward · i) s.header
        ((l₁ ++ l₂).filter (i ≤ height ·)) s.header := by
    intro i hi hi'
    have hring := h.rings i hi hi'
    rw [List.filter_append, List.filter_cons] at hring
    rw [List.filter_append]
    rw [h.unlinkNode_eq hupdate]
    by_cases hle : i ≤ height x
    · rw [if_pos (decide_eq_true hle)] at hring
      rw [if_pos ⟨hi, hle⟩, hupdate i hi (by omega)]
      apply hring.remove
      apply List.Nodup.sublist _ hnodup
      apply List.Sublist.cons_cons
      apply List.filter_sublist.append
      exact List.filter_sublist.cons_cons x
    · rw [if_neg (by rw [decide_eq_true_iff]; exact hle)] at hring
      rw [if_neg (by omega)]
      exact hring
  have hheader : ∀ i, s.header ∉ (l₁ ++ l₂).filter (i ≤ height ·) := by
    intro i hmem
    exact (List.nodup_cons.mp hnodup).1 (hsub.subset (List.mem_of_mem_filter hmem))
  obtain ⟨hpos, hle, hlowered, htop⟩ :=
    lowerLevel_spec (unlinkNode update x s.level 1 s.forward) s.header hlevel.1
  have hbound : ∀ a ∈ l₁ ++ l₂,
      height a ≤ lowerLevel (unlinkNode update x s.level 1 s.forward) s.header s.level := by
    intro a ha
    have hheight := h.heights a (hsub.subset ha)
    by_contra hlt
    have hi := hlowered (height a) (Nat.lt_of_not_le hlt) hheight.2
    have hempty := ((hrings (height a) hheight.1 (by omega)).eq_nil_iff (hheader _)).mpr hi
    rw [List.filter_eq_nil_iff] at hempty
    exact hempty a ha (decide_eq_true (Nat.le_refl _))
  constructor
  · exact hrings
  · exact h.increasing.sublist hsub
  · intro a ha
    exact h.below a (hsub.subset ha)
  · exact h.header
  · intro a ha
    exact ⟨(h.heights a (hsub.subset ha)).1, hbound a ha⟩
  · exact ⟨hpos, Nat.le_trans hle hlevel.2⟩
  · rcases htop with htop | htop
    · exact .inl htop
    · right
      have hring := hrings _ hpos (Nat.le_trans hle hlevel.2)
      rw [ne_eq, ← hring.eq_nil_iff (hheader _)] at htop
      obtain ⟨a, ha⟩ := List.exists_mem_of_ne_nil _ htop
      rw [List.mem_filter, decide_eq_true_iff] at ha
      refine ⟨a, ha.1, Nat.le_antisymm ?_ ha.2⟩
      exact hbound a ha.1
  · intro a ha
    show a ∈ s.used.erase x
    rw [Finset.mem_erase]
    refine ⟨?_, h.used a ((hsub.cons_cons _).subset ha)⟩
    rintro rfl
    exact hx_notMem ha

end Unlink

/-! ### The map -/

/-- The rings of the levels are increasing and closed, each has some of the nodes of the one
below, the level of the list is that of the highest ring with a node, or `1`, and the lowest
ring has a node for every key of the map, with its value. -/
def SkipList.Represents (s : SkipList Addr) (levelmax : Nat) (map : Int → Option Int) : Prop :=
  ∃ lists : Nat → List Addr,
    (∀ i, 1 ≤ i → i ≤ levelmax → Path (s.forward · i) s.header (lists i) s.header ∧
      (lists i).Pairwise (fun a b => s.key a < s.key b)) ∧
    (∀ i, 1 ≤ i → i < levelmax → (lists (i + 1)).Sublist (lists i)) ∧
    (1 ≤ s.level ∧ s.level ≤ levelmax ∧ (∀ i, s.level < i → i ≤ levelmax → lists i = []) ∧
      (s.level = 1 ∨ lists s.level ≠ [])) ∧
    ∀ k v, map k = some v ↔ ∃ a ∈ lists 1, s.key a = k ∧ s.value a = v

/-- The nodes of the list have the keys of the map, with their values. -/
structure SkipList.Holds (s : SkipList Addr) (levelmax : Nat) (map : Int → Option Int)
    (l : List Addr) (height : Addr → Nat) : Prop where
  levels : s.Levels levelmax l height
  entries : ∀ k v, map k = some v ↔ ∃ a ∈ l, s.key a = k ∧ s.value a = v

variable {map : Int → Option Int}

omit [DecidableEq Addr] in
theorem SkipList.Holds.represents (h : s.Holds levelmax map l height) :
  s.Represents levelmax map
  := by
  have hlevel := h.levels.level
  refine ⟨fun i => l.filter (i ≤ height ·), ?_, ?_, ⟨hlevel.1, hlevel.2, ?_, ?_⟩, ?_⟩
  · intro i hi hi'
    exact ⟨h.levels.rings i hi hi', h.levels.increasing.sublist List.filter_sublist⟩
  · intro i hi hi'
    have hfilter : l.filter (i + 1 ≤ height ·) =
        (l.filter (i ≤ height ·)).filter (i + 1 ≤ height ·) := by
      rw [List.filter_filter]
      apply List.filter_congr
      intro a ha
      rw [← Bool.decide_and, decide_eq_decide]
      omega
    show (l.filter (i + 1 ≤ height ·)).Sublist _
    rw [hfilter]
    exact List.filter_sublist
  · intro i hi hi'
    rw [List.filter_eq_nil_iff]
    intro a ha
    have := (h.levels.heights a ha).2
    rw [decide_eq_true_iff]
    omega
  · rcases h.levels.top with htop | ⟨a, ha, htop⟩
    · exact .inl htop
    · right
      apply List.ne_nil_of_mem (a := a)
      rw [List.mem_filter, decide_eq_true_iff]
      exact ⟨ha, Nat.le_of_eq htop.symm⟩
  · have hall : l.filter (1 ≤ height ·) = l := by
      rw [List.filter_eq_self]
      intro a ha
      exact decide_eq_true (h.levels.heights a ha).1
    intro k v
    simp only [h.entries k v, hall]

omit [DecidableEq Addr] in
/-- The lowest level has all nodes. -/
theorem SkipList.Levels.pred_one {l₁ l₂ : List Addr} (h : s.Levels levelmax (l₁ ++ l₂) height) :
  s.pred l₁ height 1 = last s.header l₁
  := by
  rw [SkipList.pred, List.filter_eq_self.mpr]
  intro a ha
  exact decide_eq_true (h.heights a (List.mem_append_left l₂ ha)).1

/-- The node at which an operation arrives on the lowest level: the first that does not have a
smaller key, or the header. -/
theorem SkipList.Levels.located
    {key : Int} (h : s.Levels levelmax l height) (hkey : key < intMax) (update : Nat → Addr) :
  ∃ l₁ l₂ x update', l = l₁ ++ l₂ ∧ (∀ a ∈ l₁, s.key a < key) ∧ (∀ a ∈ l₂, key ≤ s.key a) ∧
    descend s key s.level s.header update = some (x, update') ∧
    x = last s.header l₁ ∧ s.forward x 1 = l₂.head?.getD s.header ∧
    (∀ i, 1 ≤ i → i ≤ s.level → update' i = s.pred l₁ height i)
  := by
  obtain ⟨l₁, l₂, rfl, hl₁, hl₂⟩ := h.split key
  have hlevel := h.level
  obtain ⟨x, update', hdescend, hx, hupdate, -⟩ :=
    h.descend_eq hkey hl₁ hl₂ hlevel.2 List.mem_cons_self update
  refine ⟨l₁, l₂, x, update', rfl, hl₁, hl₂, hdescend, ?_, ?_, hupdate⟩
  · rw [hx hlevel.1, h.pred_one]
  · have hall : l₂.filter (1 ≤ height ·) = l₂ := by
      rw [List.filter_eq_self]
      intro a ha
      exact decide_eq_true (h.heights a (List.mem_append_right l₁ ha)).1
    rw [hx hlevel.1, h.forward_pred (Nat.le_refl 1) (Nat.le_trans hlevel.1 hlevel.2), hall]

omit [DecidableEq Addr] in
/-- Different nodes have different keys. -/
theorem SkipList.Levels.eq_of_key
    {a b : Addr} (h : s.Levels levelmax l height) (ha : a ∈ l) (hb : b ∈ l)
    (hkey : s.key a = s.key b) :
  a = b
  := by
  have hinj : (l.map s.key).Nodup := by
    rw [List.nodup_iff_pairwise_ne, List.pairwise_map]
    exact h.increasing.imp ne_of_lt
  exact List.inj_on_of_nodup_map hinj ha hb hkey

omit [DecidableEq Addr] in
/-- The key is that of the node an operation arrives at, or smaller than those from there on. -/
theorem SkipList.Levels.cases_key
    {key : Int} {l₁ l₂ : List Addr} (h : s.Levels levelmax (l₁ ++ l₂) height)
    (hkey : key < intMax) (hl₂ : ∀ a ∈ l₂, key ≤ s.key a) :
  (∃ a l₂', l₂ = a :: l₂' ∧ s.key a = key) ∨
    (s.key (l₂.head?.getD s.header) ≠ key ∧ ∀ a ∈ l₂, key < s.key a)
  := by
  cases l₂ with
  | nil =>
      right
      refine ⟨?_, nofun⟩
      rw [List.head?_nil, Option.getD_none, h.header]
      omega
  | cons a l₂ =>
      by_cases ha : s.key a = key
      · exact .inl ⟨a, l₂, rfl, ha⟩
      · refine .inr ⟨ha, ?_⟩
        have hincreasing := (List.pairwise_append.mp h.increasing).2.1
        have hle := hl₂ a List.mem_cons_self
        intro b hb
        rcases List.mem_cons.mp hb with rfl | hb
        · omega
        · have := (List.pairwise_cons.mp hincreasing).1 b hb
          omega

omit [DecidableEq Addr] in
/-- The key is that of the node an operation arrives at, or it is not in the map. -/
theorem SkipList.Holds.cases_key
    {key : Int} {l₁ l₂ : List Addr} (h : s.Holds levelmax map (l₁ ++ l₂) height)
    (hkey : key < intMax) (hl₁ : ∀ a ∈ l₁, s.key a < key) (hl₂ : ∀ a ∈ l₂, key ≤ s.key a) :
  (∃ a l₂', l₂ = a :: l₂' ∧ s.key a = key ∧ map key = some (s.value a)) ∨
    (s.key (l₂.head?.getD s.header) ≠ key ∧ map key = none ∧ ∀ a ∈ l₂, key < s.key a)
  := by
  rcases h.levels.cases_key hkey hl₂ with ⟨a, l₂', rfl, ha⟩ | ⟨hne, hlt⟩
  · left
    refine ⟨a, l₂', rfl, ha, ?_⟩
    rw [h.entries]
    exact ⟨a, by simp, ha, rfl⟩
  · right
    refine ⟨hne, ?_, hlt⟩
    cases hmap : map key with
    | none => rfl
    | some v =>
        obtain ⟨a, ha, hk, -⟩ := (h.entries key v).mp hmap
        rcases List.mem_append.mp ha with ha | ha
        · have := hl₁ a ha
          omega
        · have := hlt a ha
          omega

/-! ### The operations on a map -/

/-- A node stays in the list; its successor is another only if the key is one between the two. -/
theorem SkipList.Holds.skiplistInsert
    {key : Int} {new : Addr} (h : s.Holds levelmax map l height) (hkey : key < intMax)
    (hnew : new ∉ s.used) (update : Nat → Addr) (coins : List Bool) (value : Int) :
  ∃ s' l' height', skiplistInsert s levelmax update coins new key value = some (s', 0) ∧
    s'.Holds levelmax (Function.update map key (some value)) l' height' ∧
    s'.header = s.header ∧ ∀ x ∈ s.header :: l, x ∈ s.header :: l' ∧ s'.key x = s.key x ∧
      (s'.forward x 1 = s.forward x 1 ∨
        (x = s.header ∨ s.key x < key) ∧ key < s.key (s.forward x 1))
  := by
  obtain ⟨l₁, l₂, x, update', rfl, hl₁, hl₂, hdescend, -, hforward, hupdate⟩ :=
    h.levels.located hkey update
  rcases h.cases_key hkey hl₁ hl₂ with ⟨a, l₂', rfl, ha, hmap⟩ | ⟨hne, hmap, hlt⟩
  · refine ⟨{ s with value := Function.update s.value a value }, l₁ ++ a :: l₂', height, ?_,
      ⟨?_, ?_⟩, rfl, fun x hx => ⟨hx, rfl, .inl rfl⟩⟩
    · rw [Micro.skiplistInsert, hdescend]
      simp [hforward, ha]
    · exact ⟨h.levels.rings, h.levels.increasing, h.levels.below, h.levels.header,
        h.levels.heights, h.levels.level, h.levels.top, h.levels.used⟩
    · intro k v
      show _ ↔ ∃ b ∈ l₁ ++ a :: l₂', s.key b = k ∧ Function.update s.value a value b = v
      by_cases hk : k = key
      · subst hk
        rw [Function.update_self, Option.some.injEq]
        constructor
        · rintro rfl
          exact ⟨a, by simp, ha, Function.update_self _ _ _⟩
        · rintro ⟨b, hb, hbk, rfl⟩
          obtain rfl := h.levels.eq_of_key hb (by simp) (hbk.trans ha.symm)
          rw [Function.update_self]
      · rw [Function.update_of_ne hk, h.entries]
        apply exists_congr
        intro b
        apply and_congr_right
        intro hb
        apply and_congr_right
        rintro rfl
        have hba : b ≠ a := by
          rintro rfl
          exact hk ha
        rw [Function.update_of_ne hba]
  · have hlevel := randLevel_bounds (Nat.le_trans h.levels.level.1 h.levels.level.2) coins
    have hlink := h.levels.link
      (fun i => if s.level < i ∧ i ≤ randLevel levelmax 1 coins then s.header else update' i)
      hkey hl₁ hlt hnew hlevel
      (by
        intro i hi hi'
        by_cases hraise : s.level < i
        · rw [if_pos ⟨hraise, hi'⟩, h.levels.pred_eq_header hraise]
        · rw [if_neg (by omega), hupdate i hi (by omega)])
      (Function.update s.value new value)
    have hold : ∀ b ∈ s.header :: (l₁ ++ l₂), b ≠ new := by
      rintro b hb rfl
      exact hnew (h.levels.used b hb)
    refine ⟨_, _, _, ?_, ⟨hlink, ?_⟩, rfl, ?_⟩
    · rw [Micro.skiplistInsert, hdescend]
      simp [hforward, hne.symm]
    · have hold : ∀ b ∈ l₁ ++ l₂, b ≠ new := fun b hb => hold b (List.mem_cons_of_mem _ hb)
      intro k v
      show _ ↔ ∃ b ∈ l₁ ++ new :: l₂, Function.update s.key new key b = k ∧
        Function.update s.value new value b = v
      have hmem : ∀ b, b ∈ l₁ ++ new :: l₂ ↔ b = new ∨ b ∈ l₁ ++ l₂ := by
        intro b
        simp only [List.mem_append, List.mem_cons]
        tauto
      have hnone : ∀ b ∈ l₁ ++ l₂, s.key b ≠ key := by
        intro b hb heq
        have := (h.entries key (s.value b)).mpr ⟨b, hb, heq, rfl⟩
        rw [hmap] at this
        cases this
      simp only [hmem, or_and_right, exists_or, exists_eq_left, Function.update_self]
      have hrest : (∃ b, b ∈ l₁ ++ l₂ ∧ Function.update s.key new key b = k ∧
          Function.update s.value new value b = v) ↔
          ∃ b ∈ l₁ ++ l₂, s.key b = k ∧ s.value b = v := by
        apply exists_congr
        intro b
        apply and_congr_right
        intro hb
        rw [Function.update_of_ne (hold b hb), Function.update_of_ne (hold b hb)]
      rw [hrest, ← h.entries]
      by_cases hk : k = key
      · subst hk
        rw [Function.update_self, hmap]
        simp
      · rw [Function.update_of_ne hk]
        simp [Ne.symm hk]
    · intro x hx
      refine ⟨?_, Function.update_of_ne (hold x hx) _ _, ?_⟩
      · simp only [List.mem_cons, List.mem_append] at hx ⊢
        tauto
      · show linkNode _ new _ s.forward x 1 = _ ∨ _
        rw [congrFun (linkNode_at _ new _ 1 s.forward) x, if_pos ⟨Nat.le_refl 1, hlevel.1⟩,
          if_neg (by have := h.levels.level; omega), hupdate 1 (Nat.le_refl 1) h.levels.level.1,
          h.levels.pred_one]
        by_cases hlast : x = last s.header l₁
        · right
          have hring := h.levels.forward_pred (Nat.le_refl 1)
            (Nat.le_trans h.levels.level.1 h.levels.level.2)
          rw [h.levels.pred_one, ← hlast] at hring
          refine ⟨?_, ?_⟩
          · rcases List.mem_cons.mp (hlast ▸ last_mem) with hx | hx
            · exact .inl hx
            · exact .inr (hl₁ x hx)
          · rw [hring]
            cases hfilter : l₂.filter (1 ≤ height ·) with
            | nil =>
                rw [List.head?_nil, Option.getD_none, h.levels.header]
                exact hkey
            | cons a l =>
                apply hlt a
                apply List.mem_of_mem_filter (p := fun a => decide (1 ≤ height a))
                rw [hfilter]
                exact List.mem_cons_self
        · left
          rw [Function.update_of_ne hlast, Function.update_of_ne (hold x hx)]

theorem SkipList.Holds.skiplistSearch
    {key : Int} (h : s.Holds levelmax map l height) (hkey : key < intMax) :
  ∃ x, skiplistSearch s key = some x ∧ x.map s.value = map key ∧ ∀ a ∈ x, s.key a = key
  := by
  obtain ⟨l₁, l₂, x, update', rfl, hl₁, hl₂, hdescend, -, hforward, -⟩ :=
    h.levels.located hkey (fun _ => s.header)
  rcases h.cases_key hkey hl₁ hl₂ with ⟨a, l₂', rfl, ha, hmap⟩ | ⟨hne, hmap, -⟩
  · refine ⟨some a, ?_, ?_, ?_⟩
    · rw [Micro.skiplistSearch, hdescend]
      simp [hforward, ha]
    · rw [hmap, Option.map_some]
    · rintro b ⟨⟩
      exact ha
  · refine ⟨none, ?_, ?_, nofun⟩
    · rw [Micro.skiplistSearch, hdescend]
      simp [hforward, hne]
    · rw [hmap, Option.map_none]

/-- A node that does not have the key stays in the list; its successor is another only if that
had the key. -/
theorem SkipList.Holds.skiplistDelete
    {key : Int} (h : s.Holds levelmax map l height) (hkey : key < intMax) (update : Nat → Addr) :
  ∃ s' l', skiplistDelete s update key = some (s', if (map key).isSome then 0 else 1) ∧
    s'.Holds levelmax (Function.update map key none) l' height ∧
    s'.header = s.header ∧ s'.key = s.key ∧
    ∀ x ∈ s.header :: l, x = s.header ∨ s.key x ≠ key → x ∈ s.header :: l' ∧
      (s'.forward x 1 = s.forward x 1 ∨ s.key (s.forward x 1) = key)
  := by
  obtain ⟨l₁, l₂, x, update', rfl, hl₁, hl₂, hdescend, -, hforward, hupdate⟩ :=
    h.levels.located hkey update
  rcases h.cases_key hkey hl₁ hl₂ with ⟨a, l₂', rfl, ha, hmap⟩ | ⟨hne, hmap, -⟩
  · have hunlink := h.levels.unlink hupdate
    refine ⟨_, _, ?_, ⟨hunlink, ?_⟩, rfl, rfl, ?_⟩
    · rw [Micro.skiplistDelete, hdescend]
      simp [hforward, ha, hmap]
    · intro k v
      show _ ↔ ∃ b ∈ l₁ ++ l₂', s.key b = k ∧ s.value b = v
      by_cases hk : k = key
      · subst hk
        rw [Function.update_self]
        refine ⟨nofun, ?_⟩
        rintro ⟨b, hb, hbk, -⟩
        have hmem : b ∈ l₁ ++ a :: l₂' := by
          simp only [List.mem_append, List.mem_cons] at hb ⊢
          tauto
        obtain rfl := h.levels.eq_of_key hmem (by simp) (hbk.trans ha.symm)
        have hnodup := (List.nodup_cons.mp h.levels.nodup).2
        exact absurd hb (List.nodup_middle.mp hnodup).notMem
      · rw [Function.update_of_ne hk, h.entries]
        apply exists_congr
        intro b
        simp only [List.mem_append, List.mem_cons]
        constructor
        · rintro ⟨hb | rfl | hb, hbk, hv⟩
          · exact ⟨.inl hb, hbk, hv⟩
          · exact absurd (hbk.symm.trans ha) hk
          · exact ⟨.inr hb, hbk, hv⟩
        · rintro ⟨hb, hbk, hv⟩
          exact ⟨by tauto, hbk, hv⟩
    · intro x hx hxkey
      have hxa : x ≠ a := by
        rintro rfl
        rcases hxkey with rfl | hne
        · exact (List.nodup_cons.mp h.levels.nodup).1 (by simp)
        · exact hne ha
      constructor
      · simp only [List.mem_cons, List.mem_append] at hx ⊢
        tauto
      · show unlinkNode update' a s.level 1 s.forward x 1 = _ ∨ _
        have hone := (h.levels.heights a (by simp)).1
        rw [congrFun (h.levels.unlinkNode_eq hupdate 1) x, if_pos ⟨Nat.le_refl 1, hone⟩]
        by_cases hpred : x = update' 1
        · right
          rw [hpred, hupdate 1 (Nat.le_refl 1) h.levels.level.1,
            h.levels.forward_pred (Nat.le_refl 1) (Nat.le_trans h.levels.level.1 h.levels.level.2),
            List.filter_cons, if_pos (decide_eq_true hone)]
          exact ha
        · left
          rw [Function.update_of_ne hpred]
  · refine ⟨s, _, ?_, ⟨h.levels, ?_⟩, rfl, rfl, fun x hx _ => ⟨hx, .inl rfl⟩⟩
    · rw [Micro.skiplistDelete, hdescend]
      simp [hforward, hne, hmap]
    · rw [Function.update_eq_self_iff.mpr hmap.symm]
      exact h.entries

/-! ### Sequences of operations -/

/-- An operation; `update` is what the array of this name contains at first, `coins` decide the
level of a new node, and `new` is its address. -/
inductive SkipListOp (Addr : Type) where
  | insert (key value : Int) (update : Nat → Addr) (coins : List Bool) (new : Addr)
  | search (key : Int)
  | delete (key : Int) (update : Nat → Addr)

def SkipListOp.key : SkipListOp Addr → Int
  | .insert key .. => key
  | .search key => key
  | .delete key _ => key

/-- Along a sequence of operations the skip list represents the map that the abstract operations
make, and every operation returns what the abstract one does. The address of a new node is not
allocated. -/
def SkipList.Correct (levelmax : Nat) (s : SkipList Addr) (map : Int → Option Int) :
    List (SkipListOp Addr) → Prop
  | [] => s.Represents levelmax map
  | .insert key value update coins new :: ops =>
      s.Represents levelmax map ∧ (new ∉ s.used →
        ∃ s', skiplistInsert s levelmax update coins new key value = some (s', 0) ∧
          s'.Correct levelmax (Function.update map key (some value)) ops)
  | .search key :: ops =>
      s.Represents levelmax map ∧
        (∃ x, skiplistSearch s key = some x ∧ x.map s.value = map key ∧
          ∀ a ∈ x, s.key a = key) ∧
        s.Correct levelmax map ops
  | .delete key update :: ops =>
      s.Represents levelmax map ∧
        ∃ s', skiplistDelete s update key = some (s', if (map key).isSome then 0 else 1) ∧
          s'.Correct levelmax (Function.update map key none) ops

theorem SkipList.Holds.correct
    (h : s.Holds levelmax map l height) (ops : List (SkipListOp Addr))
    (hops : ∀ op ∈ ops, op.key < intMax) :
  s.Correct levelmax map ops
  := by
  induction ops generalizing s map l height with
  | nil => exact h.represents
  | cons op ops ih =>
      have hkey : op.key < intMax := hops op List.mem_cons_self
      have hops' : ∀ op ∈ ops, op.key < intMax := fun op hop =>
        hops op (List.mem_cons_of_mem _ hop)
      cases op with
      | insert key value update coins new =>
          refine ⟨h.represents, fun hnew => ?_⟩
          obtain ⟨s', l', height', hinsert, hs', -⟩ :=
            h.skiplistInsert hkey hnew update coins value
          exact ⟨s', hinsert, ih hs' hops'⟩
      | search key => exact ⟨h.represents, h.skiplistSearch hkey, ih h hops'⟩
      | delete key update =>
          obtain ⟨s', l', hdelete, hs', -⟩ := h.skiplistDelete hkey update
          exact ⟨h.represents, s', hdelete, ih hs' hops'⟩

theorem holds_init (s : SkipList Addr) (header : Addr) (hlevelmax : 1 ≤ levelmax) :
  (skiplistInit s levelmax header).Holds levelmax (fun _ => none) [] (fun _ => 0)
  := by
  refine ⟨⟨?_, List.Pairwise.nil, nofun, ?_, nofun, ⟨Nat.le_refl 1, hlevelmax⟩, .inl rfl, ?_⟩, ?_⟩
  · intro i hi hi'
    show (skiplistInit s levelmax header).forward header i = header
    simp [skiplistInit, hi']
  · exact Function.update_self _ _ _
  · intro a ha
    obtain rfl := List.mem_singleton.mp ha
    exact Finset.mem_insert_self _ _
  · intro k v
    simp

/-- Along every sequence of operations, whatever levels are drawn and wherever the nodes are
allocated, the operations of the skip list answer as those of a map do, and the lists of all levels
stay sorted and contained in each other. -/
theorem skiplist_refines_map
    (levelmax : Nat) (hlevelmax : 1 ≤ levelmax) (s : SkipList Addr) (header : Addr)
    (ops : List (SkipListOp Addr)) (hops : ∀ op ∈ ops, op.key < intMax) :
  (skiplistInit s levelmax header).Correct levelmax (fun _ => none) ops
  := (holds_init s header hlevelmax).correct ops hops

/-- Nodes of the levels `2`, `3` and `1`; the highest of them is deleted, and its address is
taken again. -/
theorem skiplist_refines_map_threeLevels :
  let s : SkipList Nat := ⟨fun _ => 0, fun _ => 0, fun _ _ => 0, 0, 0, ∅⟩
  let ops : List (SkipListOp Nat) :=
    [.insert 5 50 (fun _ => 9) [true, false] 1, .insert 7 70 (fun _ => 9) [true, true, true] 2,
      .insert 3 30 (fun _ => 9) [false] 3, .delete 7 (fun _ => 9), .search 7,
      .insert 4 40 (fun _ => 9) [true] 2, .search 5]
  (∀ op ∈ ops, op.key < intMax) ∧ (skiplistInit s 3 0).Correct 3 (fun _ => none) ops
  := by
  have hops : ∀ op ∈ ([.insert 5 50 (fun _ => 9) [true, false] 1,
      .insert 7 70 (fun _ => 9) [true, true, true] 2, .insert 3 30 (fun _ => 9) [false] 3,
      .delete 7 (fun _ => 9), .search 7, .insert 4 40 (fun _ => 9) [true] 2, .search 5] :
      List (SkipListOp Nat)), op.key < intMax := by
    simp [SkipListOp.key, intMax]
  exact ⟨hops, skiplist_refines_map 3 (by decide) _ 0 _ hops⟩

end Micro
