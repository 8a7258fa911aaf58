import Ffwd.Lib.SortedPath

/-!
# Moves between two lists

Two sorted lists with a sentinel at each end, and the operation that takes the node with a key out
of one of them and puts it into the other. `Sorted` says that the lists have the given keys and no
node in common.
-/

namespace Micro

open Linked

variable {Addr : Type} [DecidableEq Addr]

/-! ### The operation -/

/-- The nodes, those that are allocated, and the heads of the two lists. -/
structure Lists (Addr : Type) where
  value : Addr → Int
  next : Addr → Addr
  null : Addr
  used : Finset Addr
  head : Int → Addr

def Lists.intMin : Int := -2147483648

def Lists.intMax : Int := 2147483647

/-- `a->next = b` -/
def Lists.setNext (m : Lists Addr) (a b : Addr) : Lists Addr :=
  { m with next := Function.update m.next a b }

/-- The loop that looks for the first node whose value is not smaller than the key: the nodes
before and behind the place, and the last value that has been read. It gives up after `n`
rounds. -/
def Lists.seek (m : Lists Addr) (key : Int) : Nat → Addr → Addr → Int → Option (Addr × Addr × Int)
  | n, prev, cur, val =>
      if cur = m.null then some (prev, cur, val)
      else if m.value cur ≥ key then some (prev, cur, m.value cur)
      else match n with
        | 0 => none
        | n + 1 => m.seek key n cur (m.next cur) (m.value cur)

/-- `val` is what the variable has before it is written. -/
def listMoveFfwd (m : Lists Addr) (val key src : Int) : Option (Lists Addr × Bool) := do
  let (prevSrc, cur, val) ←
    m.seek key m.used.card (m.head src) (m.next (m.head src)) val
  if val ≠ key then return (m, false)
  let (prevDst, nextDst, val) ←
    m.seek key m.used.card (m.head (1 - src)) (m.next (m.head (1 - src))) val
  if val = key then return (m, false)
  let m := m.setNext prevSrc (m.next cur)
  let m := m.setNext prevDst cur
  let m := m.setNext cur nextDst
  return (m, true)

/-! ### Two sorted lists -/

/-- A list between sentinels. -/
structure Lists.Chained (m : Lists Addr) (i : Int) (l : List Addr) (tail : Addr) : Prop where
  path : SortedPath m.value m.next (m.head i) l tail
  minimum : m.value (m.head i) = Lists.intMin
  maximum : m.value tail = Lists.intMax
  used : ∀ a ∈ m.head i :: (l ++ [tail]), a ∈ m.used

/-- The lists are sorted, have the given keys and no node in common; the null pointer is that of
no node. -/
def Lists.Sorted (m : Lists Addr) (keys : Int → Finset Int) : Prop :=
  m.null ∉ m.used ∧ ∃ (l : Int → List Addr) (tail : Int → Addr),
    (∀ i, i = 0 ∨ i = 1 → m.Chained i (l i) (tail i) ∧ ((l i).map m.value).toFinset = keys i) ∧
      ∀ a ∈ m.head 0 :: (l 0 ++ [tail 0]), a ∉ m.head 1 :: (l 1 ++ [tail 1])

/-- A key can be moved if it is in the source and not in the destination. -/
def Movable (keys : Int → Finset Int) (key src : Int) : Prop :=
  key ∈ keys src ∧ key ∉ keys (1 - src)

instance (keys : Int → Finset Int) (key src : Int) : Decidable (Movable keys key src) :=
  inferInstanceAs (Decidable (_ ∧ _))

/-- The key goes from the source into the destination. -/
def moved (keys : Int → Finset Int) (key src : Int) : Int → Finset Int :=
  Function.update (Function.update keys src ((keys src).erase key)) (1 - src)
    (insert key (keys (1 - src)))

/-- The keys of both lists together. -/
def union (keys : Int → Finset Int) : Multiset Int := (keys 0).val + (keys 1).val

/-- Along a sequence of calls the lists are sorted and have the same keys together; a call
succeeds if its key can be moved, and moves it, and changes nothing if it fails. -/
def Lists.Moves (total : Multiset Int) :
    Lists Addr → (Int → Finset Int) → List (Int × Int) → Prop
  | m, keys, [] => m.Sorted keys ∧ union keys = total
  | m, keys, (key, src) :: calls =>
      m.Sorted keys ∧ union keys = total ∧ ∀ val, ∃ m',
        listMoveFfwd m val key src = some (m', decide (Movable keys key src)) ∧
          if Movable keys key src then Lists.Moves total m' (moved keys key src) calls
          else m' = m ∧ Lists.Moves total m' keys calls

section Seek

variable {m : Lists Addr} {i : Int} {b e tail : Addr} {l : List Addr} {key : Int}

/-- The loop ends between the smaller values and the others. -/
theorem Lists.seek_eq
    {n : Nat} (val : Int) (h : SortedPath m.value m.next b l e) (hn : l.length ≤ n)
    (hnull : ∀ a ∈ l ++ [e], a ≠ m.null) (hb : m.value b < key) (he : key ≤ m.value e) :
  ∃ l₁ l₂, l = l₁ ++ l₂ ∧
    m.seek key n b (m.next b) val =
      some (last b l₁, l₂.head?.getD e, m.value (l₂.head?.getD e)) ∧
    m.value (last b l₁) < key ∧ key ≤ m.value (l₂.head?.getD e)
  := by
  obtain ⟨hpath, hincreasing⟩ := h
  induction l generalizing b n val with
  | nil =>
      have hnext : m.next b = e := hpath
      refine ⟨[], [], rfl, ?_, hb, he⟩
      unfold Lists.seek
      rw [hnext, if_neg (hnull e (by simp)), if_pos he]
      rfl
  | cons a l ih =>
      have hnext : m.next b = a := hpath.1
      by_cases ha : key ≤ m.value a
      · refine ⟨[], a :: l, rfl, ?_, hb, ha⟩
        unfold Lists.seek
        rw [hnext, if_neg (hnull a (by simp)), if_pos ha]
        rfl
      · obtain ⟨n, rfl⟩ : ∃ n', n = n' + 1 := ⟨n - 1, by simp at hn; omega⟩
        obtain ⟨l₁, l₂, rfl, hseek, hlt, hle⟩ := ih (n := n) (m.value a)
          (Nat.le_of_succ_le_succ hn) (fun c hc => hnull c (List.mem_cons_of_mem a hc))
          (lt_of_not_ge ha) hpath.2 (List.pairwise_cons.mp hincreasing).2
        refine ⟨a :: l₁, l₂, rfl, ?_, ?_, hle⟩
        · unfold Lists.seek
          rw [hnext, if_neg (hnull a (by simp)), if_neg ha, last_cons]
          exact hseek
        · rw [last_cons]
          exact hlt

theorem Lists.Chained.seek (h : m.Chained i l tail) (hnull : m.null ∉ m.used) (val : Int)
    (hmin : Lists.intMin < key) (hmax : key < Lists.intMax) :
  ∃ l₁ l₂, l = l₁ ++ l₂ ∧
    m.seek key m.used.card (m.head i) (m.next (m.head i)) val =
      some (last (m.head i) l₁, l₂.head?.getD tail, m.value (l₂.head?.getD tail)) ∧
    m.value (last (m.head i) l₁) < key ∧ key ≤ m.value (l₂.head?.getD tail) ∧
    (key ∈ (l.map m.value).toFinset ↔ m.value (l₂.head?.getD tail) = key)
  := by
  have hcard : l.length ≤ m.used.card := by
    have hnodup : l.Nodup := (List.nodup_cons.mp h.path.nodup_left).2
    rw [← List.toFinset_card_of_nodup hnodup]
    apply Finset.card_le_card
    intro a ha
    apply h.used
    simp [List.mem_toFinset.mp ha]
  have htail : key < m.value tail := by
    rw [h.maximum]
    exact hmax
  have hhead : m.value (m.head i) < key := by
    rw [h.minimum]
    exact hmin
  obtain ⟨l₁, l₂, rfl, hseek, hlt, hle⟩ := Lists.seek_eq val h.path hcard (by
    rintro a ha rfl
    exact hnull (h.used _ (List.mem_cons_of_mem _ ha))) hhead (le_of_lt htail)
  refine ⟨l₁, l₂, rfl, hseek, hlt, hle, ?_⟩
  rw [← h.path.mem_iff hlt hle htail, List.mem_toFinset, List.mem_map]

end Seek

section Move

variable {m : Lists Addr} {keys : Int → Finset Int} {key src : Int}

/-- A node is taken out of one list and put into another. -/
theorem Lists.Chained.relink
    {i j : Int} {l₁ l₂ r₁ r₂ : List Addr} {a tail tail' : Addr}
    (hsrc : m.Chained i (l₁ ++ a :: l₂) tail) (hdst : m.Chained j (r₁ ++ r₂) tail')
    (hdisjoint : ∀ b ∈ m.head i :: (l₁ ++ a :: l₂ ++ [tail]), b ∉ m.head j :: (r₁ ++ r₂ ++ [tail']))
    (hlt : m.value (last (m.head j) r₁) < m.value a)
    (hgt : m.value a < m.value (r₂.head?.getD tail')) :
  let m' := ((m.setNext (last (m.head i) l₁) (m.next a)).setNext
    (last (m.head j) r₁) a).setNext a (r₂.head?.getD tail')
  m'.Chained i (l₁ ++ l₂) tail ∧ m'.Chained j (r₁ ++ a :: r₂) tail'
  := by
  intro m'
  have hlast : last (m.head i) l₁ ∈ m.head i :: l₁ := last_mem
  have hlast' : last (m.head j) r₁ ∈ m.head j :: r₁ := last_mem
  have ha : a ∉ m.head j :: (r₁ ++ r₂ ++ [tail']) := hdisjoint a (by simp)
  have hnodup := hsrc.path.nodup
  have hne : a ≠ last (m.head j) r₁ := by
    intro heq
    apply ha
    rw [heq]
    simp only [List.mem_cons, List.mem_append] at hlast' ⊢
    tauto
  have hremoved := hsrc.path.remove
  have hinserted : SortedPath m.value m'.next (m.head j) (r₁ ++ a :: r₂) tail' := by
    have hkept : SortedPath m.value
        (Function.update m.next (last (m.head i) l₁) (m.next a)) (m.head j) (r₁ ++ r₂)
        tail' := by
      apply hdst.path.congr (fun _ _ => rfl)
      intro c hc
      apply Function.update_of_ne
      rintro rfl
      apply hdisjoint (last (m.head i) l₁)
      · simp only [List.mem_cons, List.mem_append] at hlast ⊢
        tauto
      · simp only [List.mem_cons, List.mem_append] at hc ⊢
        tauto
    have hinsert := hkept.insert ha hlt hgt
    rw [Function.update_eq_self, Function.update_comm hne] at hinsert
    exact hinsert
  constructor
  · refine ⟨?_, hsrc.minimum, hsrc.maximum, ?_⟩
    · apply hremoved.congr (fun _ _ => rfl)
      intro c hc
      have hca : c ≠ a := by
        rintro rfl
        simp only [List.mem_cons, List.mem_append] at hc
        simp only [List.nodup_cons, List.nodup_append, List.mem_append, List.mem_cons] at hnodup
        grind
      have hclast : c ≠ last (m.head j) r₁ := by
        rintro rfl
        apply hdisjoint (last (m.head j) r₁)
        · simp only [List.mem_cons, List.mem_append] at hc ⊢
          tauto
        · simp only [List.mem_cons, List.mem_append] at hlast' ⊢
          tauto
      show Function.update (Function.update _ _ _) _ _ c = _
      rw [Function.update_of_ne hca, Function.update_of_ne hclast]
      rfl
    · intro c hc
      apply hsrc.used c
      simp only [List.mem_cons, List.mem_append] at hc ⊢
      tauto
  · refine ⟨hinserted, hdst.minimum, hdst.maximum, ?_⟩
    intro c hc
    simp only [List.mem_cons, List.mem_append] at hc
    rcases hc with rfl | (hc | rfl | hc) | hc
    · exact hdst.used _ List.mem_cons_self
    · apply hdst.used
      simp [hc]
    · apply hsrc.used
      simp
    · apply hdst.used
      simp [hc]
    · apply hdst.used
      simp only [List.mem_cons, List.mem_append]
      exact .inr (.inr hc)

theorem union_moved (hsrc : src = 0 ∨ src = 1) (h : Movable keys key src) :
  union (moved keys key src) = union keys
  := by
  obtain ⟨hmem, hnotMem⟩ := h
  have herase := Multiset.cons_erase hmem
  rcases hsrc with rfl | rfl
  · have hnotMem' : key ∉ keys 1 := hnotMem
    simp only [union, moved]
    rw [Function.update_of_ne (by decide), Function.update_self]
    show ((keys 0).erase key).val + (insert key (keys 1)).val = _
    rw [Finset.insert_val_of_notMem hnotMem', Finset.erase_val, Multiset.add_cons,
      ← Multiset.cons_add, herase]
  · have hnotMem' : key ∉ keys 0 := hnotMem
    simp only [union, moved]
    rw [Function.update_of_ne (by decide : (1 : Int) ≠ 1 - 1), Function.update_self]
    show (insert key (keys 0)).val + ((keys 1).erase key).val = _
    rw [Finset.insert_val_of_notMem hnotMem', Finset.erase_val, Multiset.cons_add,
      ← Multiset.add_cons, herase]

/-- A call moves the key if it can be moved, and does nothing else. -/
theorem Lists.Sorted.listMoveFfwd
    (h : m.Sorted keys) (hsrc : src = 0 ∨ src = 1) (hmin : Lists.intMin < key)
    (hmax : key < Lists.intMax) (val : Int) :
  ∃ m', listMoveFfwd m val key src = some (m', decide (Movable keys key src)) ∧
    if Movable keys key src then m'.Sorted (moved keys key src) else m' = m
  := by
  obtain ⟨hnull, l, tail, hlists, hdisjoint⟩ := h
  have hdst : 1 - src = 0 ∨ 1 - src = 1 := by omega
  obtain ⟨hchain, hkeys⟩ := hlists src hsrc
  obtain ⟨hchain', hkeys'⟩ := hlists (1 - src) hdst
  have hdisjoint' : ∀ b ∈ m.head src :: (l src ++ [tail src]),
      b ∉ m.head (1 - src) :: (l (1 - src) ++ [tail (1 - src)]) := by
    rcases hsrc with rfl | rfl
    · exact hdisjoint
    · intro b hb hb'
      exact hdisjoint b hb' hb
  obtain ⟨l₁, l₂, hl, hseek, hlt, hle, hmem⟩ := hchain.seek hnull val hmin hmax
  obtain ⟨r₁, r₂, hr, hseek', hlt', hle', hmem'⟩ :=
    hchain'.seek hnull (m.value (l₂.head?.getD (tail src))) hmin hmax
  rw [hkeys] at hmem
  rw [hkeys'] at hmem'
  rw [Micro.listMoveFfwd, hseek]
  simp only [bind, Option.bind]
  by_cases hfound : m.value (l₂.head?.getD (tail src)) = key
  · rw [if_neg (not_not.mpr hfound), hseek']
    simp only
    by_cases hthere : m.value (r₂.head?.getD (tail (1 - src))) = key
    · have hnot : ¬ Movable keys key src := fun h => h.2 (hmem'.mpr hthere)
      rw [if_pos hthere, decide_eq_false hnot]
      refine ⟨m, rfl, ?_⟩
      rw [if_neg hnot]
    · have hmovable : Movable keys key src :=
        ⟨hmem.mpr hfound, fun h => hthere (hmem'.mp h)⟩
      rw [if_neg hthere, decide_eq_true hmovable]
      refine ⟨_, rfl, ?_⟩
      rw [if_pos hmovable]
      refine ⟨hnull, ?_⟩
      cases l₂ with
      | nil =>
          rw [List.head?_nil, Option.getD_none, hchain.maximum] at hfound
          exact absurd hfound (ne_of_gt hmax)
      | cons a l₂ =>
          simp only [List.head?_cons, Option.getD_some] at hfound ⊢
          subst hfound
          rw [hl] at hchain hdisjoint' hkeys
          rw [hr] at hchain' hdisjoint' hkeys'
          obtain ⟨hleft, hright⟩ := hchain.relink hchain' hdisjoint' hlt'
            (lt_of_le_of_ne hle' (Ne.symm hthere))
          have hne : src ≠ 1 - src := by omega
          have hapart : ∀ b ∈ m.head src :: (l₁ ++ l₂ ++ [tail src]),
              b ∉ m.head (1 - src) :: (r₁ ++ a :: r₂ ++ [tail (1 - src)]) := by
            intro b hb hb'
            have hba : b ≠ a := by
              have hnodup := hchain.path.nodup
              rintro rfl
              simp only [List.mem_cons, List.mem_append] at hb
              simp only [List.nodup_cons, List.nodup_append, List.mem_append, List.mem_cons]
                at hnodup
              grind
            apply hdisjoint' b
            · simp only [List.mem_cons, List.mem_append] at hb ⊢
              tauto
            · simp only [List.mem_cons, List.mem_append] at hb' ⊢
              tauto
          obtain ⟨l', hl'src, hl'dst⟩ : ∃ l' : Int → List Addr,
              l' src = l₁ ++ l₂ ∧ l' (1 - src) = r₁ ++ a :: r₂ := by
            refine ⟨Function.update (Function.update l src (l₁ ++ l₂)) (1 - src) (r₁ ++ a :: r₂),
              ?_, Function.update_self _ _ _⟩
            rw [Function.update_of_ne hne, Function.update_self]
          rw [← hl'src, ← hl'dst] at hapart
          refine ⟨l', tail, ?_, ?_⟩
          · intro i hi
            obtain rfl | rfl : i = src ∨ i = 1 - src := by omega
            · rw [hl'src, moved, Function.update_of_ne hne, Function.update_self, ← hkeys]
              exact ⟨hleft, hchain.path.values_remove⟩
            · rw [hl'dst, moved, Function.update_self, ← hkeys']
              refine ⟨hright, ?_⟩
              ext v
              simp only [List.mem_toFinset, List.mem_map, List.mem_append, List.mem_cons,
                Finset.mem_insert]
              constructor
              · rintro ⟨c, hc | rfl | hc, rfl⟩
                · exact .inr ⟨c, .inl hc, rfl⟩
                · exact .inl rfl
                · exact .inr ⟨c, .inr hc, rfl⟩
              · rintro (rfl | ⟨c, hc | hc, rfl⟩)
                · exact ⟨a, .inr (.inl rfl), rfl⟩
                · exact ⟨c, .inl hc, rfl⟩
                · exact ⟨c, .inr (.inr hc), rfl⟩
          · rcases hsrc with rfl | rfl
            · exact hapart
            · intro b hb hb'
              exact hapart b hb' hb
  · have hnot : ¬ Movable keys key src := fun h => hfound (hmem.mp h.1)
    rw [if_pos hfound, decide_eq_false hnot]
    refine ⟨m, rfl, ?_⟩
    rw [if_neg hnot]

end Move

/-- A sequence of calls moves keys between the lists, and neither loses nor makes one. -/
theorem list_move_moves
    (m : Lists Addr) (keys : Int → Finset Int) (calls : List (Int × Int)) (h : m.Sorted keys)
    (hcalls : ∀ call ∈ calls, Lists.intMin < call.1 ∧ call.1 < Lists.intMax ∧
      (call.2 = 0 ∨ call.2 = 1)) :
  m.Moves (union keys) keys calls
  := by
  generalize htotal : union keys = total
  induction calls generalizing m keys with
  | nil => exact ⟨h, htotal⟩
  | cons call calls ih =>
      obtain ⟨key, src⟩ := call
      obtain ⟨⟨hmin, hmax, hsrc⟩, hcalls⟩ := List.forall_mem_cons.mp hcalls
      refine ⟨h, htotal, fun val => ?_⟩
      obtain ⟨m', hmove, hm'⟩ := h.listMoveFfwd hsrc hmin hmax val
      refine ⟨m', hmove, ?_⟩
      by_cases hmovable : Movable keys key src
      · rw [if_pos hmovable] at hm' ⊢
        apply ih m' _ hm' hcalls
        rw [union_moved hsrc hmovable]
        exact htotal
      · rw [if_neg hmovable] at hm' ⊢
        subst hm'
        exact ⟨rfl, ih m' keys h hcalls htotal⟩

/-- The lists of `3` and `5`, and of `4`: the last node of the first list goes over and comes back,
and a key that the destination has is not moved. -/
theorem list_move_moves_back :
  let m : Lists Nat := ⟨fun a => [0, Lists.intMin, 3, 5, Lists.intMax, Lists.intMin, 4,
      Lists.intMax].getD a 0, fun a => [0, 2, 3, 4, 0, 6, 7, 0].getD a 0, 0, {1, 2, 3, 4, 5, 6, 7},
      fun i => if i = 0 then 1 else 5⟩
  let keys : Int → Finset Int := fun i => if i = 0 then {3, 5} else {4}
  m.Moves (union keys) keys [(5, 0), (5, 0), (4, 1), (5, 1)]
  := by
  intro m keys
  apply list_move_moves m keys
  · refine ⟨by decide, fun i => if i = 0 then [2, 3] else [6], fun i => if i = 0 then 4 else 7,
      ?_, by decide⟩
    rintro i (rfl | rfl)
    · exact ⟨⟨⟨⟨rfl, rfl, rfl⟩, by decide⟩, rfl, rfl, by decide⟩, by decide⟩
    · exact ⟨⟨⟨⟨rfl, rfl⟩, by decide⟩, rfl, rfl, by decide⟩, by decide⟩
  · decide

end Micro
