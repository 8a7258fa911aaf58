import Ffwd.Memcached.Slabs

/-!
# The LRU lists

The doubly linked list of the items of each slab class, from the one accessed last at
`heads` to the one accessed first at `tails`.
-/

namespace Memcached

open Linked

/-- `LARGEST_ID`, the length of the arrays `heads`, `tails`, `sizes` and `itemstats`. -/
def largestId : Nat := 200

/-- The heads, tails and sizes of the lists, with the `next` and `prev` fields of the
items. `sizes` is what the counters count, of which the source keeps the low 32 bits. `inside`
says that nothing behind the ends of the arrays has been accessed: what the source does after
such an access is not defined, and the other fields mean nothing any more. -/
structure Lru where
  next : Addr → Option Addr
  prev : Addr → Option Addr
  heads : Nat → Option Addr
  tails : Nat → Option Addr
  sizes : Nat → Nat
  inside : Bool

/-- The entries of the class `id` accessed. -/
def Lru.access (q : Lru) (id : Nat) : Lru := { q with inside := q.inside && decide (id < largestId) }

/-- `item_link_q`, for an item of class `id`: the item is the new head. -/
def itemLinkQ (q : Lru) (a : Addr) (id : Nat) : Lru :=
  let prev := Function.update q.prev a none
  let next := Function.update q.next a (q.heads id)
  { next := next
    prev := setAt prev (next a) (some a)
    heads := Function.update q.heads id (some a)
    tails := if q.tails id = none then Function.update q.tails id (some a) else q.tails
    sizes := Function.update q.sizes id (q.sizes id + 1)
    inside := (q.access id).inside }

/-- `item_unlink_q`, for an item of class `id`. -/
def itemUnlinkQ (q : Lru) (a : Addr) (id : Nat) : Lru :=
  let prev := setAt q.prev (q.next a) (q.prev a)
  { next := setAt q.next (prev a) (q.next a)
    prev := prev
    heads := if q.heads id = some a then Function.update q.heads id (q.next a) else q.heads
    tails := if q.tails id = some a then Function.update q.tails id (q.prev a) else q.tails
    sizes := Function.update q.sizes id (q.sizes id - 1)
    inside := (q.access id).inside }

/-- The lists are `ls`, and no item is in two of them. -/
structure Lru.Lists (q : Lru) (ls : Nat → List Addr) : Prop where
  heads : ∀ id, q.heads id = (ls id).head?
  tails : ∀ id, q.tails id = (ls id).getLast?
  links : ∀ id, DSeg q.next q.prev none (ls id) none
  nodup : ∀ id, (ls id).Nodup
  disjoint : ∀ id id' a, a ∈ ls id → a ∈ ls id' → id = id'
  sizes : ∀ id, q.sizes id = (ls id).length

theorem Lru.Lists.itemLinkQ
    {q : Lru} {ls : Nat → List Addr} (h : q.Lists ls) {a : Addr} (ha : ∀ id, a ∉ ls id) (id : Nat) :
  (itemLinkQ q a id).Lists (Function.update ls id (a :: ls id))
  := by
  have hmem : ∀ id' b, b ∈ Function.update ls id (a :: ls id) id' ↔
      b ∈ ls id' ∨ id' = id ∧ b = a := by
    intro id' b
    by_cases hid : id' = id
    · subst hid
      simp only [Function.update_self, List.mem_cons, true_and]
      exact or_comm
    · simp [hid]
  constructor
  · intro id'
    by_cases hid : id' = id
    · subst hid
      simp [Memcached.itemLinkQ]
    · simp [Memcached.itemLinkQ, hid, h.heads]
  · intro id'
    simp only [Memcached.itemLinkQ]
    by_cases hid : id' = id
    · subst hid
      rw [Function.update_self, List.getLast?_cons, ← h.tails]
      split
      · next hnone => simp [hnone]
      · next hsome =>
        obtain ⟨b, hb⟩ := Option.ne_none_iff_exists'.mp hsome
        simp [hb]
    · rw [Function.update_of_ne hid]
      split <;> simp [hid, h.tails]
  · intro id'
    by_cases hid : id' = id
    · subst hid
      have := (h.links id').push (h.nodup id') (ha id')
      simpa [Memcached.itemLinkQ, h.heads] using this
    · rw [Function.update_of_ne hid]
      have hne : ∀ b ∈ ls id', b ≠ a := by
        rintro b hb rfl
        exact ha id' hb
      apply (h.links id').congr
      · intro b hb
        exact Function.update_of_ne (hne b hb) _ _
      · intro b hb
        have hhead : (ls id).head? ≠ some b := by
          intro hb'
          exact hid (h.disjoint id' id b hb (List.mem_of_head? hb'))
        simp only [Memcached.itemLinkQ, Function.update_self, h.heads]
        rw [setAt_of_ne hhead, Function.update_of_ne (hne b hb)]
  · intro id'
    by_cases hid : id' = id
    · subst hid
      rw [Function.update_self]
      exact List.nodup_cons.mpr ⟨ha id', h.nodup id'⟩
    · rw [Function.update_of_ne hid]
      exact h.nodup id'
  · intro id₁ id₂ b h₁ h₂
    rw [hmem] at h₁ h₂
    obtain h₁ | ⟨rfl, rfl⟩ := h₁
    · obtain h₂ | ⟨rfl, rfl⟩ := h₂
      · exact h.disjoint id₁ id₂ b h₁ h₂
      · exact absurd h₁ (ha id₁)
    · obtain h₂ | ⟨rfl, -⟩ := h₂
      · exact absurd h₂ (ha id₂)
      · rfl
  · intro id'
    by_cases hid : id' = id
    · subst hid
      simp [Memcached.itemLinkQ, h.sizes]
    · simp [Memcached.itemLinkQ, hid, h.sizes]

theorem Lru.Lists.itemUnlinkQ
    {q : Lru} {ls : Nat → List Addr} (h : q.Lists ls) {a : Addr} {id : Nat} (ha : a ∈ ls id) :
  (itemUnlinkQ q a id).Lists (Function.update ls id ((ls id).erase a))
  := by
  obtain ⟨l₁, l₂, hl⟩ := List.append_of_mem ha
  have hnodup := h.nodup id
  have hlinks := h.links id
  rw [hl] at hnodup hlinks
  have hnot : a ∉ l₁ ++ l₂ := (List.nodup_cons.mp (List.nodup_middle.mp hnodup)).1
  have herase : (ls id).erase a = l₁ ++ l₂ := by
    rw [hl, List.erase_append_right _ (fun h₁ => hnot (List.mem_append_left _ h₁)),
      List.erase_cons_head]
  have hseg := DSeg.append_iff.mp hlinks
  have hprev : q.prev a = l₁.getLast? := by simpa using hseg.2.1
  have hnext : q.next a = l₂.head? := by simpa using hseg.2.2.1
  have hself : q.next a ≠ some a := by
    rw [hnext]
    intro hc
    exact hnot (List.mem_append_right _ (List.mem_of_head? hc))
  have hprev' : setAt q.prev (q.next a) (q.prev a) a = q.prev a := setAt_of_ne hself
  have hsub : ∀ id' b, b ∈ Function.update ls id ((ls id).erase a) id' → b ∈ ls id' := by
    intro id' b hb
    by_cases hid : id' = id
    · subst hid
      rw [Function.update_self] at hb
      exact List.mem_of_mem_erase hb
    · rwa [Function.update_of_ne hid] at hb
  constructor
  · intro id'
    simp only [Memcached.itemUnlinkQ]
    by_cases hid : id' = id
    · subst hid
      rw [Function.update_self, herase, h.heads, hl, hnext]
      cases l₁ with
      | nil => simp
      | cons b l₁ =>
          have : b ≠ a := by
            rintro rfl
            exact hnot (by simp)
          simp [this, h.heads, hl]
    · rw [Function.update_of_ne hid]
      split <;> simp [hid, h.heads]
  · intro id'
    simp only [Memcached.itemUnlinkQ]
    by_cases hid : id' = id
    · subst hid
      rw [Function.update_self, herase, h.tails, hl, hprev]
      obtain rfl | ⟨l₂, b, rfl⟩ := List.eq_nil_or_concat' l₂
      · simp
      · have : b ≠ a := by
          rintro rfl
          exact hnot (by simp)
        have hlast : (l₁ ++ a :: (l₂ ++ [b])).getLast? = some b := by
          rw [← List.cons_append, ← List.append_assoc, List.getLast?_concat]
        rw [hlast, if_neg (by simpa using this), h.tails, hl, hlast, ← List.append_assoc,
          List.getLast?_concat]
    · rw [Function.update_of_ne hid]
      split <;> simp [hid, h.tails]
  · intro id'
    simp only [Memcached.itemUnlinkQ, hprev']
    by_cases hid : id' = id
    · subst hid
      rw [Function.update_self, herase]
      exact hlinks.remove hnodup
    · rw [Function.update_of_ne hid]
      apply (h.links id').congr
      · intro b hb
        apply setAt_of_ne
        rw [hprev]
        intro hb'
        apply hid (h.disjoint id' id b hb _)
        rw [hl]
        exact List.mem_append_left _ (List.mem_of_getLast? hb')
      · intro b hb
        apply setAt_of_ne
        rw [hnext]
        intro hb'
        apply hid (h.disjoint id' id b hb _)
        rw [hl]
        exact List.mem_append_right _ (List.mem_cons_of_mem a (List.mem_of_head? hb'))
  · intro id'
    by_cases hid : id' = id
    · subst hid
      rw [Function.update_self]
      exact (h.nodup id').erase a
    · rw [Function.update_of_ne hid]
      exact h.nodup id'
  · intro id₁ id₂ b h₁ h₂
    exact h.disjoint id₁ id₂ b (hsub id₁ b h₁) (hsub id₂ b h₂)
  · intro id'
    by_cases hid : id' = id
    · subst hid
      simp [Memcached.itemUnlinkQ, h.sizes, List.length_erase_of_mem ha]
    · simp [Memcached.itemUnlinkQ, hid, h.sizes]

/-- A change of the fields of items that are in no list. -/
theorem Lru.Lists.congr
    {q q' : Lru} {ls : Nat → List Addr} (h : q.Lists ls) (hheads : q'.heads = q.heads)
    (htails : q'.tails = q.tails) (hsizes : q'.sizes = q.sizes)
    (hnext : ∀ id, ∀ a ∈ ls id, q'.next a = q.next a)
    (hprev : ∀ id, ∀ a ∈ ls id, q'.prev a = q.prev a) :
  q'.Lists ls
  where
  heads id := by rw [hheads, h.heads]
  tails id := by rw [htails, h.tails]
  links id := (h.links id).congr (hnext id) (hprev id)
  nodup := h.nodup
  disjoint := h.disjoint
  sizes id := by rw [hsizes, h.sizes]

/-- What a search from the tail finds is in the list and passes the test. -/
theorem Lru.Lists.find_tail
    {q : Lru} {ls : Nat → List Addr} (h : q.Lists ls) {test : Addr → Bool} {n id : Nat} {a : Addr}
    (hfind : find q.prev test n (q.tails id) = some a) :
  a ∈ ls id ∧ test a = true
  := by
  rw [h.tails] at hfind
  obtain ⟨ha, htest⟩ := mem_of_find_eq_some (h.links id).chain_prev hfind
  exact ⟨List.mem_reverse.mp ha, htest⟩

end Memcached
