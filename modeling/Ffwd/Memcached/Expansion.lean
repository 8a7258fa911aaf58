import Ffwd.Memcached.Assoc

/-!
# The expansion of the hash table

`func11` moves the items of one bucket of the old array, and `assoc_expand` calls it once. No
other operation calls it, and `assoc_expand` itself is not called while an expansion is under
way; so from the first expansion on the table keeps both arrays, with the size it has then.
-/

namespace Memcached

variable {hash : Key → BitVec 32} {key : Addr → Key} {t : Assoc}

/-- The insertion begins an expansion: there is none under way, the item makes the table too full,
and `calloc` succeeds. -/
def Triggers (t : Assoc) : Prop :=
  t.expanding = false ∧ hashsize t.hashpower * 3 / 2 < (t.hashItems + 1) % 2 ^ 32 ∧
    t.calloc t.callocs = true

/-- The expansion of a table to `2 ^ power` buckets has moved one bucket. -/
structure Assoc.Stuck (t : Assoc) (power : Nat) : Prop where
  expanding : t.expanding = true
  expandBucket : t.expandBucket = 1
  hashpower : t.hashpower = power

/-! ### What the operations leave alone -/

@[simp] theorem Assoc.expandBucket_setHead (t : Assoc) (c : Cell) (p : Option Addr) :
  (t.setHead c p).expandBucket = t.expandBucket
  := by
  cases c <;> rfl

@[simp] theorem Assoc.calloc_setHead (t : Assoc) (c : Cell) (p : Option Addr) :
  (t.setHead c p).calloc = t.calloc ∧ (t.setHead c p).callocs = t.callocs
  := by
  cases c <;> exact ⟨rfl, rfl⟩

theorem migrate_frame
    (hash : Key → BitVec 32) (key : Addr → Key) (n : Nat) (p : Option Addr) (t : Assoc) :
  (migrate hash key n p t).expanding = t.expanding ∧
    (migrate hash key n p t).expandBucket = t.expandBucket ∧
    (migrate hash key n p t).hashpower = t.hashpower ∧
    (migrate hash key n p t).hashItems = t.hashItems
  := by
  induction n generalizing p t with
  | zero => exact ⟨rfl, rfl, rfl, rfl⟩
  | succ n ih =>
      cases p with
      | none => exact ⟨rfl, rfl, rfl, rfl⟩
      | some a => exact ih _ _

theorem func11_frame (t : Assoc) :
  (func11 hash key t).hashpower = t.hashpower ∧ (func11 hash key t).hashItems = t.hashItems
  := by
  obtain ⟨-, -, hpower, hitems⟩ :=
    migrate_frame hash key t.hashItems (t.oldHashtable t.expandBucket) t
  rw [func11]
  split
  · dsimp only
    split
    · simp [hpower, hitems]
    · simp [hpower, hitems]
  · exact ⟨rfl, rfl⟩

theorem assocInsert_hashItems (t : Assoc) (a : Addr) :
  (assocInsert hash key t a).hashItems = t.hashItems + 1
  := by
  rw [assocInsert]
  dsimp only
  split
  · rw [assocExpand]
    dsimp only
    split
    · rw [(func11_frame _).2]
      simp [Assoc.setHNext]
    · simp [Assoc.setHNext]
  · simp [Assoc.setHNext]

theorem assocInsert_hashpower_le (t : Assoc) (a : Addr) :
  t.hashpower ≤ (assocInsert hash key t a).hashpower
  := by
  rw [assocInsert]
  dsimp only
  split
  · rw [assocExpand]
    dsimp only
    split
    · rw [(func11_frame _).1]
      simp [Assoc.setHNext]
    · simp [Assoc.setHNext]
  · simp [Assoc.setHNext]

theorem assocDelete_frame
    (hash : Key → BitVec 32) (key : Addr → Key) (t : Assoc) (k : Key) :
  (assocDelete hash key t k).expanding = t.expanding ∧
    (assocDelete hash key t k).expandBucket = t.expandBucket ∧
    (assocDelete hash key t k).hashpower = t.hashpower
  := by
  rw [assocDelete]
  dsimp only
  split
  · exact ⟨rfl, rfl, rfl⟩
  · cases hashitemBefore hash key t k with
    | none => simp [Assoc.setSlot, Assoc.setHNext]
    | some b => simp [Assoc.setSlot, Assoc.setHNext]

/-! ### The expansion does not end -/

/-- The first round of an expansion, when the old array has more than one bucket. -/
theorem func11_stuck
    (hexp : t.expanding = true) (hbucket : t.expandBucket = 0)
    (hsize : hashsize (t.hashpower - 1) ≠ 1) :
  (func11 hash key t).Stuck t.hashpower
  := by
  obtain ⟨hexp', hbucket', hpower', -⟩ :=
    migrate_frame hash key t.hashItems (t.oldHashtable 0) t
  rw [hexp] at hexp'
  rw [hbucket] at hbucket'
  rw [func11, if_pos hexp]
  dsimp only
  rw [hbucket, if_neg (by simpa [hbucket', hpower'] using hsize.symm)]
  constructor
  · simp [hexp']
  · simp [hbucket']
  · simp [hpower']

theorem Triggers.assocInsert (h : Triggers t) (hpower : 1 ≤ t.hashpower) (a : Addr) :
  (assocInsert hash key t a).Stuck (t.hashpower + 1)
  := by
  obtain ⟨hexp, hfull, hcalloc⟩ := h
  have hsize : hashsize t.hashpower ≠ 1 := by
    rw [hashsize, Nat.one_shiftLeft]
    have := Nat.one_lt_two_pow (n := t.hashpower) (by omega)
    omega
  rw [Memcached.assocInsert]
  dsimp only
  rw [if_pos (by simpa [Assoc.setHNext, hexp] using hfull), assocExpand]
  dsimp only
  rw [if_pos (by simpa [Assoc.setHNext] using hcalloc)]
  have hpower' : t.hashpower + 1 = (((t.setHNext a (t.head (t.cell (hash (key a))))).setHead
      (t.cell (hash (key a))) (some a)).hashpower + 1) := by
    simp [Assoc.setHNext]
  rw [hpower']
  apply func11_stuck
  · rfl
  · rfl
  · simpa [Assoc.setHNext] using hsize

theorem Assoc.Stuck.exec {s : AssocState} {power : Nat} (h : s.table.Stuck power) (op : AssocOp) :
  (op.exec hash s).1.table.Stuck power
  := by
  cases op with
  | insert a k =>
      show (assocInsert hash (Function.update s.key a k) s.table a).Stuck power
      rw [assocInsert]
      dsimp only
      rw [if_neg (by simp [Assoc.setHNext, h.expanding])]
      constructor
      · simp [Assoc.setHNext, h.expanding]
      · simp [Assoc.setHNext, h.expandBucket]
      · simp [Assoc.setHNext, h.hashpower]
  | delete k =>
      obtain ⟨hexp, hbucket, hpower⟩ := assocDelete_frame hash s.key s.table k
      exact ⟨hexp.trans h.expanding, hbucket.trans h.expandBucket, hpower.trans h.hashpower⟩
  | find k => exact h

theorem Assoc.Stuck.run
    {s : AssocState} {power : Nat} (h : s.table.Stuck power) (ops : List AssocOp) :
  (assocRun hash s ops).1.table.Stuck power
  := by
  induction ops generalizing s with
  | nil => exact h
  | cons op ops ih => exact ih (h.exec op)

theorem exec_hashpower_le (s : AssocState) (op : AssocOp) :
  s.table.hashpower ≤ (op.exec hash s).1.table.hashpower
  := by
  cases op with
  | insert a k => exact assocInsert_hashpower_le s.table a
  | delete k => exact Nat.le_of_eq (assocDelete_frame hash s.key s.table k).2.2.symm
  | find k => exact Nat.le_refl _

theorem assocRun_hashpower_le (s : AssocState) (ops : List AssocOp) :
  s.table.hashpower ≤ (assocRun hash s ops).1.table.hashpower
  := by
  induction ops generalizing s with
  | nil => exact Nat.le_refl _
  | cons op ops ih => exact Nat.le_trans (exec_hashpower_le s op) (ih _)

theorem assocRun_inserts_hashItems (s : AssocState) (inserts : List (Addr × Key)) :
  (assocRun hash s (inserts.map fun i => .insert i.1 i.2)).1.table.hashItems
    = s.table.hashItems + inserts.length
  := by
  induction inserts generalizing s with
  | nil => rfl
  | cons i inserts ih =>
      rw [List.map_cons, assocRun, ih, List.length_cons]
      show (assocInsert hash (Function.update s.key i.1 i.2) s.table i.1).hashItems + _ = _
      rw [assocInsert_hashItems]
      omega

/-- An expansion is never completed, and there is none after it: whatever operations follow the
insertion that begins it, one bucket has been moved, and the table has no more buckets than then.
So enough insertions make it as full as one likes. -/
theorem expansion_stuck
    (hash : Key → BitVec 32) (hashpower : Nat) (hpower : 1 ≤ hashpower) (calloc : Nat → Bool)
    (key : Addr → Key) (ops : List AssocOp) (s : AssocState)
    (hs : s = (assocRun hash ⟨assocInit hashpower calloc, key⟩ ops).1) (htriggers : Triggers s.table)
    (a : Addr) (k : Key) :
  (∀ after, ((assocRun hash ((AssocOp.insert a k).exec hash s).1 after).1.table.Stuck
      (s.table.hashpower + 1))) ∧
    ∀ bound, ∃ n, ∀ inserts : List (Addr × Key), n ≤ inserts.length →
      ∀ t, t = (assocRun hash ((AssocOp.insert a k).exec hash s).1
          (inserts.map fun i => .insert i.1 i.2)).1.table →
        bound * hashsize t.hashpower < t.hashItems
  := by
  have hle : 1 ≤ s.table.hashpower := by
    rw [hs]
    apply Nat.le_trans hpower
    exact assocRun_hashpower_le ⟨assocInit hashpower calloc, key⟩ ops
  have hstuck : ((AssocOp.insert a k).exec hash s).1.table.Stuck (s.table.hashpower + 1) :=
    htriggers.assocInsert hle a
  refine ⟨hstuck.run, ?_⟩
  intro bound
  use bound * hashsize (s.table.hashpower + 1) + 1
  rintro inserts hlength t rfl
  rw [(hstuck.run _).hashpower, assocRun_inserts_hashItems]
  omega

/-- The fourth insertion into a table of two buckets begins an expansion. -/
theorem expansion_stuck_fourth :
  ∃ s, s = (assocRun (fun k => BitVec.ofNat 32 k.length) ⟨assocInit 1 (fun _ => true), fun _ => []⟩
        [.insert 8 [1], .insert 16 [1, 2], .insert 24 [1, 2, 3]]).1 ∧
    Triggers s.table ∧
    ∀ after, ((assocRun (fun k => BitVec.ofNat 32 k.length)
      ((AssocOp.insert 32 [2, 2, 2]).exec (fun k => BitVec.ofNat 32 k.length) s).1 after).1.table.Stuck
        2)
  := by
  have htriggers : Triggers (assocRun (fun k => BitVec.ofNat 32 k.length)
      ⟨assocInit 1 (fun _ => true), fun _ => []⟩
      [.insert 8 [1], .insert 16 [1, 2], .insert 24 [1, 2, 3]]).1.table := ⟨rfl, by decide, rfl⟩
  exact ⟨_, rfl, htriggers, (expansion_stuck _ 1 (Nat.le_refl 1) _ _ _ _ rfl htriggers 32 _).1⟩

/-- The item at 8 is in the second bucket of the old array, and no operation ends the expansion. -/
theorem expansion_incomplete :
  ∃ s, s = (assocRun (fun k => BitVec.ofNat 32 k.length) ⟨assocInit 1 (fun _ => true), fun _ => []⟩
        [.insert 8 [1], .insert 16 [1, 2], .insert 24 [1, 2, 3, 4], .insert 32 [2, 2, 2, 2]]).1 ∧
    s.table.hashpower = 2 ∧ s.table.oldHashtable 1 = some 8 ∧
    ¬∃ after, (assocRun (fun k => BitVec.ofNat 32 k.length) s after).1.table.expanding = false
  := by
  refine ⟨_, rfl, rfl, rfl, ?_⟩
  rintro ⟨after, hdone⟩
  have hstuck : (assocRun (fun k => BitVec.ofNat 32 k.length)
      ⟨assocInit 1 (fun _ => true), fun _ => []⟩
      [.insert 8 [1], .insert 16 [1, 2], .insert 24 [1, 2, 3, 4], .insert 32 [2, 2, 2, 2]]).1.table.Stuck
        2 := ⟨rfl, rfl, rfl⟩
  rw [(hstuck.run after).expanding] at hdone
  cases hdone

end Memcached
