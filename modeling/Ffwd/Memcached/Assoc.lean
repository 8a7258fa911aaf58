import Ffwd.Lib.Chain

/-!
# The hash table

The table of `assoc.c`: two arrays of chains threaded through the items by `h_next`, the
old one in use for the buckets an expansion has not reached. `Assoc.Holds` says that a
table holds a set of items: every item of the set is in the chain its key selects, and
nothing else is in a chain. Every operation turns a table that holds a set into one that
holds the set it should, so `assoc_find` is lookup in the map from keys to items.
-/

namespace Memcached

open Linked

/-- The address of an item. -/
abbrev Addr := Nat

/-- A key. -/
abbrev Key := List UInt8

/-- The variables of `assoc.c`, with the `h_next` fields of the items. `hashItems` is the
number `hash_items` counts, of which the source keeps the low 32 bits. `calloc` says which
of the calls of `calloc` succeed, and `callocs` how many there have been. -/
structure Assoc where
  hNext : Addr → Option Addr
  primaryHashtable : Nat → Option Addr
  oldHashtable : Nat → Option Addr
  hashpower : Nat
  hashItems : Nat
  expanding : Bool
  expandBucket : Nat
  calloc : Nat → Bool
  callocs : Nat

def hashsize (n : Nat) : Nat := 1 <<< n

def hashmask (n : Nat) : Nat := hashsize n - 1

theorem and_hashmask (x n : Nat) :
  x &&& hashmask n = x % 2 ^ n
  := by
  rw [hashmask, hashsize, Nat.one_shiftLeft, Nat.and_two_pow_sub_one_eq_mod]

/-- A cell of one of the two arrays. -/
inductive Cell where
  | primary (i : Nat)
  | old (i : Nat)
  deriving DecidableEq

namespace Assoc

/-- The content of a cell. -/
def head (t : Assoc) : Cell → Option Addr
  | .primary i => t.primaryHashtable i
  | .old i => t.oldHashtable i

/-- A write to a cell. -/
def setHead (t : Assoc) (c : Cell) (p : Option Addr) : Assoc :=
  match c with
  | .primary i => { t with primaryHashtable := Function.update t.primaryHashtable i p }
  | .old i => { t with oldHashtable := Function.update t.oldHashtable i p }

/-- A write to the `h_next` field of an item. -/
def setHNext (t : Assoc) (a : Addr) (p : Option Addr) : Assoc :=
  { t with hNext := Function.update t.hNext a p }

/-- The pointer a position stands for: `none` is the cell itself, `some b` the field
`h_next` of `b`. -/
def slot (t : Assoc) (c : Cell) : Option Addr → Option Addr
  | none => t.head c
  | some b => t.hNext b

/-- A write to the pointer a position stands for. -/
def setSlot (t : Assoc) (c : Cell) (pos p : Option Addr) : Assoc :=
  match pos with
  | none => t.setHead c p
  | some b => t.setHNext b p

/-- The cell of the keys with a given hash value: that of the old array if an expansion has
not reached it, and that of the primary array otherwise. -/
def cell (t : Assoc) (hv : BitVec 32) : Cell :=
  if t.expanding ∧ t.expandBucket ≤ hv.toNat &&& hashmask (t.hashpower - 1) then
    .old (hv.toNat &&& hashmask (t.hashpower - 1))
  else .primary (hv.toNat &&& hashmask t.hashpower)

section SetHead

variable (t : Assoc) (c : Cell) (p : Option Addr)

@[simp] theorem hNext_setHead : (t.setHead c p).hNext = t.hNext := by
  cases c <;> rfl

@[simp] theorem hashpower_setHead : (t.setHead c p).hashpower = t.hashpower := by
  cases c <;> rfl

@[simp] theorem hashItems_setHead : (t.setHead c p).hashItems = t.hashItems := by
  cases c <;> rfl

@[simp] theorem expanding_setHead : (t.setHead c p).expanding = t.expanding := by
  cases c <;> rfl

@[simp] theorem cell_setHead (hv : BitVec 32) : (t.setHead c p).cell hv = t.cell hv := by
  cases c <;> rfl

theorem head_setHead (d : Cell) :
  (t.setHead c p).head d = if d = c then p else t.head d
  := by
  cases c <;> cases d <;> simp [setHead, head, Function.update_apply]

end SetHead

@[simp] theorem head_setHNext (t : Assoc) (a : Addr) (p : Option Addr) (c : Cell) :
  (t.setHNext a p).head c = t.head c
  := by
  cases c <;> rfl

@[simp] theorem head_hashItems (t : Assoc) (n : Nat) (c : Cell) :
  { t with hashItems := n }.head c = t.head c
  := by
  cases c <;> rfl

end Assoc

section Operations

variable (hash : Key → BitVec 32) (key : Addr → Key)

def assocFind (t : Assoc) (k : Key) : Option Addr :=
  find t.hNext (fun a => key a = k) t.hashItems (t.head (t.cell (hash k)))

/-- `_hashitem_before`, the position of the pointer to the item with the key. -/
def hashitemBefore (t : Assoc) (k : Key) : Option Addr :=
  before t.hNext (fun a => key a = k) t.hashItems none (t.head (t.cell (hash k)))

/-- The loop of `func11` over one bucket: the items of a chain move to the heads of their
chains in the primary array. -/
def migrate : Nat → Option Addr → Assoc → Assoc
  | 0, _, t => t
  | _ + 1, none, t => t
  | n + 1, some a, t =>
      let next := t.hNext a
      let bucket := (hash (key a)).toNat &&& hashmask t.hashpower
      migrate n next
        ((t.setHNext a (t.primaryHashtable bucket)).setHead (.primary bucket) (some a))

/-- The migration step. The loop over `ii < expanding` makes one round, since `expanding`
is a `bool`. -/
def func11 (t : Assoc) : Assoc :=
  if t.expanding then
    let t := migrate hash key t.hashItems (t.oldHashtable t.expandBucket) t
    let t := t.setHead (.old t.expandBucket) none
    let t := { t with expandBucket := t.expandBucket + 1 }
    if t.expandBucket = hashsize (t.hashpower - 1) then { t with expanding := false } else t
  else t

def assocExpand (t : Assoc) : Assoc :=
  let ok := t.calloc t.callocs
  let t := { t with oldHashtable := t.primaryHashtable, callocs := t.callocs + 1 }
  if ok then
    func11 hash key
      { t with
        primaryHashtable := fun _ => none
        hashpower := t.hashpower + 1
        expanding := true
        expandBucket := 0 }
  else t

def assocInsert (t : Assoc) (a : Addr) : Assoc :=
  let c := t.cell (hash (key a))
  let t := (t.setHNext a (t.head c)).setHead c (some a)
  let t := { t with hashItems := t.hashItems + 1 }
  if !t.expanding ∧ hashsize t.hashpower * 3 / 2 < t.hashItems % 2 ^ 32 then
    assocExpand hash key t
  else t

/-- `assoc_delete`. Nothing happens if the key is not found, which the callers exclude. -/
def assocDelete (t : Assoc) (k : Key) : Assoc :=
  let c := t.cell (hash k)
  let pos := hashitemBefore hash key t k
  match t.slot c pos with
  | none => t
  | some a =>
      let t := { t with hashItems := t.hashItems - 1 }
      let nxt := t.hNext a
      (t.setHNext a none).setSlot c pos nxt

end Operations

/-! ### Tables that hold a set of items -/

section Holds

variable {hash : Key → BitVec 32} {key : Addr → Key}

/-- The chains of a table that holds the items of `A`: every item is in the chain of the
cell its key selects, and in no other. -/
structure Assoc.Chains (hash : Key → BitVec 32) (key : Addr → Key) (t : Assoc) (A : Finset Addr)
    (chains : Cell → List Addr) : Prop where
  chain : ∀ c, (∀ i, c = .old i → t.expanding = true) → Chain t.hNext (t.head c) (chains c)
  mem : ∀ c a, a ∈ chains c ↔ a ∈ A ∧ t.cell (hash (key a)) = c
  inj : ∀ a ∈ A, ∀ b ∈ A, key a = key b → a = b
  card : t.hashItems = A.card
  pos : t.expanding = true → 0 < t.hashpower

/-- The table holds the items of `A`, under pairwise distinct keys. -/
def Assoc.Holds (hash : Key → BitVec 32) (key : Addr → Key) (t : Assoc) (A : Finset Addr) : Prop :=
  ∃ chains, t.Chains hash key A chains

variable {t : Assoc} {A : Finset Addr} {chains : Cell → List Addr}

theorem Assoc.cell_live (t : Assoc) (hv : BitVec 32) (i : Nat) (h : t.cell hv = .old i) :
  t.expanding = true
  := by
  simp only [Assoc.cell] at h
  split at h
  · next hc => exact hc.1
  · cases h

/-- The chain a key selects. -/
theorem Assoc.Chains.at (h : t.Chains hash key A chains) (k : Key) :
  Chain t.hNext (t.head (t.cell (hash k))) (chains (t.cell (hash k)))
  := by
  apply h.chain
  intro i hi
  apply t.cell_live _ i hi

theorem Assoc.Chains.length_le (h : t.Chains hash key A chains) (k : Key) :
  (chains (t.cell (hash k))).length ≤ t.hashItems
  := by
  rw [h.card, ← List.toFinset_card_of_nodup (h.at k).nodup]
  apply Finset.card_le_card
  intro a ha
  rw [List.mem_toFinset] at ha
  exact ((h.mem _ a).mp ha).1

/-- `assoc_find` finds exactly the item the table holds under the key. -/
theorem assocFind_eq_some_iff (h : t.Holds hash key A) {k : Key} {a : Addr} :
  assocFind hash key t k = some a ↔ a ∈ A ∧ key a = k
  := by
  obtain ⟨chains, h⟩ := h
  rw [assocFind, find_eq (h.at k) (h.length_le k)]
  constructor
  · intro hfind
    have hmem := (h.mem _ a).mp (List.mem_of_find?_eq_some hfind)
    have htest := List.find?_some hfind
    exact ⟨hmem.1, of_decide_eq_true htest⟩
  · rintro ⟨ha, rfl⟩
    cases hfind : (chains (t.cell (hash (key a)))).find? (fun b => decide (key b = key a)) with
    | none =>
        have hnone := List.find?_eq_none.mp hfind a ((h.mem _ a).mpr ⟨ha, rfl⟩)
        simp at hnone
    | some b =>
        have hb := (h.mem _ b).mp (List.mem_of_find?_eq_some hfind)
        have htest := List.find?_some hfind
        rw [h.inj b hb.1 a ha (of_decide_eq_true htest)]

theorem assocFind_eq_none_iff (h : t.Holds hash key A) {k : Key} :
  assocFind hash key t k = none ↔ ∀ a ∈ A, key a ≠ k
  := by
  constructor
  · intro hnone a ha hk
    have := (assocFind_eq_some_iff h).mpr ⟨ha, hk⟩
    rw [hnone] at this
    cases this
  · intro hk
    rw [Option.eq_none_iff_forall_ne_some]
    intro a ha
    obtain ⟨ha, hka⟩ := (assocFind_eq_some_iff h).mp ha
    exact hk a ha hka

/-! ### Insertion -/

/-- What `assoc_insert` does before it looks whether the table is full. -/
def insertCell (hash : Key → BitVec 32) (key : Addr → Key) (t : Assoc) (a : Addr) : Assoc :=
  let c := t.cell (hash (key a))
  let t := (t.setHNext a (t.head c)).setHead c (some a)
  { t with hashItems := t.hashItems + 1 }

theorem insertCell_cell (a : Addr) (hv : BitVec 32) :
  (insertCell hash key t a).cell hv = t.cell hv
  := by
  simp only [insertCell]
  exact Assoc.cell_setHead _ _ _ hv

theorem Assoc.Chains.insertCell
    (h : t.Chains hash key A chains) {a : Addr} (ha : a ∉ A) (hk : ∀ b ∈ A, key b ≠ key a) :
  (insertCell hash key t a).Chains hash key (insert a A)
    (Function.update chains (t.cell (hash (key a))) (a :: chains (t.cell (hash (key a)))))
  := by
  set c := t.cell (hash (key a)) with hc
  have hnot : ∀ d, a ∉ chains d := fun d hd => ha ((h.mem d a).mp hd).1
  have hnext : (Memcached.insertCell hash key t a).hNext = Function.update t.hNext a (t.head c) := by
    simp [Memcached.insertCell, Assoc.setHNext, ← hc]
  have hexp : (Memcached.insertCell hash key t a).expanding = t.expanding := by
    simp [Memcached.insertCell, Assoc.setHNext]
  have hpower : (Memcached.insertCell hash key t a).hashpower = t.hashpower := by
    simp [Memcached.insertCell, Assoc.setHNext]
  have hhead : ∀ d, (Memcached.insertCell hash key t a).head d = if d = c then some a else t.head d := by
    intro d
    simp only [Memcached.insertCell, Assoc.head_hashItems, Assoc.head_setHead, Assoc.head_setHNext,
      ← hc]
  constructor
  · intro d hd
    rw [hexp] at hd
    rw [hnext, hhead]
    by_cases hdc : d = c
    · rw [if_pos hdc, hdc, Function.update_self]
      exact (h.at (key a)).cons (hnot c)
    · rw [if_neg hdc, Function.update_of_ne hdc]
      exact (h.chain d hd).update (hnot d) _
  · intro d b
    rw [insertCell_cell, Finset.mem_insert]
    by_cases hdc : d = c
    · rw [hdc, Function.update_self, List.mem_cons, h.mem]
      constructor
      · rintro (rfl | ⟨hb, hcell⟩)
        · exact ⟨.inl rfl, rfl⟩
        · exact ⟨.inr hb, hcell⟩
      · rintro ⟨rfl | hb, hcell⟩
        · exact .inl rfl
        · exact .inr ⟨hb, hcell⟩
    · rw [Function.update_of_ne hdc, h.mem]
      constructor
      · rintro ⟨hb, hcell⟩
        exact ⟨.inr hb, hcell⟩
      · rintro ⟨rfl | hb, hcell⟩
        · exact absurd hcell.symm hdc
        · exact ⟨hb, hcell⟩
  · intro b hb b' hb' heq
    rw [Finset.mem_insert] at hb hb'
    obtain rfl | hb := hb
    · obtain rfl | hb' := hb'
      · rfl
      · exact absurd heq.symm (hk b' hb')
    · obtain rfl | hb' := hb'
      · exact absurd heq (hk b hb)
      · exact h.inj b hb b' hb' heq
  · rw [Finset.card_insert_of_notMem ha, ← h.card]
    simp [Memcached.insertCell, Assoc.setHNext]
  · rw [hexp, hpower]
    exact h.pos

/-! ### Expansion -/

/-- The bucket of an item in the primary array. -/
def bucketOf (hash : Key → BitVec 32) (key : Addr → Key) (t : Assoc) (a : Addr) : Nat :=
  (hash (key a)).toNat &&& hashmask t.hashpower

/-- The migration loop moves the items of a chain to their chains in the primary array and
changes nothing else. -/
theorem migrate_spec
    (hash : Key → BitVec 32) (key : Addr → Key) {n : Nat} {p : Option Addr} {l : List Addr}
    (hl : Chain t.hNext p l) (hn : l.length ≤ n) (lp : Nat → List Addr)
    (hlp : ∀ i, Chain t.hNext (t.primaryHashtable i) (lp i))
    (hdisj : ∀ i, ∀ a ∈ l, a ∉ lp i) :
  ∃ (hNext : Addr → Option Addr) (primaryHashtable : Nat → Option Addr) (lp' : Nat → List Addr),
    migrate hash key n p t
      = { t with hNext := hNext, primaryHashtable := primaryHashtable } ∧
    (∀ i, Chain hNext (primaryHashtable i) (lp' i)) ∧
    (∀ i a, a ∈ lp' i ↔ a ∈ lp i ∨ a ∈ l ∧ bucketOf hash key t a = i) ∧
    ∀ a, a ∉ l → hNext a = t.hNext a
  := by
  induction l generalizing n p t lp with
  | nil =>
      refine ⟨t.hNext, t.primaryHashtable, lp, ?_, hlp, by simp, fun _ _ => rfl⟩
      obtain rfl : p = none := hl
      cases n <;> rfl
  | cons a l ih =>
      obtain ⟨rfl, hl'⟩ := hl
      have hal : a ∉ l := (List.nodup_cons.mp (Chain.nodup ⟨rfl, hl'⟩)).1
      cases n with
      | zero => simp at hn
      | succ n =>
          set i := bucketOf hash key t a with hi
          have hlp₁ : ∀ j, Chain (Function.update t.hNext a (t.primaryHashtable i))
              (Function.update t.primaryHashtable i (some a) j)
              (Function.update lp i (a :: lp i) j) := by
            intro j
            by_cases hj : j = i
            · rw [hj, Function.update_self, Function.update_self]
              exact (hlp i).cons (hdisj i a List.mem_cons_self)
            · rw [Function.update_of_ne hj, Function.update_of_ne hj]
              exact (hlp j).update (hdisj j a List.mem_cons_self) _
          have hdisj₁ : ∀ j, ∀ b ∈ l, b ∉ Function.update lp i (a :: lp i) j := by
            intro j b hb
            by_cases hj : j = i
            · rw [hj, Function.update_self, List.mem_cons]
              rintro (rfl | hbi)
              · exact hal hb
              · exact hdisj i b (List.mem_cons_of_mem a hb) hbi
            · rw [Function.update_of_ne hj]
              exact hdisj j b (List.mem_cons_of_mem a hb)
          obtain ⟨hNext, primary, lp', heq, hchain, hmem, hframe⟩ :=
            ih (t := { t with
              hNext := Function.update t.hNext a (t.primaryHashtable i)
              primaryHashtable := Function.update t.primaryHashtable i (some a) })
              (hl'.update hal _) (Nat.le_of_succ_le_succ hn) _ hlp₁ hdisj₁
          refine ⟨hNext, primary, lp', heq, hchain, ?_, ?_⟩
          · intro j b
            rw [hmem, List.mem_cons]
            by_cases hj : j = i
            · rw [hj, Function.update_self, List.mem_cons]
              constructor
              · rintro ((rfl | hb) | ⟨hb, hbi⟩)
                · exact .inr ⟨.inl rfl, rfl⟩
                · exact .inl hb
                · exact .inr ⟨.inr hb, hbi⟩
              · rintro (hb | ⟨rfl | hb, hbi⟩)
                · exact .inl (.inr hb)
                · exact .inl (.inl rfl)
                · exact .inr ⟨hb, hbi⟩
            · rw [Function.update_of_ne hj]
              constructor
              · rintro (hb | ⟨hb, hbi⟩)
                · exact .inl hb
                · exact .inr ⟨.inr hb, hbi⟩
              · rintro (hb | ⟨rfl | hb, hbi⟩)
                · exact .inl hb
                · exact absurd hbi.symm hj
                · exact .inr ⟨hb, hbi⟩
          · intro b hb
            rw [List.mem_cons, not_or] at hb
            rw [hframe b hb.2]
            exact Function.update_of_ne hb.1 _ _

/-- The bucket of a hash value in the old array. -/
def oldBucket (t : Assoc) (hv : BitVec 32) : Nat := hv.toNat &&& hashmask (t.hashpower - 1)

theorem oldBucket_lt (t : Assoc) (hv : BitVec 32) :
  oldBucket t hv < hashsize (t.hashpower - 1)
  := by
  rw [oldBucket, and_hashmask, hashsize, Nat.one_shiftLeft]
  apply Nat.mod_lt _ (Nat.two_pow_pos _)

theorem Assoc.cell_of_expanding (hexp : t.expanding = true) (hv : BitVec 32) :
  t.cell hv = if t.expandBucket ≤ oldBucket t hv then .old (oldBucket t hv)
    else .primary (hv.toNat &&& hashmask t.hashpower)
  := by
  by_cases hle : t.expandBucket ≤ oldBucket t hv
  · rw [if_pos hle, Assoc.cell, if_pos ⟨hexp, hle⟩]
    rfl
  · rw [if_neg hle, Assoc.cell, if_neg (fun hc => hle hc.2)]

/-- A step of the migration moves the keys of one bucket of the old array to the primary
one. -/
theorem Assoc.cell_advance
    (t' : Assoc) (hexp : t.expanding = true) (hpower : t'.hashpower = t.hashpower)
    (hbucket : t'.expandBucket = t.expandBucket + 1)
    (hexp' : t'.expanding = decide (t.expandBucket + 1 ≠ hashsize (t.hashpower - 1)))
    (hv : BitVec 32) :
  t'.cell hv = if oldBucket t hv = t.expandBucket then .primary (hv.toNat &&& hashmask t.hashpower)
    else t.cell hv
  := by
  have hold : oldBucket t' hv = oldBucket t hv := by rw [oldBucket, oldBucket, hpower]
  rw [t.cell_of_expanding hexp]
  by_cases hlast : t.expandBucket + 1 = hashsize (t.hashpower - 1)
  · have hlt := oldBucket_lt t hv
    have hcell : t'.cell hv = .primary (hv.toNat &&& hashmask t.hashpower) := by
      simp [Assoc.cell, hexp', hlast, hpower]
    rw [hcell]
    split
    · rfl
    · rw [if_neg]
      omega
  · rw [t'.cell_of_expanding (by simp [hexp', hlast]), hold, hbucket, hpower]
    split <;> split <;> try split
    all_goals first | rfl | omega

theorem Assoc.Chains.func11 (h : t.Chains hash key A chains) :
  (func11 hash key t).Holds hash key A
  := by
  by_cases hexp : t.expanding = true
  · have hold : Chain t.hNext (t.oldHashtable t.expandBucket) (chains (.old t.expandBucket)) :=
      h.chain (.old t.expandBucket) (fun _ _ => hexp)
    have hlen : (chains (.old t.expandBucket)).length ≤ t.hashItems := by
      rw [h.card, ← List.toFinset_card_of_nodup hold.nodup]
      apply Finset.card_le_card
      intro a ha
      rw [List.mem_toFinset] at ha
      exact ((h.mem _ a).mp ha).1
    have hdisj : ∀ i, ∀ a ∈ chains (.old t.expandBucket), a ∉ chains (.primary i) := by
      intro i a ha hi
      have := ((h.mem _ a).mp ha).2.symm.trans ((h.mem _ a).mp hi).2
      cases this
    obtain ⟨hNext, primary, lp, heq, hchain, hmem, hframe⟩ := migrate_spec hash key
      hold hlen (fun i => chains (.primary i)) (fun i => h.chain (.primary i) (by simp)) hdisj
    obtain ⟨b, hb, hfunc⟩ : ∃ b, b = decide (t.expandBucket + 1 ≠ hashsize (t.hashpower - 1)) ∧
        Memcached.func11 hash key t
          = { t with
              hNext := hNext
              primaryHashtable := primary
              oldHashtable := Function.update t.oldHashtable t.expandBucket none
              expandBucket := t.expandBucket + 1
              expanding := b } := by
      refine ⟨_, rfl, ?_⟩
      simp only [Memcached.func11, hexp, if_true, heq, Assoc.setHead]
      split
      · next hlast => simp [hlast]
      · next hlast => simp [hlast]
    have hcell := Assoc.cell_advance (Memcached.func11 hash key t) hexp
      (by rw [hfunc]) (by rw [hfunc]) (by rw [hfunc, hb])
    have hnot : ∀ i, i ≠ t.expandBucket → ∀ a ∈ chains (.old i),
        a ∉ chains (.old t.expandBucket) := by
      intro i hi a ha ha'
      have := ((h.mem _ a).mp ha).2.symm.trans ((h.mem _ a).mp ha').2
      exact hi (Cell.old.inj this)
    have hbucket : ∀ a, t.cell (hash (key a)) = .old t.expandBucket ↔
        oldBucket t (hash (key a)) = t.expandBucket := by
      intro a
      rw [t.cell_of_expanding hexp]
      split
      · simp
      · simp only [reduceCtorEq, false_iff]
        omega
    refine ⟨fun
      | .primary i => lp i
      | .old i => if i = t.expandBucket then [] else chains (.old i), ?_, ?_, h.inj, ?_, ?_⟩
    · intro c hc
      rw [hfunc]
      cases c with
      | primary i => exact hchain i
      | old i =>
          simp only [Assoc.head, Function.update_apply]
          split
          · rfl
          · next hi =>
            apply (h.chain (.old i) (fun _ _ => hexp)).congr
            intro a ha
            apply hframe a (hnot i hi a ha)
    · intro c a
      rw [hcell]
      cases c with
      | primary i =>
          simp only [hmem, h.mem, hbucket, bucketOf]
          split
          · next heb =>
            rw [t.cell_of_expanding hexp, heb, if_pos le_rfl]
            simp
          · next heb => simp [heb]
      | old i =>
          simp only []
          split
          · next hi =>
            simp only [List.not_mem_nil, false_iff, not_and]
            intro ha
            split
            · simp
            · next heb =>
              rw [hi]
              exact fun hold => heb ((hbucket a).mp hold)
          · next hi =>
            rw [h.mem]
            split
            · next heb =>
              rw [(hbucket a).mpr heb]
              simp [Ne.symm hi]
            · rfl
    · rw [hfunc]
      exact h.card
    · rw [hfunc]
      exact fun _ => h.pos hexp
  · simp only [Memcached.func11, hexp, if_false, Bool.false_eq_true]
    exact ⟨chains, h⟩

/-- An expansion whose `calloc` fails changes neither the table nor what is found in it. -/
theorem assocExpand_failed (h : t.calloc t.callocs = false) :
  (assocExpand hash key t)
      = { t with oldHashtable := t.primaryHashtable, callocs := t.callocs + 1 }
  := by
  simp [assocExpand, h]

/-- The array of an expansion that begins, which is empty, and the old one, which holds
everything. -/
theorem Assoc.Chains.beginExpand
    (h : t.Chains hash key A chains) (hexp : t.expanding = false) (n : Nat) :
  { t with
    oldHashtable := t.primaryHashtable
    callocs := n
    primaryHashtable := fun _ => none
    hashpower := t.hashpower + 1
    expanding := true
    expandBucket := 0 }.Chains hash key A
    (fun
      | .primary _ => []
      | .old i => chains (.primary i))
  := by
  constructor
  · intro c _
    cases c with
    | primary i => rfl
    | old i => exact h.chain (.primary i) (by simp)
  · intro c a
    have hcell := (h.mem · a)
    simp only [Assoc.cell, hexp, Bool.false_eq_true, false_and, if_false] at hcell
    cases c with
    | primary i => simp [Assoc.cell]
    | old i => simp [Assoc.cell, hcell]
  · exact h.inj
  · exact h.card
  · exact fun _ => Nat.succ_pos _

theorem Assoc.Holds.assocExpand (h : t.Holds hash key A) (hexp : t.expanding = false) :
  (assocExpand hash key t).Holds hash key A
  := by
  obtain ⟨chains, h⟩ := h
  cases hok : t.calloc t.callocs with
  | false =>
      rw [assocExpand_failed hok]
      refine ⟨chains, ?_, h.mem, h.inj, h.card, h.pos⟩
      intro c hc
      cases c with
      | primary i => exact h.chain (.primary i) (by simp)
      | old i =>
          have := hc i rfl
          rw [hexp] at this
          cases this
  | true =>
      simp only [Memcached.assocExpand, hok, if_true]
      exact (h.beginExpand hexp _).func11

/-- `assoc_insert` of an item under a key the table does not hold. -/
theorem Assoc.Holds.assocInsert
    (h : t.Holds hash key A) {a : Addr} (ha : a ∉ A) (hk : ∀ b ∈ A, key b ≠ key a) :
  (assocInsert hash key t a).Holds hash key (insert a A)
  := by
  obtain ⟨chains, h⟩ := h
  have hinsert : (insertCell hash key t a).Holds hash key (insert a A) :=
    ⟨_, h.insertCell ha hk⟩
  have heq : Memcached.assocInsert hash key t a
      = if !(insertCell hash key t a).expanding ∧
          hashsize (insertCell hash key t a).hashpower * 3 / 2
            < (insertCell hash key t a).hashItems % 2 ^ 32 then
        Memcached.assocExpand hash key (insertCell hash key t a)
      else insertCell hash key t a := rfl
  rw [heq]
  split
  · next hfull =>
    apply hinsert.assocExpand
    simpa using hfull.1
  · exact hinsert

/-! ### Deletion -/

/-- Taking an item out of a chain changes only that chain. -/
theorem Assoc.Chains.removed
    {t' : Assoc} {a : Addr} {l : List Addr} (h : t.Chains hash key A chains) (ha : a ∈ A)
    (hcell : ∀ hv, t'.cell hv = t.cell hv) (hexp : t'.expanding = t.expanding)
    (hpower : t'.hashpower = t.hashpower) (hitems : t'.hashItems = t.hashItems - 1)
    (hl : ∀ b, b ∈ l ↔ b ∈ chains (t.cell (hash (key a))) ∧ b ≠ a)
    (hchain : ∀ c, (∀ i, c = .old i → t.expanding = true) →
      Chain t'.hNext (t'.head c) (Function.update chains (t.cell (hash (key a))) l c)) :
  t'.Chains hash key (A.erase a) (Function.update chains (t.cell (hash (key a))) l)
  := by
  constructor
  · intro c hc
    rw [hexp] at hc
    exact hchain c hc
  · intro c b
    rw [hcell, Finset.mem_erase]
    by_cases hc : c = t.cell (hash (key a))
    · rw [hc, Function.update_self, hl, h.mem]
      tauto
    · rw [Function.update_of_ne hc, h.mem]
      constructor
      · rintro ⟨hb, hbc⟩
        refine ⟨⟨?_, hb⟩, hbc⟩
        rintro rfl
        exact hc hbc.symm
      · rintro ⟨⟨-, hb⟩, hbc⟩
        exact ⟨hb, hbc⟩
  · intro b hb b' hb'
    exact h.inj b (Finset.mem_of_mem_erase hb) b' (Finset.mem_of_mem_erase hb')
  · rw [Finset.card_erase_of_mem ha, hitems, h.card]
  · rw [hexp, hpower]
    exact h.pos

/-- `assoc_delete` of a key the table holds. -/
theorem Assoc.Holds.assocDelete (h : t.Holds hash key A) {a : Addr} (ha : a ∈ A) :
  (assocDelete hash key t (key a)).Holds hash key (A.erase a)
  := by
  obtain ⟨chains, h⟩ := h
  set c := t.cell (hash (key a)) with hc
  have hat : Chain t.hNext (t.head c) (chains c) := h.at (key a)
  have hlen : (chains c).length ≤ t.hashItems := h.length_le (key a)
  obtain ⟨l₁, l₂, hl⟩ := List.append_of_mem ((h.mem c a).mpr ⟨ha, hc.symm⟩)
  have hnodup := hat.nodup
  rw [hl] at hat hlen hnodup
  have hother : ∀ b ∈ l₁ ++ l₂, b ≠ a := by
    have := List.nodup_middle.mp hnodup
    rintro b hb rfl
    exact (List.nodup_cons.mp this).1 hb
  have htest : ∀ b ∈ l₁, decide (key b = key a) = false := by
    intro b hb
    have hmem : b ∈ chains c := by
      rw [hl]
      exact List.mem_append_left _ hb
    rw [decide_eq_false_iff_not]
    intro hk
    exact hother b (List.mem_append_left _ hb) (h.inj b ((h.mem c b).mp hmem).1 a ha hk)
  have hbefore : hashitemBefore hash key t (key a) = l₁.getLast? := by
    rw [hashitemBefore, before_eq hat hlen htest (by simp), Option.or_none]
  have hmem : ∀ b, b ∈ l₁ ++ l₂ ↔ b ∈ chains c ∧ b ≠ a := by
    intro b
    constructor
    · intro hb
      refine ⟨?_, hother b hb⟩
      rw [hl]
      simp only [List.mem_append, List.mem_cons] at hb ⊢
      tauto
    · rintro ⟨hb, hne⟩
      rw [hl] at hb
      simp only [List.mem_append, List.mem_cons] at hb ⊢
      tauto
  have hnot : ∀ d, d ≠ c → a ∉ chains d := by
    intro d hd had
    exact hd ((h.mem d a).mp had).2.symm
  obtain rfl | ⟨l₁, b, rfl⟩ := List.eq_nil_or_concat' l₁
  · have hdel : Memcached.assocDelete hash key t (key a)
        = ({ t with hashItems := t.hashItems - 1 }.setHNext a none).setHead c (t.hNext a) := by
      simp only [Memcached.assocDelete, hbefore, List.getLast?_nil, Assoc.slot, ← hc, hat.1,
        Assoc.setSlot]
    rw [hdel]
    refine ⟨_, h.removed (l := l₂) ha ?_ ?_ ?_ ?_ hmem ?_⟩
    · intro hv
      rw [Assoc.cell_setHead]
      rfl
    · rw [Assoc.expanding_setHead]
      rfl
    · rw [Assoc.hashpower_setHead]
      rfl
    · rw [Assoc.hashItems_setHead]
      rfl
    · intro d hd
      rw [Assoc.hNext_setHead, Assoc.head_setHead, Assoc.head_setHNext, Assoc.head_hashItems]
      by_cases hdc : d = c
      · rw [if_pos hdc, hdc, Function.update_self]
        exact hat.2.update (fun ha' => hother a ha' rfl) _
      · rw [if_neg hdc, Function.update_of_ne hdc]
        exact (h.chain d hd).update (hnot d hdc) _
  · have hlast : (l₁ ++ [b]).getLast? = some b := by simp
    have hpred : t.hNext b = some a := by
      have := hat
      rw [List.append_assoc, List.singleton_append] at this
      exact this.drop.1
    have hdel : Memcached.assocDelete hash key t (key a)
        = ({ t with hashItems := t.hashItems - 1 }.setHNext a none).setHNext b (t.hNext a) := by
      simp only [Memcached.assocDelete, hbefore, hlast, Assoc.slot, hpred, Assoc.setSlot]
    rw [hdel]
    refine ⟨_, h.removed (l := l₁ ++ [b] ++ l₂) ha ?_ rfl rfl rfl hmem ?_⟩
    · exact fun _ => rfl
    · intro d hd
      have hnext : (({ t with hashItems := t.hashItems - 1 }.setHNext a none).setHNext b
          (t.hNext a)).hNext = Function.update (Function.update t.hNext b (t.hNext a)) a none := by
        simp only [Assoc.setHNext]
        rw [Function.update_comm]
        exact (hother b (by simp)).symm
      rw [Assoc.head_setHNext, Assoc.head_setHNext, Assoc.head_hashItems, hnext]
      by_cases hdc : d = c
      · rw [hdc, Function.update_self]
        apply Chain.update _ (fun ha' => hother a ha' rfl)
        rw [List.append_assoc, List.singleton_append] at hat ⊢
        exact hat.remove
      · rw [Function.update_of_ne hdc]
        have hb : b ∉ chains d := by
          intro hbd
          have hbc : b ∈ chains c := by
            rw [hl]
            simp
          exact hdc (((h.mem d b).mp hbd).2.symm.trans ((h.mem c b).mp hbc).2)
        exact ((h.chain d hd).update hb _).update (hnot d hdc) _

end Holds

/-- The `h_next` field of an item outside the table can be anything. -/
theorem Assoc.Holds.setHNext
    {hash : Key → BitVec 32} {key : Addr → Key} {t : Assoc} {A : Finset Addr}
    (h : t.Holds hash key A) {a : Addr} (ha : a ∉ A) (p : Option Addr) :
  (t.setHNext a p).Holds hash key A
  := by
  obtain ⟨chains, h⟩ := h
  refine ⟨chains, ?_, h.mem, h.inj, h.card, h.pos⟩
  intro c hc
  rw [Assoc.head_setHNext]
  apply (h.chain c hc).update
  intro hmem
  exact ha ((h.mem c a).mp hmem).1

/-! ### The table as a map -/

/-- The operations on the table. An insertion comes with the key the caller has put into
the item. -/
inductive AssocOp where
  | insert (a : Addr) (k : Key)
  | delete (k : Key)
  | find (k : Key)

/-- A map from keys to items. -/
abbrev KeyMap := Key → Option Addr

/-- What the operations are for: the map after an operation and what it returns. -/
def AssocOp.spec (m : KeyMap) : AssocOp → KeyMap × Option Addr
  | .insert a k => (Function.update m k (some a), none)
  | .delete k => (Function.update m k none, none)
  | .find k => (m, m k)

/-- The callers insert an item that is not in the table, under an absent key, and delete
present keys. -/
def AssocOp.Legal (m : KeyMap) : AssocOp → Prop
  | .insert a k => m k = none ∧ ∀ k', m k' ≠ some a
  | .delete k => m k ≠ none
  | .find _ => True

/-- A run of the operations of the map, with what each returns. -/
def specRun (m : KeyMap) : List AssocOp → KeyMap × List (Option Addr)
  | [] => (m, [])
  | op :: ops => ((specRun (op.spec m).1 ops).1, (op.spec m).2 :: (specRun (op.spec m).1 ops).2)

/-- Every operation of a run is legal when it is made. -/
def LegalRun (m : KeyMap) : List AssocOp → Prop
  | [] => True
  | op :: ops => op.Legal m ∧ LegalRun (op.spec m).1 ops

/-- The table together with the keys in the items. -/
structure AssocState where
  table : Assoc
  key : Addr → Key

/-- One operation of the source. -/
def AssocOp.exec (hash : Key → BitVec 32) (s : AssocState) : AssocOp → AssocState × Option Addr
  | .insert a k =>
      let key := Function.update s.key a k
      (⟨assocInsert hash key s.table a, key⟩, none)
  | .delete k => (⟨assocDelete hash s.key s.table k, s.key⟩, none)
  | .find k => (s, assocFind hash s.key s.table k)

/-- A run of the operations of the source, with what each returns. -/
def assocRun (hash : Key → BitVec 32) (s : AssocState) :
    List AssocOp → AssocState × List (Option Addr)
  | [] => (s, [])
  | op :: ops =>
      ((assocRun hash (op.exec hash s).1 ops).1,
        (op.exec hash s).2 :: (assocRun hash (op.exec hash s).1 ops).2)

/-- The items of `A` are those the map has, under the keys in the items. -/
def Represents (key : Addr → Key) (m : KeyMap) (A : Finset Addr) : Prop :=
  ∀ k a, m k = some a ↔ a ∈ A ∧ key a = k

section Refinement

variable {hash : Key → BitVec 32} {m : KeyMap} {s : AssocState} {A : Finset Addr}

/-- A table that holds the items of `A` for given keys holds them for keys that agree on
`A`. -/
theorem Assoc.Holds.congr
    {key key' : Addr → Key} {t : Assoc} (h : t.Holds hash key A) (hkey : ∀ a ∈ A, key' a = key a) :
  t.Holds hash key' A
  := by
  obtain ⟨chains, h⟩ := h
  refine ⟨chains, h.chain, ?_, ?_, h.card, h.pos⟩
  · intro c a
    rw [h.mem]
    constructor
    · rintro ⟨ha, hc⟩
      exact ⟨ha, by rw [hkey a ha, hc]⟩
    · rintro ⟨ha, hc⟩
      exact ⟨ha, by rw [← hkey a ha, hc]⟩
  · intro a ha b hb
    rw [hkey a ha, hkey b hb]
    exact h.inj a ha b hb

theorem assocFind_eq (hm : Represents s.key m A) (h : s.table.Holds hash s.key A) (k : Key) :
  assocFind hash s.key s.table k = m k
  := by
  apply Option.ext
  intro a
  rw [assocFind_eq_some_iff h, hm]

/-- One operation of the source does what the operation of the map does. -/
theorem exec_refines
    (op : AssocOp) (hm : Represents s.key m A) (h : s.table.Holds hash s.key A)
    (hlegal : op.Legal m) :
  (op.exec hash s).2 = (op.spec m).2 ∧
    ∃ A', Represents (op.exec hash s).1.key (op.spec m).1 A' ∧
      (op.exec hash s).1.table.Holds hash (op.exec hash s).1.key A'
  := by
  cases op with
  | insert a k =>
      obtain ⟨hk, ha⟩ := hlegal
      have hnot : a ∉ A := fun hmem => ha (s.key a) ((hm _ _).mpr ⟨hmem, rfl⟩)
      have hne : ∀ b ∈ A, b ≠ a := by
        rintro b hb rfl
        exact hnot hb
      have hkey : ∀ b ∈ A, Function.update s.key a k b = s.key b :=
        fun b hb => Function.update_of_ne (hne b hb) _ _
      refine ⟨rfl, insert a A, ?_, ?_⟩
      · intro k' b
        simp only [AssocOp.spec, AssocOp.exec, Finset.mem_insert]
        by_cases hb : b = a
        · subst hb
          rw [Function.update_self]
          by_cases hkk : k' = k
          · simp [hkk]
          · simp [hkk, ha, Ne.symm hkk]
        · simp only [hb, false_or]
          rw [Function.update_of_ne hb, ← hm]
          by_cases hkk : k' = k
          · subst hkk
            simp [hk, Ne.symm hb]
          · rw [Function.update_of_ne hkk]
      · apply (h.congr hkey).assocInsert hnot
        intro b hb
        rw [hkey b hb, Function.update_self]
        intro hkb
        have := (hm k b).mpr ⟨hb, hkb⟩
        rw [hk] at this
        cases this
  | delete k =>
      obtain ⟨a, ha⟩ := Option.ne_none_iff_exists'.mp hlegal
      obtain ⟨hmem, rfl⟩ := (hm k a).mp ha
      refine ⟨rfl, A.erase a, ?_, h.assocDelete hmem⟩
      intro k' b
      simp only [AssocOp.spec, AssocOp.exec, Finset.mem_erase]
      by_cases hk : k' = s.key a
      · subst hk
        rw [Function.update_self]
        simp only [reduceCtorEq, false_iff, not_and]
        rintro ⟨hba, hb⟩ hkb
        have := (hm _ b).mpr ⟨hb, hkb⟩
        rw [ha] at this
        exact hba (Option.some.inj this).symm
      · rw [Function.update_of_ne hk, hm]
        constructor
        · rintro ⟨hb, hkb⟩
          refine ⟨⟨?_, hb⟩, hkb⟩
          rintro rfl
          exact hk hkb.symm
        · rintro ⟨⟨-, hb⟩, hkb⟩
          exact ⟨hb, hkb⟩
  | find k => exact ⟨assocFind_eq hm h k, A, hm, h⟩

theorem assocRun_refines
    {ops : List AssocOp} (hm : Represents s.key m A) (h : s.table.Holds hash s.key A)
    (hlegal : LegalRun m ops) :
  (assocRun hash s ops).2 = (specRun m ops).2 ∧
    ∃ A', Represents (assocRun hash s ops).1.key (specRun m ops).1 A' ∧
      (assocRun hash s ops).1.table.Holds hash (assocRun hash s ops).1.key A'
  := by
  induction ops generalizing s m A with
  | nil => exact ⟨rfl, A, hm, h⟩
  | cons op ops ih =>
      obtain ⟨hret, A₁, hm₁, h₁⟩ := exec_refines op hm h hlegal.1
      obtain ⟨hrets, hrest⟩ := ih hm₁ h₁ hlegal.2
      exact ⟨by rw [assocRun, specRun, hret, hrets], hrest⟩

end Refinement

/-- From any table, in whatever state of expansion, that holds the items of a map: after
any legal run every operation has returned what the map says, `assoc_find` is lookup in
the map, `hash_items` is the number of stored items, and an expansion whose `calloc` fails
leaves the table and all lookups as they are. -/
theorem assoc_refines_map
    (hash : Key → BitVec 32) (s : AssocState) (m : KeyMap) (A : Finset Addr)
    (hm : Represents s.key m A) (h : s.table.Holds hash s.key A) (ops : List AssocOp)
    (hlegal : LegalRun m ops) :
  (assocRun hash s ops).2 = (specRun m ops).2 ∧
    (∀ k, assocFind hash (assocRun hash s ops).1.key (assocRun hash s ops).1.table k
      = (specRun m ops).1 k) ∧
    (assocRun hash s ops).1.table.hashItems = {a | ∃ k, (specRun m ops).1 k = some a}.ncard ∧
    ∀ t, t = (assocRun hash s ops).1.table → t.expanding = false → t.calloc t.callocs = false →
      assocExpand hash (assocRun hash s ops).1.key t
          = { t with oldHashtable := t.primaryHashtable, callocs := t.callocs + 1 } ∧
        ∀ k, assocFind hash (assocRun hash s ops).1.key
          (assocExpand hash (assocRun hash s ops).1.key t) k = (specRun m ops).1 k
  := by
  obtain ⟨hret, A', hm', h'⟩ := assocRun_refines hm h hlegal
  refine ⟨hret, assocFind_eq hm' h', ?_, ?_⟩
  · have hset : {a | ∃ k, (specRun m ops).1 k = some a} = (A' : Set Addr) := by
      ext a
      simp only [Set.mem_ofPred_eq, hm' _ a, Finset.mem_coe]
      constructor
      · rintro ⟨k, ha, -⟩
        exact ha
      · intro ha
        use (assocRun hash s ops).1.key a, ha
    obtain ⟨chains, h'⟩ := h'
    rw [hset, Set.ncard_coe_finset, h'.card]
  · rintro t rfl hexp hfail
    refine ⟨assocExpand_failed hfail, ?_⟩
    exact assocFind_eq (s := ⟨_, (assocRun hash s ops).1.key⟩) hm' (h'.assocExpand hexp)

/-- The table as `assoc_init` leaves it. -/
def assocInit (hashpower : Nat) (calloc : Nat → Bool) : Assoc where
  hNext _ := none
  primaryHashtable _ := none
  oldHashtable _ := none
  hashpower := hashpower
  hashItems := 0
  expanding := false
  expandBucket := 0
  calloc := calloc
  callocs := 0

theorem assocInit_holds
    (hash : Key → BitVec 32) (key : Addr → Key) (hashpower : Nat) (calloc : Nat → Bool) :
  (assocInit hashpower calloc).Holds hash key ∅
  := by
  refine ⟨fun _ => [], ?_, by simp, by simp, rfl, nofun⟩
  intro c _
  cases c <;> rfl

/-- Three insertions into a table of two buckets, of which the last begins an expansion, then
a deletion and two lookups. -/
theorem assoc_refines_map_expanding :
  (assocRun (fun k => BitVec.ofNat 32 k.length) ⟨assocInit 1 (fun _ => true), fun _ => []⟩
      [.insert 8 [1], .insert 16 [1, 2], .insert 24 [1, 2, 3], .insert 32 [2, 2, 2], .delete [1, 2],
        .find [1, 2, 3], .find [1, 2]]).2
    = [none, none, none, none, none, some 24, none]
  := by
  have hlegal : LegalRun (fun _ => none)
      [.insert 8 [1], .insert 16 [1, 2], .insert 24 [1, 2, 3], .insert 32 [2, 2, 2], .delete [1, 2],
        .find [1, 2, 3], .find [1, 2]] := by
    simp [LegalRun, AssocOp.Legal, AssocOp.spec, Function.update_apply]
    grind
  rw [(assoc_refines_map _ ⟨assocInit 1 (fun _ => true), fun _ => []⟩ (fun _ => none) ∅
    (by simp [Represents]) (assocInit_holds _ _ _ _) _ hlegal).1]
  simp [specRun, AssocOp.spec]

end Memcached
