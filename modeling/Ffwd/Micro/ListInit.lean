import Ffwd.Micro.ListMove
import Ffwd.Lib.Decimal

/-!
# The initial lists

The function that builds the lists of the benchmarks before the threads start. The benchmark of one
list goes on to a new node for the sentinel at the end; the one of two lists writes the sentinel
over the last key, and leaves behind it a node that it does not write at all.
-/

namespace Micro

open Linked

variable {Addr : Type} [DecidableEq Addr]

/-! ### Allocation -/

/-- The nodes together with the addresses that `malloc` has left: it hands out none that is in use,
and none twice. -/
structure Arena (Addr : Type) extends Lists Addr where
  free : List Addr
  nodup : free.Nodup
  unused : ∀ a ∈ free, a ∉ used
  null_notMem_free : null ∉ free
  null_notMem_used : null ∉ used

/-- What is at the address stays as it is. -/
def Arena.malloc (m : Arena Addr) : Arena Addr × Addr :=
  match h : m.free with
  | [] => (m, m.null)
  | a :: free =>
      ({ m with
          used := insert a m.used
          free := free
          nodup := (List.nodup_cons.mp (h ▸ m.nodup)).2
          unused := by
            intro b hb hmem
            have hnodup := List.nodup_cons.mp (h ▸ m.nodup)
            rcases Finset.mem_insert.mp hmem with rfl | hmem
            · exact hnodup.1 hb
            · exact m.unused b (h ▸ List.mem_cons_of_mem a hb) hmem
          null_notMem_free := fun hnull => m.null_notMem_free (h ▸ List.mem_cons_of_mem a hnull)
          null_notMem_used := by
            intro hmem
            rcases Finset.mem_insert.mp hmem with hnull | hmem
            · exact m.null_notMem_free (h ▸ hnull ▸ List.mem_cons_self)
            · exact m.null_notMem_used hmem },
        a)

/-- `a->next = b` -/
def Arena.setNext (m : Arena Addr) (a b : Addr) : Arena Addr :=
  { m with next := Function.update m.next a b }

/-- `a->value = v` -/
def Arena.setValue (m : Arena Addr) (a : Addr) (v : Int) : Arena Addr :=
  { m with value := Function.update m.value a v }

/-- `list->head[i] = a` -/
def Arena.setHead (m : Arena Addr) (i : Int) (a : Addr) : Arena Addr :=
  { m with head := Function.update m.head i a }

/-! ### The two lists -/

/-- The next nodes of the last nodes of the lists. -/
def Arena.mallocNext (m : Arena Addr) (node₀ node₁ : Addr) : Option (Arena Addr) :=
  let (m, a) := m.malloc
  let m := m.setNext node₀ a
  let (m, b) := m.malloc
  let m := m.setNext node₁ b
  if m.next node₀ = m.null ∨ m.next node₁ = m.null then none else some m

/-- The loop. A round takes two of the addresses that are left, so that there are no more rounds
than addresses. -/
def Arena.initLoop (initSize valueRange : Int) :
    Nat → Arena Addr → Addr → Addr → Int → Option (Arena Addr × Addr × Addr)
  | n, m, node₀, node₁, i =>
      if i < valueRange then
        match n with
        | 0 => none
        | n + 1 =>
            match m.mallocNext node₀ node₁ with
            | none => none
            | some m =>
                let node₀ := m.next node₀
                let node₁ := m.next node₁
                let m := (m.setValue node₀ i).setValue node₁ (i + 1)
                m.initLoop initSize valueRange n node₀ node₁
                  (Decimal.toInt32 (i + valueRange.tdiv initSize))
      else some (m, node₀, node₁)

/-- The object of the lists, and their heads. -/
def Arena.initHeads (m : Arena Addr) : Option (Arena Addr) :=
  let (m, list) := m.malloc
  if list = m.null then none
  else
    let (m, a) := m.malloc
    let m := m.setHead 0 a
    let (m, b) := m.malloc
    let m := m.setHead 1 b
    if m.head 0 = m.null ∨ m.head 1 = m.null then none
    else some ((m.setValue (m.head 0) Lists.intMin).setValue (m.head 1) Lists.intMin)

/-- `none` is the null pointer. -/
def Arena.listGlobalInit (m : Arena Addr) (initSize valueRange : Int) : Option (Arena Addr) :=
  match m.initHeads with
  | none => none
  | some m =>
      match m.initLoop initSize valueRange m.free.length (m.head 0) (m.head 1) 0 with
      | none => none
      | some (m, node₀, node₁) =>
          match m.mallocNext node₀ node₁ with
          | none => none
          | some m => some ((m.setValue node₀ Lists.intMax).setValue node₁ Lists.intMax)

/-! ### The list of the other benchmark -/

/-- The loop of the benchmark of one list. -/
def Arena.initLoopFfwd (initSize valueRange : Int) :
    Nat → Arena Addr → Addr → Int → Option (Arena Addr × Addr)
  | n, m, node, i =>
      if i < valueRange then
        match n with
        | 0 => none
        | n + 1 =>
            let (m, a) := m.malloc
            let m := m.setNext node a
            if m.next node = m.null then none
            else
              let node := m.next node
              (m.setValue node i).initLoopFfwd initSize valueRange n node
                (Decimal.toInt32 (i + valueRange.tdiv initSize))
      else some (m, node)

/-- It has one list, the first. -/
def Arena.listGlobalInitFfwd (m : Arena Addr) (initSize valueRange : Int) : Option (Arena Addr) :=
  let (m, list) := m.malloc
  if list = m.null then none
  else
    let (m, a) := m.malloc
    let m := m.setHead 0 a
    let node := m.head 0
    if node = m.null then none
    else
      let m := m.setValue node Lists.intMin
      match m.initLoopFfwd initSize valueRange m.free.length node 0 with
      | none => none
      | some (m, node) =>
          let (m, a) := m.malloc
          let m := m.setNext node a
          if m.next node = m.null then none
          else
            let node := m.next node
            some ((m.setValue node Lists.intMax).setNext node m.null)

/-! ### What the lists are to be -/

/-- The multiples of the distance below the range, and their successors. -/
def initialKeys (initSize valueRange : Int) (i : Int) : Finset Int :=
  ((Finset.range valueRange.toNat).filter
    fun k : Nat => valueRange.tdiv initSize ∣ (k : Int)).image fun k : Nat => (k : Int) + i

/-- A list that ends in the sentinel. -/
def Lists.EndsInNull (m : Lists Addr) (i : Int) : Prop :=
  ∃ l tail, m.Chained i l tail ∧ m.next tail = m.null

/-- The lists are sorted and have the keys, and nothing is behind the sentinels. -/
def Lists.Initial (m : Lists Addr) (initSize valueRange : Int) : Prop :=
  m.Sorted (initialKeys initSize valueRange) ∧ m.EndsInNull 0 ∧ m.EndsInNull 1

/-- A list with its sentinel. -/
structure Lists.Ended (m : Lists Addr) (i : Int) (l : List Addr) (tail : Addr)
    (values : List Int) : Prop where
  path : Path m.next (m.head i) l tail
  values : (m.head i :: (l ++ [tail])).map m.value = Lists.intMin :: (values ++ [Lists.intMax])
  used : ∀ a ∈ m.head i :: (l ++ [tail]), a ∈ m.used

section Ended

variable {m : Lists Addr} {i : Int} {l : List Addr} {tail : Addr} {values : List Int}

omit [DecidableEq Addr]

theorem Lists.Ended.head (h : m.Ended i l tail values) :
  m.value (m.head i) = Lists.intMin
  := (List.cons.inj h.values).1

theorem Lists.Ended.map_value (h : m.Ended i l tail values) :
  l.map m.value = values ∧ m.value tail = Lists.intMax
  := by
  have hvalues := (List.cons.inj h.values).2
  rw [List.map_append, List.map_singleton] at hvalues
  obtain ⟨hvalues, htail⟩ := List.append_inj' hvalues rfl
  exact ⟨hvalues, (List.cons.inj htail).1⟩

theorem Lists.Ended.chained
    (h : m.Ended i l tail values)
    (hvalues : (Lists.intMin :: (values ++ [Lists.intMax])).Pairwise (· < ·)) :
  m.Chained i l tail
  := by
  refine ⟨⟨h.path, ?_⟩, h.head, h.map_value.2, h.used⟩
  rw [← h.values, List.pairwise_map] at hvalues
  exact hvalues

/-- With a node behind the sentinel the list does not end in the null pointer: a sorted path cannot
go on behind the largest value. -/
theorem Lists.Ended.not_endsInNull
    (h : m.Ended i l tail values) (hnull : m.null ∉ m.used) (hnext : m.next tail ≠ m.null) :
  ¬m.EndsInNull i
  := by
  rintro ⟨l', tail', hchained, hend⟩
  have hpath : Path m.next (m.head i) (l ++ [tail]) (m.next tail) :=
    Path.append_iff.mpr ⟨h.path, h.path.next_last ▸ ⟨rfl, rfl⟩⟩
  have htail : tail ∈ l' := by
    apply hpath.mem_of_path hchained.path.path
    · rw [hend]
      intro a ha
      rcases List.mem_append.mp ha with ha | ha
      · rintro rfl
        exact hnull (h.used _ (List.mem_cons_of_mem _ ha))
      · rw [List.mem_singleton.mp ha]
        exact hnext
    · simp
  have hlt := (List.pairwise_append.mp (List.pairwise_cons.mp hchained.path.increasing).2).2.2 tail
    htail tail' List.mem_cons_self
  rw [hchained.maximum, h.map_value.2] at hlt
  exact lt_irrefl _ hlt

end Ended

/-! ### What is built -/

section Malloc

variable {m : Arena Addr} {a b node₀ node₁ : Addr} {free : List Addr}

theorem Arena.malloc_nil (h : m.free = []) :
  m.malloc = (m, m.null)
  := by
  unfold malloc
  split
  · rfl
  · rename_i heq
    rw [h] at heq
    cases heq

theorem Arena.malloc_cons (h : m.free = a :: free) :
  ∃ m', m.malloc = (m', a) ∧ m'.toLists = { m.toLists with used := insert a m.used } ∧
    m'.free = free
  := by
  unfold malloc
  split
  · rename_i heq
    rw [h] at heq
    cases heq
  · rename_i heq
    obtain ⟨rfl, rfl⟩ := List.cons.inj (heq.symm.trans h)
    exact ⟨_, rfl, rfl, rfl⟩

theorem Arena.ne_null_of_malloc
    {m' : Arena Addr} (h : m.free = a :: free)
    (hlists : m'.toLists = { m.toLists with used := insert a m.used }) :
  a ≠ m'.null
  := by
  have hnull : m'.null = m.null := by
    rw [hlists]
  rw [hnull]
  rintro rfl
  exact m.null_notMem_free (h ▸ List.mem_cons_self)

/-- The allocation takes two addresses. -/
theorem Arena.mallocNext_eq (h : m.free = a :: b :: free) (hne : node₀ ≠ node₁) :
  ∃ m', m.mallocNext node₀ node₁ = some m' ∧
    m'.toLists = { m.toLists with
      next := Function.update (Function.update m.next node₀ a) node₁ b
      used := insert b (insert a m.used) } ∧
    m'.free = free
  := by
  obtain ⟨m₁, hmalloc, hlists, hfree⟩ := malloc_cons h
  obtain ⟨m₂, hmalloc', hlists', hfree'⟩ := malloc_cons (m := m₁.setNext node₀ a) hfree
  have hnull : m₂.null = m.null := by
    rw [hlists']
    show m₁.null = m.null
    rw [hlists]
  have hnext : m₂.next = Function.update m.next node₀ a := by
    rw [hlists']
    show Function.update m₁.next node₀ a = _
    rw [hlists]
  have hwritten : ¬((m₂.setNext node₁ b).next node₀ = m₂.null ∨
      (m₂.setNext node₁ b).next node₁ = m₂.null) := by
    simp only [setNext]
    rw [hnext, hnull, Function.update_of_ne hne, Function.update_self, Function.update_self]
    rintro (rfl | rfl)
    · exact m.null_notMem_free (h ▸ List.mem_cons_self)
    · exact m.null_notMem_free (h ▸ List.mem_cons_of_mem _ List.mem_cons_self)
  refine ⟨m₂.setNext node₁ b, ?_, ?_, hfree'⟩
  · rw [mallocNext, hmalloc]
    simp only
    rw [hmalloc']
    exact if_neg hwritten
  · simp only [setNext]
    rw [hnext, hlists']
    simp only [setNext]
    rw [hlists]

theorem Arena.free_of_mallocNext {m' : Arena Addr} (h : m.mallocNext node₀ node₁ = some m') :
  ∃ a b, m.free = a :: b :: m'.free
  := by
  cases hfree : m.free with
  | nil =>
      rw [mallocNext, malloc_nil hfree] at h
      simp only at h
      rw [malloc_nil (show (m.setNext node₀ m.null).free = [] from hfree)] at h
      simp [setNext] at h
  | cons a free =>
      obtain ⟨m₁, hmalloc, hlists, hfree₁⟩ := malloc_cons hfree
      rw [mallocNext, hmalloc] at h
      simp only at h
      cases hfree' : free with
      | nil =>
          rw [malloc_nil (show (m₁.setNext node₀ a).free = [] by rw [← hfree', ← hfree₁]; rfl)] at h
          simp [setNext] at h
      | cons b free =>
          obtain ⟨m₂, hmalloc', hlists', hfree₂⟩ := malloc_cons
            (show (m₁.setNext node₀ a).free = b :: free by rw [← hfree', ← hfree₁]; rfl)
          rw [hmalloc'] at h
          simp only at h
          split at h
          · cases h
          · obtain rfl := Option.some.inj h
            exact ⟨a, b, by rw [← hfree₂]; rfl⟩

end Malloc

section Open

variable {m m' : Lists Addr} {i v : Int} {l : List Addr} {values : List Int} {a x : Addr}

/-- A list that is still being built: what is behind its last node is not said. -/
structure Lists.Open (m : Lists Addr) (i : Int) (l : List Addr) (values : List Int) : Prop where
  path : Path m.next (m.head i) l (m.next (last (m.head i) l))
  nodup : (m.head i :: l).Nodup
  values : (m.head i :: l).map m.value = Lists.intMin :: values
  used : ∀ a ∈ m.head i :: l, a ∈ m.used

/-- A node is put behind the last. -/
theorem Lists.Open.append
    (h : m.Open i l values) (ha : a ∉ m.used) (hhead : m'.head i = m.head i)
    (hlast : m'.next (last (m.head i) l) = a)
    (hnext : ∀ c ∈ m.head i :: l, c ≠ last (m.head i) l → m'.next c = m.next c)
    (hvalue : ∀ c ∈ m.head i :: l, m'.value c = m.value c) (hv : m'.value a = v)
    (hused : insert a m.used ⊆ m'.used) :
  m'.Open i (l ++ [a]) (values ++ [v])
  := by
  obtain ⟨hpath, hnodup, hvalues, hmem⟩ := h
  have hnotMem : a ∉ m.head i :: l := fun h => ha (hmem a h)
  have hpath' : Path m'.next (m.head i) l a := by
    apply (hpath.setLast hnodup a).congr_of_mem
    intro c hc
    by_cases heq : c = last (m.head i) l
    · rw [heq, hlast, Function.update_self]
    · rw [hnext c hc heq, Function.update_of_ne heq]
  constructor
  · rw [hhead, last_concat, Path.append_iff]
    refine ⟨hpath', hlast, rfl⟩
  · rw [hhead, ← List.cons_append]
    rw [← List.concat_eq_append]
    exact hnodup.concat hnotMem
  · rw [hhead, ← List.cons_append, List.map_append, List.map_congr_left hvalue, hvalues,
      List.map_singleton, hv, List.cons_append]
  · intro c hc
    rw [hhead, ← List.cons_append, List.mem_append, List.mem_singleton] at hc
    apply hused
    rcases hc with hc | rfl
    · exact Finset.mem_insert_of_mem (hmem c hc)
    · exact Finset.mem_insert_self _ _

omit [DecidableEq Addr] in
/-- The last node becomes the sentinel. -/
theorem Lists.Open.finish
    (h : m.Open i (l ++ [a]) (values ++ [v])) (hhead : m'.head i = m.head i)
    (hnext : ∀ c ∈ m.head i :: l, m'.next c = m.next c)
    (hvalue : ∀ c ∈ m.head i :: l, m'.value c = m.value c) (ha : m'.value a = Lists.intMax)
    (hused : m.used ⊆ m'.used) :
  m'.Ended i l a values
  := by
  obtain ⟨hpath, hnodup, hvalues, hmem⟩ := h
  rw [← hhead] at hpath hvalues hmem hnext hvalue
  refine ⟨(Path.append_iff.mp hpath).1.congr_of_mem hnext, ?_, fun c hc => hused (hmem c hc)⟩
  rw [← List.cons_append, List.map_append] at hvalues ⊢
  rw [← List.cons_append] at hvalues
  obtain ⟨hvalues, -⟩ := List.append_inj' hvalues rfl
  rw [List.map_congr_left hvalue, hvalues, List.map_singleton, ha, List.cons_append]

end Open

section Build

variable {m m' : Arena Addr} {l₀ l₁ : List Addr} {values₀ values₁ : List Int}
  {a b : Addr} {free : List Addr} {i valueRange distance : Int} {counts : List Int}

/-- Both lists are being built. -/
structure Lists.Building (m : Lists Addr) (l₀ l₁ : List Addr) (values₀ values₁ : List Int) :
    Prop where
  open₀ : m.Open 0 l₀ values₀
  open₁ : m.Open 1 l₁ values₁
  apart : ∀ a ∈ m.head 0 :: l₀, a ∉ m.head 1 :: l₁

omit [DecidableEq Addr] in
theorem Lists.Building.last_ne (h : m.Building l₀ l₁ values₀ values₁) :
  last (m.head 0) l₀ ≠ last (m.head 1) l₁
  := by
  intro heq
  exact h.apart _ last_mem (heq ▸ last_mem)

/-- A round of the loop. -/
theorem Arena.mallocNext_building
    (h : m.Building l₀ l₁ values₀ values₁) (hfree : m.free = a :: b :: free) (i j : Int) :
  ∃ m', m.mallocNext (last (m.head 0) l₀) (last (m.head 1) l₁) = some m' ∧
    m'.next (last (m.head 0) l₀) = a ∧ m'.next (last (m.head 1) l₁) = b ∧ m'.free = free ∧
    m'.head = m.head ∧
    ((m'.setValue a i).setValue b j).Building (l₀ ++ [a]) (l₁ ++ [b]) (values₀ ++ [i])
      (values₁ ++ [j])
  := by
  obtain ⟨m', hmalloc, hlists, hfree'⟩ := mallocNext_eq hfree h.last_ne
  have hnext : m'.next = Function.update (Function.update m.next (last (m.head 0) l₀) a)
      (last (m.head 1) l₁) b := by
    rw [hlists]
  have hvalue : m'.value = m.value := by
    rw [hlists]
  have hused : m'.used = insert b (insert a m.used) := by
    rw [hlists]
  have hhead : m'.head = m.head := by
    rw [hlists]
  have hnodup := hfree ▸ m.nodup
  have hne : a ≠ b := by
    rintro rfl
    exact (List.nodup_cons.mp hnodup).1 List.mem_cons_self
  have ha : a ∉ m.used := m.unused a (hfree ▸ List.mem_cons_self)
  have hb : b ∉ m.used := m.unused b (hfree ▸ List.mem_cons_of_mem a List.mem_cons_self)
  have hvalue' : ∀ c ∈ m.used, ((m'.setValue a i).setValue b j).value c = m.value c := by
    intro c hc
    simp only [setValue]
    rw [Function.update_of_ne, Function.update_of_ne, hvalue]
    · rintro rfl
      exact ha hc
    · rintro rfl
      exact hb hc
  refine ⟨m', hmalloc, ?_, ?_, hfree', hhead, ?_, ?_, ?_⟩
  · rw [hnext, Function.update_of_ne h.last_ne, Function.update_self]
  · rw [hnext, Function.update_self]
  · apply h.open₀.append ha
    · exact congrFun hhead 0
    · show m'.next _ = a
      rw [hnext, Function.update_of_ne h.last_ne, Function.update_self]
    · intro c hc hlast
      show m'.next c = _
      rw [hnext, Function.update_of_ne, Function.update_of_ne hlast]
      rintro rfl
      exact h.apart _ hc last_mem
    · intro c hc
      exact hvalue' c (h.open₀.used c hc)
    · simp only [setValue]
      rw [Function.update_of_ne hne, Function.update_self]
    · show _ ⊆ m'.used
      rw [hused]
      exact Finset.subset_insert _ _
  · apply h.open₁.append hb
    · exact congrFun hhead 1
    · show m'.next _ = b
      rw [hnext, Function.update_self]
    · intro c hc hlast
      show m'.next c = _
      rw [hnext, Function.update_of_ne hlast, Function.update_of_ne]
      rintro rfl
      exact h.apart _ last_mem hc
    · intro c hc
      exact hvalue' c (h.open₁.used c hc)
    · simp only [setValue]
      rw [Function.update_self]
    · show _ ⊆ m'.used
      rw [hused]
      apply Finset.insert_subset_insert
      exact Finset.subset_insert _ _
  · intro c hc hc'
    have hc₀ : c ∈ m.head 0 :: l₀ ∨ c = a := by
      change c ∈ m'.head 0 :: (l₀ ++ [a]) at hc
      rw [hhead, ← List.cons_append, List.mem_append, List.mem_singleton] at hc
      exact hc
    have hc₁ : c ∈ m.head 1 :: l₁ ∨ c = b := by
      change c ∈ m'.head 1 :: (l₁ ++ [b]) at hc'
      rw [hhead, ← List.cons_append, List.mem_append, List.mem_singleton] at hc'
      exact hc'
    rcases hc₀ with hc₀ | hc₀
    · rcases hc₁ with hc₁ | hc₁
      · exact h.apart c hc₀ hc₁
      · exact hb (hc₁ ▸ h.open₀.used c hc₀)
    · rcases hc₁ with hc₁ | hc₁
      · exact ha (hc₀ ▸ h.open₁.used c hc₁)
      · exact hne (hc₀.symm.trans hc₁)

/-- The values of the counter in the rounds of the loop. -/
def Counts (valueRange distance : Int) : Int → List Int → Prop
  | i, [] => ¬i < valueRange
  | i, j :: counts =>
      i < valueRange ∧ j = i ∧ Counts valueRange distance (Decimal.toInt32 (i + distance)) counts

/-- The loop puts its counter into the one list and the successors into the other. -/
theorem Arena.initLoop_building
    {initSize : Int} {n : Nat} (h : m.Building l₀ l₁ values₀ values₁)
    (hcounts : Counts valueRange (valueRange.tdiv initSize) i counts) (hn : counts.length ≤ n)
    (hfree : 2 * counts.length ≤ m.free.length) :
  ∃ m' l₀' l₁',
    m.initLoop initSize valueRange n (last (m.head 0) l₀) (last (m.head 1) l₁) i =
      some (m', last (m'.head 0) (l₀ ++ l₀'), last (m'.head 1) (l₁ ++ l₁')) ∧
    m'.Building (l₀ ++ l₀') (l₁ ++ l₁') (values₀ ++ counts) (values₁ ++ counts.map (· + 1)) ∧
    l₀'.length = counts.length ∧ l₁'.length = counts.length ∧
    m'.free.length + 2 * counts.length = m.free.length
  := by
  induction counts generalizing m l₀ l₁ values₀ values₁ i n with
  | nil =>
      refine ⟨m, [], [], ?_, ?_, rfl, rfl, rfl⟩
      · unfold Arena.initLoop
        rw [if_neg hcounts, List.append_nil, List.append_nil]
      · simpa only [List.append_nil, List.map_nil] using h
  | cons j counts ih =>
      obtain ⟨hi, rfl, hcounts⟩ := hcounts
      obtain ⟨n, rfl⟩ : ∃ n', n = n' + 1 := ⟨n - 1, by simp at hn; omega⟩
      obtain ⟨a, b, free, hfree'⟩ : ∃ a b free, m.free = a :: b :: free := by
        cases h : m.free with
        | nil => simp [h] at hfree
        | cons a free =>
            cases free with
            | nil => simp [h] at hfree; omega
            | cons b free => exact ⟨a, b, free, rfl⟩
      obtain ⟨m', hmalloc, ha, hb, hm', hhead, hbuilding⟩ := mallocNext_building h hfree' j (j + 1)
      have hlength : m.free.length = free.length + 2 := by
        rw [hfree']
        rfl
      obtain ⟨m'', l₀', l₁', hloop, hbuilding', hl₀', hl₁', hfree''⟩ :=
        ih hbuilding hcounts (Nat.le_of_succ_le_succ hn) (by
          show _ ≤ m'.free.length
          rw [hm']
          simp at hfree
          omega)
      refine ⟨m'', a :: l₀', b :: l₁', ?_, ?_, ?_, ?_, ?_⟩
      · unfold Arena.initLoop
        rw [if_pos hi]
        simp only [hmalloc, ha, hb]
        simp only [last_concat, List.append_assoc, List.singleton_append] at hloop
        exact hloop
      · simpa only [List.append_assoc, List.singleton_append, List.map_cons] using hbuilding'
      · rw [List.length_cons, List.length_cons, hl₀']
      · rw [List.length_cons, List.length_cons, hl₁']
      · change m''.free.length + _ = m'.free.length at hfree''
        rw [hm'] at hfree''
        rw [List.length_cons, hlength]
        omega

/-- A loop that ends has had the memory for its rounds. -/
theorem Arena.counts_of_initLoop
    {initSize : Int} {n : Nat} {node₀ node₁ : Addr} {r : Arena Addr × Addr × Addr}
    (h : m.initLoop initSize valueRange n node₀ node₁ i = some r) :
  ∃ counts, Counts valueRange (valueRange.tdiv initSize) i counts ∧
    r.1.free.length + 2 * counts.length = m.free.length
  := by
  induction n generalizing m node₀ node₁ i with
  | zero =>
      unfold Arena.initLoop at h
      by_cases hi : i < valueRange
      · rw [if_pos hi] at h
        cases h
      · rw [if_neg hi] at h
        obtain rfl := Option.some.inj h
        exact ⟨[], hi, rfl⟩
  | succ n ih =>
      unfold Arena.initLoop at h
      by_cases hi : i < valueRange
      · rw [if_pos hi] at h
        cases hmalloc : m.mallocNext node₀ node₁ with
        | none => simp [hmalloc] at h
        | some m' =>
            simp only [hmalloc] at h
            obtain ⟨counts, hcounts, hfree⟩ := ih h
            obtain ⟨a, b, hm⟩ := free_of_mallocNext hmalloc
            refine ⟨i :: counts, ⟨hi, rfl, hcounts⟩, ?_⟩
            change _ = m'.free.length at hfree
            rw [hm, List.length_cons, List.length_cons, List.length_cons]
            omega
      · rw [if_neg hi] at h
        obtain rfl := Option.some.inj h
        exact ⟨[], hi, rfl⟩

/-- The heads, before there is anything behind them. -/
theorem Arena.initHeads_eq {list : Addr} (h : m.free = list :: a :: b :: free) :
  ∃ m', m.initHeads = some m' ∧ m'.Building [] [] [] [] ∧ m'.free = free
  := by
  obtain ⟨m₀, hmalloc₀, hlists₀, hfree₀⟩ := malloc_cons h
  obtain ⟨m₁, hmalloc₁, hlists₁, hfree₁⟩ := malloc_cons hfree₀
  obtain ⟨m₂, hmalloc₂, hlists₂, hfree₂⟩ := malloc_cons (m := m₁.setHead 0 a) hfree₁
  have hnull₀ : m₀.null = m.null := by
    rw [hlists₀]
  have hnull : m₂.null = m.null := by
    rw [hlists₂]
    show m₁.null = m.null
    rw [hlists₁, ← hnull₀]
  have hhead₀ : (m₂.setHead 1 b).head 0 = a := by
    simp only [setHead]
    rw [Function.update_of_ne (by decide), hlists₂]
    exact Function.update_self (0 : Int) a m₁.head
  have hhead₁ : (m₂.setHead 1 b).head 1 = b := by
    simp only [setHead]
    rw [Function.update_self]
  have hnodup := h ▸ m.nodup
  have hne : a ≠ b := by
    rintro rfl
    exact (List.nodup_cons.mp (List.nodup_cons.mp hnodup).2).1 List.mem_cons_self
  have hnull' : ∀ c ∈ [list, a, b], c ≠ m.null := by
    rintro c hc rfl
    apply m.null_notMem_free
    rw [h]
    exact List.mem_append_left free hc
  have hused : m₂.used = insert b (insert a m₀.used) := by
    rw [hlists₂]
    show insert b m₁.used = _
    rw [hlists₁]
  refine ⟨((m₂.setHead 1 b).setValue a Lists.intMin).setValue b Lists.intMin, ?_, ?_, hfree₂⟩
  · rw [initHeads, hmalloc₀]
    simp only
    rw [if_neg (by rw [hnull₀]; exact hnull' list (by simp)), hmalloc₁]
    simp only
    rw [hmalloc₂]
    simp only
    rw [hhead₀, hhead₁, if_neg]
    rintro (heq | heq)
    · exact hnull' a (by simp) (heq.trans hnull)
    · exact hnull' b (by simp) (heq.trans hnull)
  · have hhead₀' : (((m₂.setHead 1 b).setValue a Lists.intMin).setValue b Lists.intMin).head 0 = a :=
      hhead₀
    have hhead₁' : (((m₂.setHead 1 b).setValue a Lists.intMin).setValue b Lists.intMin).head 1 = b :=
      hhead₁
    refine ⟨⟨rfl, List.nodup_singleton _, ?_, ?_⟩, ⟨rfl, List.nodup_singleton _, ?_, ?_⟩, ?_⟩
    · rw [hhead₀', List.map_singleton]
      simp only [setValue]
      rw [Function.update_of_ne hne, Function.update_self]
    · rw [hhead₀', List.forall_mem_singleton]
      show a ∈ m₂.used
      rw [hused]
      exact Finset.mem_insert_of_mem (Finset.mem_insert_self _ _)
    · rw [hhead₁', List.map_singleton]
      simp only [setValue]
      rw [Function.update_self]
    · rw [hhead₁', List.forall_mem_singleton]
      show b ∈ m₂.used
      rw [hused]
      exact Finset.mem_insert_self _ _
    · rw [hhead₀', hhead₁', List.forall_mem_singleton, List.mem_singleton]
      exact hne

theorem Arena.free_of_initHeads (h : m.initHeads = some m') :
  m'.free.length + 3 = m.free.length
  := by
  cases hfree : m.free with
  | nil =>
      rw [initHeads, malloc_nil hfree] at h
      simp at h
  | cons list free =>
      obtain ⟨m₀, hmalloc₀, hlists₀, hfree₀⟩ := malloc_cons hfree
      rw [initHeads, hmalloc₀] at h
      simp only at h
      cases free with
      | nil =>
          rw [malloc_nil hfree₀] at h
          simp only at h
          rw [malloc_nil (show (m₀.setHead 0 m₀.null).free = [] from hfree₀)] at h
          simp [setHead] at h
      | cons a free =>
          obtain ⟨m₁, hmalloc₁, hlists₁, hfree₁⟩ := malloc_cons hfree₀
          rw [hmalloc₁] at h
          simp only at h
          cases free with
          | nil =>
              rw [malloc_nil (show (m₁.setHead 0 a).free = [] from hfree₁)] at h
              simp [setHead] at h
          | cons b free =>
              obtain ⟨m₂, hmalloc₂, hlists₂, hfree₂⟩ := malloc_cons (m := m₁.setHead 0 a) hfree₁
              rw [hmalloc₂] at h
              simp only at h
              split at h
              · cases h
              · split at h
                · cases h
                · obtain rfl := Option.some.inj h
                  show m₂.free.length + 3 = _
                  rw [hfree₂, List.length_cons, List.length_cons, List.length_cons]

/-- The lists that the function returns: the sentinels have taken the places of the last keys, and
point to nodes. -/
structure Lists.Overwritten (m : Lists Addr) (counts : List Int) : Prop where
  null_notMem : m.null ∉ m.used
  ended : ∃ l₀ tail₀ l₁ tail₁,
    m.Ended 0 l₀ tail₀ counts ∧ m.Ended 1 l₁ tail₁ (counts.map (· + 1)) ∧
    m.next tail₀ ≠ m.null ∧ m.next tail₁ ≠ m.null ∧
    ∀ a ∈ m.head 0 :: (l₀ ++ [tail₀]), a ∉ m.head 1 :: (l₁ ++ [tail₁])

/-- The sentinels are written. -/
theorem Arena.mallocNext_overwritten
    {node₀ node₁ : Addr} {j : Int}
    (h : m.Building (l₀ ++ [node₀]) (l₁ ++ [node₁]) (counts ++ [i]) (counts.map (· + 1) ++ [j]))
    (hfree : m.free = a :: b :: free) :
  ∃ m', m.mallocNext node₀ node₁ = some m' ∧
    ((m'.setValue node₀ Lists.intMax).setValue node₁ Lists.intMax).Overwritten counts
  := by
  have hne := h.last_ne
  rw [last_concat, last_concat] at hne
  obtain ⟨m', hmalloc, hlists, -⟩ := mallocNext_eq hfree hne
  have hnext : m'.next = Function.update (Function.update m.next node₀ a) node₁ b := by
    rw [hlists]
  have hvalue : m'.value = m.value := by
    rw [hlists]
  have hused : m'.used = insert b (insert a m.used) := by
    rw [hlists]
  have hhead : m'.head = m.head := by
    rw [hlists]
  have hsubset : m.used ⊆ m'.used := by
    rw [hused]
    exact (Finset.subset_insert _ _).trans (Finset.subset_insert _ _)
  have hlast₀ : ∀ c ∈ m.head 0 :: l₀, c ≠ node₀ := by
    have hnodup := h.open₀.nodup
    rw [← List.cons_append] at hnodup
    intro c hc
    exact (List.nodup_append.mp hnodup).2.2 c hc node₀ List.mem_cons_self
  have hlast₁ : ∀ c ∈ m.head 1 :: l₁, c ≠ node₁ := by
    have hnodup := h.open₁.nodup
    rw [← List.cons_append] at hnodup
    intro c hc
    exact (List.nodup_append.mp hnodup).2.2 c hc node₁ List.mem_cons_self
  have hother₀ : ∀ c ∈ m.head 0 :: l₀, c ≠ node₁ := by
    rintro c hc rfl
    apply h.apart c
    · rw [← List.cons_append]
      exact List.mem_append_left _ hc
    · rw [← List.cons_append]
      exact List.mem_append_right _ List.mem_cons_self
  have hother₁ : ∀ c ∈ m.head 1 :: l₁, c ≠ node₀ := by
    rintro c hc rfl
    apply h.apart c
    · rw [← List.cons_append]
      exact List.mem_append_right _ List.mem_cons_self
    · rw [← List.cons_append]
      exact List.mem_append_left _ hc
  have hfresh : ∀ c ∈ m.free, c ≠ m'.null := by
    rw [show m'.null = m.null by rw [hlists]]
    rintro c hc rfl
    exact m.null_notMem_free hc
  refine ⟨m', hmalloc, m'.null_notMem_used, l₀, node₀, l₁, node₁, ?_, ?_, ?_, ?_, ?_⟩
  · refine h.open₀.finish ?_ ?_ ?_ ?_ hsubset
    · exact congrFun hhead 0
    · intro c hc
      show m'.next c = _
      rw [hnext, Function.update_of_ne (hother₀ c hc), Function.update_of_ne (hlast₀ c hc)]
    · intro c hc
      simp only [setValue]
      rw [hvalue, Function.update_of_ne (hother₀ c hc), Function.update_of_ne (hlast₀ c hc)]
    · simp only [setValue]
      rw [Function.update_of_ne hne, Function.update_self]
  · refine h.open₁.finish ?_ ?_ ?_ ?_ hsubset
    · exact congrFun hhead 1
    · intro c hc
      show m'.next c = _
      rw [hnext, Function.update_of_ne (hlast₁ c hc), Function.update_of_ne (hother₁ c hc)]
    · intro c hc
      simp only [setValue]
      rw [hvalue, Function.update_of_ne (hlast₁ c hc), Function.update_of_ne (hother₁ c hc)]
    · simp only [setValue]
      rw [Function.update_self]
  · show m'.next node₀ ≠ m'.null
    rw [hnext, Function.update_of_ne hne, Function.update_self]
    exact hfresh a (hfree ▸ List.mem_cons_self)
  · show m'.next node₁ ≠ m'.null
    rw [hnext, Function.update_self]
    exact hfresh b (hfree ▸ List.mem_cons_of_mem a List.mem_cons_self)
  · show ∀ c ∈ m'.head 0 :: _, c ∉ m'.head 1 :: _
    rw [hhead]
    exact h.apart

/-- With the memory for it the function ends, and the last value of the counter is in neither
list. -/
theorem listGlobalInit_overwritten
    {initSize : Int} (hcounts : Counts valueRange (valueRange.tdiv initSize) 0 (counts ++ [i]))
    (hfree : 2 * counts.length + 7 ≤ m.free.length) :
  ∃ m', Arena.listGlobalInit m initSize valueRange = some m' ∧ m'.Overwritten counts
  := by
  obtain ⟨list, free, hlist⟩ := List.exists_cons_of_length_pos (show 0 < m.free.length by omega)
  have hlength := congrArg List.length hlist
  rw [List.length_cons] at hlength
  obtain ⟨a, free, rfl⟩ := List.exists_cons_of_length_pos (show 0 < free.length by omega)
  rw [List.length_cons] at hlength
  obtain ⟨b, free, rfl⟩ := List.exists_cons_of_length_pos (show 0 < free.length by omega)
  rw [List.length_cons] at hlength
  obtain ⟨m₁, hheads, hbuilding, hfree₁⟩ := Arena.initHeads_eq hlist
  have hcard : (counts ++ [i]).length = counts.length + 1 := by
    rw [List.length_append, List.length_singleton]
  obtain ⟨m₂, l₀, l₁, hloop, hbuilding, hl₀, hl₁, hfree₂⟩ :=
    Arena.initLoop_building (n := m₁.free.length) hbuilding hcounts
      (by rw [hfree₁, hcard]; omega) (by rw [hfree₁, hcard]; omega)
  rw [hcard] at hl₀ hl₁ hfree₂
  rw [hfree₁] at hfree₂
  obtain ⟨a, free₂, hm₂⟩ := List.exists_cons_of_length_pos (show 0 < m₂.free.length by omega)
  have hlength₂ := congrArg List.length hm₂
  rw [List.length_cons] at hlength₂
  obtain ⟨b, free₂, rfl⟩ := List.exists_cons_of_length_pos (show 0 < free₂.length by omega)
  obtain ⟨l₀, node₀, rfl⟩ := (List.eq_nil_or_concat' l₀).resolve_left (by rintro rfl; cases hl₀)
  obtain ⟨l₁, node₁, rfl⟩ := (List.eq_nil_or_concat' l₁).resolve_left (by rintro rfl; cases hl₁)
  simp only [List.nil_append, List.map_append, List.map_singleton, last_concat, last_nil]
    at hloop hbuilding
  obtain ⟨m₃, hmalloc, hoverwritten⟩ := Arena.mallocNext_overwritten hbuilding hm₂
  refine ⟨_, ?_, hoverwritten⟩
  rw [Arena.listGlobalInit]
  simp only [hheads, hloop, hmalloc]

/-- A call that does not return the null pointer has had the memory. -/
theorem counts_of_listGlobalInit
    {initSize : Int} (hrange : 0 < valueRange) (h : Arena.listGlobalInit m initSize valueRange = some m') :
  ∃ counts i, Counts valueRange (valueRange.tdiv initSize) 0 (counts ++ [i]) ∧
    2 * counts.length + 7 ≤ m.free.length
  := by
  rw [Arena.listGlobalInit] at h
  cases hheads : m.initHeads with
  | none => simp [hheads] at h
  | some m₁ =>
      simp only [hheads] at h
      cases hloop : m₁.initLoop initSize valueRange m₁.free.length (m₁.head 0) (m₁.head 1) 0 with
      | none => simp [hloop] at h
      | some r =>
          obtain ⟨m₂, node₀, node₁⟩ := r
          simp only [hloop] at h
          cases hmalloc : m₂.mallocNext node₀ node₁ with
          | none => simp [hmalloc] at h
          | some m₃ =>
              obtain ⟨counts, hcounts, hfree⟩ := Arena.counts_of_initLoop hloop
              obtain ⟨a, b, hfree'⟩ := Arena.free_of_mallocNext hmalloc
              have hfree'' := Arena.free_of_initHeads hheads
              have hlength := congrArg List.length hfree'
              rw [List.length_cons, List.length_cons] at hlength
              rcases List.eq_nil_or_concat' counts with rfl | ⟨counts, i, rfl⟩
              · exact absurd hrange hcounts
              · refine ⟨counts, i, hcounts, ?_⟩
                rw [List.length_append, List.length_singleton] at hfree
                change m₂.free.length + _ = _ at hfree
                omega

end Build

section Keys

variable {valueRange distance : Int} {n : Nat}

/-- Without an overflow the counter takes the multiples of the distance. -/
theorem counts_range'
    {k r : Nat} (hlt : ∀ j : Nat, j < k + r → j * distance < valueRange)
    (hle : valueRange ≤ ((k + r : Nat) : Int) * distance)
    (hint : ((k + r : Nat) : Int) * distance ≤ Lists.intMax) (hdistance : 0 < distance) :
  Counts valueRange distance (k * distance) ((List.range' k r).map fun j : Nat => j * distance)
  := by
  induction r generalizing k with
  | zero => exact not_lt.mpr hle
  | succ r ih =>
      rw [List.range'_succ, List.map_cons]
      refine ⟨hlt k (by omega), rfl, ?_⟩
      have hnext : (k : Int) * distance + distance = ((k + 1 : Nat) : Int) * distance := by
        push_cast
        ring
      have hbound : ((k + 1 : Nat) : Int) * distance ≤ Lists.intMax := by
        apply le_trans _ hint
        apply mul_le_mul_of_nonneg_right _ hdistance.le
        omega
      have hnonneg : 0 ≤ ((k + 1 : Nat) : Int) * distance := by positivity
      rw [Lists.intMax] at hbound
      rw [hnext, Decimal.toInt32_of_int (by omega)]
      apply ih
      · intro j hj
        exact hlt j (by omega)
      · rw [show k + 1 + r = k + (r + 1) by omega]
        exact hle
      · rw [show k + 1 + r = k + (r + 1) by omega]
        exact hint

theorem counts_range
    (hlt : n * distance < valueRange) (hle : valueRange ≤ (n + 1) * distance)
    (hint : (n + 1) * distance ≤ Lists.intMax) (hpos : 0 < distance) :
  Counts valueRange distance 0 ((List.range (n + 1)).map fun j : Nat => (j : Int) * distance)
  := by
  have hsucc : ((0 + (n + 1) : Nat) : Int) * distance = (n + 1) * distance := by
    push_cast
    rw [zero_add]
  have hrange := counts_range' (k := 0) (r := n + 1) (by
    intro j hj
    apply lt_of_le_of_lt _ hlt
    apply mul_le_mul_of_nonneg_right _ hpos.le
    omega) (hsucc ▸ hle) (hsucc ▸ hint) hpos
  rw [← List.range_eq_range', Nat.cast_zero, zero_mul] at hrange
  exact hrange

/-- The multiples below the range. -/
theorem initialKeys_eq
    {initSize i : Int} (hdistance : valueRange.tdiv initSize = distance) (hpos : 0 < distance)
    (hlt : n * distance < valueRange) (hle : valueRange ≤ (n + 1) * distance) :
  initialKeys initSize valueRange i =
    ((List.range (n + 1)).map fun j : Nat => (j : Int) * distance + i).toFinset
  := by
  ext v
  rw [initialKeys, hdistance]
  simp only [Finset.mem_image, Finset.mem_filter, Finset.mem_range, List.mem_toFinset,
    List.mem_map, List.mem_range]
  constructor
  · rintro ⟨k, ⟨hk, c, hc⟩, rfl⟩
    have hcpos : 0 ≤ c := by
      by_contra hneg
      have : distance * c < 0 := mul_neg_of_pos_of_neg hpos (not_le.mp hneg)
      omega
    obtain ⟨j, rfl⟩ := Int.eq_ofNat_of_zero_le hcpos
    have hj : (j : Int) < n + 1 := by
      by_contra hge
      have := mul_le_mul_of_nonneg_left (not_lt.mp hge) hpos.le
      rw [mul_comm distance (n + 1 : Int)] at this
      omega
    exact ⟨j, by omega, by rw [hc, mul_comm]⟩
  · rintro ⟨j, hj, rfl⟩
    have hle' : (j : Int) * distance ≤ n * distance := by
      apply mul_le_mul_of_nonneg_right _ hpos.le
      omega
    have hnonneg : 0 ≤ (j : Int) * distance := by positivity
    refine ⟨((j : Int) * distance).toNat, ⟨by omega, ?_⟩, ?_⟩
    · rw [Int.toNat_of_nonneg hnonneg]
      exact Dvd.intro_left _ rfl
    · rw [Int.toNat_of_nonneg hnonneg]

/-- The multiples below the range but the last. -/
theorem initialKeys_erase
    {initSize i : Int} (hdistance : valueRange.tdiv initSize = distance) (hpos : 0 < distance)
    (hlt : n * distance < valueRange) (hle : valueRange ≤ (n + 1) * distance) :
  (initialKeys initSize valueRange i).erase (n * distance + i) =
    ((List.range n).map fun j : Nat => (j : Int) * distance + i).toFinset
  := by
  rw [initialKeys_eq hdistance hpos hlt hle]
  ext v
  simp only [Finset.mem_erase, List.mem_toFinset, List.mem_map, List.mem_range]
  constructor
  · rintro ⟨hne, j, hj, rfl⟩
    refine ⟨j, ?_, rfl⟩
    have : j ≠ n := by
      rintro rfl
      exact hne rfl
    omega
  · rintro ⟨j, hj, rfl⟩
    have hlt' : (j : Int) * distance < n * distance := by
      apply mul_lt_mul_of_pos_right _ hpos
      exact_mod_cast hj
    exact ⟨by omega, j, by omega, rfl⟩

theorem pairwise_range
    {i : Int} (hi : 0 ≤ i) (hpos : 0 < distance) (hmax : n * distance + i < Lists.intMax) :
  (Lists.intMin :: (((List.range n).map fun j : Nat => (j : Int) * distance + i) ++
    [Lists.intMax])).Pairwise (· < ·)
  := by
  have hbounds : ∀ v ∈ (List.range n).map fun j : Nat => (j : Int) * distance + i,
      0 ≤ v ∧ v < Lists.intMax := by
    intro v hv
    obtain ⟨j, hj, rfl⟩ := List.mem_map.mp hv
    have hle : (j : Int) * distance ≤ n * distance := by
      apply mul_le_mul_of_nonneg_right _ hpos.le
      exact_mod_cast (List.mem_range.mp hj).le
    have hnonneg : 0 ≤ (j : Int) * distance := by positivity
    constructor <;> omega
  rw [List.pairwise_cons, List.pairwise_append]
  refine ⟨?_, ?_, List.pairwise_singleton _ _, ?_⟩
  · intro v hv
    rcases List.mem_append.mp hv with hv | hv
    · exact lt_of_lt_of_le (by decide) (hbounds v hv).1
    · rw [List.mem_singleton.mp hv]
      decide
  · apply List.Pairwise.map _ _ List.pairwise_lt_range
    intro j k hjk
    apply add_lt_add_left
    apply mul_lt_mul_of_pos_right _ hpos
    exact_mod_cast hjk
  · intro v hv w hw
    rw [List.mem_singleton.mp hw]
    exact (hbounds v hv).2

/-- With the memory for it, and if the counter does not overflow, the lists are sorted, and have
the keys but the last. -/
theorem list_global_init_sorted
    {m : Arena Addr} {initSize : Int} (hdistance : valueRange.tdiv initSize = distance)
    (hpos : 0 < distance) (hlt : n * distance < valueRange) (hle : valueRange ≤ (n + 1) * distance)
    (hint : (n + 1) * distance < Lists.intMax) (hfree : 2 * n + 7 ≤ m.free.length) :
  ∃ m', Arena.listGlobalInit m initSize valueRange = some m' ∧
    m'.Sorted fun i => (initialKeys initSize valueRange i).erase (n * distance + i)
  := by
  have hcounts : Counts valueRange distance 0
      (((List.range n).map fun j : Nat => (j : Int) * distance) ++ [n * distance]) := by
    have hrange := counts_range hlt hle hint.le hpos
    rw [List.range_succ, List.map_append] at hrange
    exact hrange
  obtain ⟨m', hinit, hnull, l₀, tail₀, l₁, tail₁, hended₀, hended₁, -, -, hapart⟩ :=
    listGlobalInit_overwritten (m := m) (by rw [hdistance]; exact hcounts)
      (by rw [List.length_map, List.length_range]; exact hfree)
  have hlast : (n : Int) * distance + distance < Lists.intMax := by
    rw [add_mul, one_mul] at hint
    exact hint
  refine ⟨m', hinit, hnull, fun i => if i = 0 then l₀ else l₁,
    fun i => if i = 0 then tail₀ else tail₁, ?_, hapart⟩
  rintro i (rfl | rfl)
  · refine ⟨hended₀.chained ?_, ?_⟩
    · have hpairwise := pairwise_range (n := n) (i := 0) (le_refl 0) hpos (by omega)
      simpa only [add_zero] using hpairwise
    · show (l₀.map m'.value).toFinset =
        (initialKeys initSize valueRange 0).erase (n * distance + 0)
      rw [initialKeys_erase hdistance hpos hlt hle, hended₀.map_value.1]
      simp only [add_zero]
  · have hvalues : ((List.range n).map fun j : Nat => (j : Int) * distance).map (· + 1) =
        (List.range n).map fun j : Nat => (j : Int) * distance + 1 := by
      rw [List.map_map]
      rfl
    rw [hvalues] at hended₁
    refine ⟨hended₁.chained (pairwise_range (by decide) hpos (by omega)), ?_⟩
    show (l₁.map m'.value).toFinset =
      (initialKeys initSize valueRange 1).erase (n * distance + 1)
    rw [initialKeys_erase hdistance hpos hlt hle, hended₁.map_value.1]

end Keys

section Sibling

variable {m : Arena Addr} {l : List Addr} {values counts : List Int} {a node : Addr}
  {free : List Addr} {i valueRange distance : Int}

/-- A round of the loop. -/
theorem Arena.setValue_open
    {m₁ : Arena Addr} {v : Int} (h : m.Open i l values) (ha : a ∉ m.used)
    (hlists : m₁.toLists = { m.toLists with used := insert a m.used }) :
  ((m₁.setNext (last (m.head i) l) a).setValue a v).Open i (l ++ [a]) (values ++ [v])
  := by
  have hnext : m₁.next = m.next := by
    rw [hlists]
  have hvalue : m₁.value = m.value := by
    rw [hlists]
  have hused : m₁.used = insert a m.used := by
    rw [hlists]
  have hhead : m₁.head = m.head := by
    rw [hlists]
  apply h.append ha
  · exact congrFun hhead i
  · simp only [setNext, setValue]
    rw [Function.update_self]
  · intro c hc hlast
    simp only [setNext, setValue]
    rw [Function.update_of_ne hlast, hnext]
  · intro c hc
    simp only [setNext, setValue]
    rw [Function.update_of_ne, hvalue]
    rintro rfl
    exact ha (h.used _ hc)
  · simp only [setValue]
    rw [Function.update_self]
  · show _ ⊆ m₁.used
    rw [hused]

theorem Arena.initLoopFfwd_open
    {initSize : Int} {n : Nat} (h : m.Open 0 l values)
    (hcounts : Counts valueRange (valueRange.tdiv initSize) i counts) (hn : counts.length ≤ n)
    (hfree : counts.length ≤ m.free.length) :
  ∃ m' l', m.initLoopFfwd initSize valueRange n (last (m.head 0) l) i =
      some (m', last (m'.head 0) (l ++ l')) ∧
    m'.Open 0 (l ++ l') (values ++ counts) ∧ m'.free.length + counts.length = m.free.length
  := by
  induction counts generalizing m l values i n with
  | nil =>
      refine ⟨m, [], ?_, ?_, rfl⟩
      · unfold Arena.initLoopFfwd
        rw [if_neg hcounts, List.append_nil]
      · simpa only [List.append_nil] using h
  | cons j counts ih =>
      obtain ⟨hi, rfl, hcounts⟩ := hcounts
      obtain ⟨n, rfl⟩ : ∃ n', n = n' + 1 := ⟨n - 1, by simp at hn; omega⟩
      obtain ⟨a, free, hfree'⟩ := List.exists_cons_of_length_pos
        (show 0 < m.free.length by rw [List.length_cons] at hfree; omega)
      obtain ⟨m₁, hmalloc, hlists, hfree₁⟩ := malloc_cons hfree'
      have hlength := congrArg List.length hfree'
      rw [← hfree₁, List.length_cons] at hlength
      rw [List.length_cons] at hfree hn
      have ha : a ∉ m.used := m.unused a (hfree' ▸ List.mem_cons_self)
      have hnull : a ≠ (m₁.setNext (last (m.head 0) l) a).null :=
        (ne_null_of_malloc hfree' hlists : a ≠ m₁.null)
      have hnext : (m₁.setNext (last (m.head 0) l) a).next (last (m.head 0) l) = a := by
        simp only [setNext]
        rw [Function.update_self]
      obtain ⟨m', l', hloop, hopen, hfree''⟩ := ih (setValue_open h ha hlists) hcounts
        (Nat.le_of_succ_le_succ hn) (by
          show _ ≤ m₁.free.length
          omega)
      refine ⟨m', a :: l', ?_, ?_, ?_⟩
      · unfold Arena.initLoopFfwd
        rw [if_pos hi]
        simp only [hmalloc, hnext]
        rw [if_neg hnull]
        simp only [last_concat, List.append_assoc, List.singleton_append] at hloop
        exact hloop
      · simpa only [List.append_assoc, List.singleton_append] using hopen
      · change _ = m₁.free.length at hfree''
        rw [List.length_cons]
        omega

/-- The other benchmark goes on to the new node before it writes the sentinel, and has all keys. -/
theorem list_global_init_ffwd_sorted
    {initSize : Int} {n : Nat} (hdistance : valueRange.tdiv initSize = distance)
    (hpos : 0 < distance) (hlt : n * distance < valueRange) (hle : valueRange ≤ (n + 1) * distance)
    (hint : (n + 1) * distance < Lists.intMax) (hfree : n + 4 ≤ m.free.length) :
  ∃ m' l tail, Arena.listGlobalInitFfwd m initSize valueRange = some m' ∧ m'.Chained 0 l tail ∧
    (l.map m'.value).toFinset = initialKeys initSize valueRange 0 ∧ m'.next tail = m'.null
  := by
  have hcounts := counts_range hlt hle hint.le hpos
  have hcard : ((List.range (n + 1)).map fun j : Nat => (j : Int) * distance).length = n + 1 := by
    rw [List.length_map, List.length_range]
  obtain ⟨list, free, hlist⟩ := List.exists_cons_of_length_pos (show 0 < m.free.length by omega)
  obtain ⟨m₀, hmalloc₀, hlists₀, hfree₀⟩ := Arena.malloc_cons hlist
  have hlength₀ := congrArg List.length hlist
  rw [← hfree₀, List.length_cons] at hlength₀
  obtain ⟨head, free, hhead⟩ := List.exists_cons_of_length_pos
    (show 0 < m₀.free.length by omega)
  obtain ⟨m₁, hmalloc₁, hlists₁, hfree₁⟩ := Arena.malloc_cons hhead
  have hlength₁ := congrArg List.length hhead
  rw [← hfree₁, List.length_cons] at hlength₁
  have hhead₁ : (m₁.setHead 0 head).head 0 = head := by
    simp only [Arena.setHead]
    rw [Function.update_self]
  have hused₁ : m₁.used = insert head m₀.used := by
    rw [hlists₁]
  have hopen : ((m₁.setHead 0 head).setValue head Lists.intMin).Open 0 [] [] := by
    refine ⟨rfl, List.nodup_singleton _, ?_, ?_⟩
    · show [Function.update m₁.value head Lists.intMin ((m₁.setHead 0 head).head 0)] = _
      rw [hhead₁, Function.update_self]
    · show ∀ c ∈ [(m₁.setHead 0 head).head 0], c ∈ m₁.used
      rw [hhead₁, hused₁, List.forall_mem_singleton]
      exact Finset.mem_insert_self _ _
  obtain ⟨m₂, l, hloop, hopen, hfree₂⟩ := Arena.initLoopFfwd_open (n := m₁.free.length) hopen
    (by rw [hdistance]; exact hcounts) (by rw [hcard]; omega) (by
      show _ ≤ m₁.free.length
      rw [hcard]
      omega)
  change _ = m₁.free.length at hfree₂
  rw [hcard] at hfree₂
  rw [List.nil_append, List.nil_append] at hopen
  obtain ⟨tail, free₂, htail⟩ := List.exists_cons_of_length_pos
    (show 0 < m₂.free.length by omega)
  obtain ⟨m₃, hmalloc₃, hlists₃, hfree₃⟩ := Arena.malloc_cons htail
  have hunused : tail ∉ m₂.used := m₂.unused tail (htail ▸ List.mem_cons_self)
  have hopen' := Arena.setValue_open (v := Lists.intMax) hopen hunused hlists₃
  have hnext₃ : (m₃.setNext (last (m₂.head 0) l) tail).next (last (m₂.head 0) l) = tail := by
    simp only [Arena.setNext]
    rw [Function.update_self]
  have hnull₀ : list ≠ m₀.null := Arena.ne_null_of_malloc hlist hlists₀
  have hnull₁ : head ≠ (m₁.setHead 0 head).null :=
    (Arena.ne_null_of_malloc hhead hlists₁ : head ≠ m₁.null)
  have hnull₃ : tail ≠ (m₃.setNext (last (m₂.head 0) l) tail).null :=
    (Arena.ne_null_of_malloc htail hlists₃ : tail ≠ m₃.null)
  have hended : (((m₃.setNext (last (m₂.head 0) l) tail).setValue tail Lists.intMax).setNext tail
      m₃.null).Ended 0 l tail ((List.range (n + 1)).map fun j : Nat => (j : Int) * distance) := by
    have hnodup := hopen'.nodup
    rw [← List.cons_append] at hnodup
    refine hopen'.finish rfl ?_ (fun c hc => rfl) ?_ (Finset.Subset.refl _)
    · intro c hc
      apply Function.update_of_ne
      exact (List.nodup_append.mp hnodup).2.2 c hc tail List.mem_cons_self
    · simp only [Arena.setNext, Arena.setValue]
      rw [Function.update_self]
  refine ⟨_, l, tail, ?_, hended.chained ?_, ?_, ?_⟩
  · rw [List.nil_append, last_nil] at hloop
    have hloop' : ((m₁.setHead 0 head).setValue head Lists.intMin).initLoopFfwd initSize valueRange
        m₁.free.length head 0 = some (m₂, last (m₂.head 0) l) := by
      rw [← hloop]
      congr 1
    have hfree₁' : ((m₁.setHead 0 head).setValue head Lists.intMin).free = m₁.free := rfl
    rw [Arena.listGlobalInitFfwd]
    simp only [hmalloc₀, if_neg hnull₀, hmalloc₁, hhead₁, if_neg hnull₁, hfree₁', hloop', hmalloc₃,
      hnext₃, if_neg hnull₃]
    rfl
  · have hpairwise := pairwise_range (n := n + 1) (i := 0) (le_refl 0) hpos (by push_cast; omega)
    simpa only [add_zero] using hpairwise
  · rw [hended.map_value.1, initialKeys_eq hdistance hpos hlt hle]
    simp only [add_zero]
  · simp only [Arena.setNext]
    rw [Function.update_self]
    rfl

end Sibling

/-- The node behind the sentinel of the first list. -/
theorem listGlobalInit_not_endsInNull
    {m m' : Arena Addr} {initSize valueRange : Int} (hrange : 0 < valueRange)
    (h : Arena.listGlobalInit m initSize valueRange = some m') :
  ¬m'.EndsInNull 0
  := by
  obtain ⟨counts, i, hcounts, hfree⟩ := counts_of_listGlobalInit hrange h
  obtain ⟨m'', h', hnull, l₀, tail₀, l₁, tail₁, hended, -, hnext, -⟩ :=
    listGlobalInit_overwritten hcounts hfree
  obtain rfl := Option.some.inj (h.symm.trans h')
  exact hended.not_endsInNull hnull hnext

/-- The function never builds the lists that the moves are to start from: the sentinel takes the
place of the last key, and a node that is not written is behind it. -/
theorem list_global_init_never
    (m : Arena Addr) (initSize valueRange : Int) (hsize : 1 ≤ initSize)
    (hrange : initSize ≤ valueRange) :
  ¬∃ m', Arena.listGlobalInit m initSize valueRange = some m' ∧ m'.Initial initSize valueRange
  := by
  rintro ⟨m', h, -, hend, -⟩
  exact listGlobalInit_not_endsInNull (lt_of_lt_of_le hsize hrange) h hend

/-- Memory for the examples. -/
def Arena.small : Arena Nat where
  value := fun _ => 0
  next := fun _ => 0
  null := 0
  used := ∅
  head := fun _ => 0
  free := [1, 2, 3, 4, 5, 6, 7, 8, 9, 10]
  nodup := by decide
  unused := by decide
  null_notMem_free := by decide
  null_notMem_used := by decide

/-- The keys `0` and `2`, and their successors. -/
theorem list_global_init_never_small :
  ¬∃ m', Arena.listGlobalInit Arena.small 2 4 = some m' ∧ m'.Initial 2 4
  := list_global_init_never Arena.small 2 4 (by decide) (by decide)

/-- The lists are there, but without the keys `2` and `3`. -/
theorem list_global_init_lost :
  ∃ m', Arena.listGlobalInit Arena.small 2 4 = some m' ∧ ¬m'.Initial 2 4 ∧
    m'.Sorted fun i => (initialKeys 2 4 i).erase (2 + i)
  := by
  obtain ⟨m', h, hsorted⟩ := list_global_init_sorted (m := Arena.small) (n := 1)
    (show (4 : Int).tdiv 2 = 2 from rfl) (by decide) (by decide) (by decide) (by decide) (by decide)
  exact ⟨m', h, fun hinitial => listGlobalInit_not_endsInNull (by decide) h hinitial.2.1, hsorted⟩

end Micro
