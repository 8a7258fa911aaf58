import Ffwd.Raytrace.Heap

/-!
# What the operations do to a well-formed heap

On a well-formed heap the loops of `func5` and `func6` find what they look for, and end. Taking a part
of a free block and freeing a used one give a well-formed heap again, and leave the other used blocks
as they are.
-/

namespace Raytrace

open Linked (Path)
open Tiling (Tiles)

/-! ### The loops -/

section Loops

variable {h : Heap} {l l₁ l₂ u : List Block} {k : Block} {b c e n pn prev size : Nat}
  {pcom ncom : Bool}

/-- The header behind a block. -/
theorem Block.At.nodeAdd (hk : k.At h) (hlt : k.addr + k.len < 2 ^ 64) :
  nodeAdd k.addr (h.get k.addr .size + nodesize) = k.addr + k.len
  := by
  rw [Raytrace.nodeAdd, hk.size, Nat.add_comm k.size]
  exact Nat.mod_eq_of_lt hlt

theorem Block.At.get_free (hk : k.At h) :
  h.get k.addr .free ≠ 0 ↔ k.free = true
  := by
  rw [hk.free]
  cases k.free <;> decide

/-- Is the last block before an address free? -/
def lastFree (l : List Block) (pcom : Bool) : Bool := (l.getLast?.map Block.free).getD pcom

@[simp]
theorem lastFree_nil :
  lastFree [] pcom = pcom
  := rfl

@[simp]
theorem lastFree_cons :
  lastFree (k :: l) pcom = lastFree l k.free
  := by
  rw [lastFree, lastFree, List.getLast?_cons, Option.map_some, Option.getD_some]
  cases l.getLast? <;> rfl

theorem findPrev_eq
    (hu : Tiles Block.addr Block.len c u pn) (hat : ∀ k ∈ u, k.At h) (hpn : pn < h.endmem)
    (hend : h.endmem < 2 ^ 64) (hn : u.length < n) :
  findPrev h pn n c prev pcom = .ok (pn, Linked.last prev (freeAddrs u), lastFree u pcom)
  := by
  induction u generalizing c n prev pcom with
  | nil =>
      obtain ⟨n, rfl⟩ := Nat.exists_eq_add_one_of_ne_zero (Nat.ne_of_gt hn)
      obtain rfl : c = pn := hu
      rw [findPrev, if_neg (fun hlt => Nat.lt_irrefl c hlt.1)]
      rfl
  | cons k u ih =>
      obtain ⟨n, rfl⟩ := Nat.exists_eq_add_one_of_ne_zero (Nat.ne_zero_of_lt hn)
      obtain ⟨rfl, hu⟩ := hu
      have hk := hat k List.mem_cons_self
      have hle := hu.le
      have hlt : k.addr < pn := by
        rw [Block.len, nodesize] at hle
        omega
      have hrest : ∀ prev pcom, findPrev h pn n (k.addr + k.len) prev pcom
          = .ok (pn, Linked.last prev (freeAddrs u), lastFree u pcom) :=
        fun prev pcom => ih hu (fun k' hk' => hat k' (List.mem_cons_of_mem k hk'))
          (Nat.lt_of_succ_lt_succ hn)
      rw [findPrev, if_pos ⟨hlt, hlt.trans hpn⟩, if_neg (not_not.mpr hk.cksm), hk.nodeAdd (by omega),
        lastFree_cons]
      cases hfree : k.free with
      | true =>
          rw [if_pos (hk.get_free.mpr hfree), hrest, freeAddrs_cons_free hfree, Linked.last_cons]
      | false =>
          rw [if_neg (by rw [hk.get_free, hfree]; decide), hrest, freeAddrs_cons_used hfree]

/-- Is there a block at an address, and is it free? -/
def headFree (l : List Block) : Bool := (l.head?.map Block.free).getD false

theorem findNext_found (hn : 0 < n) (hb : b ≠ 0) :
  findNext h n c b ncom = .ok (b, ncom)
  := by
  obtain ⟨n, rfl⟩ := Nat.exists_eq_add_one_of_ne_zero (Nat.ne_of_gt hn)
  rw [findNext, if_neg (fun h => hb h.1)]

theorem findNext_eq
    (ncom : Bool)
    (hu : Tiles Block.addr Block.len c u h.endmem) (hat : ∀ k ∈ u, k.At h) (hc : 0 < c)
    (hend : h.endmem < 2 ^ 64) (hn : u.length < n) :
  ∃ ncom', findNext h n c 0 ncom = .ok ((freeAddrs u).head?.getD 0, ncom') ∧
    ((freeAddrs u).head?.getD 0 ≠ 0 → ncom' = (ncom && headFree u))
  := by
  induction u generalizing c n ncom with
  | nil =>
      obtain ⟨n, rfl⟩ := Nat.exists_eq_add_one_of_ne_zero (Nat.ne_of_gt hn)
      obtain rfl : c = h.endmem := hu
      rw [findNext, if_neg (fun hlt => Nat.lt_irrefl _ hlt.2)]
      exact ⟨ncom, rfl, fun hne => absurd rfl hne⟩
  | cons k u ih =>
      obtain ⟨n, rfl⟩ := Nat.exists_eq_add_one_of_ne_zero (Nat.ne_zero_of_lt hn)
      obtain ⟨rfl, hu⟩ := hu
      have hk := hat k List.mem_cons_self
      have hle := hu.le
      have hlt : k.addr < h.endmem := by
        rw [Block.len, nodesize] at hle
        omega
      rw [findNext, if_pos ⟨rfl, hlt⟩, if_neg (not_not.mpr hk.cksm), hk.nodeAdd (by omega)]
      cases hfree : k.free with
      | true =>
          rw [if_pos (hk.get_free.mpr hfree), freeAddrs_cons_free hfree,
            findNext_found (Nat.zero_lt_of_lt (Nat.lt_of_succ_lt_succ hn)) (Nat.ne_of_gt hc)]
          refine ⟨ncom, rfl, fun _ => ?_⟩
          rw [headFree, List.head?_cons, Option.map_some, Option.getD_some, hfree, Bool.and_true]
      | false =>
          rw [if_neg (by rw [hk.get_free, hfree]; decide), freeAddrs_cons_used hfree]
          obtain ⟨ncom', hfind, hncom⟩ := ih false hu
            (fun k' hk' => hat k' (List.mem_cons_of_mem k hk')) (Nat.add_pos_left hc _)
            (Nat.lt_of_succ_lt_succ hn)
          refine ⟨ncom', hfind, fun hne => ?_⟩
          rw [hncom hne, headFree, headFree, List.head?_cons, Option.map_some, Option.getD_some, hfree,
            Bool.false_and, Bool.and_false]

end Loops

/-! ### More rounds

A loop that is over after some rounds is over after more rounds, with the same result. -/

section Rounds

variable {h : Heap} {a b m n pn size : Nat} {p q : Bool} {msg : String}

theorem firstFit_mono (hmn : m ≤ n) (hm : firstFit h size m a b ≠ .error .rounds) :
  firstFit h size n a b = firstFit h size m a b
  := by
  induction m generalizing n a b with
  | zero => exact absurd rfl hm
  | succ m ih =>
      obtain ⟨n, rfl⟩ := Nat.exists_eq_add_one_of_ne_zero (Nat.ne_zero_of_lt hmn)
      unfold firstFit at hm ⊢
      split
      · rename_i hcond
        rw [if_pos hcond] at hm
        split
        · rfl
        · rename_i hcksm
          rw [if_neg hcksm] at hm
          split
          · rfl
          · rename_i hfree
            rw [if_neg hfree] at hm
            exact ih (Nat.le_of_succ_le_succ hmn) hm
      · rfl

theorem findPrev_mono (hmn : m ≤ n) (hm : findPrev h pn m a b p ≠ .error .rounds) :
  findPrev h pn n a b p = findPrev h pn m a b p
  := by
  induction m generalizing n a b p with
  | zero => exact absurd rfl hm
  | succ m ih =>
      obtain ⟨n, rfl⟩ := Nat.exists_eq_add_one_of_ne_zero (Nat.ne_zero_of_lt hmn)
      unfold findPrev at hm ⊢
      split
      · rename_i hcond
        rw [if_pos hcond] at hm
        split
        · rfl
        · rename_i hcksm
          rw [if_neg hcksm] at hm
          split
          · rename_i hfree
            rw [if_pos hfree] at hm
            exact ih (Nat.le_of_succ_le_succ hmn) hm
          · rename_i hfree
            rw [if_neg hfree] at hm
            exact ih (Nat.le_of_succ_le_succ hmn) hm
      · rfl

theorem findNext_mono (hmn : m ≤ n) (hm : findNext h m a b q ≠ .error .rounds) :
  findNext h n a b q = findNext h m a b q
  := by
  induction m generalizing n a b q with
  | zero => exact absurd rfl hm
  | succ m ih =>
      obtain ⟨n, rfl⟩ := Nat.exists_eq_add_one_of_ne_zero (Nat.ne_zero_of_lt hmn)
      unfold findNext at hm ⊢
      split
      · rename_i hcond
        rw [if_pos hcond] at hm
        split
        · rfl
        · rename_i hcksm
          rw [if_neg hcksm] at hm
          split
          · rename_i hfree
            rw [if_pos hfree] at hm
            exact ih (Nat.le_of_succ_le_succ hmn) hm
          · rename_i hfree
            rw [if_neg hfree] at hm
            exact ih (Nat.le_of_succ_le_succ hmn) hm
      · rfl

theorem func5_mono (hmn : m ≤ n) (hm : func5 m size msg h ≠ .error .rounds) :
  func5 n size msg h = func5 m size msg h
  := by
  unfold func5 at hm ⊢
  dsimp only at hm ⊢
  rw [firstFit_mono hmn]
  intro hfit
  rw [hfit] at hm
  exact hm rfl

theorem func6_mono (hmn : m ≤ n) (hm : func6 m pn h ≠ .error .rounds) :
  func6 n pn h = func6 m pn h
  := by
  unfold func6 at hm ⊢
  split
  · rename_i hlist
    rw [if_pos hlist] at hm
    rw [findPrev_mono hmn]
    · cases hprev : findPrev h pn m h.freelist 0 false with
      | error e => rfl
      | ok r =>
          rw [hprev] at hm
          dsimp only [bind, Except.bind] at hm ⊢
          split
          · rfl
          · rename_i hend
            rw [if_neg hend] at hm
            dsimp only [pure, Except.pure] at hm ⊢
            rw [findNext_mono hmn]
            intro hnext
            rw [hnext] at hm
            exact hm rfl
    · intro hprev
      rw [hprev] at hm
      exact hm rfl
  · rename_i hlist
    rw [if_neg hlist] at hm
    dsimp only [bind, Except.bind, pure, Except.pure] at hm ⊢
    rw [findNext_mono hmn]
    intro hnext
    rw [hnext] at hm
    exact hm rfl

theorem globalMalloc_mono (hmn : m ≤ n) (hm : globalMalloc m size msg h ≠ .error .rounds) :
  globalMalloc n size msg h = globalMalloc m size msg h
  := by
  unfold globalMalloc at hm ⊢
  split
  · rfl
  · rename_i hsize
    rw [if_neg hsize] at hm
    rw [func5_mono hmn]
    intro hfit
    rw [hfit] at hm
    exact hm rfl

theorem globalFree_mono (hmn : m ≤ n) (hm : globalFree m a h ≠ .error .rounds) :
  globalFree n a h = globalFree m a h
  := by
  unfold globalFree at hm ⊢
  dsimp only at hm ⊢
  split
  · rfl
  · rename_i hbeg
    rw [if_neg hbeg] at hm
    split
    · rfl
    · rename_i hcksm
      rw [if_neg hcksm] at hm
      split
      · rfl
      · rename_i hfree
        rw [if_neg hfree] at hm
        exact func6_mono hmn hm

end Rounds

/-! ### Freeing a block -/

section Free

variable {h : Heap} {l l₁ l₂ : List Block} {k : Block} {curr next n prev : Nat} {pcom ncom : Bool}

/-- The nine cases are four. -/
theorem combine_eq (hpcom : pcom = true → prev ≠ 0) (hncom : ncom = true → next ≠ 0) :
  combine prev pcom curr next ncom h =
    if pcom then
      if ncom then
        let h := h.set prev .next (h.get next .next)
        h.grow prev (h.get curr .size + h.get next .size + 2 * nodesize)
      else
        let h := h.set prev .next next
        h.grow prev (h.get curr .size + nodesize)
    else if ncom then
      let h := h.setLink prev curr
      let h := h.set curr .next (h.get next .next)
      h.grow curr (h.get next .size + nodesize)
    else
      (h.setLink prev curr).set curr .next next
  := by
  unfold combine Heap.setLink
  cases pcom with
  | false =>
      cases ncom with
      | false => by_cases hprev : prev = 0 <;> by_cases hnext : next = 0 <;> simp [hprev, hnext]
      | true => by_cases hprev : prev = 0 <;> simp [hprev, hncom rfl]
  | true =>
      cases ncom with
      | false => by_cases hnext : next = 0 <;> simp [hpcom rfl, hnext]
      | true => simp [hpcom rfl, hncom rfl]

theorem Heap.Wf.link_zero (hw : h.Wf l) :
  h.freelist = (freeAddrs l).head?.getD 0
  := by
  have hlist := hw.list
  cases hl : freeAddrs l with
  | nil =>
      rw [hl] at hlist
      exact hlist
  | cons a t =>
      rw [hl] at hlist
      exact hlist.1

theorem exists_first_free (hl : freeAddrs l ≠ []) :
  ∃ u k v, l = u ++ k :: v ∧ freeAddrs u = [] ∧ k.free = true
  := by
  induction l with
  | nil => exact absurd rfl hl
  | cons k l ih =>
      cases hfree : k.free with
      | true => exact ⟨[], k, l, rfl, rfl, hfree⟩
      | false =>
          rw [freeAddrs_cons_used hfree] at hl
          obtain ⟨u, k', v, rfl, hu, hk'⟩ := ih hl
          refine ⟨k :: u, k', v, rfl, ?_, hk'⟩
          rw [freeAddrs_cons_used hfree]
          exact hu

theorem lastFree_append_cons :
  lastFree (l₁ ++ k :: l₂) pcom = lastFree l₂ k.free
  := by
  induction l₁ generalizing pcom with
  | nil => exact lastFree_cons
  | cons k' l₁ ih =>
      rw [List.cons_append, lastFree_cons]
      exact ih

theorem lastFree_iff :
  lastFree l false = true ↔ ∃ l' k', l = l' ++ [k'] ∧ k'.free = true
  := by
  rcases List.eq_nil_or_concat l with rfl | ⟨l', k', rfl⟩
  · simp
  · rw [List.concat_eq_append, lastFree_append_cons, lastFree_nil]
    constructor
    · intro hfree
      exact ⟨l', k', rfl, hfree⟩
    · rintro ⟨l'', k'', heq, hfree⟩
      obtain ⟨-, heq⟩ := List.append_inj' heq rfl
      obtain rfl := List.cons.inj heq |>.1
      exact hfree

theorem headFree_iff :
  headFree l = true ↔ ∃ k' l', l = k' :: l' ∧ k'.free = true
  := by
  cases l with
  | nil => simp [headFree]
  | cons k' l' => simp [headFree]

theorem lastFree_of_freeAddrs_nil (hl : freeAddrs l = []) :
  lastFree l false = false
  := by
  rw [Bool.eq_false_iff]
  intro hlast
  obtain ⟨l', k', rfl, hfree⟩ := lastFree_iff.mp hlast
  rw [freeAddrs_append, freeAddrs_cons_free hfree] at hl
  exact absurd hl (by simp)

theorem Heap.Wf.freeAddrs_eq_nil (hw : h.Wf l) (hlist : h.freelist = 0) :
  freeAddrs l = []
  := by
  cases hl : freeAddrs l with
  | nil => rfl
  | cons a t =>
      have ha : a ∈ freeAddrs l := by
        rw [hl]
        exact List.mem_cons_self
      obtain ⟨k, hk, -, rfl⟩ := mem_freeAddrs.mp ha
      have hzero := hw.link_zero
      rw [hlist, hl] at hzero
      exact absurd hzero.symm (Nat.ne_of_gt (hw.addr_pos hk))

/-- The search for the last free block before a block. -/
theorem findPrev_freelist
    (hw : h.Wf (l₁ ++ k :: l₂)) (hk : k.free = false) (hn : (l₁ ++ k :: l₂).length < n)
    (hlist : h.freelist ≠ 0) :
  ∃ curr, findPrev h k.addr n h.freelist 0 false
    = .ok (curr, Linked.last 0 (freeAddrs l₁), lastFree l₁ false) ∧ curr < h.endmem
  := by
  have hkend : k.addr < h.endmem := by
    have hle := (hw.tiles.mem (List.mem_append_right l₁ List.mem_cons_self)).2
    rw [Block.len, nodesize] at hle
    omega
  by_cases hl₁ : freeAddrs l₁ = []
  · have hfreelist := hw.link_zero
    rw [freeAddrs_append, hl₁, List.nil_append, freeAddrs_cons_used hk] at hfreelist
    have hmem : h.freelist ∈ freeAddrs l₂ := by
      cases hl₂ : freeAddrs l₂ with
      | nil =>
          rw [hl₂] at hfreelist
          exact absurd hfreelist hlist
      | cons a t =>
          rw [hl₂] at hfreelist
          rw [hfreelist]
          exact List.mem_cons_self
    obtain ⟨k', hk', -, haddr⟩ := mem_freeAddrs.mp hmem
    have htiles := hw.tiles.split.2.mem hk'
    rw [haddr, Block.len, Block.len, nodesize] at htiles
    obtain ⟨n, rfl⟩ := Nat.exists_eq_add_one_of_ne_zero (Nat.ne_zero_of_lt hn)
    refine ⟨h.freelist, ?_, by omega⟩
    rw [findPrev, if_neg (by omega), hl₁, lastFree_of_freeAddrs_nil hl₁, Linked.last_nil]
  · obtain ⟨u, f, v, rfl, hu, hf⟩ := exists_first_free hl₁
    have hfreelist : h.freelist = f.addr := by
      rw [hw.link_zero, List.append_assoc, freeAddrs_append, hu, List.cons_append,
        freeAddrs_cons_free hf]
      rfl
    refine ⟨k.addr, ?_, hkend⟩
    have htiles : Tiles Block.addr Block.len f.addr (f :: v) k.addr := by
      obtain ⟨c, -, hc⟩ := Tiles.append_iff.mp hw.tiles.split.1
      obtain rfl := hc.1
      exact hc
    rw [hfreelist, findPrev_eq htiles _ hkend hw.endmem_lt]
    · rw [lastFree_append_cons, lastFree_cons, freeAddrs_append, hu, List.nil_append]
    · simp only [List.length_append, List.length_cons] at hn ⊢
      omega
    · intro k' hk'
      apply hw.headers
      simp only [List.mem_append, List.mem_cons] at hk' ⊢
      tauto

/-- The searches of `func6`. -/
theorem func6_eq
    (hw : h.Wf (l₁ ++ k :: l₂)) (hk : k.free = false) (hn : (l₁ ++ k :: l₂).length < n) :
  func6 n k.addr h = .ok (combine (Linked.last 0 (freeAddrs l₁)) (lastFree l₁ false) k.addr
    ((freeAddrs l₂).head?.getD 0) (headFree l₂) (h.set k.addr .free 1))
  := by
  have hmem : k ∈ l₁ ++ k :: l₂ := List.mem_append_right l₁ List.mem_cons_self
  have hat := hw.headers k hmem
  have hnext : ∃ ncom, findNext h n (k.addr + k.len) 0 true
      = .ok ((freeAddrs l₂).head?.getD 0, ncom) ∧
      (if (freeAddrs l₂).head?.getD 0 = 0 then false else ncom) = headFree l₂ := by
    obtain ⟨ncom, hfind, hncom⟩ := findNext_eq true (n := n) hw.tiles.split.2
      (fun k' hk' => hw.headers k' (List.mem_append_right l₁ (List.mem_cons_of_mem k hk')))
      (Nat.add_pos_left (hw.addr_pos hmem) _) hw.endmem_lt
      (by simp only [List.length_append, List.length_cons] at hn; omega)
    refine ⟨ncom, hfind, ?_⟩
    split
    · rename_i hzero
      symm
      rw [Bool.eq_false_iff]
      intro hhead
      obtain ⟨k', l', rfl, hfree⟩ := headFree_iff.mp hhead
      rw [freeAddrs_cons_free hfree] at hzero
      exact Nat.ne_of_gt (hw.addr_pos (k := k') (by simp)) hzero
    · rename_i hne
      rw [hncom hne, Bool.true_and]
  obtain ⟨ncom, hfind, hncom⟩ := hnext
  unfold func6
  rw [hat.nodeAdd (hw.addr_add_len hmem), hfind]
  by_cases hlist : h.freelist = 0
  · have hnil := hw.freeAddrs_eq_nil hlist
    rw [freeAddrs_append, List.append_eq_nil_iff] at hnil
    rw [if_neg (not_not.mpr hlist), hnil.1, lastFree_of_freeAddrs_nil hnil.1, ← hncom]
    rfl
  · obtain ⟨curr, hprev, hlt⟩ := findPrev_freelist hw hk hn hlist
    rw [if_pos hlist, hprev, ← hncom]
    dsimp only [bind, Except.bind]
    rw [if_neg (Nat.not_le_of_lt hlt)]
    rfl

theorem isChain_mid :
  (l₁ ++ k :: l₂).IsChain NotBothFree ↔ l₁.IsChain NotBothFree ∧ l₂.IsChain NotBothFree ∧
    ¬ (lastFree l₁ false = true ∧ k.free = true) ∧ ¬ (k.free = true ∧ headFree l₂ = true)
  := by
  rw [List.isChain_append, List.isChain_cons]
  have hlast : (∀ x ∈ l₁.getLast?, ∀ y ∈ (k :: l₂).head?, NotBothFree x y)
      ↔ ¬ (lastFree l₁ false = true ∧ k.free = true) := by
    rw [lastFree, List.head?_cons]
    cases l₁.getLast? <;> simp [NotBothFree]
  have hhead : (∀ y ∈ l₂.head?, NotBothFree k y) ↔ ¬ (k.free = true ∧ headFree l₂ = true) := by
    rw [headFree]
    cases l₂.head? <;> simp [NotBothFree]
  rw [hlast, hhead]
  tauto

theorem Heap.Wf.apart_of_mem {k' : Block} (hw : h.Wf (l₁ ++ k :: l₂)) (hk' : k' ∈ l₁ ∨ k' ∈ l₂) :
  Apart k.addr k'.addr
  := by
  rcases hk' with hk' | hk'
  · exact (Block.apart_of_le (hw.tiles.split.1.mem hk').2).symm
  · exact Block.apart_of_le (hw.tiles.split.2.mem hk').1

theorem freeAddrs_used (hk : k.free = false) :
  freeAddrs (l₁ ++ k :: l₂) = freeAddrs l₁ ++ freeAddrs l₂
  := by
  rw [freeAddrs_append, freeAddrs_cons_used hk]

/-- The free block before a block, or the start of the list. -/
theorem last_mem_addrs :
  Linked.last 0 (freeAddrs l₁) ∈ addrs (l₁ ++ l₂)
  := by
  have hsub : addrs l₁ ⊆ addrs (l₁ ++ l₂) := addrs_subset (by simp)
  exact hsub (freeAddrs_subset_addrs Linked.last_mem)

theorem Heap.Wf.addr_notMem (hw : h.Wf (l₁ ++ k :: l₂)) :
  k.addr ∉ addrs (l₁ ++ l₂)
  := by
  rw [addrs, List.mem_cons, List.mem_map]
  rintro (hzero | ⟨k', hk', haddr⟩)
  · have hmem : k ∈ l₁ ++ k :: l₂ := List.mem_append_right l₁ List.mem_cons_self
    exact Nat.ne_of_gt (hw.addr_pos hmem) hzero
  · exact (hw.apart_of_mem (List.mem_append.mp hk')).ne haddr.symm

/-- The pointer of the last free block before a block that is used. -/
theorem Heap.Wf.link_last (hw : h.Wf (l₁ ++ k :: l₂)) (hk : k.free = false) :
  h.link (Linked.last 0 (freeAddrs l₁)) = (freeAddrs l₂).head?.getD 0
  := by
  have hlist := hw.list
  rw [freeAddrs_used hk] at hlist
  exact (Path.append_iff.mp hlist).1.next_last

/-- Neither neighbour of the block is free. -/
theorem Heap.Wf.free_alone
    (hw : h.Wf (l₁ ++ k :: l₂)) (hk : k.free = false) (hlast : lastFree l₁ false = false)
    (hhead : headFree l₂ = false) :
  (((h.set k.addr .free 1).setLink (Linked.last 0 (freeAddrs l₁)) k.addr).set k.addr .next
    ((freeAddrs l₂).head?.getD 0)).Wf (l₁ ++ ⟨k.addr, k.size, true⟩ :: l₂)
  := by
  have hmem : k ∈ l₁ ++ k :: l₂ := List.mem_append_right l₁ List.mem_cons_self
  have hA := separate_of_tiles hw.tiles
  have hkA := addr_mem_addrs hmem
  have hk₀ := Nat.ne_of_gt (hw.addr_pos hmem)
  have hprev : k.addr ≠ Linked.last 0 (freeAddrs l₁) := by
    intro heq
    apply hw.addr_notMem
    rw [heq]
    exact last_mem_addrs
  obtain ⟨hsize, hfree, hcksm⟩ := hw.headers k hmem
  apply Heap.Wf.replace [k] [⟨k.addr, k.size, true⟩]
    (T := ((h.table.set k.addr .free 1).set (Linked.last 0 (freeAddrs l₁)) .next k.addr).set k.addr .next
      ((freeAddrs l₂).head?.getD 0)) hw
  · simp
  · simp
  · intro c d htiles
    exact htiles
  · apply TableOn.mono (((Heap.tableOn.set hA hkA hk₀).setLink hA last_mem_addrs).set hA hkA hk₀)
    exact addrs_subset (by simp)
  · intro k' hk' f hf
    rw [Table.set_field hf, Table.set_field hf, Table.set_addr (hw.apart_of_mem hk').ne.symm]
  · intro k' hk'
    obtain rfl := List.mem_singleton.mp hk'
    simp [Table.set, Heap.table_of_ne hk₀, hsize, hcksm, hw.size_dvd k hmem]
  · have hlist := hw.list
    have hnodup := hw.freeAddrs_nodup
    rw [freeAddrs_used hk] at hlist hnodup
    have hnotMem : k.addr ∉ 0 :: (freeAddrs l₁ ++ freeAddrs l₂) := by
      rw [← freeAddrs_append]
      intro hmem
      exact hw.addr_notMem (freeAddrs_subset_addrs hmem)
    have hpath := hlist.insert hnodup hnotMem
    rw [hw.link_last hk, Function.update_comm hprev, Heap.link_eq] at hpath
    rw [Table.next_set, Table.next_set, Table.next_set_field (by decide), freeAddrs_append,
      List.singleton_append, freeAddrs_cons_free rfl]
    exact hpath
  · rw [List.singleton_append, isChain_mid]
    obtain ⟨h₁, h₂, -, -⟩ := isChain_mid.mp hw.coalesced
    exact ⟨h₁, h₂, by simp [hlast], by simp [hhead]⟩

/-- The block before the block is free. -/
theorem Heap.Wf.free_prev {p : Block}
    (hw : h.Wf (l₁ ++ p :: k :: l₂)) (hp : p.free = true) (hk : k.free = false)
    (hhead : headFree l₂ = false) :
  let h₁ := (h.set k.addr .free 1).set p.addr .next ((freeAddrs l₂).head?.getD 0)
  (h₁.grow p.addr (h₁.get k.addr .size + nodesize)).Wf (l₁ ++ ⟨p.addr, p.size + k.len, true⟩ :: l₂)
  := by
  intro h₁
  have hpmem : p ∈ l₁ ++ p :: k :: l₂ := by simp
  have hkmem : k ∈ l₁ ++ p :: k :: l₂ := by simp
  have hA := separate_of_tiles hw.tiles
  have hpA := addr_mem_addrs hpmem
  have hkA := addr_mem_addrs hkmem
  have hp₀ := Nat.ne_of_gt (hw.addr_pos hpmem)
  have hk₀ := Nat.ne_of_gt (hw.addr_pos hkmem)
  have hpk : p.addr ≠ k.addr := (hw.apart_of_mem (.inr List.mem_cons_self)).ne
  have hlt := hw.addr_add_len hkmem
  have hstart : k.addr = p.addr + p.len := hw.tiles.split.2.1
  obtain ⟨hpsize, hpfree, hpcksm⟩ := hw.headers p hpmem
  obtain ⟨hksize, hkfree, hkcksm⟩ := hw.headers k hkmem
  have hT₁ : TableOn (addrs (l₁ ++ p :: k :: l₂)) h₁ ((h.table.set k.addr .free 1).set p.addr .next
      ((freeAddrs l₂).head?.getD 0)) := (Heap.tableOn.set hA hkA hk₀).set hA hpA hp₀
  have hvalue : (h₁.get p.addr .size + (h₁.get k.addr .size + nodesize)) % 2 ^ 64 = p.size + k.len := by
    rw [hT₁.get hpA hp₀, hT₁.get hkA hk₀]
    simp only [Table.set, Heap.table_of_ne hp₀, Heap.table_of_ne hk₀, hpsize, hksize, reduceCtorEq,
      and_false, if_false]
    simp only [Block.len] at hlt hstart ⊢
    omega
  rw [Heap.grow, hvalue]
  refine Heap.Wf.replace [p, k] [⟨p.addr, p.size + k.len, true⟩] hw ?_ ?_ ?_
    (TableOn.mono (hT₁.set hA hpA hp₀) (addrs_subset (by simp; grind))) ?_ ?_ ?_ ?_
  · rfl
  · rfl
  · rintro c d ⟨hc, -, rfl⟩
    refine ⟨hc, ?_⟩
    simp only [Tiles, Block.len]
    omega
  · intro k' hk' f hf
    have hk'p : k'.addr ≠ p.addr := Heap.Wf.addr_ne [p, k] hw hk' (by simp)
    have hk'k : k'.addr ≠ k.addr := Heap.Wf.addr_ne [p, k] hw hk' (by simp)
    rw [Table.set_addr hk'p, Table.set_addr hk'p, Table.set_addr hk'k]
  · intro k' hk'
    obtain rfl := List.mem_singleton.mp hk'
    have hdvd : 8 ∣ p.size + k.len := by
      have hpdvd := hw.size_dvd p hpmem
      have hkdvd := hw.size_dvd k hkmem
      rw [Block.len, nodesize]
      omega
    simp [Table.set, Heap.table_of_ne hp₀, hpfree, hp, hpcksm, hpk, hdvd]
  · have hlist := hw.list
    have hw' : h.Wf ((l₁ ++ [p]) ++ k :: l₂) := by simpa using hw
    have hlink := hw'.link_last hk
    rw [freeAddrs_append, freeAddrs_cons_free hp, freeAddrs_nil, Linked.last_concat] at hlink
    rw [Table.next_set_field (by decide), Table.next_set, Table.next_set_field (by decide),
      ← Heap.link_eq, ← hlink, Function.update_eq_self, freeAddrs_append, List.singleton_append,
      freeAddrs_cons_free rfl]
    rw [freeAddrs_append, freeAddrs_cons_free hp, freeAddrs_cons_used hk] at hlist
    exact hlist
  · rw [List.singleton_append, isChain_mid]
    obtain ⟨h₁, h₂, hlast, -⟩ := isChain_mid.mp hw.coalesced
    rw [← List.nil_append (k :: l₂), isChain_mid] at h₂
    exact ⟨h₁, h₂.2.1, by simpa [hp] using hlast, by simp [hhead]⟩

/-- The block behind the block is free. -/
theorem Heap.Wf.free_next {q : Block}
    (hw : h.Wf (l₁ ++ k :: q :: l₂)) (hk : k.free = false) (hq : q.free = true)
    (hlast : lastFree l₁ false = false) :
  let h₁ := (h.set k.addr .free 1).setLink (Linked.last 0 (freeAddrs l₁)) k.addr
  let h₂ := h₁.set k.addr .next (h₁.get q.addr .next)
  (h₂.grow k.addr (h₂.get q.addr .size + nodesize)).Wf (l₁ ++ ⟨k.addr, k.size + q.len, true⟩ :: l₂)
  := by
  intro h₁ h₂
  have hkmem : k ∈ l₁ ++ k :: q :: l₂ := by simp
  have hqmem : q ∈ l₁ ++ k :: q :: l₂ := by simp
  have hA := separate_of_tiles hw.tiles
  have hkA := addr_mem_addrs hkmem
  have hqA := addr_mem_addrs hqmem
  have hk₀ := Nat.ne_of_gt (hw.addr_pos hkmem)
  have hq₀ := Nat.ne_of_gt (hw.addr_pos hqmem)
  have hkq : k.addr ≠ q.addr := (hw.apart_of_mem (.inr List.mem_cons_self)).ne
  have hlt := hw.addr_add_len hqmem
  have hstart : q.addr = k.addr + k.len := hw.tiles.split.2.1
  have hprev : k.addr ≠ Linked.last 0 (freeAddrs l₁) := by
    intro heq
    apply hw.addr_notMem
    rw [heq]
    exact last_mem_addrs
  have hprevq : q.addr ≠ Linked.last 0 (freeAddrs l₁) := by
    intro heq
    have hw' : h.Wf ((l₁ ++ [k]) ++ q :: l₂) := by simpa using hw
    apply hw'.addr_notMem
    rw [heq, List.append_assoc]
    exact last_mem_addrs
  obtain ⟨hksize, hkfree, hkcksm⟩ := hw.headers k hkmem
  obtain ⟨hqsize, hqfree, hqcksm⟩ := hw.headers q hqmem
  have hT₁ : TableOn (addrs (l₁ ++ k :: q :: l₂)) h₁ ((h.table.set k.addr .free 1).set
      (Linked.last 0 (freeAddrs l₁)) .next k.addr) :=
    (Heap.tableOn.set hA hkA hk₀).setLink hA last_mem_addrs
  have hnext : h₁.get q.addr .next = h.link q.addr := by
    rw [hT₁.get hqA hq₀, Table.set_addr hprevq, Table.set_addr hkq.symm, Heap.link_eq]
    rfl
  have hT₂ : TableOn (addrs (l₁ ++ k :: q :: l₂)) h₂ (((h.table.set k.addr .free 1).set
      (Linked.last 0 (freeAddrs l₁)) .next k.addr).set k.addr .next (h.link q.addr)) := by
    rw [← hnext]
    exact hT₁.set hA hkA hk₀
  have hvalue : (h₂.get k.addr .size + (h₂.get q.addr .size + nodesize)) % 2 ^ 64 = k.size + q.len := by
    rw [hT₂.get hkA hk₀, hT₂.get hqA hq₀]
    simp only [Table.set, Heap.table_of_ne hk₀, Heap.table_of_ne hq₀, hksize, hqsize, reduceCtorEq,
      and_false, if_false]
    simp only [Block.len] at hlt hstart ⊢
    omega
  rw [Heap.grow, hvalue]
  refine Heap.Wf.replace [k, q] [⟨k.addr, k.size + q.len, true⟩] hw ?_ ?_ ?_
    (TableOn.mono (hT₂.set hA hkA hk₀) (addrs_subset (by simp; grind))) ?_ ?_ ?_ ?_
  · simp [h₂, h₁]
  · simp [h₂, h₁]
  · rintro c d ⟨hc, -, rfl⟩
    refine ⟨hc, ?_⟩
    simp only [Tiles, Block.len]
    omega
  · intro k' hk' f hf
    have hk'k : k'.addr ≠ k.addr := Heap.Wf.addr_ne [k, q] hw hk' (by simp)
    rw [Table.set_addr hk'k, Table.set_addr hk'k, Table.set_field hf, Table.set_addr hk'k]
  · intro k' hk'
    obtain rfl := List.mem_singleton.mp hk'
    have hdvd : 8 ∣ k.size + q.len := by
      have hkdvd := hw.size_dvd k hkmem
      have hqdvd := hw.size_dvd q hqmem
      rw [Block.len, nodesize]
      omega
    simp [Table.set, Heap.table_of_ne hk₀, hkcksm, hdvd]
  · have hlist := hw.list
    have hnodup := hw.freeAddrs_nodup
    rw [freeAddrs_used hk, freeAddrs_cons_free hq] at hlist hnodup
    have hnotMem : k.addr ∉ 0 :: (freeAddrs l₁ ++ freeAddrs l₂) := by
      rw [← freeAddrs_append]
      intro hmem
      apply hw.addr_notMem
      exact addrs_subset (by simp) (freeAddrs_subset_addrs hmem)
    have hnodup' : (0 :: (freeAddrs l₁ ++ freeAddrs l₂)).Nodup :=
      List.Nodup.sublist (by simp) hnodup
    have hpath := (hlist.remove hnodup).insert hnodup' hnotMem
    rw [Function.update_self, Function.update_comm hprev, Function.update_idem, Heap.link_eq] at hpath
    rw [Table.next_set_field (by decide), Table.next_set, Table.next_set,
      Table.next_set_field (by decide), freeAddrs_append, List.singleton_append,
      freeAddrs_cons_free rfl, Heap.link_eq]
    exact hpath
  · rw [List.singleton_append, isChain_mid]
    obtain ⟨h₁, h₂, -, -⟩ := isChain_mid.mp hw.coalesced
    rw [← List.nil_append (q :: l₂), isChain_mid] at h₂
    refine ⟨h₁, h₂.2.1, by simp [hlast], ?_⟩
    simpa [hq] using h₂.2.2.2

/-- The blocks on both sides of the block are free. -/
theorem Heap.Wf.free_both {p q : Block}
    (hw : h.Wf (l₁ ++ p :: k :: q :: l₂)) (hp : p.free = true) (hk : k.free = false)
    (hq : q.free = true) :
  let h₁ := h.set k.addr .free 1
  let h₂ := h₁.set p.addr .next (h₁.get q.addr .next)
  (h₂.grow p.addr (h₂.get k.addr .size + h₂.get q.addr .size + 2 * nodesize)).Wf
    (l₁ ++ ⟨p.addr, p.size + k.len + q.len, true⟩ :: l₂)
  := by
  intro h₁ h₂
  have hpmem : p ∈ l₁ ++ p :: k :: q :: l₂ := by simp
  have hkmem : k ∈ l₁ ++ p :: k :: q :: l₂ := by simp
  have hqmem : q ∈ l₁ ++ p :: k :: q :: l₂ := by simp
  have hA := separate_of_tiles hw.tiles
  have hpA := addr_mem_addrs hpmem
  have hkA := addr_mem_addrs hkmem
  have hqA := addr_mem_addrs hqmem
  have hp₀ := Nat.ne_of_gt (hw.addr_pos hpmem)
  have hk₀ := Nat.ne_of_gt (hw.addr_pos hkmem)
  have hq₀ := Nat.ne_of_gt (hw.addr_pos hqmem)
  have hpk : p.addr ≠ k.addr := (hw.apart_of_mem (.inr (by simp))).ne
  have hpq : p.addr ≠ q.addr := (hw.apart_of_mem (.inr (by simp))).ne
  have hw' : h.Wf ((l₁ ++ [p]) ++ k :: q :: l₂) := by simpa using hw
  have hkq : k.addr ≠ q.addr := (hw'.apart_of_mem (.inr (by simp))).ne
  have hlt := hw.addr_add_len hqmem
  have hstart : k.addr = p.addr + p.len := hw.tiles.split.2.1
  have hstart' : q.addr = k.addr + k.len := hw'.tiles.split.2.1
  obtain ⟨hpsize, hpfree, hpcksm⟩ := hw.headers p hpmem
  obtain ⟨hksize, -, -⟩ := hw.headers k hkmem
  obtain ⟨hqsize, -, -⟩ := hw.headers q hqmem
  have hT₁ : TableOn (addrs (l₁ ++ p :: k :: q :: l₂)) h₁ (h.table.set k.addr .free 1) :=
    Heap.tableOn.set hA hkA hk₀
  have hnext : h₁.get q.addr .next = h.link q.addr := by
    rw [hT₁.get hqA hq₀, Table.set_addr hkq.symm, Heap.link_eq]
    rfl
  have hT₂ : TableOn (addrs (l₁ ++ p :: k :: q :: l₂)) h₂ ((h.table.set k.addr .free 1).set p.addr .next
      (h.link q.addr)) := by
    rw [← hnext]
    exact hT₁.set hA hpA hp₀
  have hvalue : (h₂.get p.addr .size + (h₂.get k.addr .size + h₂.get q.addr .size + 2 * nodesize))
      % 2 ^ 64 = p.size + k.len + q.len := by
    rw [hT₂.get hpA hp₀, hT₂.get hkA hk₀, hT₂.get hqA hq₀]
    simp only [Table.set, Heap.table_of_ne hp₀, Heap.table_of_ne hk₀, Heap.table_of_ne hq₀, hpsize,
      hksize, hqsize, reduceCtorEq, and_false, if_false]
    simp only [Block.len] at hlt hstart hstart' ⊢
    omega
  rw [Heap.grow, hvalue]
  refine Heap.Wf.replace [p, k, q] [⟨p.addr, p.size + k.len + q.len, true⟩] hw ?_ ?_ ?_
    (TableOn.mono (hT₂.set hA hpA hp₀) (addrs_subset (by simp; grind))) ?_ ?_ ?_ ?_
  · rfl
  · rfl
  · rintro c d ⟨hc, -, -, rfl⟩
    refine ⟨hc, ?_⟩
    simp only [Tiles, Block.len]
    omega
  · intro k' hk' f hf
    have hk'p : k'.addr ≠ p.addr := Heap.Wf.addr_ne [p, k, q] hw hk' (by simp)
    have hk'k : k'.addr ≠ k.addr := Heap.Wf.addr_ne [p, k, q] hw hk' (by simp)
    rw [Table.set_addr hk'p, Table.set_addr hk'p, Table.set_addr hk'k]
  · intro k' hk'
    obtain rfl := List.mem_singleton.mp hk'
    have hdvd : 8 ∣ p.size + k.len + q.len := by
      have hpdvd := hw.size_dvd p hpmem
      have hkdvd := hw.size_dvd k hkmem
      have hqdvd := hw.size_dvd q hqmem
      rw [Block.len, Block.len, nodesize]
      omega
    simp [Table.set, Heap.table_of_ne hp₀, hpfree, hp, hpcksm, hpk, hdvd]
  · have hlist := hw'.list
    have hnodup := hw'.freeAddrs_nodup
    rw [freeAddrs_used hk, freeAddrs_cons_free hq] at hlist hnodup
    have hpath := hlist.remove hnodup
    rw [freeAddrs_append, freeAddrs_cons_free hp, freeAddrs_nil, Linked.last_concat, Heap.link_eq,
      List.append_assoc, List.singleton_append] at hpath
    rw [Table.next_set_field (by decide), Table.next_set, Table.next_set_field (by decide),
      Heap.link_eq, freeAddrs_append, List.singleton_append, freeAddrs_cons_free rfl]
    exact hpath
  · rw [List.singleton_append, isChain_mid]
    obtain ⟨h₁, -, hlast, -⟩ := isChain_mid.mp hw.coalesced
    obtain ⟨-, h₂, -, -⟩ := isChain_mid.mp hw'.coalesced
    rw [← List.nil_append (q :: l₂), isChain_mid] at h₂
    exact ⟨h₁, h₂.2.1, by simpa [hp] using hlast, by simpa [hq] using h₂.2.2.2⟩

/-- The used blocks. -/
def used (l : List Block) : List Block := l.filter (!·.free)

@[simp]
theorem used_append :
  used (l₁ ++ l₂) = used l₁ ++ used l₂
  := List.filter_append _ _

theorem used_cons_free (hk : k.free = true) :
  used (k :: l) = used l
  := by
  simp [used, hk]

theorem used_cons_used (hk : k.free = false) :
  used (k :: l) = k :: used l
  := by
  simp [used, hk]

/-- Freeing a used block keeps the heap well-formed, and changes no other used block. -/
theorem func6_spec
    (hw : h.Wf (l₁ ++ k :: l₂)) (hk : k.free = false) (hn : (l₁ ++ k :: l₂).length < n) :
  ∃ h' l', func6 n k.addr h = .ok h' ∧ h'.Wf l' ∧ h'.begmem = h.begmem ∧ h'.endmem = h.endmem ∧
    used l' = used (l₁ ++ l₂)
  := by
  have hlast₀ : lastFree l₁ false = true → Linked.last 0 (freeAddrs l₁) ≠ 0 := by
    intro hlast
    obtain ⟨l', p, rfl, hp⟩ := lastFree_iff.mp hlast
    rw [freeAddrs_append, freeAddrs_cons_free hp, freeAddrs_nil, Linked.last_concat]
    exact Nat.ne_of_gt (hw.addr_pos (by simp))
  have hhead₀ : headFree l₂ = true → (freeAddrs l₂).head?.getD 0 ≠ 0 := by
    intro hhead
    obtain ⟨q, l', rfl, hq⟩ := headFree_iff.mp hhead
    rw [freeAddrs_cons_free hq]
    exact Nat.ne_of_gt (hw.addr_pos (k := q) (by simp))
  rw [func6_eq hw hk hn, combine_eq hlast₀ hhead₀]
  cases hlast : lastFree l₁ false with
  | false =>
      cases hhead : headFree l₂ with
      | false =>
          refine ⟨_, _, rfl, hw.free_alone hk hlast hhead, by simp, by simp, ?_⟩
          rw [used_append, used_cons_free rfl, used_append]
      | true =>
          obtain ⟨q, l', rfl, hq⟩ := headFree_iff.mp hhead
          rw [freeAddrs_cons_free hq]
          refine ⟨_, _, rfl, hw.free_next hk hq hlast, by simp [Heap.grow], by simp [Heap.grow], ?_⟩
          rw [used_append, used_cons_free rfl, used_append, used_cons_free hq]
  | true =>
      obtain ⟨l', p, rfl, hp⟩ := lastFree_iff.mp hlast
      rw [freeAddrs_append, freeAddrs_cons_free hp, freeAddrs_nil, Linked.last_concat]
      rw [List.append_assoc, List.singleton_append] at hw
      cases hhead : headFree l₂ with
      | false =>
          refine ⟨_, _, rfl, hw.free_prev hp hk hhead, by simp [Heap.grow], by simp [Heap.grow], ?_⟩
          rw [used_append, used_cons_free rfl, used_append, used_append, used_cons_free hp]
          simp [used]
      | true =>
          obtain ⟨q, l'', rfl, hq⟩ := headFree_iff.mp hhead
          rw [freeAddrs_cons_free hq]
          refine ⟨_, _, rfl, hw.free_both hp hk hq, by simp [Heap.grow], by simp [Heap.grow], ?_⟩
          rw [used_append, used_cons_free rfl, used_append, used_append, used_cons_free hp,
            used_cons_free hq]
          simp [used]

end Free

/-! ### Taking a block -/

section Take

variable {h : Heap} {l l₁ l₂ : List Block} {k : Block} {n size : Nat} {msg : String}

/-- The pointer of a free block. -/
theorem Heap.Wf.link_free (hw : h.Wf (l₁ ++ k :: l₂)) (hk : k.free = true) :
  h.link k.addr = (freeAddrs l₂).head?.getD 0
  := by
  have hlist := hw.list
  rw [← List.singleton_append, ← List.append_assoc, freeAddrs_append] at hlist
  have hlast := (Path.append_iff.mp hlist).1.next_last
  rw [freeAddrs_append, freeAddrs_cons_free hk, freeAddrs_nil, Linked.last_concat] at hlast
  exact hlast

/-- The loop over the free list finds a block that is long enough, with the free block before it, or
comes to the end of the list. -/
theorem firstFit_eq (size : Nat) (l₁ l₂ : List Block) (hw : h.Wf (l₁ ++ l₂)) (hn : l₂.length < n) :
  ∃ prev curr, firstFit h size n (Linked.last 0 (freeAddrs l₁)) ((freeAddrs l₂).head?.getD 0)
      = .ok (prev, curr) ∧
    (curr = 0 ∨ ∃ u k v, l₂ = u ++ k :: v ∧ k.free = true ∧ size ≤ k.size ∧ curr = k.addr ∧
      prev = Linked.last 0 (freeAddrs (l₁ ++ u)))
  := by
  induction l₂ generalizing l₁ n with
  | nil =>
      obtain ⟨n, rfl⟩ := Nat.exists_eq_add_one_of_ne_zero (Nat.ne_zero_of_lt hn)
      refine ⟨Linked.last 0 (freeAddrs l₁), 0, ?_, .inl rfl⟩
      rw [firstFit, if_neg (fun h => h.1 rfl)]
      rfl
  | cons k l₂ ih =>
      obtain ⟨n, rfl⟩ := Nat.exists_eq_add_one_of_ne_zero (Nat.ne_zero_of_lt hn)
      have hn' := Nat.lt_of_succ_lt_succ hn
      have hw' : h.Wf ((l₁ ++ [k]) ++ l₂) := by simpa using hw
      cases hfree : k.free with
      | false =>
          obtain ⟨prev, curr, hfit, hcurr⟩ := ih (l₁ ++ [k]) hw' (Nat.lt_succ_of_lt hn')
          rw [freeAddrs_append, freeAddrs_cons_used hfree, freeAddrs_nil, List.append_nil] at hfit
          rw [freeAddrs_cons_used hfree]
          refine ⟨prev, curr, hfit, hcurr.imp_right ?_⟩
          rintro ⟨u, k', v, rfl, hk', hsize, hcurr, hprev⟩
          refine ⟨k :: u, k', v, rfl, hk', hsize, hcurr, ?_⟩
          rw [hprev, List.append_assoc, List.singleton_append]
      | true =>
          have hmem : k ∈ l₁ ++ k :: l₂ := by simp
          have hk₀ := Nat.ne_of_gt (hw.addr_pos hmem)
          obtain ⟨hksize, hkfree, hkcksm⟩ := hw.headers k hmem
          rw [freeAddrs_cons_free hfree, List.head?_cons, Option.getD_some, firstFit, hksize]
          by_cases hsize : k.size < size
          · obtain ⟨prev, curr, hfit, hcurr⟩ := ih (l₁ ++ [k]) hw' hn'
            rw [freeAddrs_append, freeAddrs_cons_free hfree, freeAddrs_nil, Linked.last_concat] at hfit
            have hlink := hw.link_free hfree
            rw [Heap.link, if_neg hk₀] at hlink
            rw [if_pos ⟨hk₀, hsize⟩, if_neg (not_not.mpr hkcksm), if_neg (by simp [hkfree, hfree]),
              hlink]
            refine ⟨prev, curr, hfit, hcurr.imp_right ?_⟩
            rintro ⟨u, k', v, rfl, hk', hsize, hcurr, hprev⟩
            refine ⟨k :: u, k', v, rfl, hk', hsize, hcurr, ?_⟩
            rw [hprev, List.append_assoc, List.singleton_append]
          · rw [if_neg (fun h => hsize h.2)]
            refine ⟨_, _, rfl, .inr ⟨[], k, l₂, rfl, hfree, Nat.le_of_not_lt hsize, rfl, ?_⟩⟩
            rw [List.append_nil]

/-- What becomes of a free block when a part of it is taken. -/
def taken (size : Nat) (k : Block) : List Block :=
  if k.size - size > THRESHOLD then
    [⟨k.addr, size, false⟩, ⟨k.addr + (nodesize + size), k.size - nodesize - size, true⟩]
  else
    [⟨k.addr, k.size, false⟩]

theorem used_taken (size : Nat) (k : Block) :
  ∃ s, s ≤ k.size ∧ (size ≤ k.size → size ≤ s) ∧ used (taken size k) = [⟨k.addr, s, false⟩]
  := by
  unfold taken
  split
  · exact ⟨size, by simp only [THRESHOLD] at *; omega, fun _ => le_rfl, rfl⟩
  · exact ⟨k.size, le_rfl, id, rfl⟩

/-- The whole block is taken off the list and marked. -/
theorem Heap.Wf.take_whole (hw : h.Wf (l₁ ++ k :: l₂)) (hk : k.free = true) :
  (mark k.addr (h.setLink (Linked.last 0 (freeAddrs l₁)) (h.get k.addr .next))).Wf
    (l₁ ++ ⟨k.addr, k.size, false⟩ :: l₂)
  := by
  have hmem : k ∈ l₁ ++ k :: l₂ := by simp
  have hA := separate_of_tiles hw.tiles
  have hkA := addr_mem_addrs hmem
  have hk₀ := Nat.ne_of_gt (hw.addr_pos hmem)
  obtain ⟨hksize, -, hkcksm⟩ := hw.headers k hmem
  refine Heap.Wf.replace [k] [⟨k.addr, k.size, false⟩] hw ?_ ?_ ?_
    (TableOn.mono (((Heap.tableOn.setLink hA last_mem_addrs).set hA hkA hk₀).set hA hkA hk₀)
      (addrs_subset (by simp))) ?_ ?_ ?_ ?_
  · simp [mark]
  · simp [mark]
  · exact fun c d htiles => htiles
  · intro k' hk' f hf
    have hk'k : k'.addr ≠ k.addr := Heap.Wf.addr_ne [k] hw hk' (by simp)
    rw [Table.set_addr hk'k, Table.set_field hf, Table.set_field hf]
  · intro k' hk'
    obtain rfl := List.mem_singleton.mp hk'
    simp [Table.set, Heap.table_of_ne hk₀, hksize, hkcksm, hw.size_dvd k hmem]
  · have hlist := hw.list
    have hnodup := hw.freeAddrs_nodup
    rw [freeAddrs_append, freeAddrs_cons_free hk] at hlist hnodup
    have hpath := hlist.remove hnodup
    rw [Table.next_set_field (by decide), Table.next_set, Table.next_set, ← Heap.link_eq,
      freeAddrs_append, List.singleton_append, freeAddrs_cons_used rfl]
    rw [Heap.link, if_neg hk₀] at hpath
    apply hpath.congr_of_mem
    intro b hb
    apply Function.update_of_ne
    rintro rfl
    rw [← freeAddrs_append] at hb
    exact hw.addr_notMem (freeAddrs_subset_addrs hb)
  · rw [List.singleton_append, isChain_mid]
    obtain ⟨h₁, h₂, -, -⟩ := isChain_mid.mp hw.coalesced
    exact ⟨h₁, h₂, by simp, by simp⟩

/-- The first part of the block is taken off the list and marked, and the rest put on the list. -/
theorem Heap.Wf.take_split
    (hw : h.Wf (l₁ ++ k :: l₂)) (hk : k.free = true) (hdvd : 8 ∣ size)
    (hsize : k.size - size > THRESHOLD) :
  (mark k.addr (takeOff h size (Linked.last 0 (freeAddrs l₁)) k.addr)).Wf
    (l₁ ++ ([⟨k.addr, size, false⟩,
      ⟨k.addr + (nodesize + size), k.size - nodesize - size, true⟩] ++ l₂))
  := by
  have hmem : k ∈ l₁ ++ k :: l₂ := by simp
  have hk₀ := Nat.ne_of_gt (hw.addr_pos hmem)
  have hlt := hw.addr_add_len hmem
  obtain ⟨hksize, -, hkcksm⟩ := hw.headers k hmem
  have hsizes : size + nodesize + 16 < k.size := by
    simp only [THRESHOLD] at hsize
    omega
  have htiles : ∀ c d, Tiles Block.addr Block.len c [k] d → Tiles Block.addr Block.len c
      [⟨k.addr, size, false⟩, ⟨k.addr + (nodesize + size), k.size - nodesize - size, true⟩] d := by
    rintro c d ⟨rfl, rfl⟩
    refine ⟨rfl, rfl, ?_⟩
    simp only [Tiles, Block.len]
    omega
  have hA := separate_of_tiles (hw.tiles.replace (l := [k]) htiles)
  obtain ⟨r, hr⟩ : ∃ r, r = k.addr + (nodesize + size) := ⟨_, rfl⟩
  rw [← hr] at hA htiles ⊢
  have hr₀ : r ≠ 0 := by omega
  have hkr : k.addr ≠ r := by
    rw [nodesize] at hr
    omega
  have hrA : r ∈ addrs (l₁ ++ ([⟨k.addr, size, false⟩, ⟨r, k.size - nodesize - size, true⟩] ++ l₂)) := by
    simp [addrs]
  have hkA : k.addr ∈
      addrs (l₁ ++ ([⟨k.addr, size, false⟩, ⟨r, k.size - nodesize - size, true⟩] ++ l₂)) := by
    simp [addrs]
  have hnode : nodeAdd k.addr (nodesize + size) = r := by
    rw [hr]
    apply Nat.mod_eq_of_lt
    rw [Block.len] at hlt
    omega
  have hT₁ := (Heap.tableOn (h := h)).set hA hrA hr₀ (f := .size) (v := k.size - nodesize - size)
  have hnext : (h.set r .size (k.size - nodesize - size)).get k.addr .next = h.link k.addr := by
    rw [hT₁.get hkA hk₀, Table.set_addr hkr, Heap.link_eq]
    rfl
  have heq : takeOff h size (Linked.last 0 (freeAddrs l₁)) k.addr
      = ((((((h.set r .size (k.size - nodesize - size)).set r .next (h.link k.addr)).set r .free 1).set r
        .cksm CKSM).set k.addr .size size).setLink (Linked.last 0 (freeAddrs l₁)) r) := by
    rw [takeOff, hksize, if_pos hsize, hnode, ← hnext]
  have hT := (((((((hT₁.set hA hrA hr₀ (f := .next) (v := h.link k.addr)).set hA hrA hr₀ (f := .free)
    (v := 1)).set hA hrA hr₀ (f := .cksm) (v := CKSM)).set hA hkA hk₀ (f := .size)
    (v := size)).setLink hA (last_mem_addrs : Linked.last 0 (freeAddrs l₁) ∈ _) (v := r)).set hA hkA hk₀ (f := .next)
    (v := 0)).set hA hkA hk₀ (f := .free) (v := 0))
  rw [heq, mark]
  have hr_notMem : r ∉ addrs (l₁ ++ k :: l₂) := by
    intro hmem
    rcases List.mem_cons.mp hmem with hzero | hmem'
    · exact hr₀ hzero
    · obtain ⟨k', hk', haddr⟩ := List.mem_map.mp hmem'
      rcases hw.tiles.eq_or_apart hk' (by simp : k ∈ l₁ ++ k :: l₂) with rfl | hle | hle
      · exact hkr haddr
      · rw [haddr, Block.len] at hle
        omega
      · rw [haddr, Block.len] at hle
        omega
  refine Heap.Wf.replace [k] _ hw ?_ ?_ ?_ hT ?_ ?_ ?_ ?_
  · simp
  · simp
  · exact htiles
  · intro k' hk' f hf
    have hk'k : k'.addr ≠ k.addr := Heap.Wf.addr_ne [k] hw hk' (by simp)
    have hk'r : k'.addr ≠ r := by
      rintro rfl
      apply hr_notMem
      apply addr_mem_addrs
      simp only [List.mem_append, List.mem_cons]
      tauto
    rw [Table.set_addr hk'k, Table.set_field hf, Table.set_field hf, Table.set_addr hk'k,
      Table.set_addr hk'r, Table.set_addr hk'r, Table.set_addr hk'r, Table.set_addr hk'r]
  · intro k' hk'
    have hrest : 8 ∣ k.size - nodesize - size := by
      have hkdvd := hw.size_dvd k hmem
      rw [nodesize]
      omega
    simp only [List.mem_cons, List.not_mem_nil, or_false] at hk'
    rcases hk' with rfl | rfl
    · simp [Table.set, Heap.table_of_ne hk₀, hkcksm, hkr, hdvd]
    · simp [Table.set, hkr.symm, hrest]
  · have hlist := hw.list
    have hnodup := hw.freeAddrs_nodup
    rw [freeAddrs_append, freeAddrs_cons_free hk] at hlist hnodup
    have hnodup' : (0 :: (freeAddrs l₁ ++ freeAddrs l₂)).Nodup := List.Nodup.sublist (by simp) hnodup
    have hsub : addrs (l₁ ++ l₂) ⊆ addrs (l₁ ++ k :: l₂) := addrs_subset (by simp)
    have hr_list : r ∉ 0 :: (freeAddrs l₁ ++ freeAddrs l₂) := by
      rw [← freeAddrs_append]
      intro hmem
      exact hr_notMem (hsub (freeAddrs_subset_addrs hmem))
    have hprev : Linked.last 0 (freeAddrs l₁) ≠ r := by
      intro hprev
      apply hr_notMem
      rw [← hprev]
      exact last_mem_addrs
    have hpath := (hlist.remove hnodup).insert hnodup' hr_list
    rw [Function.update_self, Function.update_comm hprev, Function.update_idem, Heap.link_eq] at hpath
    rw [Table.next_set_field (by decide), Table.next_set, Table.next_set,
      Table.next_set_field (by decide), Table.next_set_field (by decide),
      Table.next_set_field (by decide), Table.next_set, Table.next_set_field (by decide),
      freeAddrs_append, List.cons_append, freeAddrs_cons_used rfl, List.singleton_append,
      freeAddrs_cons_free rfl, Heap.link_eq]
    apply hpath.congr_of_mem
    intro b hb
    apply Function.update_of_ne
    rintro rfl
    apply hw.addr_notMem
    apply freeAddrs_subset_addrs
    rw [freeAddrs_append]
    simp only [List.mem_cons, List.mem_append] at hb ⊢
    tauto
  · obtain ⟨h₁, h₂, -, hhead⟩ := isChain_mid.mp hw.coalesced
    rw [List.cons_append, isChain_mid]
    refine ⟨h₁, ?_, by simp, by simp⟩
    rw [← List.nil_append ([_] ++ l₂), List.singleton_append, isChain_mid]
    exact ⟨.nil, h₂, by simp, by simpa [hk] using hhead⟩

/-- The block is taken off the list and marked. -/
theorem Heap.Wf.take (hw : h.Wf (l₁ ++ k :: l₂)) (hk : k.free = true) (hdvd : 8 ∣ size) :
  (mark k.addr (takeOff h size (Linked.last 0 (freeAddrs l₁)) k.addr)).Wf (l₁ ++ (taken size k ++ l₂))
  := by
  have hmem : k ∈ l₁ ++ k :: l₂ := by simp
  unfold taken
  split
  · rename_i hlt
    exact hw.take_split hk hdvd hlt
  · rename_i hle
    rw [Raytrace.takeOff, (hw.headers k hmem).size, if_neg hle]
    exact hw.take_whole hk

theorem roundUp_dvd (size : Nat) :
  8 ∣ roundUp size
  := Nat.dvd_mul_left 8 _

theorem le_roundUp (hsize : size + 7 < 2 ^ 64) :
  size ≤ roundUp size ∧ roundUp size < size + 8
  := by
  rw [roundUp, Nat.mod_eq_of_lt hsize]
  omega

/-- `func5` takes a free block that is long enough, or there is none. -/
theorem func5_spec (size : Nat) (msg : String) (hw : h.Wf l) (hn : l.length < n) :
  func5 n size msg h = .error (.exit (.cannotAllocate msg)) ∨
    ∃ l₁ k l₂, l = l₁ ++ k :: l₂ ∧ k.free = true ∧ roundUp size ≤ k.size ∧
      func5 n size msg h
        = .ok (k.addr, takeOff h (roundUp size) (Linked.last 0 (freeAddrs l₁)) k.addr)
  := by
  obtain ⟨prev, curr, hfit, hcurr⟩ :=
    firstFit_eq (roundUp size) [] l hw hn
  have hfit' : firstFit h (roundUp size) n 0 h.freelist = .ok (prev, curr) := by
    rw [hw.link_zero]
    exact hfit
  simp only [func5, hfit', bind, Except.bind]
  rcases hcurr with rfl | ⟨u, k, v, rfl, hk, hsize, rfl, rfl⟩
  · rw [if_pos rfl]
    exact .inl rfl
  · right
    have hk₀ := Nat.ne_of_gt (hw.addr_pos (by simp : k ∈ u ++ k :: v))
    rw [if_neg hk₀]
    exact ⟨u, k, v, rfl, hk, hsize, rfl⟩

/-- The address of the data of a block. -/
def Block.data (k : Block) : Nat := k.addr + nodesize

theorem Block.nodeAdd_data (hlt : k.addr + k.len < 2 ^ 64) :
  nodeAdd k.addr nodesize = k.data
  := by
  apply Nat.mod_eq_of_lt
  rw [Block.len] at hlt
  omega

/-- `GlobalMalloc` returns the data of a new used block, which is as long as was asked for, or there
is not enough memory. -/
theorem globalMalloc_spec
    (msg : String) (hw : h.Wf l) (hn : l.length < n) (hsize₀ : size ≠ 0) (hsize : size + 7 < 2 ^ 64) :
  globalMalloc n size msg h = .error (.exit (.cannotAllocate msg)) ∨
    ∃ h' l' k, globalMalloc n size msg h = .ok (k.data, h') ∧ h'.Wf l' ∧ k.free = false ∧
      size ≤ k.size ∧ (used l').Perm (k :: used l)
  := by
  unfold globalMalloc
  rw [if_neg hsize₀]
  rcases func5_spec size msg hw hn with herror | ⟨l₁, k, l₂, rfl, hk, hle, hok⟩
  · rw [herror]
    exact .inl rfl
  · right
    rw [hok]
    obtain ⟨s, hs, hround, hused⟩ := used_taken (roundUp size) k
    have hmem : k ∈ l₁ ++ k :: l₂ := by simp
    refine ⟨_, _, ⟨k.addr, s, false⟩, ?_, hw.take hk (roundUp_dvd size), rfl, ?_, ?_⟩
    · dsimp only [bind, Except.bind]
      rw [Block.nodeAdd_data (hw.addr_add_len hmem)]
      rfl
    · exact (le_roundUp hsize).1.trans (hround hle)
    · rw [used_append, used_append, hused, used_append, used_cons_free hk]
      exact List.perm_middle

/-- `GlobalFree` frees the block of a pointer. -/
theorem globalFree_spec
    (hw : h.Wf l) (hk : k ∈ used l) (hn : l.length < n) :
  ∃ h' l', globalFree n k.data h = .ok h' ∧ h'.Wf l' ∧ (k :: used l').Perm (used l)
  := by
  obtain ⟨hmem, hfree⟩ := List.mem_filter.mp hk
  replace hfree : k.free = false := by simpa using hfree
  obtain ⟨l₁, l₂, rfl⟩ := List.append_of_mem hmem
  obtain ⟨h', l', hok, hw', -, -, hused⟩ := func6_spec hw hfree hn
  obtain ⟨-, hkfree, hkcksm⟩ := hw.headers k hmem
  have hnode : nodeAdd k.data (2 ^ 64 - nodesize) = k.addr := by
    have hlt := hw.addr_add_len hmem
    rw [nodeAdd, Block.data]
    rw [Block.len] at hlt
    simp only [nodesize] at hlt ⊢
    omega
  refine ⟨h', l', ?_, hw', ?_⟩
  · simp only [globalFree, hnode]
    rw [if_neg (Nat.ne_of_gt hw.begmem_pos), hkcksm, if_neg (not_not.mpr rfl), hkfree, hfree]
    exact hok
  · rw [hused, used_append, used_append, used_cons_used hfree]
    exact List.perm_middle.symm

end Take

end Raytrace
