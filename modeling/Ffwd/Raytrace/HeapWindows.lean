import Ffwd.Raytrace.HeapRealloc

/-!
# Steps in the windows

What each step does to a world in which one processor may be in a window: the server takes a block off
the list or frees one, a store is made, and `GlobalRealloc` goes through the part in which it reads the
next block and walks over the free list.
-/

namespace Raytrace

open Linked (Path)
open Tiling (Tiles)
open Relation (ReflTransGen)

section Steps

variable {N : Nat} {w w' : World N} {i j : Fin N} {l l' : List Block} {k : Block} {p : HeapPlace}
  {a v x n : Nat}

/-- A processor that is in a window is the one of the invariant. -/
theorem World.Inv.eq_of_inWindow (hinv : w.Inv i l) (hj : (w.place j).inWindow = true) :
  j = i
  := by
  by_contra hne
  rw [hinv.alone j hne] at hj
  exact absurd hj nofun

/-- A word of a block is written that is not held in a window. -/
theorem World.Inv.write
    (hinv : w.Inv i l) (hk : k ∈ used l) (hle : k.data ≤ a) (hlt : a < k.data + k.size)
    (hheld : (w.place i).inWindow = false ∨ k.data ∉ (w.place i).held) :
  ({ w with heap := w.heap.write a v } : World N).Inv i l
  := by
  have hb : k.Has a := by
    simp only [Block.Has, Block.data, Block.len] at hle hlt ⊢
    omega
  have hout : ∀ s ∈ (w.place i).pending, s.Outside k := by
    rcases hheld with hi | hheld
    · rw [HeapPlace.pending_of_not_inWindow hi]
      simp
    · exact hinv.outside k hk hheld
  refine ⟨hinv.alone, ?_, ?_, hinv.outside, hinv.allocated, hinv.live, hinv.places⟩
  · dsimp only
    rw [← foldl_apply_write hout hb]
    exact hinv.heap.write (used_subset hk) hle hlt
  · rcases hheld with hi | hheld
    · dsimp only
      rw [HeapPlace.pending_of_not_inWindow hi]
      exact ((hinv.wf hi).freeOk.write_used hk hb).stage
    · exact hinv.stages.write hk hheld hb hout

theorem Block.has_field {f : Field} :
  k.Has (k.addr + f.offset)
  := by
  have hf := f.offset_le
  simp only [Block.Has, Block.len, nodesize]
  omega

/-- A store to a free block, or to a block that is held, leaves the other used blocks alone. -/
theorem outside_of_has {held : Multiset Nat} {h : Heap} {kb : Block} {b : Nat} (hw : h.Wf l)
    (hk : k ∈ used l) (hheld : k.data ∉ held) (hkb : kb ∈ l) (hor : kb.free = true ∨ kb.data ∈ held)
    (hb : kb.Has b) :
  (Store.word b v).Outside k
  := by
  intro hb'
  obtain ⟨hmem, hfree⟩ := List.mem_filter.mp hk
  obtain rfl := Block.Has.eq hw.tiles hmem hkb hb' hb
  rcases hor with hor | hor
  · rw [hor] at hfree
    exact absurd hfree Bool.false_ne_true
  · exact hheld hor

/-- The stores of a processor to the blocks it holds leave the other blocks alone. -/
theorem outside_of_held {held : Multiset Nat} {ss : List Store} {h : Heap} (hw : h.Wf l)
    (hss : ∀ s ∈ ss, ∃ k ∈ used l, k.data ∈ held ∧ ∃ b v, k.Has b ∧ s = .word b v) :
  ∀ k ∈ used l, k.data ∉ held → ∀ s ∈ ss, s.Outside k
  := by
  intro k hk hheld s hs
  obtain ⟨k', hk', hheld', b, v, hb, rfl⟩ := hss s hs
  exact outside_of_has hw hk hheld (used_subset hk') (.inr hheld') hb

/-- A store to the pointer of a free block, or to the start of the list. -/
theorem link_outside {held : Multiset Nat} {h : Heap} {l₁ l₂ : List Block} (hw : h.Wf (l₁ ++ l₂))
    (hk : k ∈ used (l₁ ++ l₂)) (hheld : k.data ∉ held) :
  (Store.link (Linked.last 0 (freeAddrs l₁)) v).Outside k
  := by
  unfold Store.link
  split
  · trivial
  · rename_i hne
    have hlast := (List.mem_cons.mp (Linked.last_mem (b := 0) (l := freeAddrs l₁))).resolve_left hne
    obtain ⟨p, hp, hfree, haddr⟩ := mem_freeAddrs.mp hlast
    apply outside_of_has hw hk hheld (List.mem_append_left l₂ hp) (.inl hfree)
    rw [← haddr]
    exact Block.has_field

/-- The server takes a block off the list. -/
theorem World.Inv.func5
    {m curr : Nat} {o : Order} {msg : String} {h : Heap} (hinv : w.Inv i l)
    (hj : w.place j = .allocating m o) (halone : w.Alone j) (hm : m + 7 < 2 ^ 64)
    (hcall : Raytrace.func5 n m msg w.heap = .ok (curr, h)) :
  curr + nodesize < 2 ^ 64 ∧ ∃ l', ({ w with heap := h }.goto j
    (.writing (markStores curr) (.got (nodeAdd curr nodesize) o)) : World N).Inv j l'
  := by
  have hwindow : (w.place j).inWindow = false := by rw [hj]; rfl
  obtain ⟨hinv, hw⟩ := hinv.switch halone hwindow
  have hmono := func5_mono (n := n + (l.length + 1)) (Nat.le_add_right n _)
    (by rw [hcall]; exact nofun)
  rcases func5_spec m msg (n := n + (l.length + 1)) hw (by omega) with herror |
    ⟨l₁, k, l₂, rfl, hk, hle, hok⟩
  · rw [hmono, hcall] at herror
    exact absurd herror nofun
  rw [hmono, hcall] at hok
  obtain ⟨rfl, rfl⟩ := Prod.mk.inj (Except.ok.inj hok)
  have hkmem : k ∈ l₁ ++ k :: l₂ := by simp
  have hw' := hw.take hk (roundUp_dvd m)
  obtain ⟨s, hs, hround, hused⟩ := used_taken (roundUp m) k
  have hk' : (⟨k.addr, s, false⟩ : Block) ∈ used (l₁ ++ (taken (roundUp m) k ++ l₂)) := by
    rw [used_append, used_append, hused]
    simp
  have hdata : nodeAdd k.addr nodesize = k.data := Block.nodeAdd_data (hw.addr_add_len hkmem)
  have hstores : ∀ s' ∈ markStores k.addr, ∃ k' ∈ used (l₁ ++ (taken (roundUp m) k ++ l₂)),
      k'.data ∈ k.data ::ₘ o.held ∧ ∃ b v, k'.Has b ∧ s' = .word b v := by
    intro s' hs'
    refine ⟨_, hk', Multiset.mem_cons_self _ _, ?_⟩
    simp only [markStores, List.mem_cons, List.not_mem_nil, or_false] at hs'
    rcases hs' with rfl | rfl
    · exact ⟨_, _, Block.has_field, rfl⟩
    · exact ⟨_, _, Block.has_field, rfl⟩
  have hperm : (used (l₁ ++ (taken (roundUp m) k ++ l₂))).Perm
      (⟨k.addr, s, false⟩ :: used (l₁ ++ k :: l₂)) := by
    rw [used_append, used_append, hused, used_append, used_cons_free hk]
    exact List.perm_middle
  have hfinal : ((markStores k.addr).foldl Store.apply
      (takeOff w.heap (roundUp m) (Linked.last 0 (freeAddrs l₁)) k.addr)).Wf
      (l₁ ++ (taken (roundUp m) k ++ l₂)) := hw'
  have hplace := hinv.places j
  rw [hj] at hplace
  have hlt : k.addr + nodesize < 2 ^ 64 := by
    have hlen := hw.addr_add_len hkmem
    rw [Block.len] at hlen
    omega
  rw [hdata]
  refine ⟨hlt, l₁ ++ (taken (roundUp m) k ++ l₂), hinv.advance hfinal ?_ ?_ ?_ ?_ ?_ ?_⟩
  · apply stages_of_used hfinal.freeOk
    intro s' hs'
    obtain ⟨k', hk', -, hb⟩ := hstores s' hs'
    exact ⟨k', hk', hb⟩
  · exact outside_of_held hw' hstores
  · have hcoe := Multiset.coe_eq_coe.mpr (hperm.map Block.data)
    rw [hcoe, hj, List.map_cons, ← Multiset.cons_coe]
    simp only [HeapPlace.held, Multiset.cons_add, Multiset.add_cons]
    rfl
  · intro k' hk' _
    exact hperm.symm.subset (List.mem_cons_of_mem _ hk')
  · exact fun e he => .inl he
  · refine ⟨⟨_, hk', rfl, ?_⟩, rfl⟩
    exact (hplace.trans (le_roundUp hm).1).trans (hround hle)

/-- The server frees a block. -/
theorem World.Inv.func6
    {x : Nat} {back : Option (Nat × Nat)} {h : Heap} (hinv : w.Inv i l)
    (hj : w.place j = .freeing x back) (halone : w.Alone j)
    (hcall : Raytrace.func6 n (nodeAdd x (2 ^ 64 - nodesize)) w.heap = .ok h) :
  ∃ l', ({ w with heap := h, live := back.toList ++ w.live }.goto j .idle : World N).Inv j l'
  := by
  have hwindow : (w.place j).inWindow = false := by rw [hj]; rfl
  obtain ⟨hinv, hw⟩ := hinv.switch halone hwindow
  have hheld : (w.place j).held = x ::ₘ backHeld back := by rw [hj]; rfl
  obtain ⟨k, hk, rfl⟩ := hinv.held_used (j := j) (by rw [hheld]; exact Multiset.mem_cons_self x _)
  rw [hinv.pn hk] at hcall
  obtain ⟨hmem, hfree⟩ := List.mem_filter.mp hk
  replace hfree : k.free = false := by simpa using hfree
  obtain ⟨l₁, l₂, rfl⟩ := List.append_of_mem hmem
  have hmono := func6_mono (n := n + ((l₁ ++ k :: l₂).length + 1)) (Nat.le_add_right n _)
    (by rw [hcall]; exact nofun)
  obtain ⟨h', l', hok, hw', -, -, hused⟩ :=
    func6_spec (n := n + ((l₁ ++ k :: l₂).length + 1)) hw hfree (by omega)
  rw [hmono, hcall] at hok
  obtain rfl := Except.ok.inj hok
  have hperm : (used (l₁ ++ k :: l₂)).Perm (k :: used l') := by
    rw [hused, used_append, used_append, used_cons_used hfree]
    exact List.perm_middle
  have hkeep : ∀ k' ∈ used (l₁ ++ k :: l₂), k'.data ≠ k.data → k' ∈ used l' := by
    intro k' hk' hne
    rcases List.mem_cons.mp (hperm.subset hk') with rfl | hk'
    · exact absurd rfl hne
    · exact hk'
  refine ⟨l', hinv.advance hw' hw'.freeOk.stage (fun _ _ _ => nofun) ?_ ?_ ?_ trivial⟩
  · have hcoe := Multiset.coe_eq_coe.mpr (hperm.map Block.data)
    rw [hcoe, hheld, List.map_cons, ← Multiset.cons_coe]
    cases back with
    | none =>
        simp only [backHeld, HeapPlace.held, Option.toList, List.nil_append, Multiset.cons_add,
          Multiset.add_cons]
    | some e =>
        simp only [backHeld, HeapPlace.held, Option.toList, List.singleton_append, List.map_cons,
          ← Multiset.cons_coe, ← Multiset.singleton_add]
        ac_rfl
  · intro k' hk' hnot
    apply hkeep k' hk'
    intro hdata
    rw [hheld, hdata] at hnot
    exact hnot (Multiset.mem_cons_self _ _)
  · intro e he
    rcases List.mem_append.mp he with he | he
    · right
      obtain rfl := Option.mem_toList.mp he
      have hplace := hinv.places j
      rw [hj] at hplace
      apply (hplace e rfl).transfer
      intro k' hk' hdata
      apply hkeep k' hk'
      have hnodup := hinv.allocated_nodup
      rw [World.allocated_split (i := j), Multiset.nodup_add, Multiset.nodup_add, hheld] at hnodup
      rintro hdata'
      have hne := (Multiset.nodup_cons.mp hnodup.2.1.1).1
      rw [← hdata', hdata] at hne
      exact hne (Multiset.mem_singleton_self e.1)
    · exact .inl he

/-- A store is made. -/
theorem World.Inv.store
    {s : Store} {stores : List Store} {after : HeapPlace} (hinv : w.Inv i l)
    (hj : w.place j = .writing (s :: stores) after) :
  ({ w with heap := s.apply w.heap }.goto j
    (if stores.isEmpty then after else .writing stores after) : World N).Inv j l
  := by
  obtain rfl := hinv.eq_of_inWindow (j := j) (by rw [hj]; rfl)
  have hplace := hinv.places j
  have hheap := hinv.heap
  have hstages := hinv.stages
  have hout := hinv.outside
  rw [hj] at hplace hheap hstages hout
  obtain ⟨p, hp⟩ : ∃ p, p = (if stores.isEmpty then after else .writing stores after) := ⟨_, rfl⟩
  have hpending : p.pending = stores := by
    cases stores with
    | nil => rw [hp]; exact HeapPlace.pending_of_not_inWindow hplace.2
    | cons s' stores => rw [hp]; rfl
  have hheld : p.held = after.held := by
    cases stores with
    | nil => rw [hp]; rfl
    | cons s' stores => rw [hp]; rfl
  have hok : p.Ok l := by
    cases stores with
    | nil => rw [hp]; exact hplace.1
    | cons s' stores => rw [hp]; exact hplace
  rw [← hp]
  apply hinv.advance
  · rw [hpending]
    exact hheap
  · rw [hpending, hheld]
    exact hstages.2
  · rw [hpending, hheld]
    exact fun k hk hk' s' hs' => hout k hk hk' s' (List.mem_cons_of_mem _ hs')
  · rw [hheld, hj]
    rfl
  · exact fun k hk _ => hk
  · exact fun e he => .inl he
  · exact hok

/-- The blocks around a used block. -/
theorem exists_around (hk : k ∈ used l) :
  ∃ l₁ l₂, l = l₁ ++ k :: l₂ ∧ k.free = false
  := by
  obtain ⟨hmem, hfree⟩ := List.mem_filter.mp hk
  obtain ⟨l₁, l₂, rfl⟩ := List.append_of_mem hmem
  exact ⟨l₁, l₂, rfl, by simpa using hfree⟩

theorem Block.nodeAdd_next {m : Nat} (hlt : k.addr + k.len < 2 ^ 64) (hm : m ≤ k.size) :
  nodeAdd k.data m = k.data + m
  := by
  apply Nat.mod_eq_of_lt
  rw [Block.len] at hlt
  rw [Block.data]
  omega

/-- The end of a block is about to be cut off. -/
theorem World.Inv.shrinking
    {size oldsize : Nat} (hinv : w.Inv i l) (hj : w.place j = .shrinking x size oldsize)
    (halone : w.Alone j) :
  ∃ l', (w.goto j (.writing (shrinkStores x (roundUp size) oldsize)
    (.freeCksm (nodeAdd (nodeAdd x (roundUp size)) nodesize) (some (x, size)))) : World N).Inv j l'
  := by
  have hwindow : (w.place j).inWindow = false := by rw [hj]; rfl
  obtain ⟨hinv, hw⟩ := hinv.switch halone hwindow
  have hplace := hinv.places j
  rw [hj] at hplace
  obtain ⟨hsize, hle, k, hk, rfl, rfl⟩ := hplace
  obtain ⟨l₁, l₂, rfl, hfree⟩ := exists_around hk
  have hmem : k ∈ l₁ ++ k :: l₂ := by simp
  have hlt := hw.addr_add_len hmem
  have hw' := hw.shrink hfree (roundUp_dvd size) hle
  obtain ⟨n, hn⟩ : ∃ n, n = roundUp size := ⟨_, rfl⟩
  rw [← hn] at hw' hle ⊢
  simp only [THRESHOLD] at hle
  have hnext : nodeAdd (nodeAdd k.data n) nodesize = k.data + n + nodesize := by
    rw [Block.nodeAdd_next hlt (by omega)]
    apply Nat.mod_eq_of_lt
    rw [Block.len] at hlt
    rw [Block.data]
    omega
  obtain ⟨k₁, hk₁⟩ : ∃ k₁ : Block, k₁ = ⟨k.addr, n, false⟩ := ⟨_, rfl⟩
  obtain ⟨k₂, hk₂⟩ : ∃ k₂ : Block, k₂ = ⟨k.data + n, k.size - nodesize - n, false⟩ := ⟨_, rfl⟩
  rw [← hk₁, ← hk₂] at hw'
  have hused : used (l₁ ++ ([k₁, k₂] ++ l₂)) = used l₁ ++ (k₁ :: k₂ :: used l₂) := by
    rw [used_append, List.cons_append, used_cons_used (by rw [hk₁]), List.singleton_append,
      used_cons_used (by rw [hk₂])]
  have hused' : used (l₁ ++ k :: l₂) = used l₁ ++ (k :: used l₂) := by
    rw [used_append, used_cons_used hfree]
  have hmem₁ : k₁ ∈ used (l₁ ++ ([k₁, k₂] ++ l₂)) := by
    rw [hused]
    simp
  have hmem₂ : k₂ ∈ used (l₁ ++ ([k₁, k₂] ++ l₂)) := by
    rw [hused]
    simp
  have hdata₁ : k₁.data = k.data := by rw [hk₁]; rfl
  have hdata₂ : k₂.data = k.data + n + nodesize := by rw [hk₂]; rfl
  have hstores : ∀ s ∈ shrinkStores k.data n k.size, ∃ k' ∈ used (l₁ ++ ([k₁, k₂] ++ l₂)),
      k'.data ∈ (k.data + n + nodesize) ::ₘ {k.data} ∧ ∃ b v, k'.Has b ∧ s = .word b v := by
    intro s hs
    simp only [shrinkStores, Block.nodeAdd_pn hlt, Block.nodeAdd_next hlt (show n ≤ k.size by omega),
      List.mem_cons, List.not_mem_nil, or_false] at hs
    rcases hs with rfl | hs
    · refine ⟨k₁, hmem₁, by rw [hdata₁]; simp, _, _, ?_, rfl⟩
      rw [hk₁]
      exact Block.has_field
    · refine ⟨k₂, hmem₂, by rw [hdata₂]; simp, ?_⟩
      rw [hk₂]
      rcases hs with rfl | rfl | rfl | rfl
      · exact ⟨_, _, Block.has_field, rfl⟩
      · exact ⟨_, _, Block.has_field, rfl⟩
      · exact ⟨_, _, Block.has_field, rfl⟩
      · exact ⟨_, _, Block.has_field, rfl⟩
  rw [hnext]
  refine ⟨_, hinv.advance hw' ?_ ?_ ?_ ?_ (fun e he => .inl he) ?_⟩
  · apply stages_of_used hw'.freeOk
    intro s hs
    obtain ⟨k', hk', -, hb⟩ := hstores s hs
    exact ⟨k', hk', hb⟩
  · exact outside_of_held hw' hstores
  · rw [hused, hused', hj]
    simp only [List.map_append, List.map_cons, ← Multiset.coe_add, ← Multiset.cons_coe, hdata₁, hdata₂,
      HeapPlace.held, backHeld, ← Multiset.singleton_add]
    ac_rfl
  · intro k' hk' hheld
    rw [hused'] at hk'
    rw [hused]
    rw [hj] at hheld
    have hne : k' ≠ k := by
      rintro rfl
      exact hheld (Multiset.mem_singleton_self _)
    simp only [List.mem_append, List.mem_cons] at hk' ⊢
    tauto
  · refine ⟨?_, rfl⟩
    rintro e he
    obtain rfl := Option.some.inj he
    refine ⟨k₁, hmem₁, hdata₁, ?_⟩
    rw [hk₁, hn]
    exact (le_roundUp hsize).1

/-- A step in a window that leaves the heap as it is. -/
theorem World.Inv.inside
    {memlock : Option (Fin N)} (hinv : w.Inv i l) (hw : w.heap.Wf l) (hpending : p.pending = [])
    (hheld : p.held = (w.place i).held) (hok : p.Ok l) :
  (⟨w.heap, memlock, Function.update w.place i p, w.live⟩ : World N).Inv i l
  := by
  apply hinv.advance
  · rw [hpending]
    exact hw
  · rw [hpending]
    exact hw.freeOk.stage
  · rw [hpending]
    exact fun _ _ _ => nofun
  · rw [hheld]
  · exact fun k hk _ => hk
  · exact fun e he => .inl he
  · exact hok

theorem World.Inv.wf_of_pending (hinv : w.Inv i l) (hpending : (w.place i).pending = []) :
  w.heap.Wf l
  := by
  have hheap := hinv.heap
  rw [hpending] at hheap
  exact hheap

/-- The size of the next block is read. -/
theorem World.Inv.reading
    {size oldsize : Nat} (hinv : w.Inv i l) (hj : w.place j = .reading x size oldsize)
    (halone : w.Alone j) :
  (w.goto j (.locking x size oldsize
    ((oldsize + nodesize + w.heap.get (nodeAdd x oldsize) .size) % 2 ^ 64)) : World N).Inv j l
  := by
  have hwindow : (w.place j).inWindow = false := by rw [hj]; rfl
  obtain ⟨hinv, hw⟩ := hinv.switch halone hwindow
  have hplace := hinv.places j
  rw [hj] at hplace
  obtain ⟨hsize, hlt, k, hk, rfl, rfl⟩ := hplace
  obtain ⟨l₁, l₂, rfl, hfree⟩ := exists_around hk
  have hklt := hw.addr_add_len (by simp : k ∈ l₁ ++ k :: l₂)
  refine hinv.inside hw rfl (by rw [hj]; rfl) ⟨l₁, k, l₂, ?_⟩
  refine ⟨rfl, hfree, rfl, rfl, hsize, hlt, ?_⟩
  intro q hq
  cases l₂ with
  | nil => exact absurd hq nofun
  | cons q' l₂ =>
      obtain rfl := Option.some.inj hq
      have hqmem : q' ∈ l₁ ++ k :: q' :: l₂ := by simp
      have hqlt := hw.addr_add_len hqmem
      have hstart : q'.addr = k.addr + k.len := hw.tiles.split.2.1
      have hnext : nodeAdd k.data k.size = q'.addr := by
        rw [Block.nodeAdd_next hklt le_rfl, hstart, Block.data, Block.len, Nat.add_assoc]
      rw [hnext, (hw.headers q' hqmem).size]
      apply Nat.mod_eq_of_lt
      rw [Block.len] at hqlt hstart
      omega

/-- The next block, when its address is that of a block. -/
theorem Growing.next
    {size oldsize totsize : Nat} {l₁ l₂ : List Block} {h : Heap}
    (hg : Growing l x size oldsize totsize l₁ k l₂) (hw : h.Wf l) :
  nodeAdd x oldsize = k.addr + k.len ∧ (k.addr + k.len < h.endmem → ∃ q l₂', l₂ = q :: l₂' ∧
    q.addr = k.addr + k.len)
  := by
  obtain ⟨rfl, hfree, rfl, rfl, -⟩ := hg
  constructor
  · rw [Block.nodeAdd_next (hw.addr_add_len (by simp)) le_rfl, Block.data, Block.len, Nat.add_assoc]
  · intro hend
    have htiles := hw.tiles.split.2
    cases l₂ with
    | nil =>
        have heq : k.addr + k.len = h.endmem := htiles
        omega
    | cons q l₂ => exact ⟨q, l₂, rfl, htiles.1⟩

/-- The lock is taken. -/
theorem World.Inv.locking
    {size oldsize totsize : Nat} (memlock : Option (Fin N)) (hinv : w.Inv i l)
    (hj : w.place j = .locking x size oldsize totsize) :
  ({ w with memlock := memlock }.goto j (.testing x size oldsize totsize) : World N).Inv j l
  := by
  obtain rfl := hinv.eq_of_inWindow (j := j) (by rw [hj]; rfl)
  have hplace := hinv.places j
  rw [hj] at hplace
  exact hinv.inside (hinv.wf_of_pending (by rw [hj]; rfl)) rfl (by rw [hj]; rfl) hplace

/-- The next block is not free, or too small. -/
theorem World.Inv.testingUsed
    {size oldsize totsize : Nat} (hinv : w.Inv i l)
    (hj : w.place j = .testing x size oldsize totsize) :
  (w.goto j (.unlocking x size (some oldsize)) : World N).Inv j l
  := by
  obtain rfl := hinv.eq_of_inWindow (j := j) (by rw [hj]; rfl)
  have hplace := hinv.places j
  rw [hj] at hplace
  obtain ⟨l₁, k, l₂, hg⟩ := hplace
  exact hinv.inside (hinv.wf_of_pending (by rw [hj]; rfl)) rfl (by rw [hj]; rfl) hg.round

/-- The next block is free. -/
theorem World.Inv.testingFree
    {size oldsize totsize : Nat} (hinv : w.Inv i l)
    (hj : w.place j = .testing x size oldsize totsize) (hend : nodeAdd x oldsize < w.heap.endmem)
    (hfree : w.heap.get (nodeAdd x oldsize) .free ≠ 0) (hle : roundUp size ≤ totsize) :
  (w.goto j (.walking x size oldsize totsize 0) : World N).Inv j l
  := by
  obtain rfl := hinv.eq_of_inWindow (j := j) (by rw [hj]; rfl)
  have hw := hinv.wf_of_pending (by rw [hj]; rfl)
  have hplace := hinv.places j
  rw [hj] at hplace
  obtain ⟨l₁, k, l₂, hg⟩ := hplace
  obtain ⟨hnext, hq⟩ := hg.next hw
  rw [hnext] at hend hfree
  obtain ⟨q, l₂, rfl, hqaddr⟩ := hq hend
  have hqmem : q ∈ l := by
    rw [hg.eq]
    simp
  rw [← hqaddr, (hw.headers q hqmem).get_free] at hfree
  refine hinv.inside hw rfl (by rw [hj]; rfl) ?_
  exact ⟨l₁, k, q, l₂, [], freeAddrs l₁, hg, hfree, hle, rfl, rfl⟩

/-- The free list at a free block before the next block. -/
theorem Growing.link
    {size oldsize totsize prev : Nat} {l₁ l₂ : List Block} {q : Block} {F₁ F₂ : List Nat} {h : Heap}
    (hg : Growing l x size oldsize totsize l₁ k (q :: l₂)) (hw : h.Wf l) (hq : q.free = true)
    (hF : freeAddrs l₁ = F₁ ++ F₂) (hprev : prev = Linked.last 0 F₁) :
  h.link prev = (F₂ ++ [q.addr]).head?.getD 0
  := by
  have hlist := hw.list
  rw [hg.eq, freeAddrs_used hg.used, hF, freeAddrs_cons_free hq, List.append_assoc] at hlist
  rw [hprev, (Path.append_iff.mp hlist).1.next_last]
  cases F₂ with
  | nil => rfl
  | cons a F₂ => rfl

/-- The walk goes on to the next block of the free list. -/
theorem World.Inv.walking
    {size oldsize totsize prev curr : Nat} (hinv : w.Inv i l)
    (hj : w.place j = .walking x size oldsize totsize prev) (hcurr : w.heap.link prev = curr)
    (hcond : curr ≠ 0 ∧ curr < nodeAdd x oldsize ∧ curr < w.heap.endmem) :
  (w.goto j (.walking x size oldsize totsize curr) : World N).Inv j l
  := by
  obtain rfl := hinv.eq_of_inWindow (j := j) (by rw [hj]; rfl)
  have hw := hinv.wf_of_pending (by rw [hj]; rfl)
  have hplace := hinv.places j
  rw [hj] at hplace
  obtain ⟨l₁, k, q, l₂, F₁, F₂, hg, hq, hle, hF, hprev⟩ := hplace
  obtain ⟨hnext, -⟩ := hg.next hw
  have hqaddr : q.addr = k.addr + k.len := by
    have htiles := hw.tiles
    rw [hg.eq] at htiles
    exact htiles.split.2.1
  rw [hg.link hw hq hF hprev] at hcurr
  refine hinv.inside hw rfl (by rw [hj]; rfl) ?_
  cases F₂ with
  | nil =>
      have heq : q.addr = curr := hcurr
      rw [hnext, ← heq] at hcond
      omega
  | cons a F₂ =>
      obtain rfl : a = curr := hcurr
      refine ⟨l₁, k, q, l₂, F₁ ++ [a], F₂, hg, hq, hle, ?_, ?_⟩
      · rw [hF, List.append_assoc, List.singleton_append]
      · rw [Linked.last_concat]

/-- The walk has come to the next block. -/
theorem World.Inv.found
    {size oldsize totsize prev : Nat} (hinv : w.Inv i l)
    (hj : w.place j = .walking x size oldsize totsize prev)
    (hcurr : w.heap.link prev = nodeAdd x oldsize) :
  (w.goto j (.linking x size oldsize totsize prev) : World N).Inv j l
  := by
  obtain rfl := hinv.eq_of_inWindow (j := j) (by rw [hj]; rfl)
  have hw := hinv.wf_of_pending (by rw [hj]; rfl)
  have hplace := hinv.places j
  rw [hj] at hplace
  obtain ⟨l₁, k, q, l₂, F₁, F₂, hg, hq, hle, hF, hprev⟩ := hplace
  obtain ⟨hnext, -⟩ := hg.next hw
  have htiles := hw.tiles
  rw [hg.eq] at htiles
  have hqaddr : q.addr = k.addr + k.len := htiles.split.2.1
  rw [hg.link hw hq hF hprev, hnext] at hcurr
  refine hinv.inside hw rfl (by rw [hj]; rfl) ?_
  cases F₂ with
  | nil =>
      refine ⟨l₁, k, q, l₂, hg, hq, hle, ?_⟩
      rw [hprev, hF, List.append_nil]
  | cons a F₂ =>
      have ha : a = k.addr + k.len := hcurr
      have hmem : a ∈ freeAddrs l₁ := by
        rw [hF]
        simp
      obtain ⟨k', hk', -, haddr⟩ := mem_freeAddrs.mp hmem
      have hbefore := (htiles.split.1.mem hk').2
      rw [haddr, ha] at hbefore
      simp only [Block.len, nodesize] at hbefore
      omega

/-- The used blocks before and after a block has grown. -/
theorem used_grown
    (l₁ l₂ : List Block) (m : Nat) {rest : List Block} {q : Block} (hk : k.free = false)
    (hq : q.free = true) (hrest : used rest = []) :
  used (l₁ ++ (⟨k.addr, m, false⟩ :: rest ++ l₂)) = used l₁ ++ (⟨k.addr, m, false⟩ :: used l₂) ∧
    used (l₁ ++ k :: q :: l₂) = used l₁ ++ (k :: used l₂)
  := by
  constructor
  · rw [used_append, List.cons_append, used_cons_used rfl, used_append, hrest, List.nil_append]
  · rw [used_append, used_cons_used hk, used_cons_free hq]

/-- A processor in a window starts to make the stores that let its block grow. -/
theorem World.Inv.grow
    {size m : Nat} {l₁ l₂ : List Block} {q : Block} {ss : List Store} (rest : List Block)
    (hinv : w.Inv i (l₁ ++ k :: q :: l₂)) (hheld : (w.place i).held = {k.data}) (hk : k.free = false)
    (hq : q.free = true) (hrest : used rest = []) (hsize : size ≤ m)
    (hw' : (ss.foldl Store.apply w.heap).Wf (l₁ ++ (⟨k.addr, m, false⟩ :: rest ++ l₂)))
    (hstages : Stages (l₁ ++ (⟨k.addr, m, false⟩ :: rest ++ l₂)) {k.data} w.heap ss)
    (hout : ∀ k' ∈ used (l₁ ++ (⟨k.addr, m, false⟩ :: rest ++ l₂)), k'.data ∉ ({k.data} : Multiset Nat) →
      ∀ s ∈ ss, s.Outside k') :
  (w.goto i (.writing ss (.unlocking k.data size none)) : World N).Inv i
    (l₁ ++ (⟨k.addr, m, false⟩ :: rest ++ l₂))
  := by
  obtain ⟨hused', hused⟩ := used_grown l₁ l₂ m hk hq hrest
  apply hinv.advance hw' hstages hout
  · rw [hused, hused', hheld, List.map_append, List.map_append, List.map_cons, List.map_cons]
    rfl
  · intro k' hk' hnot
    rw [hused] at hk'
    rw [hused']
    rw [hheld] at hnot
    have hne : k' ≠ k := by
      rintro rfl
      exact hnot (Multiset.mem_singleton_self _)
    simp only [List.mem_append, List.mem_cons] at hk' ⊢
    tauto
  · exact fun e he => .inl he
  · refine ⟨⟨⟨k.addr, m, false⟩, ?_, rfl, hsize⟩, rfl⟩
    rw [hused']
    simp

/-- Before the free list is changed it is in order with the old blocks. -/
theorem stage_before
    {m : Nat} {l₁ l₂ rest : List Block} {q : Block} {h : Heap} (hok : FreeOk h (l₁ ++ k :: q :: l₂))
    (hk : k.free = false) (hq : q.free = true) (hrest : used rest = []) :
  Stage (l₁ ++ (⟨k.addr, m, false⟩ :: rest ++ l₂)) {k.data} h
  := by
  obtain ⟨hused', hused⟩ := used_grown l₁ l₂ m hk hq hrest
  refine ⟨_, hok, ?_, ?_⟩
  · rw [hused, hused', List.map_append, List.map_append, List.map_cons, List.map_cons]
    rfl
  · intro k' hk' hnot
    rw [hused'] at hk'
    rw [hused]
    have hne : k' ≠ ⟨k.addr, m, false⟩ := by
      rintro rfl
      exact hnot (Multiset.mem_singleton_self _)
    simp only [List.mem_append, List.mem_cons] at hk' ⊢
    tauto

/-- The next block is about to be added to the block. -/
theorem World.Inv.join
    {size oldsize totsize prev link : Nat} (hinv : w.Inv i l)
    (hj : w.place j = .linking x size oldsize totsize prev)
    (hlink : w.heap.get (nodeAdd x oldsize) .next = link) :
  ∃ l', (w.goto j (.writing (joinStores x oldsize totsize prev link)
    (.unlocking x size none)) : World N).Inv j l'
  := by
  obtain rfl := hinv.eq_of_inWindow (j := j) (by rw [hj]; rfl)
  have hw := hinv.wf_of_pending (by rw [hj]; rfl)
  have hplace := hinv.places j
  rw [hj] at hplace
  obtain ⟨l₁, k, q, l₂, hg, hq, hle, rfl⟩ := hplace
  obtain ⟨hnext, -⟩ := hg.next hw
  obtain ⟨rfl, hfree, rfl, rfl, hround, hlt, htotal⟩ := hg
  have hklt := hw.addr_add_len (by simp : k ∈ l₁ ++ k :: q :: l₂)
  have hqaddr : q.addr = k.addr + k.len := hw.tiles.split.2.1
  rw [hnext, ← hqaddr] at hlink
  obtain rfl : totsize = k.size + q.len := by
    rw [htotal q rfl, Block.len, Nat.add_assoc]
  have hw' := hw.join hfree hq
  rw [hlink] at hw'
  have hk₁ : (⟨k.addr, k.size + q.len, false⟩ : Block) ∈
      used (l₁ ++ (⟨k.addr, k.size + q.len, false⟩ :: [] ++ l₂)) := by
    rw [(used_grown l₁ l₂ _ hfree hq rfl).1]
    simp
  have hqfield : ∀ f : Field,
      (⟨k.addr, k.size + q.len, false⟩ : Block).Has (q.addr + f.offset) := by
    intro f
    have hf := f.offset_le
    simp only [Block.Has, Block.len, nodesize] at hqaddr ⊢
    omega
  have hstores : ∀ s ∈ (joinStores k.data k.size (k.size + q.len) (Linked.last 0 (freeAddrs l₁))
      link).tail, ∃ b v, (⟨k.addr, k.size + q.len, false⟩ : Block).Has b ∧ s = .word b v := by
    intro s hs
    simp only [joinStores, hnext, ← hqaddr, Block.nodeAdd_pn hklt, List.tail_cons, List.mem_cons,
      List.not_mem_nil, or_false] at hs
    rcases hs with rfl | rfl | rfl
    · exact ⟨_, _, hqfield _, rfl⟩
    · exact ⟨_, _, hqfield _, rfl⟩
    · exact ⟨_, _, Block.has_field, rfl⟩
  refine ⟨_, hinv.grow [] (by rw [hj]; rfl) hfree hq rfl ?_ hw' ?_ ?_⟩
  · exact (le_roundUp hround).1.trans hle
  · refine stages_cons_of_used (stage_before hw.freeOk hfree hq rfl) ?_ ?_
    · exact hw'.freeOk
    · exact fun s hs => ⟨_, hk₁, hstores s hs⟩
  · intro k' hk' hnot s hs
    rcases List.mem_cons.mp hs with rfl | hs
    · exact link_outside hw' hk' hnot
    · obtain ⟨b, v, hb, rfl⟩ := hstores s hs
      exact outside_of_has hw' hk' hnot (used_subset hk₁) (.inr (Multiset.mem_singleton_self _)) hb

/-- A word of the body of a free block, behind its size. -/
theorem FreeOk.write_body {h : Heap} {q : Block} {b : Nat} (hok : FreeOk h l) (hq : q ∈ l)
    (hle : q.addr + 16 ≤ b) (hlt : b < q.addr + q.len) :
  FreeOk (h.write b v) l
  := by
  apply hok.write
  intro k' hk' hfree
  simp only [Field.offset]
  rcases hok.tiles.eq_or_apart hq hk' with rfl | happart | happart
  · omega
  · omega
  · simp only [Block.len, nodesize] at happart
    omega

/-- The stores of `splitStores`: at the header `r` of the new free block, which has the size `m`, at
the pointer to it, at the header `b` of the old one, and at the header `a` of the block. -/
def cutStores (a b r n m prev link : Nat) : List Store :=
  [.field r .next link, .field r .size m, .field r .free 1, .field r .cksm CKSM, .link prev r,
    .field b .next 0, .field b .free 0, .field a .size n]

section Cut

variable {m r prev link : Nat} {l₁ l₂ : List Block} {q : Block} {h : Heap}

/-- The free list is in order before and after each of the stores. -/
theorem stages_cut
    (hok : FreeOk h (l₁ ++ k :: q :: l₂)) (hfree : k.free = false) (hq : q.free = true)
    (hlt : r + nodesize ≤ q.addr + q.len) (hprev : prev < r)
    (hword : ∀ b, q.addr ≤ b → b < r → Block.Has ⟨k.addr, n, false⟩ b)
    (hgap : q.addr + 16 < r ∨ r = q.addr + 16 ∧ link = 0)
    (hok' : FreeOk ((cutStores k.addr q.addr r n m prev link).foldl Store.apply h)
      (l₁ ++ (⟨k.addr, n, false⟩ :: [⟨r, m, true⟩] ++ l₂))) :
  Stages (l₁ ++ (⟨k.addr, n, false⟩ :: [⟨r, m, true⟩] ++ l₂)) {k.data} h
    (cutStores k.addr q.addr r n m prev link)
  := by
  have hk₁ : (⟨k.addr, n, false⟩ : Block) ∈ used (l₁ ++ (⟨k.addr, n, false⟩ :: [⟨r, m, true⟩] ++ l₂)) := by
    rw [(used_grown l₁ l₂ _ hfree hq rfl).1]
    simp
  -- The header of the new free block is written into the body of the old one.
  have hbody : ∀ (h : Heap) (f : Field) (v : Nat), FreeOk h (l₁ ++ k :: q :: l₂) →
      FreeOk (h.write (r + f.offset) v) (l₁ ++ k :: q :: l₂) := by
    intro h f v hok
    have hf := f.offset_le
    rw [nodesize] at hlt
    exact hok.write_body (q := q) (by simp) (by omega) (by omega)
  have hok₁ := hbody _ .next link hok
  have hok₂ := hbody _ .size m hok₁
  have hok₃ := hbody _ .free 1 hok₂
  have hok₄ := hbody _ .cksm CKSM hok₃
  refine ⟨stage_before hok hfree hq rfl, stage_before hok₁ hfree hq rfl,
    stage_before hok₂ hfree hq rfl, stage_before hok₃ hfree hq rfl, stage_before hok₄ hfree hq rfl, ?_⟩
  have hok₈ := hok'
  simp only [cutStores, List.foldl_cons, List.foldl_nil] at hok₈
  have hok₇ := hok₈.of_write_used hk₁ Block.has_field
  obtain ⟨h₅, hh₅⟩ : ∃ h₅, h₅ = Store.apply ((((h.write (r + Field.next.offset) link).write
      (r + Field.size.offset) m).write (r + Field.free.offset) 1).write (r + Field.cksm.offset) CKSM)
      (.link prev r) := ⟨_, rfl⟩
  have hok₆ : FreeOk (h₅.write (q.addr + Field.next.offset) 0)
      (l₁ ++ (⟨k.addr, n, false⟩ :: [⟨r, m, true⟩] ++ l₂)) := by
    rcases hgap with hgap | ⟨hgap, hzero⟩
    · rw [hh₅]
      apply hok₇.of_write_used hk₁ (hword _ _ _)
      · simp only [Field.offset]
        omega
      · simp only [Field.offset]
        omega
    · -- The last word of the old header is the pointer of the new one, which is zero already.
      have hmem : h₅.mem (q.addr + Field.free.offset) = 0 := by
        have hsame : q.addr + Field.free.offset = r + Field.next.offset := by
          simp only [Field.offset]
          omega
        rw [hsame, hh₅, Store.link]
        split
        · simp [Store.apply, Heap.write, Field.offset, hzero]
        · simp [Store.apply, Store.field, Heap.write, Field.offset, hzero,
            Function.update_of_ne (Nat.ne_of_gt hprev)]
      have hsame : (h₅.write (q.addr + Field.next.offset) 0).mem (q.addr + Field.free.offset) = 0 := by
        rw [← hmem]
        exact Function.update_of_ne (by simp [Field.offset]) _ _
      rw [← Heap.write_self (h := h₅.write (q.addr + Field.next.offset) 0)
        (a := q.addr + Field.free.offset), hsame, hh₅]
      exact hok₇
  have hok₅ : FreeOk h₅ _ := hok₆.of_write_used hk₁ (hword _ (by simp) (by
    simp only [Field.offset]; omega))
  rw [hh₅] at hok₅ hok₆
  exact ⟨hok₅.stage, hok₆.stage, hok₇.stage, hok₈.stage⟩

/-- The stores leave the other used blocks alone. -/
theorem outside_cut
    (hw : h.Wf (l₁ ++ (⟨k.addr, n, false⟩ :: [⟨r, m, true⟩] ++ l₂)))
    (hword : ∀ b, q.addr ≤ b → b < r → Block.Has ⟨k.addr, n, false⟩ b)
    (hprev : prev = Linked.last 0 (freeAddrs l₁)) (hle : q.addr + 16 ≤ r)
    {k' : Block} (hk' : k' ∈ used (l₁ ++ (⟨k.addr, n, false⟩ :: [⟨r, m, true⟩] ++ l₂)))
    (hnot : k'.data ∉ ({k.data} : Multiset Nat)) :
  ∀ s ∈ cutStores k.addr q.addr r n m prev link, s.Outside k'
  := by
  have hk₁ : (⟨k.addr, n, false⟩ : Block) ∈ l₁ ++ (⟨k.addr, n, false⟩ :: [⟨r, m, true⟩] ++ l₂) := by
    simp
  have hr : (⟨r, m, true⟩ : Block) ∈ l₁ ++ (⟨k.addr, n, false⟩ :: [⟨r, m, true⟩] ++ l₂) := by
    simp
  have hheld : k.data ∈ ({k.data} : Multiset Nat) := Multiset.mem_singleton_self _
  intro s hs
  simp only [cutStores, List.mem_cons, List.not_mem_nil, or_false] at hs
  rcases hs with rfl | rfl | rfl | rfl | rfl | rfl | rfl | rfl
  · exact outside_of_has hw hk' hnot hr (.inl rfl) Block.has_field
  · exact outside_of_has hw hk' hnot hr (.inl rfl) Block.has_field
  · exact outside_of_has hw hk' hnot hr (.inl rfl) Block.has_field
  · exact outside_of_has hw hk' hnot hr (.inl rfl) Block.has_field
  · rw [hprev]
    exact link_outside hw hk' hnot
  · exact outside_of_has hw hk' hnot hk₁ (.inr hheld) (hword _ (by simp) (by
      simp only [Field.offset]; omega))
  · rcases Nat.lt_or_eq_of_le hle with hlt | heq
    · exact outside_of_has hw hk' hnot hk₁ (.inr hheld) (hword _ (by simp) (by
        simp only [Field.offset]; omega))
    · have hsame : q.addr + Field.free.offset = r + Field.next.offset := by
        simp only [Field.offset]
        omega
      rw [Store.field, hsame]
      exact outside_of_has hw hk' hnot hr (.inl rfl) Block.has_field
  · exact outside_of_has hw hk' hnot hk₁ (.inr hheld) Block.has_field

end Cut

/-- A part of the next block is about to be added to the block. -/
theorem World.Inv.extend
    {size oldsize totsize prev link : Nat} (hinv : w.Inv i l)
    (hj : w.place j = .linking x size oldsize totsize prev)
    (hlink : w.heap.get (nodeAdd x oldsize) .next = link)
    (hge : ¬ totsize - roundUp size < THRESHOLD)
    (hgap : oldsize + 16 < roundUp size ∨ roundUp size = oldsize + 16 ∧ link = 0) :
  ∃ l', (w.goto j (.writing (splitStores x (roundUp size) oldsize totsize prev link)
    (.unlocking x size none)) : World N).Inv j l'
  := by
  obtain rfl := hinv.eq_of_inWindow (j := j) (by rw [hj]; rfl)
  have hw := hinv.wf_of_pending (by rw [hj]; rfl)
  have hplace := hinv.places j
  rw [hj] at hplace
  obtain ⟨l₁, k, q, l₂, hg, hq, hle, rfl⟩ := hplace
  obtain ⟨hnext, -⟩ := hg.next hw
  obtain ⟨rfl, hfree, rfl, rfl, hround, hlt, htotal⟩ := hg
  have hklt := hw.addr_add_len (by simp : k ∈ l₁ ++ k :: q :: l₂)
  have hqlt := hw.addr_add_len (by simp : q ∈ l₁ ++ k :: q :: l₂)
  have hqaddr : q.addr = k.addr + k.len := hw.tiles.split.2.1
  rw [hnext, ← hqaddr] at hlink
  obtain rfl : totsize = k.size + q.len := by
    rw [htotal q rfl, Block.len, Nat.add_assoc]
  obtain ⟨n, hn⟩ : ∃ n, n = roundUp size := ⟨_, rfl⟩
  have hdvd : 8 ∣ n := by
    rw [hn]
    exact roundUp_dvd size
  have hsize : size ≤ n := by
    rw [hn]
    exact (le_roundUp hround).1
  rw [← hn] at hgap hge hle hlt ⊢
  simp only [THRESHOLD] at hge
  have hw' := hw.extend hfree hq hdvd hlt (by simp only [THRESHOLD]; omega) (by rw [hlink]; exact hgap)
  rw [hlink] at hw'
  have hkdata : k.addr + k.len = k.data + k.size := by
    rw [Block.len, Block.data, Nat.add_assoc]
  obtain ⟨r, hr⟩ : ∃ r, r = k.data + n := ⟨_, rfl⟩
  have hnode : nodeAdd k.data n = r := by
    rw [hr]
    apply Nat.mod_eq_of_lt
    omega
  have hword : ∀ b, q.addr ≤ b → b < r → Block.Has ⟨k.addr, n, false⟩ b := by
    intro b hle hlt
    simp only [Block.Has, Block.len, Block.data] at hr hqaddr hkdata ⊢
    omega
  have hlast : Linked.last 0 (freeAddrs l₁) < r := by
    rcases List.mem_cons.mp (Linked.last_mem (b := 0) (l := freeAddrs l₁)) with hzero | hmem
    · omega
    · obtain ⟨k', hk', -, haddr⟩ := mem_freeAddrs.mp hmem
      have hbefore := (hw.tiles.split.1.mem hk').2
      rw [haddr] at hbefore
      rw [Block.data] at hr
      omega
  have hss : splitStores k.data n k.size (k.size + q.len) (Linked.last 0 (freeAddrs l₁)) link
      = cutStores k.addr q.addr r n (k.size + q.len - nodesize - n) (Linked.last 0 (freeAddrs l₁))
        link := by
    rw [splitStores, Block.nodeAdd_pn hklt, hnext, ← hqaddr, hnode]
    rfl
  rw [← hr, hss] at hw'
  rw [hss]
  refine ⟨_, hinv.grow [⟨r, k.size + q.len - nodesize - n, true⟩] (by rw [hj]; rfl) hfree hq rfl hsize
    hw' ?_ ?_⟩
  · apply stages_cut hw.freeOk hfree hq _ hlast hword _ hw'.freeOk
    · simp only [nodesize] at hge ⊢
      omega
    · omega
  · intro k' hk' hnot
    exact outside_cut hw' hword rfl (by omega) hk' hnot

/-- The next block, or a part of it, is about to be added to the block. -/
theorem World.Inv.linking
    {size oldsize totsize prev link : Nat} (hinv : w.Inv i l)
    (hj : w.place j = .linking x size oldsize totsize prev)
    (hlink : w.heap.get (nodeAdd x oldsize) .next = link)
    (hsafe : totsize - roundUp size < THRESHOLD ∨ oldsize + 16 < roundUp size ∨
      roundUp size = oldsize + 16 ∧ w.heap.get (nodeAdd x oldsize) .next = 0) :
  ∃ l', (w.goto j (.writing
    (if totsize - roundUp size < THRESHOLD then
      joinStores x oldsize totsize prev link
    else
      splitStores x (roundUp size) oldsize totsize prev link)
    (.unlocking x size none)) : World N).Inv j l'
  := by
  split
  · exact hinv.join hj hlink
  · rename_i hge
    rw [hlink] at hsafe
    exact hinv.extend hj hlink hge (hsafe.resolve_left hge)

/-- A block that a client or a processor outside of the windows has is not held in a window. -/
theorem World.Inv.not_held (hinv : w.Inv i l) (hj : (w.place j).inWindow = false)
    (hx : x ∈ (w.place j).held) :
  (w.place i).inWindow = false ∨ x ∉ (w.place i).held
  := by
  by_cases hij : j = i
  · rw [← hij]
    exact .inl hj
  · exact .inr (hinv.held_disjoint hij hx)

theorem coe_erase_add {live : List (Nat × Nat)} {e : Nat × Nat} (he : e ∈ live) :
  ((live.erase e).map Prod.fst : Multiset Nat) + {e.1} = (live.map Prod.fst : Multiset Nat)
  := by
  have hperm := (List.perm_cons_erase he).map Prod.fst
  rw [Multiset.coe_eq_coe.mpr hperm, List.map_cons, ← Multiset.cons_coe, ← Multiset.singleton_add,
    add_comm]

theorem coe_cons_add {live : List (Nat × Nat)} {e : Nat × Nat} :
  ((e :: live).map Prod.fst : Multiset Nat) + 0 = (live.map Prod.fst : Multiset Nat) + {e.1}
  := by
  rw [List.map_cons, ← Multiset.cons_coe, ← Multiset.singleton_add, add_zero, add_comm]

end Steps

end Raytrace
