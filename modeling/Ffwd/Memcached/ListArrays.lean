import Ffwd.Memcached.Allocation

/-!
# The arrays of the lists

The last slab class can be `largestId`, for which `heads`, `tails`, `sizes` and `itemstats` have no
entry. An item gets its class when it is allocated, and keeps it until it is freed. So it takes
the allocation of an item of that class to leave the arrays.
-/

namespace Memcached

open Linked

/-- There are entries of the arrays for the classes of all items. -/
def State.Classed (s : State) : Prop := ∀ a, (s.mem a).slabsClsid < largestId

/-- A change by which items may at most be freed or get the class `id`, and which accesses no
entries of the arrays but those of the classes of items and of `id`. -/
structure Tame (id : Nat) (s s' : State) : Prop where
  slabs : Slabs.Alike s.slabs s'.slabs
  useCas : s'.settings.useCas = s.settings.useCas
  clsid : ∀ a, (s'.mem a).slabsClsid = (s.mem a).slabsClsid ∨ (s'.mem a).slabsClsid = 0 ∨
    (s'.mem a).slabsClsid = id
  before : s'.lru.inside = true → s.lru.inside = true
  inside : id < largestId → s.Classed → s.lru.inside = true → s'.lru.inside = true

variable {hash : Key → BitVec 32} {s s' s'' : State} {id : Nat} {a : Addr}

namespace Tame

theorem classed (h : Tame id s s') (hid : id < largestId) (hs : s.Classed) :
  s'.Classed
  := by
  intro a
  obtain heq | heq | heq := h.clsid a
  · rw [heq]
    exact hs a
  · rw [heq]
    exact Nat.zero_lt_of_lt hid
  · rw [heq]
    exact hid

theorem trans (h : Tame id s s') (h' : Tame id s' s'') :
  Tame id s s''
  where
  slabs := h.slabs.trans h'.slabs
  useCas := h'.useCas.trans h.useCas
  clsid a := by
    obtain heq | heq := h'.clsid a
    · rw [heq]
      exact h.clsid a
    · exact .inr heq
  before hinside := h.before (h'.before hinside)
  inside hid hs hinside := h'.inside hid (h.classed hid hs) (h.inside hid hs hinside)

/-- A change that accesses no entries of the arrays. -/
theorem of_lru
    (hslabs : Slabs.Alike s.slabs s'.slabs) (huseCas : s'.settings.useCas = s.settings.useCas)
    (hlru : s'.lru.inside = s.lru.inside)
    (hclsid : ∀ a, (s'.mem a).slabsClsid = (s.mem a).slabsClsid ∨ (s'.mem a).slabsClsid = 0) :
  Tame id s s'
  where
  slabs := hslabs
  useCas := huseCas
  clsid a := (hclsid a).imp_right .inl
  before hinside := hlru ▸ hinside
  inside _ _ hinside := hlru ▸ hinside

theorem refl (id : Nat) (s : State) :
  Tame id s s
  := of_lru (Slabs.Alike.refl _) rfl rfl fun _ => .inl rfl

/-- A change of an item that does not give it another class, or frees it. -/
theorem modify
    (s : State) (a : Addr) {f : Item → Item}
    (hf : (f (s.mem a)).slabsClsid = (s.mem a).slabsClsid ∨ (f (s.mem a)).slabsClsid = 0) :
  Tame id s (s.modify a f)
  := by
  refine of_lru (Slabs.Alike.refl s.slabs) rfl rfl ?_
  intro b
  rw [State.mem_modify]
  split
  · next hb =>
    rw [hb]
    exact hf
  · exact .inl rfl

/-- A change that accesses the entries of the class of an item, or of `id`. -/
theorem of_access
    (c : Nat) (hc : c = id ∨ ∃ a, c = (s.mem a).slabsClsid) (hslabs : Slabs.Alike s.slabs s'.slabs)
    (huseCas : s'.settings.useCas = s.settings.useCas)
    (hclsid : ∀ b, (s'.mem b).slabsClsid = (s.mem b).slabsClsid)
    (hlru : s'.lru.inside = (s.lru.access c).inside) :
  Tame id s s'
  where
  slabs := hslabs
  useCas := huseCas
  clsid b := .inl (hclsid b)
  before hinside := by
    rw [hlru, Lru.access, Bool.and_eq_true] at hinside
    exact hinside.1
  inside hid hs hinside := by
    rw [hlru, Lru.access, Bool.and_eq_true]
    refine ⟨hinside, decide_eq_true ?_⟩
    obtain rfl | ⟨a, rfl⟩ := hc
    · exact hid
    · exact hs a

end Tame

/-! ### The slab allocator -/

theorem Slabs.Alike.update
    {sl sl' : Slabs} {id : Nat} {p : SlabClass}
    (hclass : sl'.slabclass = Function.update sl.slabclass id p)
    (hlargest : sl'.powerLargest = sl.powerLargest) (hsize : p.size = (sl.slabclass id).size)
    (hperslab : p.perslab = (sl.slabclass id).perslab) :
  Slabs.Alike sl sl'
  := by
  have hset := Slabs.Alike.setClass hsize hperslab
  refine ⟨hlargest, ?_, ?_⟩
  · rw [hclass]
    exact hset.size
  · rw [hclass]
    exact hset.perslab

theorem alike_growSlabList (sl : Slabs) (id : Nat) :
  Slabs.Alike sl (growSlabList sl id).1
  := (growSlabList_quiet sl id).toAlike

theorem alike_memoryAllocate (sl : Slabs) (size : Nat) :
  Slabs.Alike sl (memoryAllocate sl size).1
  := by
  rcases halloc : memoryAllocate sl size with ⟨sl', ret⟩
  cases ret with
  | none => exact (memoryAllocate_none halloc).toAlike
  | some ptr =>
      obtain ⟨hclass, hlargest, -⟩ := memoryAllocate_some halloc
      exact ⟨hlargest, fun id => by rw [hclass], fun id => by rw [hclass]⟩

theorem alike_takeChunk (sl : Slabs) (size id : Nat) :
  Slabs.Alike sl (takeChunk sl size id).1
  := by
  simp only [takeChunk]
  split
  · exact Slabs.Alike.setClass rfl rfl
  · split
    · exact Slabs.Alike.refl sl
    · exact Slabs.Alike.setClass rfl rfl

theorem alike_doSlabsNewslab (sl : Slabs) (id : Nat) :
  Slabs.Alike sl (doSlabsNewslab sl id).1
  := by
  simp only [doSlabsNewslab]
  split
  · exact Slabs.Alike.refl sl
  · have hgrow := alike_growSlabList sl id
    rcases hlist : growSlabList sl id with ⟨sl₁, ok⟩
    rw [hlist] at hgrow
    cases ok with
    | false => exact hgrow
    | true =>
        have hmem := hgrow.trans
          (alike_memoryAllocate sl₁ ((sl.slabclass id).size * (sl.slabclass id).perslab))
        rcases halloc : memoryAllocate sl₁ ((sl.slabclass id).size * (sl.slabclass id).perslab)
          with ⟨sl₂, ret⟩
        rw [halloc] at hmem
        cases ret with
        | none =>
            simp only [halloc]
            exact hmem
        | some ptr =>
            simp only [halloc]
            exact hmem.trans (.update rfl rfl rfl rfl)

theorem alike_doSlabsAlloc (sl : Slabs) (size id : Nat) :
  Slabs.Alike sl (doSlabsAlloc sl size id).1
  := by
  simp only [doSlabsAlloc]
  split
  · exact Slabs.Alike.refl sl
  · split
    · exact alike_takeChunk sl size id
    · have hpage := alike_doSlabsNewslab sl id
      rcases hnew : doSlabsNewslab sl id with ⟨sl₁, ret⟩
      rw [hnew] at hpage
      cases ret with
      | none => exact hpage
      | some ptr => exact hpage.trans (alike_takeChunk sl₁ size id)

theorem alike_doSlabsFree (sl : Slabs) (a : Addr) (size id : Nat) :
  Slabs.Alike sl (doSlabsFree sl a size id)
  := by
  simp only [doSlabsFree]
  split
  · exact Slabs.Alike.refl sl
  · split
    · split
      · exact .update rfl rfl rfl rfl
      · exact ⟨rfl, fun _ => rfl, fun _ => rfl⟩
    · exact .update rfl rfl rfl rfl

theorem slabsClsid_congr {sl sl' : Slabs} (h : Slabs.Alike sl sl') (size : Nat) :
  slabsClsid sl' size = slabsClsid sl size
  := by
  have hfrom : ∀ n res, slabsClsidFrom sl' size n res = slabsClsidFrom sl size n res := by
    intro n
    induction n with
    | zero => exact fun _ => rfl
    | succ n ih =>
        intro res
        simp only [slabsClsidFrom, h.size, h.powerLargest, ih]
  simp only [slabsClsid, h.powerLargest, hfrom]

/-- The class of a new item does not depend on what has been allocated before. -/
theorem Tame.itemSize_eq (h : Tame id s s') (k : Key) (flags : Int) (nbytes : Nat) :
  itemSize s' k flags nbytes = itemSize s k flags nbytes
  := by
  simp only [itemSize, h.useCas, slabsClsid_congr h.slabs]

/-! ### The operations -/

theorem tame_itemFreeDel (id : Nat) (s : State) (a : Addr) :
  Tame id s (itemFreeDel s a)
  := by
  refine .of_lru (alike_doSlabsFree _ _ _ _) rfl rfl ?_
  intro b
  simp only [itemFreeDel, State.mem_modify]
  split
  · exact .inr rfl
  · exact .inl rfl

theorem tame_unlinkItem (id : Nat) (hash : Key → BitVec 32) (s : State) (a : Addr) :
  Tame id s (unlinkItem hash s a)
  := by
  have hlru : (unlinkItem hash s a).lru = itemUnlinkQ s.lru a (s.mem a).slabsClsid := by
    simp only [unlinkItem, State.mem_modify_self]
    rfl
  refine .of_access (s.mem a).slabsClsid (.inr ⟨a, rfl⟩) (Slabs.Alike.refl _) rfl ?_
    (by rw [hlru]; rfl)
  intro b
  rw [unlinkItem_mem, Function.update_apply]
  split
  · next hb => rw [hb]
  · rfl

theorem tame_doItemUnlinkDel (id : Nat) (hash : Key → BitVec 32) (s : State) (a : Addr) :
  Tame id s (doItemUnlinkDel hash s a)
  := by
  rw [doItemUnlinkDel]
  split
  · have hunlink := tame_unlinkItem id hash s a
    simp only
    split
    · exact hunlink.trans (tame_itemFreeDel id _ a)
    · exact hunlink
  · exact .refl id s

theorem tame_doItemLinkDel (id : Nat) (hash : Key → BitVec 32) (s : State) (a : Addr) :
  Tame id s (doItemLinkDel hash s a)
  := by
  obtain ⟨-, hlru, hslabs, -, -, -, hsettings, -⟩ := doItemLinkDel_frame hash s a
  refine .of_access (s.mem a).slabsClsid (.inr ⟨a, rfl⟩) ?_ ?_ ?_ ?_
  · rw [hslabs]
    exact Slabs.Alike.refl _
  · rw [hsettings]
  · intro b
    rw [doItemLinkDel_mem, Function.update_apply]
    split
    · next hb => rw [hb]
    · rfl
  · rw [hlru]
    rfl

theorem tame_doItemReplaceDel (id : Nat) (hash : Key → BitVec 32) (s : State) (a b : Addr) :
  Tame id s (doItemReplaceDel hash s a b)
  := (tame_doItemUnlinkDel id hash s a).trans (tame_doItemLinkDel id hash _ b)

theorem tame_doItemRemoveDel (id : Nat) (s : State) (a : Addr) :
  Tame id s (doItemRemoveDel s a)
  := by
  have hdrop : Tame id s (if (s.mem a).refcount ≠ 0 then
      s.modify a fun it => { it with refcount := it.refcount - 1 } else s) := by
    split
    · exact .modify s a (.inl rfl)
    · exact .refl id s
  simp only [doItemRemoveDel]
  generalize (if (s.mem a).refcount ≠ 0 then
      s.modify a fun it => { it with refcount := it.refcount - 1 } else s) = s₁ at hdrop ⊢
  split
  · exact hdrop.trans (tame_itemFreeDel id s₁ a)
  · exact hdrop

theorem tame_doItemUpdate (id : Nat) (s : State) (a : Addr) :
  Tame id s (doItemUpdate s a)
  := by
  rw [doItemUpdate]
  split
  · split
    · have hclsid : ∀ b, ((s.modify a fun it => { it with time := s.currentTime }).mem b).slabsClsid =
          (s.mem b).slabsClsid := by
        intro b
        rw [State.mem_modify]
        split
        · next hb => rw [hb]
        · rfl
      refine .of_access (s.mem a).slabsClsid (.inr ⟨a, rfl⟩) (Slabs.Alike.refl _) rfl hclsid ?_
      have hself := hclsid a
      simp only [itemLinkQ, itemUnlinkQ, Lru.access, State.modify, Function.update_self,
        Bool.and_assoc, Bool.and_self]
    · exact .refl id s
  · exact .refl id s

theorem tame_doItemGetDel (id : Nat) (hash : Key → BitVec 32) (s : State) (k : Key) :
  Tame id s (doItemGetDel hash s k).1
  := by
  rw [doItemGetDel]
  split
  · exact .refl id s
  · next a _ =>
    split
    · exact tame_doItemUnlinkDel id hash s a
    · split
      · exact tame_doItemUnlinkDel id hash s a
      · show Tame id s (s.modify a fun it => { it with refcount := (it.refcount + 1) % 2 ^ 16 })
        exact .modify s a (.inl rfl)

/-! ### Allocation -/

theorem tame_slabsAllocDel (id : Nat) (s : State) (size c : Nat) :
  Tame id s (slabsAllocDel s size c).1
  := by
  have halike := alike_doSlabsAlloc s.slabs size c
  rw [slabsAllocDel]
  rcases hret : doSlabsAlloc s.slabs size c with ⟨sl, ret, _ | ptr⟩ <;> rw [hret] at halike
  · exact .of_lru halike rfl rfl fun _ => .inl rfl
  · refine .of_lru halike rfl rfl ?_
    intro b
    simp only [memset]
    split
    · exact .inr rfl
    · exact .inl rfl

theorem tame_stealItem (id : Nat) (hash : Key → BitVec 32) (s : State) (c : Nat) (a : Addr)
    (ntotal : Nat) :
  Tame id s (stealItem hash s c a ntotal)
  := by
  set s₁ := s.modify a fun it => { it with refcount := 1 }
  set s₂ : State :=
    { s₁ with
      stats := { s.stats with reclaimed := s.stats.reclaimed + 1 }
      itemstats := Function.update s.itemstats c
        { s.itemstats c with reclaimed := (s.itemstats c).reclaimed + 1 }
      slabs := slabsAdjustMemRequested s.slabs (s₁.mem a).slabsClsid (s₁.mem a).ntotal ntotal }
  have hsteal : stealItem hash s c a ntotal = (doItemUnlinkDel hash s₂ a).modify a fun it =>
      { it with slabsClsid := 0, refcount := 0 } := rfl
  have hfirst : Tame id s s₁ := .modify s a (.inl rfl)
  have hsecond : Tame id s₁ s₂ :=
    .of_lru (slabsAdjustMemRequested_quiet _ _ _ _).toAlike rfl rfl fun _ => .inl rfl
  rw [hsteal]
  exact ((hfirst.trans hsecond).trans (tame_doItemUnlinkDel id hash s₂ a)).trans
    (.modify _ a (.inr rfl))

theorem tame_evictItem (id : Nat) (hash : Key → BitVec 32) (s : State) (c : Nat) :
  Tame id s (evictItem hash s c)
  := by
  rw [evictItem]
  split
  · exact .refl id s
  · next a _ =>
    refine .trans ?_ (tame_doItemUnlinkDel id hash _ a)
    split
    · exact .of_lru (Slabs.Alike.refl _) rfl rfl fun _ => .inl rfl
    · exact .of_lru (Slabs.Alike.refl _) rfl rfl fun _ => .inl rfl

theorem tame_outOfMemory (id : Nat) (s : State) (c : Nat) :
  Tame id s (outOfMemory s c)
  := .of_lru (Slabs.Alike.refl _) rfl rfl fun _ => .inl rfl

theorem tame_repairItem (id : Nat) (hash : Key → BitVec 32) (s : State) (c : Nat) :
  Tame id s (repairItem hash s c)
  := by
  rw [repairItem]
  split
  · exact .refl id s
  · next a _ =>
    have hcount : Tame id s (s.count c fun c => { c with tailrepairs := c.tailrepairs + 1 }) :=
      .of_lru (Slabs.Alike.refl _) rfl rfl fun _ => .inl rfl
    exact (hcount.trans (.modify _ a (.inl rfl))).trans (tame_doItemUnlinkDel id hash _ a)

theorem tame_allocChunk (id : Nat) (hash : Key → BitVec 32) (s : State) (ntotal c : Nat) :
  Tame id s (allocChunk hash s ntotal c).1
  := by
  rw [allocChunk]
  split
  · next a _ => exact tame_stealItem id hash s c a ntotal
  · have halloc := tame_slabsAllocDel id s ntotal c
    split
    · next hret =>
      rw [hret] at halloc
      exact halloc
    · next s₁ hret =>
      rw [hret] at halloc
      have hfail := halloc.trans (tame_outOfMemory id s₁ c)
      split
      · exact hfail
      · split
        · exact hfail
        · have halloc₂ := (halloc.trans (tame_evictItem id hash s₁ c)).trans
            (tame_slabsAllocDel id _ ntotal c)
          split
          · next hret₂ =>
            rw [hret₂] at halloc₂
            exact halloc₂
          · next s₃ hret₂ =>
            rw [hret₂] at halloc₂
            exact ((halloc₂.trans (tame_outOfMemory id s₃ c)).trans (tame_repairItem id hash _ c)).trans
              (tame_slabsAllocDel id _ ntotal c)

theorem tame_initItem (s : State) (a : Addr) (id : Nat) (k : Key) (suffix : List UInt8)
    (exptime nbytes : Nat) :
  Tame id s (initItem s a id k suffix exptime nbytes)
  where
  slabs := Slabs.Alike.refl _
  useCas := rfl
  clsid b := by
    simp only [initItem, State.mem_modify]
    split
    · exact .inr (.inr rfl)
    · exact .inl rfl
  before hinside := hinside
  inside _ _ hinside := hinside

/-- An allocation accesses the entries of the class of the new item, and gives it this class. -/
theorem tame_doItemAllocDel (hash : Key → BitVec 32) (s : State) (k : Key) (flags : Int)
    (exptime nbytes : Nat) :
  Tame (itemSize s k flags nbytes).2.2 s (doItemAllocDel hash s k flags exptime nbytes).1 ∧
    ((doItemAllocDel hash s k flags exptime nbytes).1.lru.inside = true →
      (itemSize s k flags nbytes).2.2 < largestId)
  := by
  rcases hsize : itemSize s k flags nbytes with ⟨ntotal, suffix, id⟩
  simp only [doItemAllocDel, hsize]
  by_cases hid : id = 0
  · rw [if_pos hid, hid]
    exact ⟨.refl 0 s, fun _ => by decide⟩
  · rw [if_neg hid]
    have haccess : Tame id s (s.access id) :=
      .of_access id (.inl rfl) (Slabs.Alike.refl _) rfl (fun _ => rfl) rfl
    have hchunk := tame_allocChunk id hash (s.access id) ntotal id
    have hlt : (allocChunk hash (s.access id) ntotal id).1.lru.inside = true → id < largestId := by
      intro hinside
      have hbefore := hchunk.before hinside
      rw [State.access, Lru.access, Bool.and_eq_true, decide_eq_true_eq] at hbefore
      exact hbefore.2
    rcases hret : allocChunk hash (s.access id) ntotal id with ⟨s', _ | a⟩ <;>
      rw [hret] at hchunk hlt
    · exact ⟨haccess.trans hchunk, hlt⟩
    · exact ⟨(haccess.trans hchunk).trans (tame_initItem s' a id k suffix exptime nbytes), hlt⟩

/-! ### Flush and statistics -/

theorem Tame.foldl {f : State → Nat → State} (hf : ∀ s c, Tame id s (f s c)) (s : State) (cs : List Nat) :
  Tame id s (cs.foldl f s)
  := by
  induction cs generalizing s with
  | nil => exact .refl id s
  | cons c cs ih => exact (hf s c).trans (ih (f s c))

theorem tame_flushList (id : Nat) (hash : Key → BitVec 32) (s : State) (n : Nat) (iter : Option Addr) :
  Tame id s (flushList hash s n iter)
  := by
  induction n generalizing s iter with
  | zero => exact .refl id s
  | succ n ih =>
      cases iter with
      | none => exact .refl id s
      | some a =>
          rw [flushList]
          split
          · refine .trans ?_ (ih _ _)
            split
            · exact tame_doItemUnlinkDel id hash s a
            · exact .refl id s
          · exact .refl id s

theorem tame_purgeTail (id : Nat) (hash : Key → BitVec 32) (s : State) (c n : Nat) :
  Tame id s (purgeTail hash s c n)
  := by
  induction n generalizing s with
  | zero => exact .refl id s
  | succ n ih =>
      rw [purgeTail]
      split
      · exact .refl id s
      · next a _ =>
        split
        · split
          · exact (tame_doItemUnlinkDel id hash s a).trans (ih _)
          · exact .refl id s
        · exact .refl id s

theorem tame_doItemFlushExpiredDel (id : Nat) (hash : Key → BitVec 32) (s : State) :
  Tame id s (doItemFlushExpiredDel hash s)
  := by
  rw [doItemFlushExpiredDel]
  split
  · exact .refl id s
  · exact .foldl (fun s c => tame_flushList id hash s _ _) s _

theorem tame_doItemStatsDel (id : Nat) (hash : Key → BitVec 32) (s : State) :
  Tame id s (doItemStatsDel hash s)
  := .foldl (fun s c => tame_purgeTail id hash s c _) s _

end Memcached
