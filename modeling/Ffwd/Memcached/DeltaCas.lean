import Ffwd.Memcached.DeltaRuns

/-!
# The CAS id that an increment reports

`do_add_delta_del` takes the CAS id it reports from the item it has found. When the number goes
into a new item, that is the id of the item which has just been replaced.
-/

namespace Memcached

open Linked

/-! ### What an allocation does not write -/

/-- An item without what unlinking it, and the release of its memory, change. -/
def Item.inner (it : Item) : Item :=
  { it with linked := false, refcount := 0, slabsClsid := 0, slabbed := false }

/-- The memory that has been taken from the system is not cleared. -/
structure KeepsInner (s s' : State) : Prop where
  top : s.slabs.top ≤ s'.slabs.top
  inner : ∀ b < s.slabs.top, (s'.mem b).inner = (s.mem b).inner

variable {hash : Key → BitVec 32} {s s' s'' : State} {refs : Refs} {A A' : Finset Addr}
  {ls : Nat → List Addr} {a b it new : Addr} {k : Key}

theorem Item.eq_of_inner
    {β : Type} {x y : Item} (f : Item → β) (hf : ∀ it : Item, f it.inner = f it) (h : y.inner = x.inner) :
  f y = f x
  := by
  rw [← hf y, h, hf x]

theorem KeepsInner.refl (s : State) : KeepsInner s s := ⟨le_rfl, fun _ _ => rfl⟩

theorem KeepsInner.trans (h : KeepsInner s s') (h' : KeepsInner s' s'') :
  KeepsInner s s''
  where
  top := h.top.trans h'.top
  inner b hb := by
    rw [h'.inner b (lt_of_lt_of_le hb h.top)]
    exact h.inner b hb

theorem keepsInner_modify (s : State) (a : Addr) {f : Item → Item} (hf : ∀ it, (f it).inner = it.inner) :
  KeepsInner s (s.modify a f)
  where
  top := le_rfl
  inner b _ := by
    rw [State.mem_modify]
    split
    · next hb =>
      rw [hb]
      exact hf _
    · rfl

theorem Counts.keepsInner (h : Counts s s') : KeepsInner s s' where
  top := h.slabs.top.ge
  inner b _ := by
    rw [h.mem]

theorem top_doSlabsFree (sl : Slabs) (a : Addr) (size id : Nat) :
  (doSlabsFree sl a size id).top = sl.top
  := by
  simp only [doSlabsFree]
  split
  · rfl
  · split
    · split <;> rfl
    · rfl

theorem keepsInner_itemFreeDel (s : State) (a : Addr) : KeepsInner s (itemFreeDel s a) := by
  have hmark := keepsInner_modify s a (f := fun it => { it with slabsClsid := 0, slabbed := true })
    fun _ => rfl
  refine ⟨?_, hmark.inner⟩
  rw [itemFreeDel, top_doSlabsFree]
  exact le_rfl

theorem keepsInner_unlinkItem (hash : Key → BitVec 32) (s : State) (a : Addr) :
  KeepsInner s (unlinkItem hash s a)
  := by
  have hmark := keepsInner_modify s a (f := fun it => { it with linked := false }) fun _ => rfl
  exact ⟨hmark.top, hmark.inner⟩

theorem keepsInner_doItemUnlinkDel (hash : Key → BitVec 32) (s : State) (a : Addr) :
  KeepsInner s (doItemUnlinkDel hash s a)
  := by
  simp only [doItemUnlinkDel]
  split
  · split
    · exact (keepsInner_unlinkItem hash s a).trans (keepsInner_itemFreeDel _ a)
    · exact keepsInner_unlinkItem hash s a
  · exact KeepsInner.refl s

theorem keepsInner_stealItem (hash : Key → BitVec 32) (s : State) (id : Nat) (a : Addr) (ntotal : Nat) :
  KeepsInner s (stealItem hash s id a ntotal)
  := by
  have hback : ∀ s : State, KeepsInner s (s.modify a fun it => { it with slabsClsid := 0, refcount := 0 }) :=
    fun s => keepsInner_modify s a fun _ => rfl
  have hmark := keepsInner_modify s a (f := fun it => { it with refcount := 1 }) fun _ => rfl
  rw [stealItem]
  apply KeepsInner.trans _ (hback _)
  apply KeepsInner.trans _ (keepsInner_doItemUnlinkDel hash _ a)
  exact ⟨hmark.top, hmark.inner⟩

theorem keepsInner_evictItem (hash : Key → BitVec 32) (s : State) (id : Nat) :
  KeepsInner s (evictItem hash s id)
  := by
  simp only [evictItem]
  split
  · exact KeepsInner.refl s
  · split
    · apply KeepsInner.trans _ (keepsInner_doItemUnlinkDel hash _ _)
      exact ⟨le_rfl, fun _ _ => rfl⟩
    · apply KeepsInner.trans _ (keepsInner_doItemUnlinkDel hash _ _)
      exact ⟨le_rfl, fun _ _ => rfl⟩

theorem keepsInner_repairItem (hash : Key → BitVec 32) (s : State) (id : Nat) :
  KeepsInner s (repairItem hash s id)
  := by
  simp only [repairItem]
  split
  · exact KeepsInner.refl s
  · next a _ =>
    have hmark := keepsInner_modify (s.count id fun c => { c with tailrepairs := c.tailrepairs + 1 }) a
      (f := fun it => { it with refcount := 0 }) fun _ => rfl
    apply KeepsInner.trans _ (keepsInner_doItemUnlinkDel hash _ a)
    exact ⟨hmark.top, hmark.inner⟩

theorem keepsInner_slabsAllocDel (h : s.slabs.Wf) (size id : Nat) :
  KeepsInner s (slabsAllocDel s size id).1
  where
  top := by
    rcases halloc : doSlabsAlloc s.slabs size id with ⟨sl, ret, page⟩
    simp only [slabsAllocDel, halloc]
    exact (doSlabsAlloc_spec h halloc).top
  inner b hb := by
    obtain heq | ⟨hle, -⟩ := slabsAllocDel_mem h size id b
    · rw [heq]
    · exact absurd hb (not_lt.mpr hle)

/-- Of the memory that is there, an allocation clears none. -/
theorem Lifecycle.keepsInner_allocChunk (h : Lifecycle hash s refs A ls) (ntotal id : Nat) :
  KeepsInner s (Memcached.allocChunk hash s ntotal id).1
  := by
  have halloc₁ := keepsInner_slabsAllocDel h.slabs ntotal id
  have h₁ := (h.slabsAllocDel ntotal id).1
  simp only [Memcached.allocChunk]
  split
  · exact keepsInner_stealItem hash s id _ ntotal
  · split
    · next hret =>
      rw [hret] at halloc₁
      exact halloc₁
    · next s₁ hret =>
      rw [hret] at halloc₁ h₁
      have hfail := halloc₁.trans (counts_outOfMemory s₁ id).keepsInner
      split
      · exact hfail
      · split
        · exact hfail
        · obtain ⟨A₂, ls₂, h₂, -, -⟩ := h₁.evictItem id
          have hevict := halloc₁.trans (keepsInner_evictItem hash s₁ id)
          have halloc₂ := hevict.trans (keepsInner_slabsAllocDel h₂.slabs ntotal id)
          have h₃ := (h₂.slabsAllocDel ntotal id).1
          split
          · next hret₂ =>
            rw [hret₂] at halloc₂
            exact halloc₂
          · next s₃ hret₂ =>
            rw [hret₂] at halloc₂ h₃
            obtain ⟨A₄, ls₄, h₄, -, -⟩ := ((counts_outOfMemory s₃ id).lifecycle h₃).repairItem id
            have hrepair := (halloc₂.trans (counts_outOfMemory s₃ id).keepsInner).trans
              (keepsInner_repairItem hash (outOfMemory s₃ id) id)
            exact hrepair.trans (keepsInner_slabsAllocDel h₄.slabs ntotal id)

/-- An allocation writes only the item it returns. -/
theorem Lifecycle.inner_doItemAllocDel
    (h : Lifecycle hash s refs A ls) {flags : Int} {exptime nbytes : Nat} {t : State}
    (halloc : Memcached.doItemAllocDel hash s k flags exptime nbytes = (t, some new)) :
  s.slabs.top ≤ t.slabs.top ∧ ∀ b < s.slabs.top, b ≠ new → (t.mem b).inner = (s.mem b).inner
  := by
  simp only [Memcached.doItemAllocDel] at halloc
  rcases hsize : itemSize s k flags nbytes with ⟨ntotal, suffix, id⟩
  simp only [hsize] at halloc
  split at halloc
  · cases halloc
  · have hchunk := (h.access id).keepsInner_allocChunk ntotal id
    rcases hret : Memcached.allocChunk hash (s.access id) ntotal id with ⟨t₁, _ | a⟩
    · rw [hret] at halloc
      cases halloc
    · rw [hret] at halloc hchunk
      obtain ⟨rfl, rfl⟩ := halloc
      refine ⟨hchunk.top, ?_⟩
      intro b hb hne
      have hkeep : (Memcached.initItem t₁ new id k suffix exptime nbytes).mem b = t₁.mem b :=
        Function.update_of_ne hne _ _
      rw [hkeep]
      exact hchunk.inner b hb

/-! ### The id that is reported -/

/-- The id that a call reports is that of the item now linked under the key. -/
def ReportsCas (hash : Key → BitVec 32) (k : Key) (r : State × DeltaReply) : Prop :=
  ∃ a, assocFind hash r.1.key r.1.assoc k = some a ∧ r.2.cas = some (r.1.mem a).getCas

/-- A `cas` command with the id that a call reports stores its item. -/
def CasFollows (hash : Key → BitVec 32) (k : Key) (r : State × DeltaReply) : Prop :=
  ∀ v it, r.2.cas = some v → (r.1.mem it).linked = false → (r.1.mem it).hasCas = true → r.1.key it = k →
    (doStoreItemDel hash (r.1.modify it fun x => x.setCas v) it .cas).2.1 = .stored

/-- The item that is found still has the id of the key after the call, for the text `buf` of the new
number: it is updated in place, its own memory is that of the new item, or the counter has come round
to its id. -/
def KeepsCas (hash : Key → BitVec 32) (s : State) (k : Key) (it : Addr) (buf : List UInt8) : Prop :=
  ¬needsRealloc ((doItemGetDel hash s k).1.mem it) buf ∨
    (doItemAllocDel hash (doItemGetDel hash s k).1 k (s.mem it).suffixFlags (s.mem it).exptime
      (buf.length + 2)).2 = some it ∨
    (s.mem it).cas = (s.casId + 1) % 2 ^ 64

/-- A `cas` command with the id of the item under its key stores its item. -/
theorem cas_of_live
    (hfind : assocFind hash s.key s.assoc k = some a) (hlive : live s a = true)
    (hlinked : (s.mem a).linked = true) (hit : (s.mem it).linked = false) (hcas : (s.mem it).hasCas = true)
    (hkey : s.key it = k) :
  (doStoreItemDel hash (s.modify it fun x => x.setCas (s.mem a).getCas) it .cas).2.1 = .stored
  := by
  have hne : it ≠ a := by
    rintro rfl
    exact absurd (hit.symm.trans hlinked) Bool.false_ne_true
  have hset : (s.mem it).setCas (s.mem a).getCas = { s.mem it with cas := (s.mem a).getCas } := if_pos hcas
  obtain ⟨t, ht⟩ : ∃ t, t = s.modify it fun x => x.setCas (s.mem a).getCas := ⟨_, rfl⟩
  have hself : t.mem it = { s.mem it with cas := (s.mem a).getCas } := by
    rw [ht, State.mem_modify_self, hset]
  have hother : t.mem a = s.mem a := by
    rw [ht, State.mem_modify_of_ne _ _ _ _ hne.symm]
  have hkeys : t.key = s.key := by
    funext b
    by_cases hb : b = it
    · subst hb
      rw [State.key, hself]
      rfl
    · rw [State.key, ht, State.mem_modify_of_ne _ _ _ _ hb]
      rfl
  have hassoc : t.assoc = s.assoc := by
    rw [ht]
    rfl
  have hfind' : assocFind hash t.key t.assoc (t.key it) = some a := by
    rw [hkeys, hassoc, hkey, hfind]
  have hlive' : live t a = true := by
    have hsettings : t.settings = s.settings := by
      rw [ht]
      rfl
    have htime : t.currentTime = s.currentTime := by
      rw [ht]
      rfl
    rw [live_congr hsettings htime (by rw [hother]), hlive]
  rw [← ht, doStoreItemDel, doItemGetDel_of_live hfind' hlive']
  simp only [storeOver]
  rw [if_pos]
  · rfl
  · rw [State.mem_modify_of_ne _ _ _ _ hne, State.mem_modify_self, hself, hother, Item.getCas]
    exact if_pos hcas

theorem casFollows_of_live
    {r : State × DeltaReply} (hfind : assocFind hash r.1.key r.1.assoc k = some a)
    (hcas : r.2.cas = some (r.1.mem a).getCas) (hlive : live r.1 a = true)
    (hlinked : (r.1.mem a).linked = true) :
  ReportsCas hash k r ∧ CasFollows hash k r
  := by
  refine ⟨⟨a, hfind, hcas⟩, ?_⟩
  intro v it hv hit hhas hkey
  rw [hcas] at hv
  obtain rfl := Option.some.inj hv
  exact cas_of_live hfind hlive hlinked hit hhas hkey

/-- An item is live that is not older than a live one, and expires when that one does. -/
theorem live_of_le
    (hlive : live s a = true) (hsettings : s'.settings = s.settings) (hnow : s'.currentTime = s.currentTime)
    (htime : (s.mem a).time ≤ (s'.mem b).time) (hexptime : (s'.mem b).exptime = (s.mem a).exptime) :
  live s' b = true
  := by
  simp only [live, flushed, decide_eq_true_eq, decide_eq_false_iff_not, hsettings, hnow, hexptime] at hlive ⊢
  refine ⟨?_, hlive.2⟩
  rintro ⟨hne, hle, hold⟩
  exact hlive.1 ⟨hne, hle, htime.trans hold⟩

theorem keepsInner_doItemRemoveDel (s : State) (a : Addr) : KeepsInner s (doItemRemoveDel s a) := by
  have hcount := keepsInner_modify s a (f := fun it => { it with refcount := it.refcount - 1 }) fun _ => rfl
  have hfree : ∀ s, KeepsInner s (if (s.mem a).refcount = 0 ∧ (s.mem a).linked = false then itemFreeDel s a
      else s) := by
    intro s
    split
    · exact keepsInner_itemFreeDel s a
    · exact KeepsInner.refl s
  simp only [doItemRemoveDel]
  by_cases hzero : (s.mem a).refcount ≠ 0
  · rw [if_pos hzero]
    exact hcount.trans (hfree _)
  · rw [if_neg hzero]
    exact hfree s

/-- The release at the end of a call. -/
theorem Lifecycle.deltaDone
    (h : Lifecycle hash s refs A ls) (ha : a ∈ A) (hkey : s.key a = k) (hlive : live s a = true) (it : Addr)
    {reply : DeltaReply} (hcas : reply.cas = some (s.mem a).getCas) :
  ReportsCas hash k (Memcached.doItemRemoveDel s it, reply) ∧
    CasFollows hash k (Memcached.doItemRemoveDel s it, reply)
  := by
  have hreleases := releases_doItemRemoveDel s it
  obtain ⟨refs', h'⟩ := h.exists_doItemRemoveDel it
  obtain ⟨hsettings, htime, -⟩ := doItemRemoveDel_frame s it
  have hinner := (keepsInner_doItemRemoveDel s it).inner a (h.used_lt a (h.used_linked a ha).1)
  apply casFollows_of_live (a := a)
  · rw [hreleases.find]
    exact (assocFind_eq_some_iff h.table).mpr ⟨ha, hkey⟩
  · rw [hreleases.getCas]
    exact hcas
  · apply live_of_le hlive hsettings htime
    · exact (Item.eq_of_inner Item.time (fun _ => rfl) hinner).ge
    · exact Item.eq_of_inner Item.exptime (fun _ => rfl) hinner
  · exact (h'.linked a).mp ha

/-- A number that is written in place. -/
theorem Lifecycle.inPlace_cas
    (h : Lifecycle hash s refs A ls) (hit : it ∈ A) (hkey : s.key it = k) (hlive : live s it = true)
    (buf : List UInt8) (v : Nat) :
  ReportsCas hash k (Memcached.deltaDone ((Memcached.setNewCas s it).overwriteNumber it buf) it buf (some v)) ∧
    CasFollows hash k
      (Memcached.deltaDone ((Memcached.setNewCas s it).overwriteNumber it buf) it buf (some v))
  := by
  obtain ⟨-, -, -, -, -, hsettings, htime⟩ := setNewCas_frame s it
  obtain ⟨t, ht⟩ : ∃ t, t = (Memcached.setNewCas s it).overwriteNumber it buf := ⟨_, rfl⟩
  have hself : t.mem it = { s.mem it with cas := newCas s it, data := (t.mem it).data } := by
    rw [ht, State.overwriteNumber, State.mem_modify_self, setNewCas_mem, Function.update_self]
  have h' : Lifecycle hash t refs A ls := by
    rw [ht]
    exact (h.setNewCas it).modify it fun it => ⟨rfl, rfl, rfl, rfl, rfl, rfl, rfl⟩
  have hkey' : t.key it = k := by
    rw [State.key, hself]
    exact hkey
  rw [← ht]
  apply h'.deltaDone hit hkey' _ it rfl
  apply live_of_le hlive
  · rw [ht, ← hsettings]
    rfl
  · rw [ht, ← htime]
    rfl
  · rw [hself]
  · rw [hself]

/-- A number that is stored in a new item. -/
theorem Lifecycle.realloc_cas
    (h : Lifecycle hash s refs A ls) (hit : it ∈ A) (hlive : live s it = true)
    (huse : s.settings.useCas = true) (hhas : (s.mem it).hasCas = true) {flags : Int} {n : Nat} {t : State}
    (halloc : Memcached.doItemAllocDel hash s (s.key it) flags (s.mem it).exptime n = (t, some new))
    (buf : List UInt8) (v : Nat) :
  let s₂ := Memcached.doItemReplaceDel hash (t.writeNumber new buf) it new
  let r := Memcached.deltaDone (Memcached.doItemRemoveDel s₂ new) it buf (some v)
  (ReportsCas hash (s.key it) r ∧ CasFollows hash (s.key it) r) ↔
    new = it ∨ (s.mem it).cas = (s.casId + 1) % 2 ^ 64
  := by
  intro s₂ r
  obtain ⟨refs', A', ls', hcreated, -, h₁, -, ls₂, h₂, hfind⟩ := h.replaceNumber hit halloc buf
  obtain ⟨-, -, hexptime, -, hnewCas⟩ := hcreated.item new rfl
  obtain ⟨t₁, ht₁⟩ : ∃ t₁, t₁ = t.writeNumber new buf := ⟨_, rfl⟩
  have hs₂ : s₂ = Memcached.doItemReplaceDel hash t₁ it new := by
    rw [ht₁]
  rw [← ht₁] at h₁ h₂ hfind
  rw [← hs₂] at h₂ hfind
  have hrefs : refs'.take (some new) new ≠ 0 := by
    rw [Refs.take_self]
    exact Nat.succ_ne_zero _
  have hdrops := h₁.drops_doItemUnlinkDel it
  obtain ⟨hsame, -⟩ := h₁.sameText_doItemReplaceDel it hrefs
  rw [← hs₂] at hsame
  -- The new item, as it is when it has been linked.
  obtain ⟨u, hu⟩ : ∃ u, u = Memcached.doItemUnlinkDel hash t₁ it := ⟨_, rfl⟩
  rw [← hu] at hdrops
  have hmem : s₂.mem = Function.update u.mem new
      { u.mem new with linked := true, time := u.currentTime, cas := newCas u new } := by
    rw [hs₂, Memcached.doItemReplaceDel, ← hu, doItemLinkDel_mem]
  obtain ⟨-, -, -, -, -, -, hsettings, htime⟩ := doItemLinkDel_frame hash u new
  have hsettings₂ : s₂.settings = s.settings := by
    rw [hs₂, Memcached.doItemReplaceDel, ← hu, hsettings, hdrops.settings, ht₁]
    exact hcreated.drops.settings
  have hcurrent : u.currentTime = s.currentTime := by
    rw [hdrops.currentTime, ht₁]
    exact hcreated.drops.currentTime
  have htime₂ : s₂.currentTime = s.currentTime := by
    rw [hs₂, Memcached.doItemReplaceDel, ← hu, htime, hcurrent]
  have hnew₁ : t₁.mem new = { t.mem new with data := (t₁.mem new).data } := by
    rw [ht₁, State.writeNumber, State.mem_modify_self]
  have hhasNew : (s₂.mem new).hasCas = true := by
    rw [hsame.hasCas, hnew₁, ← huse]
    exact hnewCas
  have hcasNew : (s₂.mem new).getCas = (s.casId + 1) % 2 ^ 64 := by
    have hid : u.casId = s.casId := by
      rw [hdrops.casId, ht₁]
      exact hcreated.drops.casId
    have huses : u.settings.useCas = true := by
      rw [← huse, ← hsettings₂, hs₂, Memcached.doItemReplaceDel, ← hu, hsettings]
    rw [hmem, Function.update_self] at hhasNew ⊢
    rw [Item.getCas, if_pos hhasNew, newCas, if_pos hhasNew, if_pos huses, hid]
  have hcasOld : new ≠ it → (s₂.mem it).getCas = (s.mem it).cas := by
    intro hne
    obtain ⟨htop, hinner⟩ := h.inner_doItemAllocDel halloc
    have hlt := h.used_lt it (h.used_linked it hit).1
    have hunlink := (keepsInner_doItemUnlinkDel hash t₁ it).inner it (by
      rw [ht₁]
      exact lt_of_lt_of_le hlt htop)
    have hkeep : t₁.mem it = t.mem it := by
      rw [ht₁]
      exact Function.update_of_ne hne.symm _ _
    rw [← hu, hkeep, hinner it hlt hne.symm] at hunlink
    rw [hmem, Function.update_of_ne hne.symm, Item.eq_of_inner Item.getCas (fun _ => rfl) hunlink]
    exact if_pos hhas
  -- The references are released.
  have hmemNew : new ∈ insert new (A'.erase it) := Finset.mem_insert_self _ _
  have hkeyNew := ((assocFind_eq_some_iff h₂.table).mp hfind).2
  have hreleases := releases_doItemRemoveDel s₂ new
  obtain ⟨refs₃, h₃⟩ := h₂.exists_doItemRemoveDel new
  obtain ⟨hsettings₃, htime₃, -⟩ := doItemRemoveDel_frame s₂ new
  have hinner := (keepsInner_doItemRemoveDel s₂ new).inner new
    (h₂.used_lt new (h₂.used_linked new hmemNew).1)
  have hlive₃ : live (Memcached.doItemRemoveDel s₂ new) new = true := by
    apply live_of_le hlive (hsettings₃.trans hsettings₂) (htime₃.trans htime₂)
    · rw [Item.eq_of_inner Item.time (fun _ => rfl) hinner, hmem, Function.update_self]
      exact (h.past it hit).trans hcurrent.ge
    · rw [Item.eq_of_inner Item.exptime (fun _ => rfl) hinner, hsame.exptime, hnew₁]
      exact hexptime
  have hkey₃ : (Memcached.doItemRemoveDel s₂ new).key new = s.key it := by
    rw [hreleases.key]
    exact hkeyNew
  constructor
  · rintro ⟨⟨a, ha, hcas⟩, -⟩
    have hreleases' := hreleases.trans (releases_doItemRemoveDel (Memcached.doItemRemoveDel s₂ new) it)
    have hfind' : assocFind hash r.1.key r.1.assoc (s.key it) = some new := by
      rw [← hfind]
      exact hreleases'.find hash (s.key it)
    rw [hfind'] at ha
    obtain rfl := Option.some.inj ha
    by_cases hne : new = it
    · exact .inl hne
    · right
      have hreported : ((Memcached.doItemRemoveDel s₂ new).mem it).getCas = (r.1.mem new).getCas :=
        Option.some.inj hcas
      have hlinked : (r.1.mem new).getCas = (s₂.mem new).getCas := hreleases'.getCas new
      rw [hreleases.getCas, hlinked, hcasNew, hcasOld hne] at hreported
      exact hreported
  · intro hcond
    apply h₃.deltaDone hmemNew hkey₃ hlive₃ it
    have hsame : (s₂.mem it).getCas = (s₂.mem new).getCas := by
      by_cases hne : new = it
      · rw [hne]
      · rw [hcasOld hne, hcasNew, hcond.resolve_left hne]
    simp only [Option.map_some, hreleases.getCas, hsame]

/-- The id that a successful call reports is that of the item now linked under the key, and a `cas`
command with it stores its item, if and only if the number is written in place, or the new item takes
the memory of the old one, or the counter of the ids has come round to the id of the old one. -/
theorem delta_cas_iff
    (hash : Key → BitVec 32) (s : State) (k : Key) (incr : Bool) (delta : BitVec 64) (behind v value : Nat)
    (it : Addr) (h : Sound hash s) (huse : s.settings.useCas = true)
    (hhas : ∀ a, (s.mem a).linked = true → (s.mem a).hasCas = true)
    (hfind : assocFind hash s.key s.assoc k = some it)
    (hread : safeStrtoull ((s.mem it).text behind) = some value)
    (hok : (doAddDeltaDel hash behind s k incr delta (some v)).2.result = .ok) :
  (ReportsCas hash k (doAddDeltaDel hash behind s k incr delta (some v)) ∧
      CasFollows hash k (doAddDeltaDel hash behind s k incr delta (some v)))
    ↔ KeepsCas hash s k it (Decimal.print (deltaValue incr value delta))
  := by
  obtain ⟨refs, A, ls, h⟩ := h
  obtain ⟨hit, hkey⟩ := (assocFind_eq_some_iff h.table).mp hfind
  have hlive : live s it = true := by
    by_contra hdead
    rw [Bool.not_eq_true] at hdead
    simp only [doAddDeltaDel, doItemGetDel_of_dead hfind hdead] at hok
    cases hok
  have hcall := doAddDeltaDel_of_live hfind hlive behind incr delta (some v)
  have hget := doItemGetDel_of_live hfind hlive
  have h₁ := h.setRefcount (h.used_linked it hit) (((s.mem it).refcount + 1) % 2 ^ 16)
  obtain ⟨s₁, hs₁⟩ :
      ∃ s₁, s₁ = s.modify it fun it => { it with refcount := (it.refcount + 1) % 2 ^ 16 } := ⟨_, rfl⟩
  have hset : (s.modify it fun x => { x with refcount := ((s.mem it).refcount + 1) % 2 ^ 16 }) = s₁ := hs₁.symm
  have hself : s₁.mem it = { s.mem it with refcount := ((s.mem it).refcount + 1) % 2 ^ 16 } := by
    rw [hs₁, State.mem_modify_self]
  have hframe : s₁.settings = s.settings ∧ s₁.currentTime = s.currentTime ∧ s₁.casId = s.casId := by
    rw [hs₁]
    exact ⟨rfl, rfl, rfl⟩
  rw [hset] at h₁
  rw [← hs₁] at hcall hget
  have hkey₁ : s₁.key it = k := by
    rw [State.key, hself]
    exact hkey
  have hlive₁ : live s₁ it = true :=
    live_of_le hlive hframe.1 hframe.2.1 (by rw [hself]) (by rw [hself])
  have hcas₁ : (s₁.mem it).hasCas = true := by
    rw [hself]
    exact hhas it ((h.linked it).mp hit)
  have hmatch : ¬deltaMismatch (s.mem it) (some v) := by
    intro hmismatch
    rw [hcall] at hok
    simp only [if_pos hmismatch] at hok
    cases hok
  simp only [if_neg hmatch, hread] at hcall
  rw [hcall] at hok ⊢
  rw [KeepsCas, hget]
  have hflags : (s₁.mem it).suffixFlags = (s.mem it).suffixFlags := by
    rw [hself]
    rfl
  have hexptime : (s₁.mem it).exptime = (s.mem it).exptime := by
    rw [hself]
  simp only [deltaWrite] at hok ⊢
  by_cases hneeds : needsRealloc (s₁.mem it) (Decimal.print (deltaValue incr value delta))
  · simp only [hneeds, not_true_eq_false, false_or] at hok ⊢
    rw [← hflags, ← hexptime, ← hkey₁]
    rcases halloc : doItemAllocDel hash s₁ (s₁.key it) (s₁.mem it).suffixFlags (s₁.mem it).exptime
        ((Decimal.print (deltaValue incr value delta)).length + 2) with ⟨t, _ | new⟩
    · simp only [halloc] at hok
      cases hok
    · have hrealloc := h₁.realloc_cas hit hlive₁ (by rw [hframe.1, huse]) hcas₁ halloc
        (Decimal.print (deltaValue incr value delta)) v
      have hid : (s₁.mem it).cas = (s.mem it).cas := by
        rw [hself]
      rw [hid, hframe.2.2] at hrealloc
      simp only [Option.some.injEq]
      exact hrealloc
  · simp only [hneeds, not_false_eq_true, true_or, iff_true]
    exact h₁.inPlace_cas hit hkey₁ hlive₁ _ v

theorem linked_numberState (t : List UInt8)
    (hallowed : AllowedRun (fun _ => 0) (State.init (smallConfig 0)) (fun _ => 0)
      [.alloc [1] 0 0 t.length, .fill 8 fun i => t.getD i 0, .link 8, .remove 8]) :
  ∀ a, ((numberState t).mem a).linked = true → a = 8
  := by
  obtain ⟨A, ls, h, hlinks⟩ := (lifecycle_init (fun _ => 0) (smallConfig 0)).itemRun hallowed
  intro a ha
  obtain hmem | hmem := hlinks a ((h.linked a).mpr ha)
  · cases hmem
  · simpa [ItemOp.links, eq_comm] using hmem

/-- The number `55` is incremented in place. -/
theorem delta_cas_iff_inPlace :
  ReportsCas (fun _ => 0) [1] (doAddDeltaDel (fun _ => 0) 0 (numberState [53, 53, 13, 10]) [1] true 1 (some 0)) ∧
    CasFollows (fun _ => 0) [1]
      (doAddDeltaDel (fun _ => 0) 0 (numberState [53, 53, 13, 10]) [1] true 1 (some 0))
  := by
  apply (delta_cas_iff (fun _ => 0) (numberState [53, 53, 13, 10]) [1] true 1 0 0 55 8
    (sound_numberState _ (by decide +kernel)) (by decide +kernel) _ (by decide +kernel) (by decide +kernel)
    (by decide +kernel)).mpr
  · left
    decide +kernel
  · intro a ha
    rw [linked_numberState _ (by decide +kernel) a ha]
    decide +kernel

/-- The number `9` becomes `10`, which takes a new item, whose id is not the one that is reported. -/
theorem delta_reports_old_cas :
  let r := doAddDeltaDel (fun _ => 0) 0 (numberState [57, 13, 10]) [1] true 1 (some 0)
  let s := (doItemAllocDel (fun _ => 0) r.1 [1] 0 0 3).1
  r.2 = ⟨.ok, [49, 48], some 1⟩ ∧ (r.1.lookup (fun _ => 0) [1]).map Entry.cas = some 2 ∧
    (doItemAllocDel (fun _ => 0) r.1 [1] 0 0 3).2 = some 8 ∧
    (doStoreItemDel (fun _ => 0) (s.modify 8 fun it => it.setCas 1) 8 .cas).2.1 = .exists_ ∧
    ¬ReportsCas (fun _ => 0) [1] r
  := by
  have hfind : assocFind (fun _ => 0)
      (doAddDeltaDel (fun _ => 0) 0 (numberState [57, 13, 10]) [1] true 1 (some 0)).1.key
      (doAddDeltaDel (fun _ => 0) 0 (numberState [57, 13, 10]) [1] true 1 (some 0)).1.assoc [1] = some 136 := by
    decide +kernel
  refine ⟨by decide +kernel, by decide +kernel, by decide +kernel, by decide +kernel, ?_⟩
  rintro ⟨a, ha, hcas⟩
  rw [hfind] at ha
  obtain rfl := Option.some.inj ha
  revert hcas
  decide +kernel

end Memcached
