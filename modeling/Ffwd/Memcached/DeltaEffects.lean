import Ffwd.Memcached.DeltaRuns

/-!
# The effect of an increment

What `do_add_delta_del` does to the items of others, when the references are counted right: it
stores at most one item, under its key, and writes in place only an item to which nobody refers.
-/

namespace Memcached

open Linked

/-- The item that the allocation for a new number releases although it is in use, if the call comes
to that. -/
def deltaRepair (hash : Key → BitVec 32) (behind : Nat) (s : State) (k : Key) (incr : Bool)
    (delta : BitVec 64) (cas : Option Nat) : Option Addr :=
  match doItemGetDel hash s k with
  | (_, none) => none
  | (s, some it) =>
      if deltaMismatch (s.mem it) cas then none
      else
        match safeStrtoull ((s.mem it).text behind) with
        | none => none
        | some value =>
            let buf := Decimal.print (deltaValue incr value delta)
            if needsRealloc (s.mem it) buf then
              allocRepair hash s (s.key it) (s.mem it).suffixFlags (buf.length + 2)
            else none

/-- The item `new` is the item `old` with the number `buf`: either in memory of its own, or in that of
`old`, with blanks up to the last two bytes. -/
structure Rewritten (old new : Item) (buf : List UInt8) : Prop where
  value : new.value = buf ++ [13, 10] ∨ buf.length + 2 ≤ old.nbytes ∧
    new.value = buf ++ List.replicate (old.nbytes - buf.length - 2) 32 ++
      [old.data (old.nbytes - 2), old.data (old.nbytes - 1)]
  flags : new.flags = old.flags
  exptime : new.exptime = old.exptime

/-- What a call does, with the items that callers refer to protected: an item is stored if it
succeeds. -/
structure DeltaEffect (hash : Key → BitVec 32) (s : State) (refs : Refs) (A : Finset Addr) (k : Key)
    (r : State × DeltaReply) (A' : Finset Addr) (ls' : Nat → List Addr) : Prop where
  lifecycle : Lifecycle hash r.1 refs A' ls'
  effect : Effect k (fun b => refs b ≠ 0) s r.1 A A'
  ok : r.2.result = .ok → ∃ a ∈ A', Renewed k s r.1 a ∧
    ∃ old ∈ A, s.key old = k ∧ Rewritten (s.mem old) (r.1.mem a) r.2.buf
  failed : r.2.result ≠ .ok → Leaves k (fun b => refs b ≠ 0) s r.1 A A'

variable {hash : Key → BitVec 32} {s s' s'' : State} {refs : Refs} {A A' : Finset Addr}
  {ls ls' : Nat → List Addr} {a b it new : Addr} {k : Key} {r : State × DeltaReply}

theorem Rewritten.of_content
    {old old' it it' : Item} {buf : List UInt8} (h : Rewritten old it buf)
    (hold : old'.content = old.content) (hit : it'.content = it.content) :
  Rewritten old' it' buf
  where
  value := by
    rw [Item.eq_of_content Item.value (fun _ => rfl) hit,
      Item.eq_of_content Item.nbytes (fun _ => rfl) hold, Item.eq_of_content Item.data (fun _ => rfl) hold]
    exact h.value
  flags := by
    rw [Item.eq_of_content Item.flags (fun _ => rfl) hit, Item.eq_of_content Item.flags (fun _ => rfl) hold]
    exact h.flags
  exptime := by
    rw [Item.eq_of_content Item.exptime (fun _ => rfl) hit,
      Item.eq_of_content Item.exptime (fun _ => rfl) hold]
    exact h.exptime

theorem DeltaEffect.of_leaves
    (h : Lifecycle hash r.1 refs A' ls') (hleaves : Leaves k (fun b => refs b ≠ 0) s r.1 A A')
    (hfail : r.2.result ≠ .ok) :
  DeltaEffect hash s refs A k r A' ls'
  where
  lifecycle := h
  effect := hleaves.effect
  ok hok := absurd hok hfail
  failed _ := hleaves

/-- A call that goes on after nothing has been stored. -/
theorem DeltaEffect.after
    {A₁ : Finset Addr} (hleaves : Leaves k (fun b => refs b ≠ 0) s s' A A₁)
    (h : DeltaEffect hash s' refs A₁ k r A' ls') :
  DeltaEffect hash s refs A k r A' ls'
  where
  lifecycle := h.lifecycle
  effect := hleaves.then_effect h.effect
  ok hok := by
    obtain ⟨a, ha, hrenewed, old, hold, hk, hrewritten⟩ := h.ok hok
    have hstays := hleaves.linked old hold
    exact ⟨a, ha, hleaves.renewed hrenewed, old, hstays.mem, hstays.key.symm.trans hk,
      hrewritten.of_content hstays.content.symm rfl⟩
  failed hfail := hleaves.trans (h.failed hfail)

/-- A call that has stored an item releases a reference. -/
theorem Effect.deltaRelease
    {refs₁ : Refs} {A₁ : Finset Addr} {ls₁ : Nat → List Addr}
    {W : Item → Prop} (hW : ∀ {it it' : Item}, it'.content = it.content → W it → W it')
    (heffect : Effect k (fun b => refs b ≠ 0) s s' A A₁)
    (hrenewed : ∃ a ∈ A₁, Renewed k s s' a ∧ W (s'.mem a)) (h : Lifecycle hash s' (refs₁.take (some it)) A₁ ls₁) (hrefs : ∀ b, refs b ≠ 0 → refs₁ b ≠ 0) :
  Lifecycle hash (doItemRemoveDel s' it) refs₁ A₁ ls₁ ∧
    Effect k (fun b => refs b ≠ 0) s (doItemRemoveDel s' it) A A₁ ∧
    ∃ a ∈ A₁, Renewed k s (doItemRemoveDel s' it) a ∧ W ((doItemRemoveDel s' it).mem a)
  := by
  obtain ⟨hrelease, hleaves⟩ := h.release k hrefs
  obtain ⟨a, ha, hrenewed, hw⟩ := hrenewed
  have hcontent := (hleaves.linked a ha).content
  exact ⟨hrelease, heffect.then_leaves hleaves, a, ha, hrenewed.leaves hleaves hcontent, hW hcontent hw⟩

/-- The number is written in place, when nobody else refers to the item. -/
theorem Lifecycle.effect_inPlace
    (h : Lifecycle hash s (refs.take (some it)) A ls) (hit : it ∈ A) (hproper : Proper s it)
    (hrefs : refs it = 0) {buf : List UInt8} (hroom : buf.length + 2 ≤ (s.mem it).nbytes) (cas : Option Nat) :
  DeltaEffect hash s refs A (s.key it)
    (Memcached.deltaDone ((Memcached.setNewCas s it).overwriteNumber it buf) it buf cas) A ls
  := by
  obtain ⟨-, -, -, -, -, hsettings, htime⟩ := setNewCas_frame s it
  have hcasId := setNewCas_casId s it
  obtain ⟨t, ht⟩ : ∃ t, t = (Memcached.setNewCas s it).overwriteNumber it buf := ⟨_, rfl⟩
  have hself : t.mem it = { s.mem it with cas := newCas s it, data := (t.mem it).data } := by
    rw [ht, State.overwriteNumber, State.mem_modify_self, setNewCas_mem, Function.update_self]
  have hother : ∀ b, b ≠ it → t.mem b = s.mem b := by
    intro b hb
    rw [ht, State.overwriteNumber, State.mem_modify_of_ne _ _ _ _ hb, setNewCas_mem,
      Function.update_of_ne hb]
  have hframe : t.settings = s.settings ∧ t.currentTime = s.currentTime ∧
      t.casId = (Memcached.setNewCas s it).casId := by
    rw [ht, ← hsettings, ← htime]
    exact ⟨rfl, rfl, rfl⟩
  have h' : Lifecycle hash t (refs.take (some it)) A ls := by
    rw [ht]
    exact (h.setNewCas it).modify it fun it => ⟨rfl, rfl, rfl, rfl, rfl, rfl, rfl⟩
  have hne : ∀ b, refs b ≠ 0 → b ≠ it := by
    rintro b hb rfl
    exact hb hrefs
  have hrenewed : Renewed (s.key it) s t it := by
    refine ⟨?_, ⟨?_, ?_, ?_⟩, ?_⟩
    · rw [State.key, hself]
      rfl
    · rw [hself]
      exact hproper.crlf
    · rw [hself]
      exact hproper.suffix
    · rw [hself, hframe.1]
      exact hproper.hasCas
    · intro huse
      have hhas : (s.mem it).hasCas = true := hproper.hasCas.trans huse
      rw [hself, hframe.2.2, hcasId, if_pos ⟨hhas, huse⟩, newCas, if_pos hhas, if_pos huse]
      exact ⟨rfl, rfl⟩
  have heffect : Effect (s.key it) (fun b => refs b ≠ 0) s t A A := by
    refine ⟨?_, fun b hb _ => hb, ?_, hframe.1, hframe.2.1, ?_⟩
    · intro b hb
      by_cases hbit : b = it
      · subst hbit
        exact .inr hrenewed
      · exact .inl ⟨hb, by rw [hother b hbit], .inl (by rw [hother b hbit])⟩
    · intro b hb
      rw [hother b (hne b hb)]
    · rw [hframe.2.2, hcasId]
      split
      · exact .inr rfl
      · exact .inl rfl
  have hrewritten : Rewritten (s.mem it) (t.mem it) buf := by
    have hnew : (Memcached.setNewCas s it).mem it = { s.mem it with cas := newCas s it } := by
      rw [setNewCas_mem, Function.update_self]
    have hnbytes : buf.length + 2 ≤ ((Memcached.setNewCas s it).mem it).nbytes := by
      rw [hnew]
      exact hroom
    have hvalue := value_overwriteNumber hnbytes
    rw [← ht, hnew] at hvalue
    refine ⟨.inr ⟨hroom, hvalue⟩, ?_, ?_⟩
    · rw [hself]
      rfl
    · rw [hself]
  obtain ⟨hrelease, heffect', a, ha, hrenewed', hrewritten'⟩ := heffect.deltaRelease
    (W := fun x => Rewritten (s.mem it) x buf) (fun hx hw => hw.of_content rfl hx)
    ⟨it, hit, hrenewed, hrewritten⟩ h' fun _ hb => hb
  rw [← ht]
  exact ⟨hrelease, heffect', fun _ => ⟨a, ha, hrenewed', it, hit, rfl, hrewritten'⟩,
    fun hfail => absurd rfl hfail⟩

/-- The number is stored in a new item. -/
theorem Lifecycle.effect_realloc
    (h : Lifecycle hash s (refs.take (some it)) A ls) (hit : it ∈ A) (hproper : Proper s it)
    (buf : List UInt8) (cas : Option Nat) {t : State}
    (hrepair : allocRepair hash s (s.key it) (s.mem it).suffixFlags (buf.length + 2) = none)
    (halloc : Memcached.doItemAllocDel hash s (s.key it) (s.mem it).suffixFlags (s.mem it).exptime
      (buf.length + 2) = (t, some new)) :
  ∃ A' ls', DeltaEffect hash s refs A (s.key it)
    (Memcached.deltaDone (Memcached.doItemRemoveDel
      (Memcached.doItemReplaceDel hash (t.writeNumber new buf) it new) new) it buf cas) A' ls'
  := by
  obtain ⟨refs', A₁, ls₁, hcreated, hrefs', h₁, hkeys, ls₂, h₂, -⟩ := h.replaceNumber hit halloc buf
  rw [hrepair] at hrefs'
  change refs' = refs.take (some it) at hrefs'
  subst hrefs'
  obtain ⟨hkey, hsuffix, hexptime, hnbytes, hcas⟩ := hcreated.item new rfl
  have hzero := hcreated.refs new rfl
  have hne : new ≠ it := by
    rintro rfl
    rw [Refs.take_self] at hzero
    exact Nat.succ_ne_zero _ hzero
  have hprotect : ∀ b, refs b ≠ 0 → refs.take (some it) b ≠ 0 := fun b hb => Refs.take_ne_zero it hb
  have hunprotected : ∀ b, refs b ≠ 0 → b ≠ new := by
    rintro b hb rfl
    exact hprotect b hb hzero
  obtain ⟨t₁, ht₁⟩ : ∃ t₁, t₁ = t.writeNumber new buf := ⟨_, rfl⟩
  rw [← ht₁] at h₁ hkeys h₂ ⊢
  have hself : t₁.mem new = { t.mem new with data := (t₁.mem new).data } := by
    rw [ht₁, State.writeNumber, State.mem_modify_self]
  have hframe : t₁.settings = t.settings ∧ t₁.currentTime = t.currentTime ∧ t₁.casId = t.casId := by
    rw [ht₁]
    exact ⟨rfl, rfl, rfl⟩
  have hwrite : Leaves (s.key it) (fun b => refs b ≠ 0) t t₁ A₁ A₁ := by
    apply Leaves.of_core _ _ hframe.1 hframe.2.1 hframe.2.2
    intro b hb
    have hbnew : b ≠ new := by
      obtain hb | hb := hb
      · rintro rfl
        exact hcreated.notMem b rfl hb
      · exact hunprotected b hb
    rw [ht₁, State.writeNumber, State.mem_modify_of_ne _ _ _ _ hbnew]
  have hproperNew : Proper t₁ new := by
    obtain ⟨hmin, hmax, -⟩ := hproper.flags
    rw [suffixFlags_eq hproper] at hsuffix
    refine ⟨?_, ⟨_, hmin, hmax, ?_⟩, ?_⟩
    · rw [hself, hnbytes]
      exact Nat.le_add_left 2 _
    · rw [hself, hnbytes, hsuffix]
    · rw [hself, hframe.1, hcreated.drops.settings]
      exact hcas
  have hrefsNew : (refs.take (some it)).take (some new) new ≠ 0 := by
    rw [Refs.take_self]
    exact Nat.succ_ne_zero _
  have hkeyNew : t₁.key new = s.key it := by
    rw [hkeys]
    exact hkey
  have hreplace := h₁.effect_doItemReplaceDel (P := fun b => refs b ≠ 0) it hrefsNew hproperNew
    fun b hb => ⟨Refs.take_ne_zero new (hprotect b hb), hunprotected b hb⟩
  rw [hkeyNew] at hreplace
  have heffect := ((hcreated.drops.leaves (s.key it) hprotect).trans hwrite).then_effect hreplace
  have hmem : new ∈ insert new (A₁.erase it) := Finset.mem_insert_self _ _
  have hrenewed : Renewed (s.key it) s (Memcached.doItemReplaceDel hash t₁ it new) new := by
    apply (heffect.linked new hmem).resolve_left
    intro hstays
    apply hne
    apply h.eq_of_key hstays.mem hit
    rw [← hstays.key, (h₁.sameText_doItemReplaceDel it hrefsNew).2, hkeyNew]
  have hrewritten : Rewritten (s.mem it) ((Memcached.doItemReplaceDel hash t₁ it new).mem new) buf := by
    have hsame := (h₁.sameText_doItemReplaceDel it hrefsNew).1
    obtain ⟨hmin, hmax, -⟩ := hproper.flags
    rw [suffixFlags_eq hproper] at hsuffix
    refine ⟨.inl ?_, ?_, ?_⟩
    · rw [hsame.value, ht₁, value_writeNumber hnbytes]
    · rw [Item.flags, hsame.suffix, hself, hsuffix, flags_suffixOf ⟨hmin, hmax⟩]
    · rw [hsame.exptime, hself, hexptime]
  have hW : ∀ {x x' : Item}, x'.content = x.content → Rewritten (s.mem it) x buf →
      Rewritten (s.mem it) x' buf := fun hx hw => hw.of_content rfl hx
  obtain ⟨h₃, heffect₃, hrenewed₃⟩ := heffect.deltaRelease hW ⟨new, hmem, hrenewed, hrewritten⟩ h₂ hprotect
  obtain ⟨h₄, heffect₄, a, ha, hrenewed₄, hrewritten₄⟩ := heffect₃.deltaRelease hW hrenewed₃ h₃
    fun _ hb => hb
  exact ⟨_, _, h₄, heffect₄, fun _ => ⟨a, ha, hrenewed₄, it, hit, rfl, hrewritten₄⟩,
    fun hfail => absurd rfl hfail⟩

/-- A call stores at most one item, under its key, if no item in use is released. -/
theorem Lifecycle.effect_doAddDeltaDel
    (h : Lifecycle hash s refs A ls) (hlinked : ∀ a ∈ A, Proper s a) (behind : Nat) (k : Key)
    (incr : Bool) (delta : BitVec 64) (cas : Option Nat)
    (hwrap : ∀ a, assocFind hash s.key s.assoc k = some a → refs a + 1 < 2 ^ 16)
    (hrepair : deltaRepair hash behind s k incr delta cas = none) :
  ∃ A' ls', DeltaEffect hash s refs A k (Memcached.doAddDeltaDel hash behind s k incr delta cas) A' ls'
  := by
  obtain ⟨-, hret, A₁, ls₁, h₁, hdrops, -⟩ | ⟨it, hmem, hkey, hlive, hget⟩ := h.doItemGetDel_cases k
  · rcases hget : Memcached.doItemGetDel hash s k with ⟨s₁, ret⟩
    rw [hget] at hret h₁ hdrops
    subst hret
    simp only [Memcached.doAddDeltaDel, hget]
    exact ⟨A₁, ls₁, .of_leaves h₁ (hdrops.leaves k fun b hb => hb) (by rintro ⟨⟩)⟩
  · have hlt := hwrap it ((assocFind_eq_some_iff h.table).mpr ⟨hmem, hkey⟩)
    rw [Nat.mod_eq_of_lt hlt] at hget
    have h₁ := h.setRefcount (h.used_linked it hmem) (refs it + 1)
    have hleaves := leaves_setRefcount k (fun b => refs b ≠ 0) s A it (refs it + 1)
    have hself := State.mem_modify_self s it fun x => { x with refcount := refs it + 1 }
    obtain ⟨s₁, hs₁⟩ : ∃ s₁, s₁ = s.modify it fun x => { x with refcount := refs it + 1 } := ⟨_, rfl⟩
    rw [← hs₁] at hget h₁ hleaves hself
    have hkey₁ : s₁.key it = k := by
      rw [State.key, hself]
      exact hkey
    have hproper : Proper s₁ it := by
      apply (hlinked it hmem).congr hleaves.settings
      rw [hself]
      rfl
    have hcount : (s₁.mem it).refcount = refs it + 1 := by
      rw [hself]
    have hfail : ∀ reply : DeltaReply, reply.result ≠ .ok →
        DeltaEffect hash s₁ refs A k (Memcached.doItemRemoveDel s₁ it, reply) A ls := by
      intro reply hreply
      obtain ⟨hrelease, hleaves₂⟩ := h₁.release (P := fun b => refs b ≠ 0) k fun b hb => hb
      exact .of_leaves hrelease hleaves₂ hreply
    suffices hcall : ∃ A' ls', DeltaEffect hash s₁ refs A k
        (Memcached.doAddDeltaDel hash behind s k incr delta cas) A' ls' by
      obtain ⟨A', ls', hcall⟩ := hcall
      exact ⟨A', ls', .after hleaves hcall⟩
    simp only [deltaRepair, hget] at hrepair
    simp only [Memcached.doAddDeltaDel, hget]
    split
    · exact ⟨A, ls, hfail _ (by rintro ⟨⟩)⟩
    · next hmatch =>
      rw [if_neg hmatch] at hrepair
      split
      · exact ⟨A, ls, hfail _ (by rintro ⟨⟩)⟩
      · next value hread =>
        rw [hread] at hrepair
        simp only [deltaWrite]
        split
        · next hneeds =>
          simp only [if_pos hneeds] at hrepair
          rcases halloc : Memcached.doItemAllocDel hash s₁ (s₁.key it) (s₁.mem it).suffixFlags
            (s₁.mem it).exptime ((Decimal.print (deltaValue incr value delta)).length + 2)
            with ⟨t, _ | new⟩
          · obtain ⟨A', ls', hcreated⟩ := h₁.doItemAllocDel (s₁.key it) (s₁.mem it).suffixFlags
              (s₁.mem it).exptime ((Decimal.print (deltaValue incr value delta)).length + 2)
            rw [hrepair, halloc] at hcreated
            have hdrops := hcreated.drops.leaves (P := fun b => refs b ≠ 0) k
              fun b hb => Refs.take_ne_zero it hb
            obtain ⟨hrelease, hleaves₂⟩ := hcreated.lifecycle.release (P := fun b => refs b ≠ 0) k
              fun b hb => hb
            exact ⟨A', ls', .of_leaves hrelease (hdrops.trans hleaves₂) (by rintro ⟨⟩)⟩
          · rw [← hkey₁]
            exact h₁.effect_realloc hmem hproper _ cas hrepair halloc
        · next hneeds =>
          obtain ⟨hroom, hone⟩ := not_or.mp hneeds
          rw [not_not, hcount] at hone
          rw [← hkey₁]
          exact ⟨A, ls, h₁.effect_inPlace hmem hproper (by omega) (not_lt.mp hroom) cas⟩

end Memcached
