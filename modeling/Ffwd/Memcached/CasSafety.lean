import Ffwd.Memcached.ServerRuns

/-!
# CAS ids

Every item that is stored gets a CAS id that no item has had before. A linked item keeps its CAS id as
long as it keeps its content, so that an id that is found again under a key says that nothing has been
stored under the key in the meantime.
-/

namespace Memcached

open Linked Counting Runs

/-! ### Steps -/

section

variable {s s' : State} {A A' : Finset Addr} {m : Move} {P : Addr → Prop} {k : Key} {b : Addr}

theorem Renewed.cas_eq (h : Renewed k s s' b) (huse : s.settings.useCas = true) (hlt : s.casId + 1 < 2 ^ 64) :
  s'.casId = s.casId + 1 ∧ (s'.mem b).cas = s.casId + 1
  := by
  obtain ⟨hcas, hitem⟩ := h.cas huse
  rw [Nat.mod_eq_of_lt hlt] at hcas
  rw [hcas] at hitem
  exact ⟨hcas, hitem⟩

theorem Moves.casId_bounds (h : Moves m P s s' A A') (hlt : s.casId + 1 < 2 ^ 64) :
  s.casId ≤ s'.casId ∧ s'.casId ≤ s.casId + 1
  := by
  obtain hsame | hnext := h.casId
  · omega
  · rw [Nat.mod_eq_of_lt hlt] at hnext
    omega

theorem cas_of_content {it it' : Item} (h : it'.content = it.content) :
  it'.cas = it.cas
  := Item.eq_of_content Item.cas (fun _ => rfl) h

end

/-! ### The invariant -/

variable {ι : Type} [Fintype ι]

/-- The linked items have different CAS ids, and no more than that of the last item stored. -/
structure Server.Versioned (hash : Key → BitVec 32) (v : Server ι) (A : Finset Addr)
    (ls : Nat → List Addr) : Prop where
  inv : v.Inv hash A ls
  useCas : v.state.settings.useCas = true
  le : ∀ b ∈ A, (v.state.mem b).cas ≤ v.state.casId
  inj : ∀ b ∈ A, ∀ b' ∈ A, (v.state.mem b').cas = (v.state.mem b).cas → b' = b

theorem versioned_init (hash : Key → BitVec 32) (ι : Type) [Fintype ι] {config : Config}
    (huse : config.useCas = true) :
  (Server.init ι config).Versioned hash ∅ fun _ => []
  where
  inv := inv_init hash ι config
  useCas := huse
  le b hb := by cases hb
  inj b hb := by cases hb

variable [DecidableEq ι] {hash : Key → BitVec 32} {started : Int} {v w : Server ι} {A : Finset Addr}
  {ls : Nat → List Addr} {e : Event ι} {es : List (Event ι)} {a b : Addr} {k : Key} {x : Nat}

/-- The event is calm, and there is a CAS id left. -/
def Server.Numbered (hash : Key → BitVec 32) (v : Server ι) (e : Event ι) : Prop :=
  v.Calm hash e ∧ v.state.casId + 1 < 2 ^ 64

theorem Server.Versioned.step (h : v.Versioned hash A ls) (started : Int) (he : v.Numbered hash e) :
  ∃ A' ls', (v.exec hash started e).Versioned hash A' ls' ∧
    Moves (v.move hash e) (v.Kept started hash e) v.state (v.exec hash started e).state A A'
  := by
  obtain ⟨hcalm, hlt⟩ := he
  obtain ⟨A', ls', hinv, hmoves⟩ := h.inv.step started e hcalm
  have hbounds := hmoves.casId_bounds hlt
  refine ⟨A', ls', ⟨hinv, hmoves.useCas.trans h.useCas, ?_, ?_⟩, hmoves⟩
  · intro b hb
    obtain hremains | ⟨-, hrenewed⟩ := hmoves.linked b hb
    · rw [cas_of_content hremains.content]
      exact (h.le b hremains.mem).trans hbounds.1
    · obtain ⟨hnext, hcas⟩ := hrenewed.cas_eq h.useCas hlt
      rw [hcas, hnext]
  · intro b hb b' hb' heq
    obtain hremains | ⟨hkey, hrenewed⟩ := hmoves.linked b hb
    · obtain hremains' | ⟨-, hrenewed'⟩ := hmoves.linked b' hb'
      · rw [cas_of_content hremains.content, cas_of_content hremains'.content] at heq
        exact h.inj b hremains.mem b' hremains'.mem heq
      · have hle := h.le b hremains.mem
        rw [(hrenewed'.cas_eq h.useCas hlt).2, cas_of_content hremains.content] at heq
        omega
    · obtain hremains' | ⟨hkey', -⟩ := hmoves.linked b' hb'
      · have hle := h.le b' hremains'.mem
        rw [(hrenewed.cas_eq h.useCas hlt).2, cas_of_content hremains'.content] at heq
        omega
      · rw [hkey] at hkey'
        exact hinv.lifecycle.eq_of_key hb' hb (Option.some.inj hkey').symm

theorem Server.Versioned.run
    (h : v.Versioned hash A ls)
    (hes : Always (Server.exec hash started) (Server.Numbered hash) v es) :
  ∃ A' ls', (v.run hash started es).Versioned hash A' ls'
  := by
  apply hes.invariant (I := fun v => ∃ A' ls', v.Versioned hash A' ls')
  · rintro v e ⟨A₁, ls₁, h₁⟩ he
    obtain ⟨A₂, ls₂, h₂, -⟩ := h₁.step started he
    exact ⟨A₂, ls₂, h₂⟩
  · exact ⟨A, ls, h⟩

/-- A run of fewer events than there are CAS ids. -/
theorem numbered_of_length
    (h : v.Inv hash A ls) (hes : v.CalmRun hash started es)
    (hlt : v.state.casId + es.length < 2 ^ 64) :
  Always (Server.exec hash started) (Server.Numbered hash) v es
  := by
  induction es generalizing v A ls with
  | nil => trivial
  | cons e es ih =>
      rw [List.length_cons] at hlt
      obtain ⟨A', ls', h', hmoves⟩ := h.step started e hes.1
      have hbounds := hmoves.casId_bounds (by omega)
      exact ⟨⟨hes.1, by omega⟩, ih h' hes.2 (by omega)⟩

/-- A CAS id that no linked item has any more does not come back. -/
theorem Server.Versioned.retired
    (h : v.Versioned hash A ls)
    (hes : Always (Server.exec hash started) (Server.Numbered hash) v es)
    (hx : x ≤ v.state.casId) (hnone : ∀ b ∈ A, (v.state.mem b).cas ≠ x) :
  ∀ b, ((v.run hash started es).state.mem b).linked = true →
    ((v.run hash started es).state.mem b).cas ≠ x
  := by
  induction es generalizing v A ls with
  | nil =>
      intro b hb
      exact hnone b ((h.inv.lifecycle.linked b).mpr hb)
  | cons e es ih =>
      obtain ⟨A', ls', h', hmoves⟩ := h.step started hes.1
      have hbounds := hmoves.casId_bounds hes.1.2
      apply ih h' hes.2 (hx.trans hbounds.1)
      intro b hb heq
      obtain hremains | ⟨-, hrenewed⟩ := hmoves.linked b hb
      · rw [cas_of_content hremains.content] at heq
        exact hnone b hremains.mem heq
      · rw [(hrenewed.cas_eq h.useCas hes.1.2).2] at heq
        omega

/-- An item whose CAS id is found again after a run has been linked all the time, with the same
content. -/
theorem Server.Versioned.unchanged
    (h : v.Versioned hash A ls)
    (hes : Always (Server.exec hash started) (Server.Numbered hash) v es) (hb : b ∈ A)
    (hend : ∃ b', ((v.run hash started es).state.mem b').linked = true ∧
      ((v.run hash started es).state.mem b').cas = (v.state.mem b).cas) :
  ∀ p q, es = p ++ q → ((v.run hash started p).state.mem b).linked = true ∧
    ((v.run hash started p).state.mem b).content = (v.state.mem b).content
  := by
  induction es generalizing v A ls with
  | nil =>
      intro p q hsplit
      obtain ⟨rfl, -⟩ := List.append_eq_nil_iff.mp hsplit.symm
      exact ⟨(h.inv.lifecycle.linked b).mp hb, rfl⟩
  | cons e es ih =>
      obtain ⟨A', ls', h', hmoves⟩ := h.step started hes.1
      have hle := h.le b hb
      by_cases hkeeps : b ∈ A' ∧ ((v.exec hash started e).state.mem b).content = (v.state.mem b).content
      · obtain ⟨hb', hcontent⟩ := hkeeps
        rintro (_ | ⟨e', p⟩) q hsplit
        · exact ⟨(h.inv.lifecycle.linked b).mp hb, rfl⟩
        · obtain ⟨rfl, htail⟩ := List.cons.inj hsplit
          rw [← cas_of_content hcontent] at hend
          obtain ⟨hlinked, hcontent'⟩ := ih h' hes.2 hb' hend p q htail
          exact ⟨hlinked, hcontent'.trans hcontent⟩
      · exfalso
        obtain ⟨b', hlinked, hcas⟩ := hend
        apply h'.retired hes.2 (hle.trans (hmoves.casId_bounds hes.1.2).1) _ b' hlinked hcas
        intro c hc heq
        obtain hremains | ⟨-, hrenewed⟩ := hmoves.linked c hc
        · rw [cas_of_content hremains.content] at heq
          obtain rfl := h.inj b hb c hremains.mem heq
          exact hkeeps ⟨hc, hremains.content⟩
        · rw [(hrenewed.cas_eq h.useCas hes.1.2).2] at heq
          omega

/-! ### Modifications -/

/-- A connection unlinks the item under a key. -/
def Server.Removes (v : Server ι) (k : Key) (a : Addr) : Event ι → Prop
  | .step c _ _ => ∃ next, (v.clients c).script = .unlink a next ∧ v.state.key a = k ∧
      (v.state.mem a).linked = true
  | _ => False

/-- The event stores an item under the key, or removes the one that is there. -/
def Server.Modifies (hash : Key → BitVec 32) (v : Server ι) (k : Key) (e : Event ι) : Prop :=
  (v.move hash e).stores = some k ∨ ∃ a, v.Removes k a e

/-- What is left when a connection has removed an item. -/
theorem Server.Inv.removes (h : v.Inv hash A ls) (started : Int) (hremoves : v.Removes k a e) :
  a ∈ A ∧ v.state.key a = k ∧
    Lifecycle hash (v.exec hash started e).state v.refs (A.erase a) fun id => (ls id).erase a
  := by
  cases e with
  | start c command => exact hremoves.elim
  | tick seconds => exact hremoves.elim
  | step c choice behind =>
      obtain ⟨next, hscript, hk, ha⟩ := hremoves
      simp only [Server.exec, Client.step, hscript]
      exact ⟨(h.lifecycle.linked a).mpr ha, hk, h.lifecycle.doItemUnlinkDel a⟩

/-- An event that leaves the item under a key linked, with its content, does not modify the key. -/
theorem Server.Versioned.not_modifies
    (h : v.Versioned hash A ls) (he : v.Numbered hash e) (hb : b ∈ A) (hk : v.state.key b = k)
    (hlinked : ((v.exec hash started e).state.mem b).linked = true)
    (hcontent : ((v.exec hash started e).state.mem b).content = (v.state.mem b).content) :
  ¬v.Modifies hash k e
  := by
  obtain ⟨A', ls', h', hmoves⟩ := h.step started he
  have hb' := (h'.inv.lifecycle.linked b).mpr hlinked
  rintro (hstores | ⟨a, hremoves⟩)
  · obtain ⟨b', hmem, hrenewed⟩ := hmoves.stored k hstores
    have hkey : (v.exec hash started e).state.key b = k := (Item.key_of_content hcontent).trans hk
    obtain rfl := h'.inv.lifecycle.eq_of_key hmem hb' (hrenewed.key.trans hkey.symm)
    have hcas := (hrenewed.cas_eq h.useCas he.2).2
    have hle := h.le b' hb
    rw [cas_of_content hcontent] at hcas
    omega
  · obtain ⟨hmem, hka, herase⟩ := h.inv.removes started hremoves
    obtain rfl := h.inv.lifecycle.eq_of_key hmem hb (hka.trans hk.symm)
    exact Finset.notMem_erase a A ((herase.linked a).mpr hlinked)

/-! ### Runs -/

/-- The key that a script asks for. -/
def Script.asks : Script → Option Key
  | get k _ => some k
  | _ => none

theorem Script.asks_eq_some {p : Script} :
  p.asks = some k ↔ ∃ next, p = .get k next
  := by
  cases p <;> simp [asks]

instance (p : Script) (k : Key) : Decidable (∃ next, p = .get k next) :=
  decidable_of_iff (p.asks = some k) Script.asks_eq_some

/-- A connection has got the item `b` by `item_get`. -/
def Server.Gets (hash : Key → BitVec 32) (v : Server ι) (k : Key) (b : Addr) : Event ι → Prop
  | .step c _ _ => (∃ next, (v.clients c).script = .get k next) ∧ (doItemGetDel hash v.state k).2 = some b
  | _ => False

instance (hash : Key → BitVec 32) (v : Server ι) (k : Key) (b : Addr) :
    (e : Event ι) → Decidable (v.Gets hash k b e)
  | .step c _ _ =>
      inferInstanceAs (Decidable ((∃ next, (v.clients c).script = .get k next) ∧ _ = some b))
  | .start .. | .tick _ => isFalse id

/-- A connection stores an item by `cas`, with the CAS id `x`. -/
def Server.StoresCas (hash : Key → BitVec 32) (v : Server ι) (k : Key) (x : Nat) : Event ι → Prop
  | .step c _ _ => ∃ a next, (v.clients c).script = .store a .cas next ∧ v.state.key a = k ∧
      (v.state.mem a).getCas = x ∧ (doStoreItemDel hash v.state a .cas).2.1 = .stored
  | _ => False

/-- Between a `get` of a key and a `cas` that succeeds with the CAS id found by it, nothing modifies
the key; the CAS ids that are given increase, and those of two contents are different. -/
structure Server.CasSafe (hash : Key → BitVec 32) (started : Int) (v : Server ι) (es : List (Event ι)) :
    Prop where
  exclusive : ∀ before e between e' after k b, es = before ++ e :: (between ++ e' :: after) →
    (v.run hash started before).Gets hash k b e →
    (v.run hash started (before ++ e :: between)).StoresCas hash k
      ((v.run hash started before).state.mem b).getCas e' →
    ∀ p d q, between = p ++ d :: q → ¬(v.run hash started (before ++ e :: p)).Modifies hash k d
  increasing : ∀ before e after, es = before ++ e :: after →
    (v.run hash started before).state.casId ≤ (v.run hash started (before ++ [e])).state.casId ∧
      ∀ b, ((v.run hash started (before ++ [e])).state.mem b).linked = true →
        ((v.run hash started before).state.mem b).linked = true ∧
            ((v.run hash started (before ++ [e])).state.mem b).content
              = ((v.run hash started before).state.mem b).content ∨
          (v.run hash started before).state.casId
              < ((v.run hash started (before ++ [e])).state.mem b).cas ∧
            ((v.run hash started (before ++ [e])).state.mem b).cas
              = (v.run hash started (before ++ [e])).state.casId
  distinct : ∀ before between after b b', es = before ++ (between ++ after) →
    ((v.run hash started before).state.mem b).linked = true →
    ((v.run hash started (before ++ between)).state.mem b').linked = true →
    ((v.run hash started (before ++ between)).state.mem b').cas
      = ((v.run hash started before).state.mem b).cas →
    b' = b ∧ ((v.run hash started (before ++ between)).state.mem b).content
      = ((v.run hash started before).state.mem b).content

omit [DecidableEq ι] in
/-- The item that a `get` returns is linked, and alive. -/
theorem Server.Inv.gets (h : v.Inv hash A ls) (hget : v.Gets hash k b e) :
  b ∈ A ∧ v.state.key b = k ∧ live v.state b = true ∧ (doItemGetDel hash v.state k)
    = (v.state.modify b fun it => { it with refcount := (v.refs b + 1) % 2 ^ 16 }, some b)
  := by
  cases e with
  | start c command => exact hget.elim
  | tick seconds => exact hget.elim
  | step c choice behind =>
      obtain ⟨-, hret⟩ := hget
      obtain ⟨-, hnone, -⟩ | ⟨a, ha, hk, hlive, hsome⟩ := h.lifecycle.doItemGetDel_cases k
      · rw [hnone] at hret
        cases hret
      · have hab := hret
        rw [hsome] at hab
        obtain rfl := Option.some.inj hab
        exact ⟨ha, hk, hlive, hsome⟩

/-- It stays linked, with the same content. -/
theorem Server.Inv.gets_after (h : v.Inv hash A ls) (started : Int) (hget : v.Gets hash k b e) :
  ((v.exec hash started e).state.mem b).linked = true ∧
    ((v.exec hash started e).state.mem b).content = (v.state.mem b).content
  := by
  obtain ⟨hb, -, -, hsome⟩ := h.gets hget
  cases e with
  | start c command => exact hget.elim
  | tick seconds => exact hget.elim
  | step c choice behind =>
      obtain ⟨⟨next, hscript⟩, -⟩ := hget
      have hlinked := (h.lifecycle.linked b).mp hb
      refine ⟨?_, ?_⟩ <;> simp only [Server.exec, Client.step, hscript, hsome, State.mem_modify_self]
      · exact hlinked
      · rfl

omit [DecidableEq ι] in
/-- A `cas` that succeeds has found its CAS id under the key. -/
theorem Server.Versioned.storesCas
    (h : v.Versioned hash A ls) (hcalm : v.Calm hash e) (hstore : v.StoresCas hash k x e) :
  ∃ b ∈ A, v.state.key b = k ∧ (v.state.mem b).cas = x
  := by
  cases e with
  | start c command => exact hstore.elim
  | tick seconds => exact hstore.elim
  | step c choice behind =>
      obtain ⟨a, next, hscript, hk, hx, hstored⟩ := hstore
      have hsafe := h.inv.safe c
      rw [hscript] at hsafe
      obtain ⟨hnot, hone, hproper⟩ := h.inv.own c a hsafe.1
      simp only [Server.Calm, hscript] at hcalm
      obtain ⟨A', ls', hstep⟩ := h.inv.lifecycle.doStoreItemDel hnot (by omega) hproper h.inv.proper .cas (by
        intro b hfind _
        rw [hcalm.2]
        exact ⟨hcalm.1 b hfind, by rintro ⟨⟩⟩)
      have hanswer := hstep.answer
      rw [hstored, hk] at hanswer
      obtain habsent | ⟨b, hb, hkb⟩ := key_cases v.state A k
      · rw [h.inv.lifecycle.lookup_eq_none habsent] at hanswer
        cases hanswer
      · refine ⟨b, hb, hkb, ?_⟩
        rw [h.inv.lifecycle.lookup_of_mem hb hkb] at hanswer
        split at hanswer
        · simp only [storeSpec] at hanswer
          split at hanswer
          · next hsame =>
            have hcas : (v.state.mem b).hasCas = true := (h.inv.proper b hb).hasCas.trans h.useCas
            have hentry : (v.state.mem a).getCas = (v.state.mem b).getCas := hsame
            rw [hx, Item.getCas, if_pos hcas] at hentry
            exact hentry.symm
          · cases hanswer
        · cases hanswer

theorem Server.Versioned.casSafe
    (h : v.Versioned hash A ls)
    (hes : Always (Server.exec hash started) (Server.Numbered hash) v es) :
  v.CasSafe hash started es
  where
  exclusive := by
    rintro before e between e' after k b rfl hget hstore p d q rfl hmodifies
    obtain ⟨hbefore, he, hrest⟩ := hes.at_step
    obtain ⟨hbetween, he', -⟩ := hrest.at_step
    obtain ⟨A₁, ls₁, h₁⟩ := h.run hbefore
    obtain ⟨hb, hk, -⟩ := h₁.inv.gets hget
    obtain ⟨hlinked, hcontent⟩ := h₁.inv.gets_after started hget
    obtain ⟨A₂, ls₂, h₂, -⟩ := h₁.step started he
    obtain ⟨A₃, ls₃, h₃⟩ := h₂.run hbetween
    rw [Server.run_append] at hstore
    have hcas : ((v.run hash started before).state.mem b).getCas
        = (((v.run hash started before).exec hash started e).state.mem b).cas := by
      have hhas : ((v.run hash started before).state.mem b).hasCas = true :=
        (h₁.inv.proper b hb).hasCas.trans h₁.useCas
      rw [cas_of_content hcontent, Item.getCas, if_pos hhas]
    rw [hcas] at hstore
    obtain ⟨b', hb', -, hfound⟩ := h₃.storesCas he'.1 hstore
    have hb₂ := (h₂.inv.lifecycle.linked b).mpr hlinked
    have hall := h₂.unchanged hbetween hb₂ ⟨b', (h₃.inv.lifecycle.linked b').mp hb', hfound⟩
    obtain ⟨hpre, hd, -⟩ := hbetween.at_step
    obtain ⟨A₄, ls₄, h₄⟩ := h₂.run hpre
    obtain ⟨hlinked₄, hcontent₄⟩ := hall p (d :: q) rfl
    obtain ⟨hlinked₅, hcontent₅⟩ := hall (p ++ [d]) q (List.append_assoc p [d] q).symm
    rw [Server.run_append] at hmodifies hlinked₅ hcontent₅
    have hkey₄ := (Item.key_of_content (hcontent₄.trans hcontent)).trans hk
    exact h₄.not_modifies hd ((h₄.inv.lifecycle.linked b).mpr hlinked₄) hkey₄ hlinked₅
      (hcontent₅.trans hcontent₄.symm) hmodifies
  increasing := by
    rintro before e after rfl
    obtain ⟨hbefore, he, -⟩ := hes.at_step
    obtain ⟨A₁, ls₁, h₁⟩ := h.run hbefore
    obtain ⟨A₂, ls₂, h₂, hmoves⟩ := h₁.step started he
    rw [Server.run_append]
    refine ⟨(hmoves.casId_bounds he.2).1, ?_⟩
    intro b hb
    obtain hremains | ⟨-, hrenewed⟩ := hmoves.linked b ((h₂.inv.lifecycle.linked b).mpr hb)
    · exact .inl ⟨(h₁.inv.lifecycle.linked b).mp hremains.mem, hremains.content⟩
    · right
      obtain ⟨hnext, hcas⟩ := hrenewed.cas_eq h₁.useCas he.2
      constructor
      · exact (Nat.lt_succ_self _).trans_eq hcas.symm
      · exact hcas.trans hnext.symm
  distinct := by
    rintro before between after b b' rfl hb hb' hcas
    obtain ⟨hbefore, hrest⟩ := always_append.mp hes
    obtain ⟨hbetween, -⟩ := always_append.mp hrest
    obtain ⟨A₁, ls₁, h₁⟩ := h.run hbefore
    rw [Server.run_append] at hb' hcas ⊢
    obtain ⟨hlinked, hcontent⟩ := h₁.unchanged hbetween ((h₁.inv.lifecycle.linked b).mpr hb)
      ⟨b', hb', hcas⟩ between [] (List.append_nil between).symm
    obtain ⟨A₂, ls₂, h₂⟩ := h₁.run hbetween
    refine ⟨?_, hcontent⟩
    apply h₂.inj b ((h₂.inv.lifecycle.linked b).mpr hlinked) b' ((h₂.inv.lifecycle.linked b').mpr hb')
    exact hcas.trans (cas_of_content hcontent).symm

/-- CAS ids are safe in every run in which the references are counted, whatever the connections do and
in whichever order. -/
theorem cas_safe
    (hash : Key → BitVec 32) (started : Int) (ι : Type) [Fintype ι] [DecidableEq ι] (config : Config)
    (es : List (Event ι)) (huse : config.useCas = true)
    (hcalm : (Server.init ι config).CalmRun hash started es) (hlength : es.length < 2 ^ 64) :
  (Server.init ι config).CasSafe hash started es
  := by
  apply (versioned_init hash ι huse).casSafe
  apply numbered_of_length (inv_init hash ι config) hcalm
  have hzero : (Server.init ι config).state.casId = 0 := rfl
  omega

/-- An item is stored, a connection reads it and stores another one by `cas`, with the CAS id that it
has found. -/
def casRun : List (Event Bool) :=
  Event.execute false (.update [1] 0 0 1 0 .set (textOf 53 1)) 8 ++ Event.execute true (.get [[1]]) 6 ++
    Event.execute true (.update [1] 0 0 1 1 .cas (textOf 54 1)) 8

theorem cas_safe_casRun :
  ((Server.init Bool (smallConfig 0)).run (fun _ => 0) 0 casRun).state.casId = 2 ∧
    (Server.init Bool (smallConfig 0)).CasSafe (fun _ => 0) 0 casRun
  := by
  have hcalm : (Server.init Bool (smallConfig 0)).CalmRun (fun _ => 0) 0 casRun := by
    decide +kernel
  have hlength : casRun.length < 2 ^ 64 := by
    decide +kernel
  exact ⟨by decide +kernel, cas_safe _ _ _ _ _ rfl hcalm hlength⟩

end Memcached
