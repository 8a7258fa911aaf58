import Ffwd.Memcached.CasSafety
import Ffwd.Memcached.Readers

/-!
# Deletes

A delete looks up its key in one operation of the server and unlinks what it has found in a later one.
Either what it has found is still there then, and the key is absent afterwards until something is
stored under it; or it has been removed or replaced, and the delete changes nothing.
-/

namespace Memcached

open Linked Counting Runs

variable {ι : Type} [Fintype ι] [DecidableEq ι] {hash : Key → BitVec 32} {started : Int} {v : Server ι}
  {A : Finset Addr} {ls : Nat → List Addr} {e : Event ι} {es : List (Event ι)} {k : Key}

/-- The item under a key. -/
def Server.item (hash : Key → BitVec 32) (v : Server ι) (k : Key) : Option Addr :=
  assocFind hash v.state.key v.state.assoc k

/-- Deletes are atomic, whatever comes between their two operations. -/
structure Server.DeletesAtomic (hash : Key → BitVec 32) (started : Int) (v : Server ι)
    (es : List (Event ι)) : Prop where
  found : ∀ before e between after c k b, es = before ++ e :: (between ++ after) →
    (v.run hash started before).Gets hash k b e →
    (∀ p q, between = p ++ q → (v.run hash started (before ++ e :: p)).Reads c b) →
    ((v.run hash started (before ++ e :: between)).state.mem b).content
      = ((v.run hash started before).state.mem b).content
  removed : ∀ before e after k b, es = before ++ e :: after →
    (v.run hash started before).Removes k b e →
    (v.run hash started before).item hash k = some b ∧
      (v.run hash started (before ++ [e])).item hash k = none ∧
      ∀ k', k' ≠ k → (v.run hash started (before ++ [e])).item hash k'
        = (v.run hash started before).item hash k'
  otherwise : ∀ before c choice behind after b next, es = before ++ .step c choice behind :: after →
    ((v.run hash started before).clients c).script = .unlink b next →
    (∃ k, (v.run hash started before).Removes k b (.step c choice behind)) ∨
      (v.run hash started (before ++ [.step c choice behind])).state = (v.run hash started before).state
  absent : ∀ before e between after k b, es = before ++ e :: (between ++ after) →
    (v.run hash started before).Removes k b e →
    (∀ p d q, between = p ++ d :: q →
      ((v.run hash started (before ++ e :: p)).move hash d).stores ≠ some k) →
    (v.run hash started (before ++ e :: between)).item hash k = none
  once : ∀ before e between e' after k b b', es = before ++ e :: (between ++ e' :: after) →
    (v.run hash started before).Removes k b e →
    (v.run hash started (before ++ e :: between)).Removes k b' e' →
    ∃ p d q, between = p ++ d :: q ∧ ((v.run hash started (before ++ e :: p)).move hash d).stores = some k

omit [DecidableEq ι] in
theorem Server.Inv.item_eq_some (h : v.Inv hash A ls) {b : Addr} :
  v.item hash k = some b ↔ b ∈ A ∧ v.state.key b = k
  := assocFind_eq_some_iff h.lifecycle.table

omit [DecidableEq ι] in
theorem Server.Inv.item_eq_none (h : v.Inv hash A ls) :
  v.item hash k = none ↔ ∀ b ∈ A, v.state.key b ≠ k
  := assocFind_eq_none_iff h.lifecycle.table

/-- An absent key stays absent until something is stored under it. -/
theorem Server.Inv.absent_run
    (h : v.Inv hash A ls) (hes : v.CalmRun hash started es) (hk : v.item hash k = none)
    (hstores : ∀ p d q, es = p ++ d :: q → ((v.run hash started p).move hash d).stores ≠ some k) :
  (v.run hash started es).item hash k = none
  := by
  induction es generalizing v A ls with
  | nil => exact hk
  | cons e es ih =>
      obtain ⟨A', ls', h', hmoves⟩ := h.step started e hes.1
      apply ih h' hes.2
      · rw [h'.item_eq_none]
        intro b hb hkb
        obtain hremains | ⟨hstored, -⟩ := hmoves.linked b hb
        · rw [h.item_eq_none] at hk
          exact hk b hremains.mem ((Item.key_of_content hremains.content).symm.trans hkb)
        · rw [hkb] at hstored
          exact hstores [] e es rfl hstored
      · rintro p d q rfl
        exact hstores (e :: p) d q rfl

variable (started) in
/-- What is under the keys when an item has been removed. -/
theorem Server.Inv.item_removes (h : v.Inv hash A ls) {b : Addr} (hremoves : v.Removes k b e) :
  v.item hash k = some b ∧ (v.exec hash started e).item hash k = none ∧
    ∀ k', k' ≠ k → (v.exec hash started e).item hash k' = v.item hash k'
  := by
  obtain ⟨hb, hk, hlife⟩ := h.removes started hremoves
  have hkeys : ∀ c ∈ A, c ≠ b → (v.exec hash started e).state.key c = v.state.key c := by
    intro c _ hne
    cases e with
    | start d command => exact hremoves.elim
    | tick seconds => exact hremoves.elim
    | step d choice behind =>
        obtain ⟨next, hscript, -⟩ := hremoves
        simp only [Server.exec, Client.step, hscript, State.key]
        rw [doItemUnlinkDel_of_ne hash v.state hne]
  refine ⟨h.item_eq_some.mpr ⟨hb, hk⟩, ?_, ?_⟩
  · apply (assocFind_eq_none_iff hlife.table).mpr
    intro c hc hkc
    have hne := Finset.ne_of_mem_erase hc
    have hmem := Finset.mem_of_mem_erase hc
    rw [hkeys c hmem hne] at hkc
    exact hne (h.lifecycle.eq_of_key hmem hb (hkc.trans hk.symm))
  · intro k' hk'
    ext c
    rw [h.item_eq_some, Server.item, assocFind_eq_some_iff hlife.table, Finset.mem_erase]
    constructor
    · rintro ⟨⟨hne, hc⟩, hkc⟩
      rw [hkeys c hc hne] at hkc
      exact ⟨hc, hkc⟩
    · rintro ⟨hc, hkc⟩
      have hne : c ≠ b := by
        rintro rfl
        exact hk' (hkc.symm.trans hk)
      rw [hkeys c hc hne]
      exact ⟨⟨hne, hc⟩, hkc⟩

/-- An item that a connection has got keeps its content as long as the connection refers to it. -/
theorem Server.Inv.found
    {c : ι} {b : Addr} (h : v.Inv hash A ls) (hcalm : v.CalmRun hash started (e :: es))
    (hget : v.Gets hash k b e)
    (hreads : ∀ p q, es = p ++ q → (v.run hash started (e :: p)).Reads c b) :
  ((v.run hash started (e :: es)).state.mem b).content = (v.state.mem b).content
  := by
  obtain ⟨A₁, ls₁, h₁, -⟩ := h.step started e hcalm.1
  obtain ⟨A₂, ls₂, h₂, hcontent⟩ := h₁.content_run hcalm.2 hreads
  exact hcontent.trans (h.gets_after started hget).2

theorem Server.Inv.deletesAtomic (h : v.Inv hash A ls) (hes : v.CalmRun hash started es) :
  v.DeletesAtomic hash started es
  where
  found := by
    rintro before e between after c k b rfl hget hreads
    obtain ⟨hbefore, hrest⟩ := Server.calmRun_append.mp hes
    obtain ⟨A₁, ls₁, h₁⟩ := h.run hbefore
    rw [← List.cons_append] at hrest
    obtain ⟨hbetween, -⟩ := Server.calmRun_append.mp hrest
    rw [Server.run_append]
    apply h₁.found hbetween hget
    intro p q hsplit
    rw [← Server.run_append]
    exact hreads p q hsplit
  removed := by
    rintro before e after k b rfl hremoves
    obtain ⟨hbefore, -⟩ := Server.calmRun_append.mp hes
    obtain ⟨A₁, ls₁, h₁⟩ := h.run hbefore
    rw [Server.run_append]
    exact h₁.item_removes started hremoves
  otherwise := by
    rintro before c choice behind after b next rfl hscript
    rw [Server.run_append]
    by_cases hlinked : ((v.run hash started before).state.mem b).linked = true
    · exact .inl ⟨_, next, hscript, rfl, hlinked⟩
    · right
      simp only [Server.run, List.foldl_cons, List.foldl_nil, Server.exec, Client.step] at hscript hlinked ⊢
      rw [hscript]
      simp only [doItemUnlinkDel, if_neg hlinked]
  absent := by
    rintro before e between after k b rfl hremoves hstores
    obtain ⟨hbefore, hrest⟩ := Server.calmRun_append.mp hes
    obtain ⟨A₁, ls₁, h₁⟩ := h.run hbefore
    obtain ⟨hbetween, -⟩ := Server.calmRun_append.mp hrest.2
    obtain ⟨A₂, ls₂, h₂, -⟩ := h₁.step started e hrest.1
    rw [Server.run_append]
    apply h₂.absent_run hbetween (h₁.item_removes started hremoves).2.1
    intro p d q hsplit
    have hnot := hstores p d q hsplit
    rw [Server.run_append] at hnot
    exact hnot
  once := by
    rintro before e between e' after k b b' rfl hremoves hremoves'
    by_contra hnone
    obtain ⟨hbefore, hrest⟩ := Server.calmRun_append.mp hes
    obtain ⟨A₁, ls₁, h₁⟩ := h.run hbefore
    obtain ⟨hbetween, -⟩ := Server.calmRun_append.mp hrest.2
    obtain ⟨A₂, ls₂, h₂, -⟩ := h₁.step started e hrest.1
    obtain ⟨A₃, ls₃, h₃⟩ := h₂.run hbetween
    rw [Server.run_append] at hremoves'
    have habsent := h₂.absent_run hbetween (h₁.item_removes started hremoves).2.1 (by
      intro p d q hsplit hstored
      apply hnone
      refine ⟨p, d, q, hsplit, ?_⟩
      rw [Server.run_append]
      exact hstored)
    have hfound := (h₃.item_removes started hremoves').1
    rw [habsent] at hfound
    cases hfound

/-- Deletes are atomic in every run in which the references are counted, whatever the connections do
and in whichever order. -/
theorem deletes_atomic
    (hash : Key → BitVec 32) (started : Int) (ι : Type) [Fintype ι] [DecidableEq ι] (config : Config)
    (es : List (Event ι)) (hcalm : (Server.init ι config).CalmRun hash started es) :
  (Server.init ι config).DeletesAtomic hash started es
  := (inv_init hash ι config).deletesAtomic hcalm

/-- Two connections delete the same item, and then one stores another one. -/
def deleteRun : List (Event Bool) :=
  Event.execute false (.update [1] 0 0 1 0 .set (textOf 53 1)) 8 ++ Event.execute false (.delete [1]) 1 ++
    Event.execute true (.binDelete [1] 1) 3 ++ [.step false true 0, .step true true 0, .step false true 0] ++
    Event.execute false (.update [1] 0 0 1 0 .set (textOf 54 1)) 8

theorem deletes_atomic_deleteRun :
  (Server.init Bool (smallConfig 0)).DeletesAtomic (fun _ => 0) 0 deleteRun
  := by
  have hcalm : (Server.init Bool (smallConfig 0)).CalmRun (fun _ => 0) 0 deleteRun := by
    decide +kernel
  exact deletes_atomic _ _ _ _ _ hcalm

end Memcached
