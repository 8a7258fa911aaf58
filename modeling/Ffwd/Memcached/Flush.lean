import Ffwd.Memcached.CasSafety

/-!
# Flushes

A flush notes a time, `oldest_live`, unlinks the items at the heads of the lists that are not older, and
leaves the others to `do_item_get_del`, which does not return an item that was last accessed before that
time. What a flush has hidden stays hidden as long as `oldest_live` is neither put back nor put into the
future, and no connection accesses a hidden item that it has got before.
-/

namespace Memcached

open Linked Counting Runs

/-! ### The walk over the lists -/

section

variable {hash : Key → BitVec 32} {s s' : State} {refs : Refs} {A A' : Finset Addr}
  {ls : Nat → List Addr}

/-- After the walk over a list its items are older than `oldest_live`. -/
theorem Lifecycle.flushed_flushList
    (h : Lifecycle hash s refs A ls) (id : Nat) {n : Nat} (hn : (ls id).length ≤ n) :
  ∃ A' ls', Lifecycle hash (Memcached.flushList hash s n (ls id).head?) refs A' ls' ∧
    Drops s (Memcached.flushList hash s n (ls id).head?) refs A A' ∧
    ∀ b ∈ A', (s.mem b).slabsClsid = id → (s.mem b).time < s.settings.oldestLive
  := by
  induction n generalizing s A ls with
  | zero =>
      have hl := List.eq_nil_of_length_eq_zero (Nat.le_zero.mp hn)
      refine ⟨A, ls, h, Drops.refl s refs A, ?_⟩
      intro b hb hid
      have hmem := (h.listed id b).mpr ⟨hb, hid⟩
      rw [hl] at hmem
      cases hmem
  | succ n ih =>
      have hlinks := h.lists.links id
      have hsorted := h.sorted id
      rcases hl : ls id with _ | ⟨a, l⟩
      · refine ⟨A, ls, h, Drops.refl s refs A, ?_⟩
        intro b hb hid
        have hmem := (h.listed id b).mpr ⟨hb, hid⟩
        rw [hl] at hmem
        cases hmem
      · rw [hl] at hlinks hsorted hn
        obtain ⟨-, hnext, -⟩ := hlinks
        rw [Option.or_none] at hnext
        have hhead : a ∈ ls id := by
          rw [hl]
          exact List.mem_cons_self
        have hmem := ((h.listed id a).mp hhead).1
        simp only [List.head?_cons, Memcached.flushList, (h.used_linked a hmem).2, if_true, hnext]
        split
        · have hrest : (ls id).erase a = l := by
            rw [hl, List.erase_cons_head]
          have hdrops := h.drops_doItemUnlinkDel a
          obtain ⟨A', ls', h', hdrops', hold⟩ := ih (h.doItemUnlinkDel a) (by
            rw [hrest]
            exact Nat.le_of_succ_le_succ hn)
          rw [hrest] at h' hdrops'
          refine ⟨A', ls', h', hdrops.trans hdrops', ?_⟩
          intro b hb hid
          have hcore := Item.core_of_unlinked (hdrops.kept b (.inl (hdrops'.sub hb)))
          have hclass := Item.eq_of_content Item.slabsClsid (fun _ => rfl) (Item.content_of_core hcore)
          have hlt := hold b hb (hclass.trans hid)
          rw [Item.time_of_core hcore, hdrops.settings] at hlt
          exact hlt
        · next hold =>
          refine ⟨A, ls, h, Drops.refl s refs A, ?_⟩
          intro b hb hid
          have hb' := (h.listed id b).mpr ⟨hb, hid⟩
          rw [hl] at hb'
          obtain rfl | hb' := List.mem_cons.mp hb'
          · exact not_le.mp hold
          · exact ((List.pairwise_cons.mp hsorted).1 b hb').trans_lt (not_le.mp hold)

/-- After a flush the items of all lists that it walks over are older than `oldest_live`. -/
theorem Lifecycle.flushed_doItemFlushExpiredDel
    (h : Lifecycle hash s refs A ls) (hlive : s.settings.oldestLive ≠ 0) :
  ∃ A' ls', Lifecycle hash (Memcached.doItemFlushExpiredDel hash s) refs A' ls' ∧
    Drops s (Memcached.doItemFlushExpiredDel hash s) refs A A' ∧
    ∀ b ∈ A', (s.mem b).slabsClsid < largestId → (s.mem b).time < s.settings.oldestLive
  := by
  simp only [Memcached.doItemFlushExpiredDel, if_neg hlive]
  generalize largestId = n
  induction n with
  | zero => exact ⟨A, ls, h, Drops.refl s refs A, fun b _ hid => absurd hid (Nat.not_lt_zero _)⟩
  | succ n ih =>
      obtain ⟨A₁, ls₁, h₁, hdrops₁, hold₁⟩ := ih
      rw [List.range_succ, List.foldl_append, List.foldl_cons, List.foldl_nil]
      obtain ⟨s₁, hs₁⟩ : ∃ s₁, s₁ = (List.range n).foldl
        (fun s i => Memcached.flushList hash s (s.lru.sizes i) (s.lru.heads i)) s := ⟨_, rfl⟩
      rw [← hs₁] at h₁ hdrops₁ ⊢
      rw [h₁.lists.heads, h₁.lists.sizes]
      obtain ⟨A', ls', h', hdrops, hold⟩ := h₁.flushed_flushList n le_rfl
      refine ⟨A', ls', h', hdrops₁.trans hdrops, ?_⟩
      intro b hb hid
      have hb₁ := hdrops.sub hb
      obtain hlt | heq := Nat.lt_succ_iff_lt_or_eq.mp hid
      · exact hold₁ b hb₁ hlt
      · have hcore := Item.core_of_unlinked (hdrops₁.kept b (.inl hb₁))
        have htime := Item.time_of_core hcore
        have hclass := Item.eq_of_content Item.slabsClsid (fun _ => rfl) (Item.content_of_core hcore)
        have hlt := hold b hb (hclass.trans heq)
        rw [htime, hdrops₁.settings] at hlt
        exact hlt

end

/-! ### Runs -/

variable {ι : Type} [Fintype ι] [DecidableEq ι] {hash : Key → BitVec 32} {started : Int} {v : Server ι}
  {A : Finset Addr} {ls : Nat → List Addr} {e : Event ι} {es : List (Event ι)} {b : Addr} {k : Key}

def Script.walks : Script → Bool
  | flushExpired _ => true
  | _ => false

theorem Script.walks_eq_true {p : Script} :
  p.walks = true ↔ ∃ next, p = .flushExpired next
  := by
  cases p <;> simp [walks]

instance (p : Script) : Decidable (∃ next, p = .flushExpired next) :=
  decidable_of_iff (p.walks = true) Script.walks_eq_true

/-- A connection walks over the lists, when `oldest_live` is in the past. -/
def Server.Flushes (v : Server ι) : Event ι → Prop
  | .step c _ _ => (∃ next, (v.clients c).script = .flushExpired next) ∧
      v.state.settings.oldestLive ≠ 0 ∧ v.state.settings.oldestLive ≤ v.state.currentTime
  | _ => False

/-- The event is calm, it puts `oldest_live` neither back nor into the future, and it is no access to
a hidden item. -/
def Server.Lasting (hash : Key → BitVec 32) (v : Server ι) (e : Event ι) : Prop :=
  v.Calm hash e ∧
    (∀ w, (v.move hash e).oldestLive = some w →
      v.state.settings.oldestLive ≤ w ∧ w ≤ v.state.currentTime) ∧
    ∀ b, (v.move hash e).updates = some b → (v.state.mem b).linked = true → flushed v.state b = false

instance (v : Server ι) : (e : Event ι) → Decidable (v.Flushes e)
  | .step c _ _ =>
      inferInstanceAs (Decidable ((∃ next, (v.clients c).script = .flushExpired next) ∧ _ ∧ _))
  | .start .. | .tick _ => isFalse id

instance (hash : Key → BitVec 32) (v : Server ι) (e : Event ι) : Decidable (v.Lasting hash e) :=
  inferInstanceAs (Decidable (v.Calm hash e ∧
    (∀ w ∈ (v.move hash e).oldestLive, v.state.settings.oldestLive ≤ w ∧ w ≤ v.state.currentTime) ∧
      ∀ b ∈ (v.move hash e).updates, (v.state.mem b).linked = true → flushed v.state b = false))

/-- The item under a key is hidden. -/
structure Server.Hides (v : Server ι) (A : Finset Addr) (k : Key) : Prop where
  ne_zero : v.state.settings.oldestLive ≠ 0
  past : v.state.settings.oldestLive ≤ v.state.currentTime
  old : ∀ b ∈ A, v.state.key b = k → (v.state.mem b).slabsClsid < largestId →
    (v.state.mem b).time ≤ v.state.settings.oldestLive

omit [Fintype ι] [DecidableEq ι] in
theorem Server.Hides.flushed
    (h : v.Hides A k) (hb : b ∈ A) (hk : v.state.key b = k)
    (hclass : (v.state.mem b).slabsClsid < largestId) :
  flushed v.state b = true
  := by
  simp only [Memcached.flushed, decide_eq_true_eq]
  exact ⟨h.ne_zero, h.past, h.old b hb hk hclass⟩

theorem live_of_flushed {s : State} (h : flushed s b = true) :
  live s b = false
  := by
  simp [live, h]

variable (started) in
/-- After the walk the items under all keys are hidden. -/
theorem Server.Inv.hides (h : v.Inv hash A ls) (hflush : v.Flushes e) (k : Key) :
  ∃ A' ls', (v.exec hash started e).Inv hash A' ls' ∧ (v.exec hash started e).Hides A' k
  := by
  cases e with
  | start c command => exact hflush.elim
  | tick seconds => exact hflush.elim
  | step c choice behind =>
      obtain ⟨⟨next, hscript⟩, hlive, hpast⟩ := hflush
      have hcalm : v.Calm hash (.step c choice behind) := by
        simp only [Server.Calm, hscript, Script.Calm]
      obtain ⟨A₁, ls₁, h₁, -⟩ := h.step started (.step c choice behind) hcalm
      obtain ⟨A₂, ls₂, h₂, hdrops, hold⟩ := h.lifecycle.flushed_doItemFlushExpiredDel hlive
      have hstate : (v.exec hash started (.step c choice behind)).state = doItemFlushExpiredDel hash v.state := by
        simp only [Server.exec, Client.step, hscript]
      refine ⟨A₁, ls₁, h₁, ?_, ?_, ?_⟩
      · rw [hstate, hdrops.settings]
        exact hlive
      · rw [hstate, hdrops.settings, hdrops.currentTime]
        exact hpast
      · intro b hb _ hclass
        have hb₂ : b ∈ A₂ := by
          rw [h₂.linked, ← hstate]
          exact (h₁.lifecycle.linked b).mp hb
        have hcore := Item.core_of_unlinked (hdrops.kept b (.inl hb₂))
        rw [hstate] at hclass ⊢
        rw [Item.time_of_core hcore, hdrops.settings]
        rw [Item.eq_of_content Item.slabsClsid (fun _ => rfl) (Item.content_of_core hcore)] at hclass
        exact (hold b hb₂ hclass).le

omit [DecidableEq ι] in
/-- A key stays hidden until something is stored under it. -/
theorem Server.Hides.step
    {A' : Finset Addr} {P : Addr → Prop} {w : Server ι} (h : v.Hides A k) (hinv : v.Inv hash A ls)
    (he : v.Lasting hash e) (hmoves : Moves (v.move hash e) P v.state w.state A A')
    (hstores : (v.move hash e).stores ≠ some k) :
  w.Hides A' k
  := by
  obtain ⟨-, hset, haccess⟩ := he
  have hlater : v.state.settings.oldestLive ≤ w.state.settings.oldestLive ∧
      w.state.settings.oldestLive ≤ w.state.currentTime := by
    rw [hmoves.settings]
    cases hw : (v.move hash e).oldestLive with
    | none => exact ⟨le_rfl, h.past.trans hmoves.currentTime⟩
    | some w' =>
        obtain ⟨hle, hnow⟩ := hset w' hw
        exact ⟨hle, hnow.trans hmoves.currentTime⟩
  refine ⟨fun hzero => h.ne_zero (Nat.le_zero.mp (hzero ▸ hlater.1)), hlater.2, ?_⟩
  intro b hb hk hclass
  obtain hremains | ⟨hstored, -⟩ := hmoves.linked b hb
  · have hk' : v.state.key b = k := (Item.key_of_content hremains.content).symm.trans hk
    rw [Item.eq_of_content Item.slabsClsid (fun _ => rfl) hremains.content] at hclass
    have hhidden := h.flushed hremains.mem hk' hclass
    obtain hsame | hlive | hupdates := hremains.time
    · rw [hsame]
      exact (h.old b hremains.mem hk' hclass).trans hlater.1
    · rw [live_of_flushed hhidden] at hlive
      cases hlive
    · have hvisible := haccess b hupdates ((hinv.lifecycle.linked b).mp hremains.mem)
      rw [hhidden] at hvisible
      cases hvisible
  · rw [hk] at hstored
    exact absurd hstored hstores

theorem Server.Hides.run
    (h : v.Hides A k) (hinv : v.Inv hash A ls)
    (hes : Always (Server.exec hash started) (Server.Lasting hash) v es)
    (hstores : ∀ p d q, es = p ++ d :: q → ((v.run hash started p).move hash d).stores ≠ some k) :
  ∃ A' ls', (v.run hash started es).Inv hash A' ls' ∧ (v.run hash started es).Hides A' k
  := by
  induction es generalizing v A ls with
  | nil => exact ⟨A, ls, hinv, h⟩
  | cons e es ih =>
      obtain ⟨A₁, ls₁, h₁, hmoves⟩ := hinv.step started e hes.1.1
      apply ih (h.step hinv hes.1 hmoves (hstores [] e es rfl)) h₁ hes.2
      rintro p d q rfl
      exact hstores (e :: p) d q rfl

/-- After a flush no `get` returns an item of a key until something is stored under the key, in every
run in which `oldest_live` is neither put back nor put into the future and no hidden item is accessed.
Items of the classes that the walk leaves out are excepted. -/
theorem flush_lasting
    (hash : Key → BitVec 32) (started : Int) (ι : Type) [Fintype ι] [DecidableEq ι] (config : Config)
    (before between : List (Event ι)) (e e' : Event ι) (k : Key) (b : Addr)
    (hcalm : (Server.init ι config).CalmRun hash started before)
    (hflush : ((Server.init ι config).run hash started before).Flushes e)
    (hlasting : Always (Server.exec hash started) (Server.Lasting hash)
      ((Server.init ι config).run hash started (before ++ [e])) between)
    (hget : ((Server.init ι config).run hash started (before ++ e :: between)).Gets hash k b e')
    (hclass : (((Server.init ι config).run hash started (before ++ e :: between)).state.mem b).slabsClsid
      < largestId) :
  ∃ p d q, between = p ++ d :: q ∧
    (((Server.init ι config).run hash started (before ++ e :: p)).move hash d).stores = some k
  := by
  by_contra hnone
  obtain ⟨A, ls, h⟩ := (inv_init hash ι config).run hcalm
  obtain ⟨A₁, ls₁, h₁, hhides⟩ := h.hides started hflush k
  rw [Server.run_append] at hlasting hget hclass
  obtain ⟨A₂, ls₂, h₂, hhides₂⟩ := hhides.run h₁ hlasting (by
    intro p d q hsplit hstored
    apply hnone
    refine ⟨p, d, q, hsplit, ?_⟩
    rw [Server.run_append]
    exact hstored)
  obtain ⟨hb, hk, hlive, -⟩ := h₂.gets hget
  rw [live_of_flushed (hhides₂.flushed hb hk hclass)] at hlive
  cases hlive

/-- An item is stored, and the cache is flushed. -/
def flushBefore : List (Event Bool) :=
  Event.execute false (.update [1] 0 0 1 0 .set (textOf 53 1)) 8 ++ [.tick 10] ++
    Event.execute true (.flushAll 0) 2

/-- The key is asked for, another item is stored, and the key is asked for again. -/
def flushAfter : List (Event Bool) :=
  Event.execute true (.get [[1]]) 3 ++ Event.execute false (.update [1] 0 0 1 0 .set (textOf 54 1)) 8 ++
    [.start false (.get [[1]])]

theorem flush_lasting_flushAfter :
  ((Server.init Bool (smallConfig 0)).run (fun _ => 0) 0 (flushBefore ++ .step true true 0 :: flushAfter)).Gets
      (fun _ => 0) [1] 8 (.step false true 0) ∧
    ∃ p d q, flushAfter = p ++ d :: q ∧
      (((Server.init Bool (smallConfig 0)).run (fun _ => 0) 0 (flushBefore ++ .step true true 0 :: p)).move
        (fun _ => 0) d).stores = some [1]
  := by
  have hget : ((Server.init Bool (smallConfig 0)).run (fun _ => 0) 0
      (flushBefore ++ .step true true 0 :: flushAfter)).Gets (fun _ => 0) [1] 8 (.step false true 0) := by
    decide +kernel
  refine ⟨hget, flush_lasting _ _ _ _ _ _ _ _ _ _ ?_ ?_ ?_ hget ?_⟩ <;> decide +kernel

end Memcached
