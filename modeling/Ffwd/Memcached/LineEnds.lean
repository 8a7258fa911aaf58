import Ffwd.Memcached.CasSafety

/-!
# The ends of the data

`process_get_command` sends the data of an item as it is, and relies on the `\r\n` at its end. An item
gets it from the client, whose data is checked, from `complete_update_bin`, which writes it, or from the
items that it is made of. Only `complete_incr_bin` stores an item without.
-/

namespace Memcached

open Linked Counting Runs

/-! ### Items -/

section

variable {it it' old new : Item} {buf : List UInt8}

theorem endsInCrlf_value (hlen : 2 ≤ it.nbytes) :
  it.endsInCrlf = true ↔ EndsInCrlf it.value
  := by
  rw [endsInCrlf_iff, Item.endsInCrlf, decide_eq_true_eq]
  exact (and_iff_right hlen).symm

theorem endsInCrlf_of_content (h : it'.content = it.content) :
  it'.endsInCrlf = it.endsInCrlf
  := Item.eq_of_content Item.endsInCrlf (fun _ => rfl) h

theorem EndsInCrlf.append {d : List UInt8} (h : EndsInCrlf d) (e : List UInt8) :
  EndsInCrlf (e ++ d)
  := by
  obtain ⟨t, rfl⟩ := h
  use e ++ t
  rw [List.append_assoc]

theorem Rewritten.endsInCrlf
    (h : Rewritten old new buf) (hnew : 2 ≤ new.nbytes) (hold : old.endsInCrlf = true) :
  new.endsInCrlf = true
  := by
  rw [endsInCrlf_value hnew]
  obtain hvalue | ⟨-, hvalue⟩ := h.value
  · exact ⟨buf, hvalue⟩
  · rw [Item.endsInCrlf, decide_eq_true_eq] at hold
    rw [hold.1, hold.2] at hvalue
    exact ⟨_, hvalue⟩

/-- What is stored ends in `\r\n`, if the item that is to be stored and the one under the key do. -/
theorem storeSpec_endsInCrlf
    {comm : Comm} {old : Option Entry} {new : Entry} {room : Bool} {e : Stored}
    (h : (storeSpec comm old new room).2 = some e) (hnew : EndsInCrlf new.value)
    (hold : ∀ o, old = some o → EndsInCrlf o.value) :
  EndsInCrlf e.value
  := by
  have hsame : ∀ {e : Stored}, some new.toStored = some e → EndsInCrlf e.value := by
    rintro e ⟨⟩
    exact hnew
  cases comm with
  | set => exact hsame h
  | add =>
      cases old with
      | none => exact hsame h
      | some o => cases h
  | replace =>
      cases old with
      | none => cases h
      | some o => exact hsame h
  | cas =>
      cases old with
      | none => cases h
      | some o =>
          simp only [storeSpec] at h
          split at h
          · exact hsame h
          · cases h
  | append =>
      cases old with
      | none => cases h
      | some o =>
          simp only [storeSpec] at h
          split at h
          · cases h
          · split at h
            · obtain rfl := Option.some.inj h
              exact hnew.append _
            · cases h
  | prepend =>
      cases old with
      | none => cases h
      | some o =>
          simp only [storeSpec] at h
          split at h
          · cases h
          · split at h
            · obtain rfl := Option.some.inj h
              exact (hold o rfl).append _
            · cases h

end

/-! ### Commands -/

/-- A command stores only items that are known to end in `\r\n`, if an increment that finds no item ends
with an answer. `size` is the length of the items it has allocated, and `E` are those that are known. -/
def Script.Ends : Script → (Addr → Nat) → (Addr → Prop) → Prop
  | done _, _, _ => True
  | alloc _ _ _ nbytes next, size, E =>
      (next none).Ends size E ∧
        ∀ a, (next (some a)).Ends (Function.update size a nbytes) fun b => b ≠ a ∧ E b
  | get _ next, size, E => ∀ r, (next r).Ends size E
  | remove _ next, size, E => next.Ends size E
  | unlink _ next, size, E => next.Ends size E
  | update _ next, size, E => next.Ends size E
  | store a _ next, size, E => E a ∧ ∀ r, (next r).Ends size E
  | addDelta _ _ _ _ next, size, E =>
      ∀ r, (r.result = .itemNotFound → ∃ answer, next r = .done answer) → (next r).Ends size E
  | flushExpired next, size, E => next.Ends size E
  | stats next, size, E => next.Ends size E
  | write a off data n next, size, E =>
      next.Ends size fun b => b ≠ a ∧ E b ∨ b = a ∧ n = 2 ∧ off + 2 = size a ∧ data 0 = 13 ∧ data 1 = 10
  | setCas _ _ next, size, E => next.Ends size E
  | read a next, size, E => ∀ it, (next it).Ends size fun b => E b ∨ b = a ∧ it.endsInCrlf = true
  | clock next, size, E => ∀ now, (next now).Ends size E
  | setOldestLive _ next, size, E => next.Ends size E
  | choose next, size, E => ∀ b, (next b).Ends size E

variable {size : Addr → Nat} {E : Addr → Prop}

theorem Script.ends_done (answer : Answer) (size : Addr → Nat) (E : Addr → Prop) :
  (done answer).Ends size E
  := trivial

theorem ends_releaseItems {next : Script} (hnext : next.Ends size E) (l : List Addr) :
  (releaseItems l next).Ends size E
  := by
  induction l with
  | nil => exact hnext
  | cons a l ih => exact ih

theorem ends_sendItems (all l : List Addr) (seen : List Item) (E : Addr → Prop) :
  (sendItems all l seen).Ends size E
  := by
  induction l generalizing seen E with
  | nil => exact ends_releaseItems (Script.ends_done _ size E) all
  | cons a l ih => exact fun it => ih _ _

theorem ends_getScript (keys : List Key) (kept : List Addr) :
  (getScript keys kept).Ends size E
  := by
  induction keys generalizing kept with
  | nil =>
      intro sent
      cases sent with
      | true => exact ends_sendItems kept kept [] E
      | false =>
          intro listed
          cases listed with
          | true => exact ends_releaseItems (Script.ends_done _ size E) kept
          | false => trivial
  | cons k keys ih =>
      intro r
      cases r with
      | none => exact ih kept
      | some a =>
          intro memory
          cases memory with
          | true => exact ih (kept ++ [a])
          | false =>
              intro again
              cases again with
              | true => exact ih kept
              | false => trivial

theorem ends_storeAndRemove {a : Addr} (ha : E a) (comm : Comm) :
  (storeAndRemove a comm).Ends size E
  := ⟨ha, fun _ => trivial⟩

theorem ends_completeUpdateBin
    {a : Addr} {vlen : Nat} (hsize : size a = vlen + 2) (comm : Comm) (data : Nat → UInt8) :
  (completeUpdateBin a vlen comm data).Ends size E
  := by
  intro arrived
  cases arrived with
  | true =>
      simp only [if_true, Script.Ends]
      apply ends_storeAndRemove
      right
      exact ⟨rfl, trivial, hsize.symm, rfl, rfl⟩
  | false => trivial

theorem ends_allocFailed (k : Key) (comm : Comm) :
  (allocFailed k comm).Ends size E
  := by
  rw [allocFailed]
  split
  · intro r
    cases r <;> trivial
  · trivial

theorem Command.ends (started : Int) (command : Command) :
  (command.script started).Ends size E
  := by
  cases command with
  | get keys => exact ends_getScript keys []
  | binGet k =>
      intro r
      cases r with
      | none => trivial
      | some a => exact ends_sendItems [a] [a] [] E
  | update k flags exptime vlen cas comm data =>
      intro now
      refine ⟨ends_allocFailed k comm, ?_⟩
      intro a arrived
      cases arrived with
      | true =>
          intro it
          simp only
          split
          · next hends =>
            apply ends_storeAndRemove
            right
            exact ⟨rfl, hends⟩
          · trivial
      | false => trivial
  | binUpdate k flags exptime vlen cas comm data =>
      intro now
      refine ⟨ends_allocFailed k comm, ?_⟩
      intro a it
      exact ends_completeUpdateBin (Function.update_self _ _ _) _ data
  | binAppendPrepend k vlen cas comm data =>
      refine ⟨trivial, ?_⟩
      intro a
      exact ends_completeUpdateBin (Function.update_self _ _ _) comm data
  | arithmetic k incr delta => exact fun r _ => trivial
  | incrBin k incr delta initial cas expiration =>
      intro r hr
      simp only at hr ⊢
      split
      · next hfound =>
        split
        · next hcreates =>
          obtain ⟨answer, hanswer⟩ := hr hfound
          rw [if_pos hfound, if_pos hcreates] at hanswer
          cases hanswer
        · trivial
      · trivial
  | delete k =>
      intro r
      cases r <;> trivial
  | binDelete k cas =>
      intro r
      cases r with
      | none => trivial
      | some a =>
          intro it
          simp only
          split <;> trivial
  | flushAll exptime => exact fun now => trivial
  | stats => trivial

/-! ### Connections -/

variable {hash : Key → BitVec 32} {s s' : State} {refs : Refs} {A A' : Finset Addr}
  {ls ls' : Nat → List Addr} {a : Addr} {c c' : Client}

/-- What is known of the items that a connection has allocated and not stored. -/
def Client.Known (s : State) (c : Client) : Prop :=
  ∃ size E, c.script.Ends size E ∧
    ∀ a ∈ c.own, (s.mem a).nbytes = size a ∧ (E a → (s.mem a).endsInCrlf = true)

/-- A step that leaves the items alone. -/
theorem Client.known_of_content
    (hown : ∀ a ∈ c.own, (s.mem a).nbytes = size a ∧ (E a → (s.mem a).endsInCrlf = true))
    (hends : c'.script.Ends size E)
    (hsub : ∀ b ∈ c'.own, b ∈ c.own ∧ (s'.mem b).content = (s.mem b).content) :
  c'.Known s'
  := by
  refine ⟨size, E, hends, ?_⟩
  intro b hb
  obtain ⟨hmem, hcontent⟩ := hsub b hb
  rw [Item.eq_of_content Item.nbytes (fun _ => rfl) hcontent, endsInCrlf_of_content hcontent]
  exact hown b hmem

/-- The command has ended. -/
def Script.isDone : Script → Bool
  | done _ => true
  | _ => false

theorem Script.isDone_eq_true {p : Script} :
  p.isDone = true ↔ ∃ answer, p = .done answer
  := by
  cases p <;> simp [isDone]

instance (p : Script) : Decidable (∃ answer, p = .done answer) :=
  decidable_of_iff (p.isDone = true) Script.isDone_eq_true

/-- An increment that finds no item ends with an answer. -/
def Script.Plain (hash : Key → BitVec 32) (s : State) (behind : Nat) : Script → Prop
  | addDelta k incr delta cas next =>
      (doAddDeltaDel hash behind s k incr delta cas).2.result = .itemNotFound →
        ∃ answer, next (doAddDeltaDel hash behind s k incr delta cas).2 = .done answer
  | _ => True

instance (hash : Key → BitVec 32) (s : State) (behind : Nat) : (p : Script) → Decidable (p.Plain hash s behind)
  | .addDelta k incr delta cas next =>
      inferInstanceAs (Decidable
        ((doAddDeltaDel hash behind s k incr delta cas).2.result = .itemNotFound →
          ∃ answer, next (doAddDeltaDel hash behind s k incr delta cas).2 = .done answer))
  | .done _ | .alloc .. | .get .. | .remove .. | .unlink .. | .update .. | .store .. | .flushExpired _ |
    .stats _ | .write .. | .setCas .. | .read .. | .clock _ | .setOldestLive .. | .choose _ => isTrue trivial

theorem endsInCrlf_memcpy
    {it : Item} {off n : Nat} {data : Nat → UInt8} (hn : n = 2) (hoff : off + 2 = it.nbytes)
    (h13 : data 0 = 13) (h10 : data 1 = 10) :
  ({ it with data := memcpy it.data off data n } : Item).endsInCrlf = true
  := by
  subst hn
  have hlast : it.nbytes - 2 = off ∧ it.nbytes - 1 = off + 1 := by omega
  simp [Item.endsInCrlf, memcpy, hlast, h13, h10]

/-- A step of a connection that leaves alone what the connection has of its own, but for what it
writes to. -/
theorem Client.Known.step
    (h : c.Known s) (hready : c.Ready s refs A) (hl : Lifecycle hash s refs A ls) (choice : Bool)
    {behind : Nat} (hcalm : c.script.Calm hash s refs behind) (hplain : c.script.Plain hash s behind)
    (hkeep : ∀ b ∈ c.own, b ∈ (c.step hash s choice behind).2.own → c.script.touches ≠ some b →
      ((c.step hash s choice behind).1.mem b).content = (s.mem b).content) :
  (c.step hash s choice behind).2.Known (c.step hash s choice behind).1
  := by
  obtain ⟨size, E, hends, hown⟩ := h
  have hsafe := hready.safe
  cases hscript : c.script with
  | done answer =>
      simp only [Client.step, hscript] at hkeep ⊢
      exact ⟨size, E, hends, hown⟩
  | alloc k flags exptime nbytes next =>
      rw [hscript] at hends hsafe hcalm
      obtain ⟨A', ls', hcreated⟩ := hl.doItemAllocDel k flags exptime nbytes
      rw [hcalm] at hcreated
      simp only [Client.step, hscript] at hkeep ⊢
      rcases hret : doItemAllocDel hash s k flags exptime nbytes with ⟨s₁, _ | a⟩
      · simp only [hret, Client.take, Option.elim_none] at hkeep ⊢
        exact known_of_content hown hends.1 fun b hb => ⟨hb, hkeep b hb hb (by rintro ⟨⟩)⟩
      · rw [hret] at hcreated
        simp only [hret, Client.take, Option.elim_some] at hkeep ⊢
        refine ⟨_, _, hends.2 a, ?_⟩
        intro b hb
        by_cases hba : b = a
        · subst hba
          rw [Function.update_self]
          exact ⟨(hcreated.item b rfl).2.2.2.1, fun hE => absurd rfl hE.1⟩
        · have hmem := (Multiset.mem_cons.mp hb).resolve_left hba
          have hcontent := hkeep b hmem hb (by rintro ⟨⟩)
          rw [Function.update_of_ne hba, Item.eq_of_content Item.nbytes (fun _ => rfl) hcontent,
            endsInCrlf_of_content hcontent]
          exact ⟨(hown b hmem).1, fun hE => (hown b hmem).2 hE.2⟩
  | get k next =>
      rw [hscript] at hends
      simp only [Client.step, hscript] at hkeep ⊢
      rcases hret : doItemGetDel hash s k with ⟨s₁, _ | a⟩
      · simp only [hret, Client.take] at hkeep ⊢
        exact known_of_content hown (hends none) fun b hb => ⟨hb, hkeep b hb hb (by rintro ⟨⟩)⟩
      · simp only [hret, Client.take] at hkeep ⊢
        exact known_of_content hown (hends (some a)) fun b hb => ⟨hb, hkeep b hb hb (by rintro ⟨⟩)⟩
  | remove a next =>
      rw [hscript] at hends
      simp only [Client.step, hscript] at hkeep ⊢
      apply known_of_content hown hends
      intro b hb
      have hmem := Multiset.mem_of_mem_erase hb
      exact ⟨hmem, hkeep b hmem hb (by rintro ⟨⟩)⟩
  | store a comm next =>
      rw [hscript] at hends
      simp only [Client.step, hscript] at hkeep ⊢
      apply known_of_content hown (hends.2 _)
      intro b hb
      have hmem := Multiset.mem_of_mem_erase hb
      refine ⟨hmem, hkeep b hmem hb ?_⟩
      rintro ⟨⟩
      exact hready.not_mem_erase _ hb
  | write a off data n next =>
      rw [hscript] at hends
      simp only [Client.step, hscript] at hkeep ⊢
      refine ⟨_, _, hends, ?_⟩
      intro b hb
      by_cases hba : b = a
      · subst hba
        rw [State.mem_modify_self]
        refine ⟨(hown b hb).1, ?_⟩
        rintro (⟨hne, -⟩ | ⟨-, hn, hoff, h13, h10⟩)
        · exact absurd rfl hne
        · rw [← (hown b hb).1] at hoff
          exact endsInCrlf_memcpy hn hoff h13 h10
      · rw [State.mem_modify_of_ne _ _ _ _ hba]
        refine ⟨(hown b hb).1, ?_⟩
        rintro (⟨-, hE⟩ | ⟨hab, -⟩)
        · exact (hown b hb).2 hE
        · exact absurd hab hba
  | setCas a v next =>
      rw [hscript] at hends
      simp only [Client.step, hscript] at hkeep ⊢
      refine ⟨size, E, hends, ?_⟩
      intro b hb
      by_cases hba : b = a
      · subst hba
        have hdata : ((s.mem b).setCas v).endsInCrlf = (s.mem b).endsInCrlf := by
          rw [Item.setCas]
          split <;> rfl
        rw [State.mem_modify_self, (Item.setCas_same v (s.mem b)).2.1, hdata]
        exact hown b hb
      · rw [State.mem_modify_of_ne _ _ _ _ hba]
        exact hown b hb
  | read a next =>
      rw [hscript] at hends
      simp only [Client.step, hscript]
      refine ⟨size, _, hends (s.mem a), ?_⟩
      intro b hb
      refine ⟨(hown b hb).1, ?_⟩
      rintro (hE | ⟨rfl, hdata⟩)
      · exact (hown b hb).2 hE
      · exact hdata
  | addDelta k incr delta cas next =>
      rw [hscript] at hends hplain
      simp only [Client.step, hscript] at hkeep ⊢
      exact known_of_content hown (hends _ hplain) fun b hb => ⟨hb, hkeep b hb hb (by rintro ⟨⟩)⟩
  | unlink a next | update a next | flushExpired next | stats next =>
      rw [hscript] at hends
      simp only [Client.step, hscript] at hkeep ⊢
      exact known_of_content hown hends fun b hb => ⟨hb, hkeep b hb hb (by rintro ⟨⟩)⟩
  | clock next =>
      rw [hscript] at hends
      simp only [Client.step, hscript]
      exact ⟨size, E, hends _, hown⟩
  | setOldestLive v next =>
      rw [hscript] at hends
      simp only [Client.step, hscript]
      exact ⟨size, E, hends, hown⟩
  | choose next =>
      rw [hscript] at hends
      simp only [Client.step, hscript]
      exact ⟨size, E, hends choice, hown⟩

/-! ### The server -/

variable {ι : Type} [Fintype ι]

/-- The linked items end in `\r\n`, and connections store no others. -/
structure Server.Terminated (v : Server ι) (A : Finset Addr) : Prop where
  linked : ∀ a ∈ A, (v.state.mem a).endsInCrlf = true
  known : ∀ c, (v.clients c).Known v.state

/-- The event is calm, and if it is an increment that finds no item, it ends with an answer. -/
def Server.Plain (hash : Key → BitVec 32) (v : Server ι) (e : Event ι) : Prop :=
  v.Calm hash e ∧
    match e with
    | .step c _ behind => (v.clients c).script.Plain hash v.state behind
    | _ => True

instance (hash : Key → BitVec 32) (v : Server ι) : (e : Event ι) → Decidable (v.Plain hash e)
  | .step c choice behind =>
      inferInstanceAs (Decidable (v.Calm hash (.step c choice behind) ∧
        (v.clients c).script.Plain hash v.state behind))
  | .start c command => inferInstanceAs (Decidable (v.Calm hash (.start c command) ∧ True))
  | .tick seconds => inferInstanceAs (Decidable (v.Calm hash (.tick seconds) ∧ True))

theorem terminated_init (ι : Type) [Fintype ι] (config : Config) :
  (Server.init ι config).Terminated ∅
  where
  linked a ha := by cases ha
  known _ := by
    refine ⟨fun _ => 0, fun _ => False, trivial, ?_⟩
    intro a ha
    cases ha

variable {v : Server ι} {x : ι} {choice : Bool} {behind : Nat} {b : Addr}

/-- An item that is stored ends in `\r\n`. -/
theorem Server.Inv.renewed_endsInCrlf
    (h : v.Inv hash A ls) (hends : v.Terminated A)
    (hplain : v.Plain hash (.step x choice behind))
    (hlife : Lifecycle hash ((v.clients x).step hash v.state choice behind).1 refs A' ls') (hb : b ∈ A')
    (hstores : ((v.clients x).move hash v.state behind).stores
      = some (((v.clients x).step hash v.state choice behind).1.key b)) :
  (((v.clients x).step hash v.state choice behind).1.mem b).endsInCrlf = true
  := by
  obtain ⟨hcalm, -⟩ := hplain
  simp only [Server.Calm] at hcalm
  cases hscript : (v.clients x).script with
  | store a comm next =>
      have hsafe := h.safe x
      obtain ⟨size, E, hscriptEnds, hown⟩ := hends.known x
      rw [hscript] at hcalm hsafe hscriptEnds
      simp only [Client.move, Client.step, hscript] at hstores hlife ⊢
      obtain ⟨hnot, hone, hproper⟩ := h.own x a hsafe.1
      obtain ⟨A₂, ls₂, hstep⟩ := h.lifecycle.doStoreItemDel hnot (by omega) hproper h.proper comm (by
        intro b hfind _
        rw [hcalm.2]
        exact ⟨hcalm.1 b hfind, by rintro ⟨⟩⟩)
      split at hstores
      · next hanswer =>
        have hsome := hanswer
        rw [hstep.answer, storeSpec_stored] at hsome
        obtain ⟨e, he⟩ := Option.ne_none_iff_exists'.mp hsome
        obtain ⟨b', hb', hrenewed, hstored⟩ := hstep.stored e he
        have hb₂ := (hstep.lifecycle.linked b).mpr ((hlife.linked b).mp hb)
        obtain rfl := hstep.lifecycle.eq_of_key hb' hb₂ (hrenewed.key.trans (Option.some.inj hstores))
        rw [endsInCrlf_value hrenewed.proper.crlf]
        have hvalue := congrArg Stored.value hstored
        change (((doStoreItemDel hash v.state a comm).1).mem b').value = e.value at hvalue
        rw [hvalue]
        apply storeSpec_endsInCrlf he
        · exact (endsInCrlf_value hproper.crlf).mp ((hown a hsafe.1).2 hscriptEnds.1)
        · intro o ho
          obtain habsent | ⟨old, hold, hk⟩ := key_cases v.state A (v.state.key a)
          · rw [h.lifecycle.lookup_eq_none habsent] at ho
            cases ho
          · rw [h.lifecycle.lookup_of_mem hold hk] at ho
            split at ho
            · obtain rfl := Option.some.inj ho
              exact (endsInCrlf_value (h.proper old hold).crlf).mp (hends.linked old hold)
            · cases ho
      · cases hstores
  | addDelta k incr delta cas next =>
      rw [hscript] at hcalm
      simp only [Client.move, Client.step, hscript] at hstores hlife ⊢
      obtain ⟨A₂, ls₂, heffect⟩ := h.lifecycle.effect_doAddDeltaDel h.proper behind k incr delta cas
        hcalm.1 hcalm.2
      split at hstores
      · next hok =>
        obtain ⟨b', hb', hrenewed, old, hold, -, hrewritten⟩ := heffect.ok hok
        have hb₂ := (heffect.lifecycle.linked b).mpr ((hlife.linked b).mp hb)
        obtain rfl := heffect.lifecycle.eq_of_key hb' hb₂ (hrenewed.key.trans (Option.some.inj hstores))
        exact hrewritten.endsInCrlf hrenewed.proper.crlf (hends.linked old hold)
      · cases hstores
  | _ =>
      simp only [Client.move, hscript, Move.none] at hstores
      cases hstores

variable [DecidableEq ι]

theorem Server.Terminated.step
    (hends : v.Terminated A) (h : v.Inv hash A ls) (started : Int) {e : Event ι} (hplain : v.Plain hash e) :
  ∃ A' ls', (v.exec hash started e).Inv hash A' ls' ∧ (v.exec hash started e).Terminated A'
  := by
  obtain ⟨A', ls', h', hmoves⟩ := h.step started e hplain.1
  refine ⟨A', ls', h', ?_, ?_⟩
  · intro b hb
    obtain hremains | ⟨hstores, -⟩ := hmoves.linked b hb
    · rw [endsInCrlf_of_content hremains.content]
      exact hends.linked b hremains.mem
    · cases e with
      | start c command => cases hstores
      | tick seconds => cases hstores
      | step c choice behind => exact h.renewed_endsInCrlf hends hplain h'.lifecycle hb hstores
  · intro d
    cases e with
    | start c command =>
        simp only [Server.exec, Function.update_apply]
        split
        · next hd =>
          rw [Client.start]
          split
          · exact ⟨fun a => (v.state.mem a).nbytes, fun _ => False, command.ends started,
              fun a _ => ⟨rfl, fun hfalse => hfalse.elim⟩⟩
          · exact hends.known c
        · exact hends.known d
    | tick seconds => exact hends.known d
    | step c choice behind =>
        have hkept : ∀ b ∈ (v.clients d).own, b ∈ ((v.exec hash started (.step c choice behind)).clients d).own →
            (v.clients c).script.touches ≠ some b →
            ((v.exec hash started (.step c choice behind)).state.mem b).content = (v.state.mem b).content := by
          intro b hb hb' htouch
          apply hmoves.held
          exact ⟨refs_ne_zero (Multiset.mem_of_le (h.own_le d) hb),
            refs_ne_zero (Multiset.mem_of_le (h'.own_le d) hb'), htouch⟩
        by_cases hd : d = c
        · subst hd
          simp only [Server.exec, Function.update_self] at hkept ⊢
          exact (hends.known d).step (h.ready d) h.lifecycle choice hplain.1 hplain.2 hkept
        · simp only [Server.exec, Function.update_of_ne hd] at hkept ⊢
          obtain ⟨size, E, hscriptEnds, hown⟩ := hends.known d
          apply Client.known_of_content hown hscriptEnds
          intro b hb
          refine ⟨hb, hkept b hb hb ?_⟩
          intro htouch
          have htouched := Multiset.mem_of_le (h.own_le c) ((h.safe c).touches htouch)
          exact not_held_of_refs (h.own d b hb).2.1 (Multiset.mem_of_le (h.own_le d) hb) hd htouched

/-- The linked items end in `\r\n` in every run in which no increment creates an item. -/
theorem items_end_in_crlf
    (hash : Key → BitVec 32) (started : Int) (ι : Type) [Fintype ι] [DecidableEq ι] (config : Config)
    (es : List (Event ι))
    (hplain : Always (Server.exec hash started) (Server.Plain hash) (Server.init ι config) es) (a : Addr)
    (ha : (((Server.init ι config).run hash started es).state.mem a).linked = true) :
  EndsInCrlf (((Server.init ι config).run hash started es).state.mem a).value
  := by
  obtain ⟨A, ls, h, hends⟩ : ∃ A ls, ((Server.init ι config).run hash started es).Inv hash A ls ∧
      ((Server.init ι config).run hash started es).Terminated A := by
    apply hplain.invariant (I := fun v => ∃ A ls, v.Inv hash A ls ∧ v.Terminated A)
    · rintro v e ⟨A, ls, h, hends⟩ he
      exact hends.step h started he
    · exact ⟨∅, _, inv_init hash ι config, terminated_init ι config⟩
  have hmem := (h.lifecycle.linked a).mpr ha
  exact (endsInCrlf_value (h.proper a hmem).crlf).mp (hends.linked a hmem)

/-- A number is stored, another connection increments it, and more data is appended to it. -/
def lineRun : List (Event Bool) :=
  Event.execute false (.update [1] 0 0 1 0 .set (textOf 53 1)) 8 ++
    Event.execute true (.arithmetic [1] true 7#64) 1 ++
    Event.execute false (.binAppendPrepend [1] 1 0 .append (textOf 54 1)) 7

theorem items_end_in_crlf_lineRun :
  (((Server.init Bool (smallConfig 0)).run (fun _ => 0) 0 lineRun).state.mem 264).value
      = [49, 50, 54, 13, 10] ∧
    EndsInCrlf (((Server.init Bool (smallConfig 0)).run (fun _ => 0) 0 lineRun).state.mem 264).value
  := by
  have hplain : Always (Server.exec (fun _ => 0) 0) (Server.Plain fun _ => 0)
      (Server.init Bool (smallConfig 0)) lineRun := by
    decide +kernel
  have hlinked : (((Server.init Bool (smallConfig 0)).run (fun _ => 0) 0 lineRun).state.mem 264).linked
      = true := by
    decide +kernel
  exact ⟨by decide +kernel, items_end_in_crlf _ _ _ _ _ hplain 264 hlinked⟩

end Memcached
