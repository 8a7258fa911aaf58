import Ffwd.Memcached.CasSafety

/-!
# Items before they are stored

An item that a connection has allocated and not stored is changed by this connection only, whatever the
others do in the meantime. So what it stores is what its command says.
-/

namespace Memcached

open Linked Counting Runs

/-! ### Commands -/

/-- Every item that the command hands to `store_item` satisfies `Q`, if what is known of the items that the
connection has allocated is `K`. -/
def Script.Delivers (Q : Comm → Item → Prop) : Script → (Addr → Item → Prop) → Prop
  | done _, _ => True
  | alloc k flags exptime nbytes next, K =>
      (next none).Delivers Q K ∧
        ∀ a, (next (some a)).Delivers Q (Function.update K a fun it =>
          it.key = k ∧ it.suffix = suffixOf flags nbytes ∧ it.exptime = exptime ∧ it.nbytes = nbytes)
  | get _ next, K => ∀ r, (next r).Delivers Q K
  | remove _ next, K => next.Delivers Q K
  | unlink _ next, K => next.Delivers Q K
  | update _ next, K => next.Delivers Q K
  | store a comm next, K => (∀ it, K a it → Q comm it) ∧ ∀ r, (next r).Delivers Q K
  | addDelta _ _ _ _ next, K => ∀ r, (next r).Delivers Q K
  | flushExpired next, K => next.Delivers Q K
  | stats next, K => next.Delivers Q K
  | write a off data n next, K =>
      next.Delivers Q (Function.update K a fun it =>
        ∃ it₀, K a it₀ ∧ it = { it₀ with data := memcpy it₀.data off data n })
  | setCas a v next, K => next.Delivers Q (Function.update K a fun it => ∃ it₀, K a it₀ ∧ it = it₀.setCas v)
  | read _ next, K => ∀ it, (next it).Delivers Q K
  | clock next, K => ∀ now, (next now).Delivers Q K
  | setOldestLive _ next, K => next.Delivers Q K
  | choose next, K => ∀ b, (next b).Delivers Q K

/-- What a command stores, and how: the data of the client, or the number that it starts with. -/
def Command.Offers (started : Int) : Command → Comm → Item → Prop
  | update k flags exptime vlen _ comm data, comm', it =>
      comm' = comm ∧ it.key = k ∧ it.suffix = suffixOf flags.toInt (vlen + 2) ∧
        (∃ now, it.exptime = realtime started now exptime) ∧ it.value = (List.range (vlen + 2)).map data
  | binUpdate k flags exptime vlen _ comm data, comm', it =>
      (comm' = comm ∨ comm' = .cas) ∧ it.key = k ∧ it.suffix = suffixOf flags.toInt (vlen + 2) ∧
        (∃ now, it.exptime = realtime started now exptime) ∧
        it.value = (List.range vlen).map data ++ [13, 10]
  | binAppendPrepend k vlen _ comm data, comm', it =>
      comm' = comm ∧ it.key = k ∧ it.value = (List.range vlen).map data ++ [13, 10]
  | incrBin k _ _ initial _ expiration, comm', it =>
      comm' = .add ∧ it.key = k ∧ it.suffix = suffixOf 0 incrMaxStorageLen ∧
        (∃ now, it.exptime = realtime started now expiration.toNat) ∧
        Decimal.print initial.toNat ++ [0] <+: it.value
  | _, _, _ => False

variable {Q : Comm → Item → Prop} {K : Addr → Item → Prop}

theorem Script.delivers_done (answer : Answer) (Q : Comm → Item → Prop) (K : Addr → Item → Prop) :
  (done answer).Delivers Q K
  := trivial

theorem delivers_releaseItems {next : Script} (hnext : next.Delivers Q K) (l : List Addr) :
  (releaseItems l next).Delivers Q K
  := by
  induction l with
  | nil => exact hnext
  | cons a l ih => exact ih

theorem delivers_sendItems (all l : List Addr) (seen : List Item) :
  (sendItems all l seen).Delivers Q K
  := by
  induction l generalizing seen with
  | nil => exact delivers_releaseItems (Script.delivers_done _ Q K) all
  | cons a l ih => exact fun it => ih _

theorem delivers_getScript (keys : List Key) (kept : List Addr) :
  (getScript keys kept).Delivers Q K
  := by
  induction keys generalizing kept with
  | nil =>
      intro sent
      cases sent with
      | true => exact delivers_sendItems kept kept []
      | false =>
          intro listed
          cases listed with
          | true => exact delivers_releaseItems (Script.delivers_done _ Q K) kept
          | false => trivial
  | cons k keys ih =>
      intro r
      cases r with
      | none => exact ih kept
      | some a =>
          intro memory
          cases memory with
          | true => exact ih (kept ++ [a])
          | false =>
              intro again
              cases again with
              | true => exact ih kept
              | false => trivial

theorem delivers_allocFailed (k : Key) (comm : Comm) :
  (allocFailed k comm).Delivers Q K
  := by
  rw [allocFailed]
  split
  · intro r
    cases r <;> trivial
  · trivial

theorem delivers_storeAndRemove {a : Addr} {comm : Comm} (hQ : ∀ it, K a it → Q comm it) :
  (storeAndRemove a comm).Delivers Q K
  := ⟨hQ, fun _ => trivial⟩

theorem value_write {it : Item} {n : Nat} (data : Nat → UInt8) (hn : it.nbytes = n) :
  ({ it with data := memcpy it.data 0 data n } : Item).value = (List.range n).map data
  := by
  simp only [Item.value, hn]
  apply List.map_congr_left
  intro i hi
  rw [List.mem_range] at hi
  rw [memcpy, if_pos (by omega), Nat.sub_zero]

theorem value_write_crlf {it : Item} {n : Nat} (data : Nat → UInt8) (hn : it.nbytes = n + 2) :
  ({ it with data := memcpy (memcpy it.data 0 data n) n crlf 2 } : Item).value
    = (List.range n).map data ++ [13, 10]
  := by
  simp only [Item.value, hn, List.range_succ, List.map_append, List.append_assoc, List.map_cons,
    List.map_nil]
  congr 1
  · apply List.map_congr_left
    intro i hi
    rw [List.mem_range] at hi
    rw [memcpy, if_neg (by omega), memcpy, if_pos (by omega), Nat.sub_zero]
  · simp [memcpy, crlf]

theorem value_write_prefix {it : Item} {text : List UInt8} (h : text.length ≤ it.nbytes) :
  text <+: ({ it with data := memcpy it.data 0 (fun i => text.getD i 0) text.length } : Item).value
  := by
  obtain ⟨m, hm⟩ := Nat.exists_eq_add_of_le h
  simp only [Item.value, hm, List.range_add, List.map_append]
  have htext : (List.range text.length).map (memcpy it.data 0 (fun i => text.getD i 0) text.length) = text := by
    nth_rewrite 4 [← map_getD text]
    apply List.map_congr_left
    intro i hi
    rw [List.mem_range] at hi
    rw [memcpy, if_pos (by omega), Nat.sub_zero]
  rw [htext]
  exact List.prefix_append _ _

/-- The data and the line end that `complete_update_bin` writes. -/
theorem delivers_completeUpdateBin
    {a : Addr} {vlen : Nat} {comm : Comm} {data : Nat → UInt8}
    (hK : ∀ it, K a it → it.nbytes = vlen + 2)
    (hQ : ∀ it it₀, K a it₀ → it.key = it₀.key → it.suffix = it₀.suffix → it.exptime = it₀.exptime →
      it.value = (List.range vlen).map data ++ [13, 10] → Q comm it) :
  (completeUpdateBin a vlen comm data).Delivers Q K
  := by
  intro arrived
  cases arrived with
  | true =>
      apply delivers_storeAndRemove
      simp only [Function.update_self]
      rintro it ⟨it₁, ⟨it₀, hK₀, rfl⟩, rfl⟩
      exact hQ _ it₀ hK₀ rfl rfl rfl (value_write_crlf data (hK it₀ hK₀))
  | false => trivial

theorem setCas_header (it : Item) (v : Nat) :
  (it.setCas v).key = it.key ∧ (it.setCas v).suffix = it.suffix ∧ (it.setCas v).exptime = it.exptime ∧
    (it.setCas v).nbytes = it.nbytes
  := by
  rw [Item.setCas]
  split <;> exact ⟨rfl, rfl, rfl, rfl⟩

/-- A command stores what it says. -/
theorem Command.delivers (started : Int) (command : Command) :
  (command.script started).Delivers (command.Offers started) K
  := by
  cases command with
  | get keys => exact delivers_getScript keys []
  | binGet k =>
      intro r
      cases r with
      | none => trivial
      | some a => exact delivers_sendItems [a] [a] []
  | update k flags exptime vlen cas comm data =>
      intro now
      refine ⟨delivers_allocFailed k comm, ?_⟩
      intro a arrived
      cases arrived with
      | true =>
          intro it
          simp only
          split
          · apply delivers_storeAndRemove
            simp only [Function.update_self]
            rintro it ⟨it₁, ⟨it₀, ⟨hkey, hsuffix, hexptime, hnbytes⟩, rfl⟩, rfl⟩
            obtain ⟨hcasKey, hcasSuffix, hcasExptime, hcasNbytes⟩ := setCas_header it₀ cas
            exact ⟨rfl, hcasKey.trans hkey, hcasSuffix.trans hsuffix, ⟨now, hcasExptime.trans hexptime⟩,
              value_write data (hcasNbytes.trans hnbytes)⟩
          · trivial
      | false => trivial
  | binUpdate k flags exptime vlen cas comm data =>
      intro now
      refine ⟨delivers_allocFailed k comm, ?_⟩
      intro a it
      apply delivers_completeUpdateBin
      · simp only [Function.update_self]
        rintro _ ⟨it₀, ⟨-, -, -, hnbytes⟩, rfl⟩
        exact (setCas_header it₀ cas).2.2.2.trans hnbytes
      · simp only [Function.update_self]
        rintro it' _ ⟨it₀, ⟨hkey, hsuffix, hexptime, -⟩, rfl⟩ hkey' hsuffix' hexptime' hvalue
        obtain ⟨hcasKey, hcasSuffix, hcasExptime, -⟩ := setCas_header it₀ cas
        refine ⟨?_, ?_, ?_, ⟨now, ?_⟩, hvalue⟩
        · split
          · exact .inr rfl
          · exact .inl rfl
        · rw [hkey', hcasKey, hkey]
        · rw [hsuffix', hcasSuffix, hsuffix]
        · rw [hexptime', hcasExptime, hexptime]
  | binAppendPrepend k vlen cas comm data =>
      refine ⟨trivial, ?_⟩
      intro a
      apply delivers_completeUpdateBin
      · simp only [Function.update_self]
        rintro _ ⟨it₀, ⟨-, -, -, hnbytes⟩, rfl⟩
        exact (setCas_header it₀ cas).2.2.2.trans hnbytes
      · simp only [Function.update_self]
        rintro it' _ ⟨it₀, ⟨hkey, -⟩, rfl⟩ hkey' - - hvalue
        exact ⟨rfl, (hkey'.trans (setCas_header it₀ cas).1).trans hkey, hvalue⟩
  | arithmetic k incr delta => exact fun r => trivial
  | incrBin k incr delta initial cas expiration =>
      intro r
      simp only
      split
      · split
        · intro now
          refine ⟨trivial, ?_⟩
          intro a
          apply delivers_storeAndRemove
          simp only [Function.update_self]
          rintro _ ⟨it₀, ⟨hkey, hsuffix, hexptime, hnbytes⟩, rfl⟩
          refine ⟨rfl, hkey, hsuffix, ⟨now, hexptime⟩, value_write_prefix ?_⟩
          have hlength : (Decimal.print initial.toNat).length ≤ 20 :=
            Decimal.length_print_le (by decide) (initial.isLt.trans (by decide))
          rw [hnbytes, List.length_append, List.length_singleton, incrMaxStorageLen]
          omega
        · trivial
      · trivial
  | delete k =>
      intro r
      cases r <;> trivial
  | binDelete k cas =>
      intro r
      cases r with
      | none => trivial
      | some a =>
          intro it
          simp only
          split <;> trivial
  | flushAll exptime => exact fun now => trivial
  | stats => trivial

/-! ### Connections -/

variable {hash : Key → BitVec 32} {s s' : State} {refs : Refs} {A : Finset Addr} {ls : Nat → List Addr}
  {c c' : Client}

/-- What a connection goes on to store satisfies `Q`. -/
def Client.Delivers (Q : Comm → Item → Prop) (s : State) (c : Client) : Prop :=
  ∃ K, c.script.Delivers Q K ∧ ∀ a ∈ c.own, K a (s.mem a).content

/-- A step that leaves the items alone. -/
theorem Client.delivers_of_content
    (hown : ∀ a ∈ c.own, K a (s.mem a).content) (hscript : c'.script.Delivers Q K)
    (hsub : ∀ b ∈ c'.own, b ∈ c.own ∧ (s'.mem b).content = (s.mem b).content) :
  c'.Delivers Q s'
  := by
  refine ⟨K, hscript, ?_⟩
  intro b hb
  obtain ⟨hmem, hcontent⟩ := hsub b hb
  rw [hcontent]
  exact hown b hmem

/-- A step that changes one item of the connection. -/
theorem Client.delivers_modify
    {a : Addr} {f : Item → Item} (hf : ∀ it : Item, (f it).content = f it.content)
    (hown : ∀ b ∈ c.own, K b (s.mem b).content) {script : Script}
    (hscript : script.Delivers Q (Function.update K a fun it => ∃ it₀, K a it₀ ∧ it = f it₀)) :
  ({ c with script := script } : Client).Delivers Q (s.modify a f)
  := by
  refine ⟨_, hscript, ?_⟩
  intro b hb
  by_cases hba : b = a
  · subst hba
    rw [Function.update_self, State.mem_modify_self]
    exact ⟨_, hown b hb, hf _⟩
  · rw [Function.update_of_ne hba, State.mem_modify_of_ne _ _ _ _ hba]
    exact hown b hb

/-- A step of a connection that leaves alone what the connection has of its own, but for what it
writes to. -/
theorem Client.Delivers.step
    (h : c.Delivers Q s) (hready : c.Ready s refs A) (hl : Lifecycle hash s refs A ls) (choice : Bool)
    {behind : Nat} (hcalm : c.script.Calm hash s refs behind)
    (hkeep : ∀ b ∈ c.own, b ∈ (c.step hash s choice behind).2.own → c.script.touches ≠ some b →
      ((c.step hash s choice behind).1.mem b).content = (s.mem b).content) :
  (c.step hash s choice behind).2.Delivers Q (c.step hash s choice behind).1
  := by
  obtain ⟨K, hdelivers, hown⟩ := h
  cases hscript : c.script with
  | done answer =>
      simp only [Client.step, hscript] at hkeep ⊢
      exact ⟨K, hdelivers, hown⟩
  | alloc k flags exptime nbytes next =>
      rw [hscript] at hdelivers hcalm
      obtain ⟨A', ls', hcreated⟩ := hl.doItemAllocDel k flags exptime nbytes
      rw [hcalm] at hcreated
      simp only [Client.step, hscript] at hkeep ⊢
      rcases hret : doItemAllocDel hash s k flags exptime nbytes with ⟨s₁, _ | a⟩
      · simp only [hret, Client.take, Option.elim_none] at hkeep ⊢
        exact delivers_of_content hown hdelivers.1 fun b hb => ⟨hb, hkeep b hb hb (by rintro ⟨⟩)⟩
      · rw [hret] at hcreated
        simp only [hret, Client.take, Option.elim_some] at hkeep ⊢
        refine ⟨_, hdelivers.2 a, ?_⟩
        intro b hb
        by_cases hba : b = a
        · subst hba
          obtain ⟨hkey, hsuffix, hexptime, hnbytes, -⟩ := hcreated.item b rfl
          rw [Function.update_self]
          exact ⟨hkey, hsuffix, hexptime, hnbytes⟩
        · have hmem := (Multiset.mem_cons.mp hb).resolve_left hba
          have hcontent := hkeep b hmem hb (by rintro ⟨⟩)
          rw [Function.update_of_ne hba, hcontent]
          exact hown b hmem
  | get k next =>
      rw [hscript] at hdelivers
      simp only [Client.step, hscript] at hkeep ⊢
      rcases hret : doItemGetDel hash s k with ⟨s₁, _ | a⟩
      · simp only [hret, Client.take] at hkeep ⊢
        exact delivers_of_content hown (hdelivers none) fun b hb => ⟨hb, hkeep b hb hb (by rintro ⟨⟩)⟩
      · simp only [hret, Client.take] at hkeep ⊢
        exact delivers_of_content hown (hdelivers (some a)) fun b hb => ⟨hb, hkeep b hb hb (by rintro ⟨⟩)⟩
  | remove a next =>
      rw [hscript] at hdelivers
      simp only [Client.step, hscript] at hkeep ⊢
      apply delivers_of_content hown hdelivers
      intro b hb
      have hmem := Multiset.mem_of_mem_erase hb
      exact ⟨hmem, hkeep b hmem hb (by rintro ⟨⟩)⟩
  | store a comm next =>
      rw [hscript] at hdelivers
      simp only [Client.step, hscript] at hkeep ⊢
      apply delivers_of_content hown (hdelivers.2 _)
      intro b hb
      have hmem := Multiset.mem_of_mem_erase hb
      refine ⟨hmem, hkeep b hmem hb ?_⟩
      rintro ⟨⟩
      exact hready.not_mem_erase _ hb
  | write a off data n next =>
      rw [hscript] at hdelivers
      simp only [Client.step, hscript]
      have hcontent : ∀ it : Item, ({ it with data := memcpy it.data off data n } : Item).content
          = { it.content with data := memcpy it.content.data off data n } := fun _ => rfl
      exact delivers_modify hcontent hown hdelivers
  | setCas a v next =>
      rw [hscript] at hdelivers
      simp only [Client.step, hscript]
      have hcontent : ∀ it : Item, (it.setCas v).content = it.content.setCas v := by
        intro it
        by_cases hcas : it.hasCas = true <;> simp [Item.setCas, Item.content, hcas]
      exact delivers_modify hcontent hown hdelivers
  | read a next =>
      rw [hscript] at hdelivers
      simp only [Client.step, hscript]
      exact ⟨K, hdelivers _, hown⟩
  | addDelta k incr delta cas next =>
      rw [hscript] at hdelivers
      simp only [Client.step, hscript] at hkeep ⊢
      exact delivers_of_content hown (hdelivers _) fun b hb => ⟨hb, hkeep b hb hb (by rintro ⟨⟩)⟩
  | unlink a next | update a next | flushExpired next | stats next =>
      rw [hscript] at hdelivers
      simp only [Client.step, hscript] at hkeep ⊢
      exact delivers_of_content hown hdelivers fun b hb => ⟨hb, hkeep b hb hb (by rintro ⟨⟩)⟩
  | clock next =>
      rw [hscript] at hdelivers
      simp only [Client.step, hscript]
      exact ⟨K, hdelivers _, hown⟩
  | setOldestLive v next =>
      rw [hscript] at hdelivers
      simp only [Client.step, hscript]
      exact ⟨K, hdelivers, hown⟩
  | choose next =>
      rw [hscript] at hdelivers
      simp only [Client.step, hscript]
      exact ⟨K, hdelivers choice, hown⟩

/-! ### Runs -/

variable {ι : Type} [Fintype ι] [DecidableEq ι] {started : Int} {v : Server ι} {e : Event ι}
  {es : List (Event ι)} {d : ι} {command : Command}

omit [Fintype ι] in
/-- The connection begins a command. -/
theorem Server.delivers_start
    (hdone : ∃ answer, (v.clients d).script = .done answer) :
  ((v.exec hash started (.start d command)).clients d).Delivers (command.Offers started)
    (v.exec hash started (.start d command)).state
  := by
  obtain ⟨answer, hdone⟩ := hdone
  refine ⟨fun _ _ => True, ?_, fun _ _ => trivial⟩
  simp only [Server.exec, Function.update_self, Client.start, hdone]
  exact command.delivers started

/-- An event that is not the beginning of another command. -/
theorem Server.Inv.delivers_step
    (h : v.Inv hash A ls) (started : Int) (hcalm : v.Calm hash e) (hstart : ∀ command, e ≠ .start d command)
    (hdelivers : (v.clients d).Delivers Q v.state) :
  ((v.exec hash started e).clients d).Delivers Q (v.exec hash started e).state
  := by
  obtain ⟨A', ls', h', hmoves⟩ := h.step started e hcalm
  cases e with
  | start c command =>
      have hd : d ≠ c := by
        rintro rfl
        exact hstart command rfl
      simp only [Server.exec, Function.update_of_ne hd]
      exact hdelivers
  | tick seconds => exact hdelivers
  | step c choice behind =>
      have hkept : ∀ b ∈ (v.clients d).own, b ∈ ((v.exec hash started (.step c choice behind)).clients d).own →
          (v.clients c).script.touches ≠ some b →
          ((v.exec hash started (.step c choice behind)).state.mem b).content = (v.state.mem b).content := by
        intro b hb hb' htouch
        apply hmoves.held
        exact ⟨refs_ne_zero (Multiset.mem_of_le (h.own_le d) hb),
          refs_ne_zero (Multiset.mem_of_le (h'.own_le d) hb'), htouch⟩
      by_cases hd : d = c
      · subst hd
        simp only [Server.exec, Function.update_self] at hkept ⊢
        exact hdelivers.step (h.ready d) h.lifecycle choice hcalm hkept
      · simp only [Server.exec, Function.update_of_ne hd] at hkept ⊢
        obtain ⟨K, hscript, hown⟩ := hdelivers
        apply Client.delivers_of_content hown hscript
        intro b hb
        refine ⟨hb, hkept b hb hb ?_⟩
        intro htouch
        have htouched := Multiset.mem_of_le (h.own_le c) ((h.safe c).touches htouch)
        exact not_held_of_refs (h.own d b hb).2.1 (Multiset.mem_of_le (h.own_le d) hb) hd htouched

theorem Server.Inv.delivers_run
    (h : v.Inv hash A ls) (hes : v.CalmRun hash started es) (hstart : ∀ e ∈ es, ∀ command, e ≠ .start d command)
    (hdelivers : (v.clients d).Delivers Q v.state) :
  ((v.run hash started es).clients d).Delivers Q (v.run hash started es).state
  := by
  induction es generalizing v A ls with
  | nil => exact hdelivers
  | cons e es ih =>
      obtain ⟨A', ls', h', -⟩ := h.step started e hes.1
      apply ih h' hes.2 fun e he => hstart e (.tail _ he)
      exact h.delivers_step started hes.1 (hstart e List.mem_cons_self) hdelivers

/-- What a connection hands to `store_item` is what its command says. -/
theorem Server.Inv.offers
    {a : Addr} {comm : Comm} {next : StoreItemType → Script} (h : v.Inv hash A ls)
    (hdone : ∃ answer, (v.clients d).script = .done answer)
    (hes : v.CalmRun hash started (.start d command :: es))
    (hstart : ∀ e ∈ es, ∀ command, e ≠ .start d command)
    (hscript : ((v.run hash started (.start d command :: es)).clients d).script = .store a comm next) :
  command.Offers started comm ((v.run hash started (.start d command :: es)).state.mem a).content
  := by
  obtain ⟨A₁, ls₁, h₁, -⟩ := h.step started _ hes.1
  obtain ⟨A₂, ls₂, h₂⟩ := h₁.run hes.2
  obtain ⟨K, hdelivers, hown⟩ := h₁.delivers_run hes.2 hstart (Server.delivers_start hdone)
  have hsafe := h₂.safe d
  change (((v.exec hash started (.start d command)).run hash started es).clients d).script = _ at hscript
  rw [hscript] at hdelivers hsafe
  exact hdelivers.1 _ (hown a hsafe.1)

end Memcached
