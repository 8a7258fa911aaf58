import Ffwd.Delegation.Links

/-!
# Every delegated call is executed exactly once

For every interleaving of the steps of clients and servers, what an observer sees of a
client is a sequence of calls, each entered, flagged, executed once by the server it
addresses with the function and the arguments it wrote, and answered with the value of
that execution. The last one may be under way; a server that keeps moving brings it to
its answer within a bounded number of its steps.
-/

namespace Delegation

open Handshake (Link Stage Side)

variable {ι : Type}

/-! ### What an observer sees of a client -/

/-- One call as an observer sees it: the use of `FFWD_EXEC`, the five argument words the
server loads, which begin with the arguments of the call, and the value. -/
structure Served where
  exec : Exec
  argv : List Word
  value : Word
  carried : argv.take exec.args.length = exec.args

/-- The events of a call, in order. -/
def Served.events (L : Layout ι) (i : ι) (c : Served) : List (Event ι) :=
  [.call i c.exec, .flag i,
    .execute c.exec.server (L.chip i) (L.id i) c.exec.fptr c.argv c.value,
    .ret i c.value]

/-- The phase of a call after its first events. -/
def Served.phase (c : Served) : Nat → Handshake.Phase Word
  | 0 => .quiet
  | 1 => .called
  | 2 => .flagged
  | _ => .executed c.value

/-- The execution at a slot that is the slot of one of the clients. -/
def Event.Owned (L : Layout ι) : Event ι → Prop
  | .execute _ chip id _ _ _ => ∃ i, L.chip i = chip ∧ L.id i = id
  | _ => True

variable [DecidableEq ι]

/-- The event is one of client `i`, or an execution of its slot at some server. -/
def Event.concerns (L : Layout ι) (i : ι) : Event ι → Bool
  | .call j _ | .flag j | .ret j _ => decide (j = i)
  | .execute _ chip id _ _ _ => decide (chip = L.chip i ∧ id = L.id i)

/-- The events that concern client `i` are those of whole calls, one after another, and
then the first ones of one more call. -/
def ExactlyOnce (L : Layout ι) (i : ι) (log : List (Event ι)) : Prop :=
  ∃ (cs : List Served) (c : Served) (m : Nat), m < 4 ∧
    log.filter (Event.concerns L i) = cs.flatMap (Served.events L i) ++ (c.events L i).take m

/-! ### The client's side of its mailboxes -/

/-- The call a client is in. -/
def ClientPc.exec : ClientPc → Option Exec
  | .idle => none
  | .writeFptr e | .writeArgc e | .writeArgv e _ | .toggle e | .writeFlag e | .poll e
  | .read e => some e

/-- Where a client is, seen from its mailbox at a server. -/
def ClientPc.side (sv : Nat) : ClientPc → Side
  | .idle => .idle
  | .writeFptr e | .writeArgc e | .writeArgv e _ | .toggle e =>
      if e.server = sv then .called else .idle
  | .writeFlag e => if e.server = sv then .flipped else .idle
  | .poll e => if e.server = sv then .waiting else .idle
  | .read e => if e.server = sv then .reading else .idle

/-- What a client has written to its slot of the call it is in. -/
def ClientPc.Wrote (r : Request) : ClientPc → Prop
  | .idle | .writeFptr _ => True
  | .writeArgc e => r.fptr = e.fptr
  | .writeArgv e j => r.fptr = e.fptr ∧ ∀ m < j, ∀ a, e.args[m]? = some a → r.argv m = a
  | .toggle e | .writeFlag e | .poll e | .read e =>
      r.fptr = e.fptr ∧ ∀ m a, e.args[m]? = some a → r.argv m = a

/-- The mailbox of client `i` at a server. -/
def linkOf (L : Layout ι) (s : State ι) (i : ι) (sv : Nat) : Link Word :=
  linkAt L.nclients s sv (L.chip i) (L.id i) ((s.clients i).pc.side sv)
    (((s.clients i).localClientFlag sv).getLsbD (L.id i))

/-- The invariant of a client: the calls it has made, the one it is in, how many events
of that one have happened. -/
structure ClientInv (L : Layout ι) (s : State ι) (i : ι) (cs : List Served) (c : Served)
    (m : Nat) : Prop where
  lt : m < 4
  log : s.log.filter (Event.concerns L i)
    = cs.flatMap (Served.events L i) ++ (c.events L i).take m
  exec : (s.clients i).pc.exec = if m = 0 then none else some c.exec
  short : ∀ e, (s.clients i).pc.exec = some e → e.args.length ≤ 5
  wrote : ∀ e, (s.clients i).pc.exec = some e →
    (s.clients i).pc.Wrote (slotOf L s i e.server)
  links : ∀ sv, (linkOf L s i sv).Good (L.id i % L.nclients)
    (if sv = c.exec.server then c.phase m else .quiet)

/-- The invariant of the system. -/
structure Inv (L : Layout ι) (s : State ι) : Prop where
  inRange : ∀ sv, (s.servers sv).pc.InRange L.nclients
  clients : ∀ i, ∃ cs c m, ClientInv L s i cs c m
  unowned : ∀ chip id, id < 2 * L.nclients → (∀ i, ¬ (L.chip i = chip ∧ L.id i = id)) →
    ∀ sv, (linkAt L.nclients s sv chip id .idle false).Good (id % L.nclients) .quiet
  owned : ∀ ev ∈ s.log, ev.Owned L

theorem inv_init (L : Layout ι) : Inv L (State.init ι) where
  inRange _ := L.pos
  clients i := by
    use [], ⟨⟨0, 0, []⟩, [], 0, rfl⟩, 0
    constructor
    · decide
    · rfl
    · rfl
    · nofun
    · nofun
    · intro sv
      have hmod : L.id i % L.nclients < L.nclients := Nat.mod_lt _ L.pos
      simp [linkOf, linkAt, State.init, ClientPc.side, Served.phase]
      exact Link.good_fresh _ _
  unowned chip id _ _ sv := by
    simp [linkAt, State.init]
    exact Link.good_fresh _ _
  owned := nofun

/-! ### Steps of a server -/

/-- The words a server loads from a slot begin with the arguments the client wrote. -/
theorem take_argv
    {r : Request} {e : Exec} (hshort : e.args.length ≤ 5)
    (hargs : ∀ m a, e.args[m]? = some a → r.argv m = a) :
  ((List.range 5).map r.argv).take e.args.length = e.args
  := by
  apply List.ext_getElem
  · simpa using hshort
  · intro m h₁ h₂
    simp only [List.getElem_take, List.getElem_map, List.getElem_range]
    exact hargs m _ (List.getElem?_eq_getElem h₂)

/-- A client whose mailbox waits has written its whole call. -/
theorem ClientPc.wrote_of_waiting
    {pc : ClientPc} {sv : Nat} (h : pc.side sv = .waiting) :
  ∃ e, pc = .poll e ∧ e.server = sv
  := by
  cases pc <;> simp only [ClientPc.side] at h <;> grind

/-- What a step of a server records, if it concerns client `i`, is an execution of its
slot. -/
theorem concerns_serverEvents
    {L : Layout ι} {i : ι} {s : State ι} {sv : Nat} {value : Word} {ev : Event ι}
    (h : serverEvents L.nclients s sv value = some ev) :
  if ev.concerns L i then
    ev = .execute sv (L.chip i) (L.id i) (slotOf L s i sv).fptr
        ((List.range 5).map (slotOf L s i sv).argv) value ∧
      executionAt sv (L.chip i) (L.id i) ev = some (.execute value)
  else ∀ sv', executionAt sv' (L.chip i) (L.id i) ev = none
  := by
  simp only [serverEvents] at h
  split at h
  · next hf k hp =>
    obtain rfl := Option.some.inj h
    split
    · next hc =>
      simp only [Event.concerns, decide_eq_true_eq] at hc
      simp [hc.1, hc.2, executionAt, slotOf]
    · next hc =>
      simp only [Event.concerns, decide_eq_true_eq] at hc
      intro sv'
      simp only [executionAt, ite_eq_right_iff, reduceCtorEq, imp_false, not_and]
      exact fun _ h₁ h₂ => hc ⟨h₁, h₂⟩
  · cases h

section ServerStep

variable {L : Layout ι} {s : State ι} {i : ι} {cs : List Served} {c : Served} {m : Nat}
  {sv : Nat} {value : Word}

omit [DecidableEq ι] in
theorem linkOf_serverStep (sv' : Nat) :
  linkOf L (serverStep L.nclients s sv value) i sv'
    = linkAt L.nclients (serverStep L.nclients s sv value) sv' (L.chip i) (L.id i)
      ((s.clients i).pc.side sv') (((s.clients i).localClientFlag sv').getLsbD (L.id i))
  := by
  rw [linkOf, (serverStep_frame L.nclients s sv value).1]

/-- A step of a server that does not execute the client's slot. -/
theorem ClientInv.serverStep_silent
    (hpc : ∀ sv, (s.servers sv).pc.InRange L.nclients) (h : ClientInv L s i cs c m)
    (hnone : ∀ sv', (serverEvents L.nclients s sv value).bind
      (executionAt sv' (L.chip i) (L.id i)) = none)
    (hlog : (serverStep L.nclients s sv value).log.filter (Event.concerns L i)
      = s.log.filter (Event.concerns L i)) :
  ClientInv L (serverStep L.nclients s sv value) i cs c m
  := by
  obtain ⟨hclients, hrequest⟩ := serverStep_frame L.nclients s sv value
  constructor
  · exact h.lt
  · exact hlog.trans h.log
  · rw [hclients]
    exact h.exec
  · rw [hclients]
    exact h.short
  · simp only [slotOf, hclients, hrequest]
    exact h.wrote
  · intro sv'
    obtain ⟨p', hp', hgood⟩ := serverStep_good sv value hpc (L.id_lt i) sv' (h.links sv')
    rw [hnone] at hp'
    rw [linkOf_serverStep, Option.some.inj hp']
    exact hgood

/-- A server that executes the client's slot executes the call the client is in. -/
theorem ClientInv.serverStep_execute
    (hpc : ∀ sv, (s.servers sv).pc.InRange L.nclients) (h : ClientInv L s i cs c m)
    {ev : Event ι} (hev : serverEvents L.nclients s sv value = some ev)
    (hc : ev.concerns L i = true) :
  ∃ c', ClientInv L (serverStep L.nclients s sv value) i cs c' 3
  := by
  obtain ⟨hclients, hrequest⟩ := serverStep_frame L.nclients s sv value
  have hconc := concerns_serverEvents (i := i) hev
  rw [if_pos hc] at hconc
  obtain ⟨rfl, hex⟩ := hconc
  have hgood := fun sv' => serverStep_good sv value hpc (L.id_lt i) sv' (h.links sv')
  have hafter := hgood sv
  rw [hev, Option.bind_some, hex] at hafter
  obtain ⟨p', hp', -⟩ := hafter
  obtain ⟨hsv, rfl⟩ : sv = c.exec.server ∧ m = 2 := by
    by_cases hsv : sv = c.exec.server
    · have hm := h.lt
      rw [if_pos hsv] at hp'
      interval_cases m <;> simp [Served.phase, Handshake.Phase.after, Handshake.Phase.next] at hp' ⊢
      exact hsv
    · simp [if_neg hsv, Handshake.Phase.after, Handshake.Phase.next] at hp'
  have hexec : (s.clients i).pc.exec = some c.exec := by simpa using h.exec
  have hwaiting : (s.clients i).pc.side sv = .waiting := by
    have := (h.links sv).2
    rw [if_pos hsv] at this
    exact this.1
  obtain ⟨e, hpoll, -⟩ := ClientPc.wrote_of_waiting hwaiting
  have hwrote := h.wrote c.exec hexec
  obtain rfl : e = c.exec := by simpa [hpoll, ClientPc.exec] using hexec
  rw [hpoll] at hwrote
  obtain ⟨hfptr, hargs⟩ := hwrote
  use ⟨c.exec, (List.range 5).map (slotOf L s i sv).argv, value,
    take_argv (h.short _ hexec) (by rw [hsv]; exact hargs)⟩
  constructor
  · decide
  · rw [serverStep_log, hev, Option.toList_some, List.filter_append, h.log, List.append_assoc,
      List.filter_cons_of_pos hc, List.filter_nil]
    simp only [Served.events, hsv, hfptr]
    rfl
  · rw [hclients]
    exact hexec
  · rw [hclients]
    exact h.short
  · simp only [slotOf, hclients, hrequest]
    exact h.wrote
  · intro sv'
    obtain ⟨p', hp', hlink⟩ := hgood sv'
    rw [linkOf_serverStep]
    suffices hphase : p' = if sv' = c.exec.server then .executed value else .quiet by
      rw [hphase] at hlink
      exact hlink
    rw [hev, Option.bind_some] at hp'
    by_cases hsv' : sv' = c.exec.server
    · rw [if_pos hsv', hsv', ← hsv, hex] at hp'
      rw [if_pos hsv']
      exact (Option.some.inj hp').symm
    · have hex' : executionAt sv' (L.chip i) (L.id i)
          (Event.execute sv (L.chip i) (L.id i) (slotOf L s i sv).fptr
            ((List.range 5).map (slotOf L s i sv).argv) value : Event ι) = none := by
        simp [executionAt, hsv, Ne.symm hsv']
      rw [if_neg hsv', hex'] at hp'
      rw [if_neg hsv']
      exact (Option.some.inj hp').symm

theorem ClientInv.serverStep
    (hpc : ∀ sv, (s.servers sv).pc.InRange L.nclients) (h : ClientInv L s i cs c m) :
  ∃ cs c m, ClientInv L (serverStep L.nclients s sv value) i cs c m
  := by
  have hlog := serverStep_log L.nclients s sv value
  cases hev : serverEvents L.nclients s sv value with
  | none =>
      rw [hev] at hlog
      use cs, c, m
      apply h.serverStep_silent hpc
      · simp [hev]
      · rw [hlog, Option.toList_none, List.append_nil]
  | some ev =>
      by_cases hc : ev.concerns L i = true
      · obtain ⟨c', h'⟩ := h.serverStep_execute hpc hev hc
        use cs, c', 3
      · have hconc := concerns_serverEvents (i := i) hev
        rw [if_neg hc] at hconc
        rw [hev] at hlog
        use cs, c, m
        apply h.serverStep_silent hpc
        · simpa [hev] using hconc
        · rw [hlog, Option.toList_some, List.filter_append, List.filter_cons_of_neg hc,
            List.filter_nil, List.append_nil]

/-- A slot that belongs to no client stays quiet and is not executed. -/
theorem Inv.unowned_silent
    (h : Inv L s) (sv : Nat) (value : Word) {chip : Fin 4} {id : Nat}
    (hid : id < 2 * L.nclients) (hun : ∀ i, ¬ (L.chip i = chip ∧ L.id i = id)) (sv' : Nat) :
  (serverEvents L.nclients s sv value).bind (executionAt sv' chip id) = none ∧
    (linkAt L.nclients (Delegation.serverStep L.nclients s sv value) sv' chip id .idle false).Good
      (id % L.nclients) .quiet
  := by
  obtain ⟨p', hp', hgood⟩ :=
    serverStep_good sv value h.inRange hid sv' (h.unowned chip id hid hun sv')
  cases hb : (serverEvents L.nclients s sv value).bind (executionAt sv' chip id) with
  | none =>
      rw [hb] at hp'
      obtain rfl := Option.some.inj hp'
      exact ⟨rfl, hgood⟩
  | some e =>
      obtain ⟨ev, -, hex⟩ := Option.bind_eq_some_iff.mp hb
      obtain ⟨v, rfl⟩ : ∃ v, e = .execute v := by
        simp only [executionAt] at hex
        grind
      simp [hb, Handshake.Phase.after, Handshake.Phase.next] at hp'

theorem Inv.serverStep (h : Inv L s) :
  Inv L (serverStep L.nclients s sv value) where
  inRange := serverStep_inRange L.pos sv value h.inRange
  clients i := by
    obtain ⟨cs, c, m, hc⟩ := h.clients i
    exact hc.serverStep h.inRange
  unowned chip id hid hun sv' := (h.unowned_silent sv value hid hun sv').2
  owned ev hev := by
    rw [serverStep_log, List.mem_append, Option.mem_toList] at hev
    obtain hold | hnew := hev
    · exact h.owned ev hold
    · simp only [serverEvents] at hnew
      split at hnew
      · next hf k hp =>
        obtain rfl := Option.some.inj hnew
        have hk := h.inRange sv
        rw [hp] at hk
        by_contra hun
        have hnone := (h.unowned_silent sv value (slot_lt hk hf) (not_exists.mp hun) sv).1
        simp [serverEvents, hp, executionAt] at hnone
      · cases hnew

end ServerStep

/-! ### Steps of a client -/

/-- The event is one a client records. -/
def Event.By (i : ι) : Event ι → Prop
  | .call j _ | .flag j | .ret j _ => j = i
  | .execute _ _ _ _ _ _ => False

/-- What a client can change: its own variables, its own slots, and the record of what it
does. -/
structure ClientMove (L : Layout ι) (i : ι) (s s' : State ι) : Prop where
  servers : s'.servers = s.servers
  response : s'.response = s.response
  clients : ∀ j, j ≠ i → s'.clients j = s.clients j
  request : ∀ sv chip id, ¬ (L.chip i = chip ∧ L.id i = id) →
    s'.request sv chip id = s.request sv chip id
  log : ∃ evs, s'.log = s.log ++ evs ∧ ∀ ev ∈ evs, ev.By i

section ClientStep

variable {L : Layout ι} {s s' : State ι} {i : ι}

theorem start_move {e : Exec} (h : start s i e = some s') :
  ClientMove L i s s' ∧ (s.clients i).pc = .idle ∧ e.args.length ≤ 5 ∧
    s' = (s.goto i (.writeFptr e)).record (.call i e)
  := by
  simp only [start] at h
  split at h
  · next hp =>
    split at h
    · next hshort =>
      obtain rfl := Option.some.inj h
      refine ⟨⟨rfl, rfl, ?_, fun _ _ _ _ => rfl, ?_⟩, hp, hshort, rfl⟩
      · intro j hj
        simp [State.goto, State.setClient, State.record, hj]
      · exact ⟨[.call i e], rfl, by simp [Event.By]⟩
    · cases h
  · cases h

theorem clientStep_move (h : clientStep L s i = some s') :
  ClientMove L i s s'
  := by
  have hupdate : ∀ (f : Nat → Fin 4 → Nat → Request) (sv' : Nat) (r : Request) sv chip id,
      ¬ (L.chip i = chip ∧ L.id i = id) →
      Function.update f sv' (Function.update (f sv') (L.chip i)
        (Function.update (f sv' (L.chip i)) (L.id i) r)) sv chip id = f sv chip id := by
    intro f sv' r sv chip id hne
    by_cases hsv : sv = sv'
    · subst hsv
      by_cases hchip : chip = L.chip i
      · subst hchip
        simp [show id ≠ L.id i from fun h => hne ⟨rfl, h.symm⟩]
      · simp [hchip]
    · simp [hsv]
  simp only [clientStep] at h
  cases hp : (s.clients i).pc <;> simp only [hp] at h
  case idle => cases h
  case writeArgv e j =>
    split at h <;>
    · obtain rfl := Option.some.inj h
      constructor <;>
        simp +contextual [State.goto, State.setClient, State.setRequest, hupdate]
  case poll e =>
    split at h
    · obtain rfl := Option.some.inj h
      constructor <;> simp +contextual [State.goto, State.setClient]
    · obtain rfl := Option.some.inj h
      exact ⟨rfl, rfl, fun _ _ => rfl, fun _ _ _ _ => rfl, [], by simp⟩
  case writeFlag e =>
    obtain rfl := Option.some.inj h
    refine ⟨rfl, rfl, ?_, ?_, [.flag i], rfl, by simp [Event.By]⟩ <;>
      simp +contextual [State.goto, State.setClient, State.setRequest, State.record, hupdate]
  case read e =>
    obtain rfl := Option.some.inj h
    refine ⟨rfl, rfl, ?_, fun _ _ _ _ => rfl, [.ret i _], rfl, by simp [Event.By]⟩
    simp +contextual [State.goto, State.setClient, State.record]
  all_goals
    obtain rfl := Option.some.inj h
    constructor <;>
      simp +contextual [State.goto, State.setClient, State.setRequest, hupdate]

/-- A client's step keeps the invariant of every other client. -/
theorem ClientInv.other
    {j : ι} {cs : List Served} {c : Served} {m : Nat} (hmove : ClientMove L i s s')
    (hj : j ≠ i) (h : ClientInv L s j cs c m) :
  ClientInv L s' j cs c m
  := by
  have hclient := hmove.clients j hj
  have hslot : ∀ sv, slotOf L s' j sv = slotOf L s j sv := by
    intro sv
    apply hmove.request
    rintro ⟨hchip, hid⟩
    exact hj (L.inj i j hchip hid).symm
  obtain ⟨evs, hlog, hby⟩ := hmove.log
  constructor
  · exact h.lt
  · rw [hlog, List.filter_append, h.log, List.append_right_eq_self, List.filter_eq_nil_iff]
    intro ev hev
    have := hby ev hev
    cases ev <;> simp_all [Event.By, Event.concerns, Ne.symm hj]
  · rw [hclient]
    exact h.exec
  · rw [hclient]
    exact h.short
  · simp only [hclient, hslot]
    exact h.wrote
  · intro sv
    have hlink : linkOf L s' j sv = linkOf L s j sv := by
      have := hslot sv
      simp only [slotOf] at this
      simp only [linkOf, linkAt, hclient, hmove.servers, hmove.response, this]
    rw [hlink]
    exact h.links sv

theorem Inv.clientMove
    (h : Inv L s) (hmove : ClientMove L i s s') (hi : ∃ cs c m, ClientInv L s' i cs c m) :
  Inv L s' where
  inRange := by
    rw [hmove.servers]
    exact h.inRange
  clients j := by
    by_cases hj : j = i
    · rw [hj]
      exact hi
    · obtain ⟨cs, c, m, hc⟩ := h.clients j
      exact ⟨cs, c, m, hc.other hmove hj⟩
  unowned chip id hid hun sv := by
    have := h.unowned chip id hid hun sv
    simpa only [linkAt, hmove.servers, hmove.response, hmove.request sv chip id (hun i)] using this
  owned ev hev := by
    obtain ⟨evs, hlog, hby⟩ := hmove.log
    rw [hlog, List.mem_append] at hev
    obtain hold | hnew := hev
    · exact h.owned ev hold
    · have := hby ev hnew
      cases ev <;> simp_all [Event.By, Event.Owned]

/-- A silent step of a client inside a call. -/
theorem ClientInv.own_silent
    {cs : List Served} {c : Served} {m : Nat} (h : ClientInv L s i cs c m)
    (hlog : s'.log = s.log) (hexec : (s'.clients i).pc.exec = (s.clients i).pc.exec)
    (hwrote : ∀ e, (s.clients i).pc.exec = some e →
      (s'.clients i).pc.Wrote (slotOf L s' i e.server))
    (hstep : ∀ sv, (linkOf L s i sv).Step (L.id i % L.nclients) L.nclients none (linkOf L s' i sv)) :
  ClientInv L s' i cs c m
  := by
  constructor
  · exact h.lt
  · rw [hlog]
    exact h.log
  · rw [hexec]
    exact h.exec
  · rw [hexec]
    exact h.short
  · rw [hexec]
    exact hwrote
  · intro sv
    obtain ⟨p', hp', hgood⟩ := (h.links sv).step (Nat.mod_lt _ L.pos) (hstep sv)
    rw [Option.some.inj hp']
    exact hgood

/-- A client outside `FFWD_EXEC` has no call under way. -/
theorem ClientInv.eq_zero
    {cs : List Served} {c : Served} {m : Nat} (h : ClientInv L s i cs c m)
    (hidle : (s.clients i).pc = .idle) :
  m = 0
  := by
  by_contra hm
  have := h.exec
  simp [hidle, ClientPc.exec, hm] at this

theorem ClientInv.start
    {cs : List Served} {c : Served} {m : Nat} {e : Exec} (h : ClientInv L s i cs c m)
    (hidle : (s.clients i).pc = .idle) (hshort : e.args.length ≤ 5) :
  ClientInv L ((s.goto i (.writeFptr e)).record (.call i e)) i cs
    ⟨e, e.args, 0, List.take_length⟩ 1
  := by
  obtain rfl := h.eq_zero hidle
  constructor
  · decide
  · simp only [State.record, State.goto, State.setClient, List.filter_append, h.log]
    simp [Served.events, Event.concerns]
  · simp [State.record, State.goto, State.setClient, ClientPc.exec]
  · simpa [State.record, State.goto, State.setClient, ClientPc.exec] using hshort
  · simp [State.record, State.goto, State.setClient, ClientPc.Wrote]
  · intro sv
    have hquiet : (linkOf L s i sv).Good (L.id i % L.nclients) .quiet := by
      have := h.links sv
      simpa only [Served.phase, ite_self] using this
    by_cases hsv : sv = e.server
    · have hstep : (linkOf L s i sv).Step (L.id i % L.nclients) L.nclients (some .call)
          (linkOf L ((s.goto i (.writeFptr e)).record (.call i e)) i sv) := by
        convert Link.Step.call _ _ using 1
        · simp [linkOf, linkAt, State.record, State.goto, State.setClient, ClientPc.side, hsv]
        · simp [linkOf, linkAt, hidle, ClientPc.side]
      obtain ⟨p', hp', hgood⟩ := hquiet.step (Nat.mod_lt _ L.pos) hstep
      rw [if_pos hsv]
      obtain rfl := Option.some.inj hp'
      exact hgood
    · have hsame : linkOf L ((s.goto i (.writeFptr e)).record (.call i e)) i sv = linkOf L s i sv := by
        simp [linkOf, linkAt, State.record, State.goto, State.setClient, ClientPc.side, hidle,
          Ne.symm hsv]
      rw [if_neg hsv, hsame]
      exact hquiet

theorem slotOf_setRequest (sv sv' : Nat) (r : Request) (pc : ClientPc) :
  slotOf L ((s.setRequest sv' (L.chip i) (L.id i) r).goto i pc) i sv
    = if sv = sv' then r else slotOf L s i sv
  := by
  by_cases hsv : sv = sv'
  · simp [slotOf, State.goto, State.setClient, State.setRequest, hsv]
  · simp [slotOf, State.goto, State.setClient, State.setRequest, hsv]

/-- A write of the function or of an argument, to the slot at the server of the call,
changes no mailbox of the client. -/
theorem linkOf_setRequest
    {e : Exec} {r : Request} {pc : ClientPc} (hflag : r.flag = (slotOf L s i e.server).flag)
    (hside : ∀ sv, pc.side sv = (s.clients i).pc.side sv) (sv : Nat) :
  linkOf L ((s.setRequest e.server (L.chip i) (L.id i) r).goto i pc) i sv = linkOf L s i sv
  := by
  have hslot := slotOf_setRequest (L := L) (s := s) (i := i) sv e.server r pc
  have hflag' : (slotOf L ((s.setRequest e.server (L.chip i) (L.id i) r).goto i pc) i sv).flag
      = (slotOf L s i sv).flag := by
    rw [hslot]
    split
    · next hsv => rw [hflag, hsv]
    · rfl
  simp only [slotOf] at hflag'
  simp only [linkOf, linkAt, hflag']
  simp [State.goto, State.setClient, State.setRequest, hside]

theorem ClientInv.write
    {cs : List Served} {c : Served} {m : Nat} {e : Exec} {r : Request} {pc : ClientPc}
    (h : ClientInv L s i cs c m) (hexec : (s.clients i).pc.exec = some e)
    (hpc : pc.exec = some e) (hflag : r.flag = (slotOf L s i e.server).flag)
    (hside : ∀ sv, pc.side sv = (s.clients i).pc.side sv) (hwrote : pc.Wrote r) :
  ClientInv L ((s.setRequest e.server (L.chip i) (L.id i) r).goto i pc) i cs c m
  := by
  apply h.own_silent
  · rfl
  · simp [State.goto, State.setClient, hpc, hexec]
  · intro e' he'
    obtain rfl : e = e' := Option.some.inj (hexec.symm.trans he')
    rw [slotOf_setRequest, if_pos rfl]
    simpa [State.goto, State.setClient] using hwrote
  · intro sv
    rw [linkOf_setRequest hflag hside]
    exact .stay _

theorem ClientInv.toggle
    {cs : List Served} {c : Served} {m : Nat} {e : Exec} (h : ClientInv L s i cs c m)
    (hp : (s.clients i).pc = .toggle e) :
  ClientInv L (s.setClient i ⟨.writeFlag e, Function.update (s.clients i).localClientFlag e.server
    ((s.clients i).localClientFlag e.server ^^^ mask (L.id i))⟩) i cs c m
  := by
  have hlt : L.id i < 64 := (L.id_lt i).trans_le L.fits
  have hbit := getLsbD_xor_mask hlt
  apply h.own_silent
  · rfl
  · simp [State.setClient, hp, ClientPc.exec]
  · intro e' he'
    have := h.wrote e' he'
    simpa [State.setClient, hp, ClientPc.Wrote, slotOf] using this
  · intro sv
    by_cases hsv : sv = e.server
    · convert Link.Step.flip _ _ using 1
      · simp only [linkOf, linkAt, State.setClient, Function.update_self, hsv, ClientPc.side, hbit]
        simp
      · simp [linkOf, linkAt, hp, ClientPc.side, hsv]
    · convert Link.Step.stay _ using 1
      simp [linkOf, linkAt, State.setClient, ClientPc.side, hp, hsv, Ne.symm hsv]

theorem ClientInv.poll
    {cs : List Served} {c : Served} {m : Nat} {e : Exec} (h : ClientInv L s i cs c m)
    (hp : (s.clients i).pc = .poll e)
    (hbit : ((s.response e.server (lineOf L i)).flags
      ^^^ (s.clients i).localClientFlag e.server) &&& mask (L.id i) = 0) :
  ClientInv L (s.goto i (.read e)) i cs c m
  := by
  have hlt : L.id i < 64 := (L.id_lt i).trans_le L.fits
  rw [xor_and_mask_eq_zero_iff hlt, lineOf, ← halfOf_line (L.id_lt i)] at hbit
  apply h.own_silent
  · rfl
  · simp [State.goto, State.setClient, hp, ClientPc.exec]
  · intro e' he'
    have := h.wrote e' he'
    simpa [State.goto, State.setClient, hp, ClientPc.Wrote, slotOf] using this
  · intro sv
    by_cases hsv : sv = e.server
    · convert Link.Step.pass _ _ _ using 1
      · simp [linkOf, linkAt, State.goto, State.setClient, ClientPc.side, hsv]
      · simp [linkOf, linkAt, hp, ClientPc.side, hsv]
      · simp [linkOf, linkAt, hsv, hbit]
    · convert Link.Step.stay _ using 1
      simp [linkOf, linkAt, State.goto, State.setClient, ClientPc.side, hp, Ne.symm hsv]

/-- The call a client is in is the one under way. -/
theorem ClientInv.exec_eq
    {cs : List Served} {c : Served} {m : Nat} {e : Exec} (h : ClientInv L s i cs c m)
    (hexec : (s.clients i).pc.exec = some e) :
  c.exec = e ∧ m ≠ 0
  := by
  have := h.exec
  rw [hexec] at this
  split at this
  · cases this
  · next hm => exact ⟨(Option.some.inj this).symm, hm⟩

theorem ClientInv.writeFlag
    {cs : List Served} {c : Served} {m : Nat} {e : Exec} (h : ClientInv L s i cs c m)
    (hp : (s.clients i).pc = .writeFlag e) :
  ClientInv L (((s.setRequest e.server (L.chip i) (L.id i)
    { slotOf L s i e.server with
      flag := (s.clients i).localClientFlag e.server }).goto i (.poll e)).record (.flag i)) i cs c 2
  := by
  set s' := ((s.setRequest e.server (L.chip i) (L.id i)
    { slotOf L s i e.server with
      flag := (s.clients i).localClientFlag e.server }).goto i (.poll e)).record (.flag i) with hs'
  have hexec : (s.clients i).pc.exec = some e := by rw [hp, ClientPc.exec]
  obtain ⟨rfl, hm⟩ := h.exec_eq hexec
  have hown : (linkOf L s i c.exec.server).Step (L.id i % L.nclients) L.nclients (some .flag)
      (linkOf L s' i c.exec.server) := by
    convert Link.Step.flag _ _ using 1
    · simp [hs', linkOf, linkAt, State.record, State.goto, State.setClient, State.setRequest, slotOf,
        ClientPc.side]
    · simp [linkOf, linkAt, hp, ClientPc.side]
  obtain ⟨p', hp', hgood⟩ := (h.links c.exec.server).step (Nat.mod_lt _ L.pos) hown
  rw [if_pos rfl] at hp'
  obtain rfl : m = 1 := by
    have hlt := h.lt
    interval_cases m <;> simp [Served.phase, Handshake.Phase.after, Handshake.Phase.next] at hp' hm ⊢
  obtain rfl : p' = .flagged := (Option.some.inj hp').symm
  constructor
  · decide
  · simp only [hs', State.record, State.goto, State.setClient, State.setRequest, List.filter_append,
      h.log]
    simp [Served.events, Event.concerns]
  · simp [hs', State.record, State.goto, State.setClient, ClientPc.exec]
  · have := h.short _ hexec
    simpa [hs', State.record, State.goto, State.setClient, ClientPc.exec] using this
  · have := h.wrote _ hexec
    rw [hp] at this
    simpa [hs', State.record, State.goto, State.setClient, State.setRequest, ClientPc.exec,
      ClientPc.Wrote, slotOf] using this
  · intro sv
    by_cases hsv : sv = c.exec.server
    · rw [if_pos hsv, hsv]
      exact hgood
    · have hsame : linkOf L s' i sv = linkOf L s i sv := by
        simp [hs', linkOf, linkAt, State.record, State.goto, State.setClient, State.setRequest,
          ClientPc.side, hp, hsv, Ne.symm hsv]
      have := h.links sv
      rw [if_neg hsv] at this ⊢
      rw [hsame]
      exact this

theorem ClientInv.read
    {cs : List Served} {c : Served} {m : Nat} {e : Exec} (h : ClientInv L s i cs c m)
    (hp : (s.clients i).pc = .read e) :
  ClientInv L ((s.goto i .idle).record (.ret i
    ((s.response e.server (lineOf L i)).returnValues (L.id i % L.nclients)))) i (cs ++ [c]) c 0
  := by
  set v := (s.response e.server (lineOf L i)).returnValues (L.id i % L.nclients) with hv
  rw [lineOf, ← halfOf_line (L.id_lt i)] at hv
  have hexec : (s.clients i).pc.exec = some e := by rw [hp, ClientPc.exec]
  obtain ⟨rfl, hm⟩ := h.exec_eq hexec
  have hown : (linkOf L s i c.exec.server).Step (L.id i % L.nclients) L.nclients (some (.ret v))
      (linkOf L ((s.goto i .idle).record (.ret i v)) i c.exec.server) := by
    have hret : (linkOf L s i c.exec.server).returned = v := by simp [linkOf, linkAt, hv]
    rw [← hret]
    convert Link.Step.ret _ _ using 1
    · simp [linkOf, linkAt, State.record, State.goto, State.setClient, ClientPc.side]
    · simp [linkOf, linkAt, hp, ClientPc.side]
  obtain ⟨p', hp', hgood⟩ := (h.links c.exec.server).step (Nat.mod_lt _ L.pos) hown
  rw [if_pos rfl] at hp'
  obtain ⟨rfl, hval, rfl⟩ : m = 3 ∧ c.value = v ∧ p' = .quiet := by
    have hlt := h.lt
    interval_cases m <;> simp [Served.phase, Handshake.Phase.after, Handshake.Phase.next] at hp' hm ⊢
    exact ⟨hp'.1, hp'.2.symm⟩
  constructor
  · decide
  · simp only [State.record, State.goto, State.setClient, List.filter_append, h.log]
    simp [Served.events, Event.concerns, hval]
  · simp [State.record, State.goto, State.setClient, ClientPc.exec]
  · simp [State.record, State.goto, State.setClient, ClientPc.exec]
  · simp [State.record, State.goto, State.setClient, ClientPc.exec]
  · intro sv
    simp only [Served.phase, ite_self]
    by_cases hsv : sv = c.exec.server
    · rw [hsv]
      exact hgood
    · have hsame : linkOf L ((s.goto i .idle).record (.ret i v)) i sv = linkOf L s i sv := by
        simp [linkOf, linkAt, State.record, State.goto, State.setClient, ClientPc.side, hp,
          Ne.symm hsv]
      have := h.links sv
      rw [if_neg hsv] at this
      rw [hsame]
      exact this

theorem ClientInv.clientStep
    {cs : List Served} {c : Served} {m : Nat} (h : ClientInv L s i cs c m)
    (hstep : clientStep L s i = some s') :
  ∃ cs c m, ClientInv L s' i cs c m
  := by
  simp only [Delegation.clientStep] at hstep
  cases hp : (s.clients i).pc <;> simp only [hp] at hstep
  case idle => cases hstep
  case writeFptr e =>
    obtain rfl := Option.some.inj hstep
    use cs, c, m
    apply h.write <;> simp [hp, ClientPc.exec, ClientPc.side, ClientPc.Wrote]
  case writeArgc e =>
    obtain rfl := Option.some.inj hstep
    have hwrote := h.wrote e (by rw [hp, ClientPc.exec])
    rw [hp] at hwrote
    use cs, c, m
    apply h.write <;> simp [hp, ClientPc.exec, ClientPc.side, ClientPc.Wrote]
    exact hwrote
  case writeArgv e j =>
    have hwrote := h.wrote e (by rw [hp, ClientPc.exec])
    rw [hp] at hwrote
    obtain ⟨hfptr, hargs⟩ := hwrote
    split at hstep
    · next a ha =>
      obtain rfl := Option.some.inj hstep
      use cs, c, m
      apply h.write
      · rw [hp, ClientPc.exec]
      · rw [ClientPc.exec]
      · rfl
      · simp [hp, ClientPc.side]
      · refine ⟨hfptr, fun m hm b hb => ?_⟩
        by_cases hmj : m = j
        · simp_all
        · simpa [hmj] using hargs m (by omega) b hb
    · next hnone =>
      obtain rfl := Option.some.inj hstep
      have hlen : e.args.length ≤ j := List.getElem?_eq_none_iff.mp hnone
      use cs, c, m
      apply h.own_silent
      · rfl
      · simp [State.goto, State.setClient, hp, ClientPc.exec]
      · intro e' he'
        obtain rfl : e = e' := by simpa [hp, ClientPc.exec] using he'
        simp only [State.goto, State.setClient, Function.update_self, ClientPc.Wrote]
        refine ⟨hfptr, fun m a ha => hargs m ?_ a ha⟩
        have := (List.getElem?_eq_some_iff.mp ha).1
        omega
      · intro sv
        convert Link.Step.stay _ using 1
        simp [linkOf, linkAt, State.goto, State.setClient, ClientPc.side, hp]
  case toggle e =>
    obtain rfl := Option.some.inj hstep
    exact ⟨cs, c, m, h.toggle hp⟩
  case writeFlag e =>
    obtain rfl := Option.some.inj hstep
    exact ⟨cs, c, 2, h.writeFlag hp⟩
  case poll e =>
    split at hstep
    · next hbit =>
      obtain rfl := Option.some.inj hstep
      exact ⟨cs, c, m, h.poll hp hbit⟩
    · obtain rfl := Option.some.inj hstep
      exact ⟨cs, c, m, h⟩
  case read e =>
    obtain rfl := Option.some.inj hstep
    exact ⟨cs ++ [c], c, 0, h.read hp⟩

end ClientStep

/-! ### Runs -/

theorem Inv.step
    {L : Layout ι} {s s' : State ι} (h : Inv L s) {l : Label ι} (hstep : step L s l = some s') :
  Inv L s'
  := by
  cases l with
  | start i e =>
      obtain ⟨hmove, hidle, hshort, rfl⟩ := start_move (L := L) hstep
      obtain ⟨cs, c, m, hc⟩ := h.clients i
      exact h.clientMove hmove ⟨cs, _, 1, hc.start hidle hshort⟩
  | client i =>
      obtain ⟨cs, c, m, hc⟩ := h.clients i
      exact h.clientMove (clientStep_move hstep) (hc.clientStep hstep)
  | server sv value =>
      obtain rfl := Option.some.inj hstep
      exact h.serverStep

theorem Inv.run
    {L : Layout ι} {s s' : State ι} (h : Inv L s) {ls : List (Label ι)}
    (hrun : run L s ls = some s') :
  Inv L s'
  := by
  induction ls generalizing s with
  | nil =>
      obtain rfl := Option.some.inj hrun
      exact h
  | cons l ls ih =>
      obtain ⟨s₁, hstep, hrest⟩ := Option.bind_eq_some_iff.mp hrun
      exact ih (h.step hstep) hrest

end Delegation
