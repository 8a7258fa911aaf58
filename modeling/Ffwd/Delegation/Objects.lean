import Ffwd.Lib.Linearizable
import Ffwd.Delegation.Progress

/-!
# Delegated objects

Every server keeps objects that only the functions it is asked to call read and write. For every
interleaving of the steps of clients and servers, what the clients see of their calls is what they
would see if each call were one step on the objects, at some moment between the beginning of
`FFWD_EXEC` and its end.
-/

namespace Delegation

open Concurrent (System Object Status Atomic Simulates)

variable {ι Op σ : Type} [DecidableEq ι]

/-! ### The functions -/

/-- The operations that clients delegate: the use of `FFWD_EXEC` that each of them is, and what the
function at an address does to the objects of the server that calls it, and returns, with the words that
the server has loaded. The function of an operation looks at no words but the arguments. -/
structure Service (Op σ : Type) where
  exec : Op → Exec
  call : Word → List Word → σ → σ × Word
  call_args : ∀ op argv s, argv.take (exec op).args.length = (exec op).args →
    call (exec op).fptr argv s = call (exec op).fptr (exec op).args s

/-- The delegation protocol, with the objects of each server. -/
structure Delegated (ι σ : Type) where
  shared : State ι
  objects : Nat → σ

/-- A client enters `FFWD_EXEC`, a client moves, a server moves. -/
inductive Move (ι Op : Type) where
  | start (i : ι) (op : Op)
  | client (i : ι)
  | server (sv : Nat)

/-- The function that a server calls, if it is about to call one, on its objects. -/
def Service.serve (V : Service Op σ) (nclients : Nat) (d : Delegated ι σ) (sv : Nat) : (Nat → σ) × Word :=
  match (d.shared.servers sv).pc with
  | .execute h k =>
      let r := d.shared.request sv h.chip (h.slot nclients k)
      let (s, value) := V.call r.fptr ((List.range 5).map r.argv) (d.objects sv)
      (Function.update d.objects sv s, value)
  | _ => (d.objects, 0)

/-- The protocol with these operations. -/
def Service.system (V : Service Op σ) (L : Layout ι) :
    System (Delegated ι σ) (Move ι Op) (Concurrent.Event ι Op Word) where
  step d
    | .start i op => (start d.shared i (V.exec op)).map fun s => ⟨s, d.objects⟩
    | .client i => (clientStep L d.shared i).map fun s => ⟨s, d.objects⟩
    | .server sv =>
        let (objects, value) := V.serve L.nclients d sv
        some ⟨serverStep L.nclients d.shared sv value, objects⟩
  event d
    | .start i op => some (.call i op)
    | .client i =>
        match (d.shared.clients i).pc with
        | .read e =>
            some (.ret i ((d.shared.response e.server (lineOf L i)).returnValues (L.id i % L.nclients)))
        | _ => none
    | .server _ => none

/-- The objects of all servers as one, on which an operation is one step. -/
def Service.object (V : Service Op σ) : Object Op Word (Nat → σ) where
  apply op s :=
    let (s', value) := V.call (V.exec op).fptr (V.exec op).args (s (V.exec op).server)
    (Function.update s (V.exec op).server s', value)

/-! ### Calls -/

/-- Where a call is after an event of its client. -/
def Event.after (status : Status Exec Word) : Event ι → Status Exec Word
  | .call _ e => .pending e
  | .flag _ => status
  | .execute _ _ _ _ _ value => .done value
  | .ret _ _ => .idle

/-- Where the call of a client is after the events of a log. -/
def statusOf (L : Layout ι) (i : ι) (log : List (Event ι)) : Status Exec Word :=
  (log.filter (Event.concerns L i)).foldl Event.after .idle

/-- Where a call is after its first `m` events. -/
def Served.status (c : Served) : Nat → Status Exec Word
  | 0 => .idle
  | 1 => .pending c.exec
  | 2 => .pending c.exec
  | _ => .done c.value

variable {L : Layout ι} {V : Service Op σ} {i : ι} {log : List (Event ι)}

omit [DecidableEq ι] in
theorem foldl_take_events (L : Layout ι) (i : ι) (c : Served) {m : Nat} (hm : m < 4) :
  ((c.events L i).take m).foldl Event.after .idle = c.status m
  := by
  match m, hm with
  | 0, _ => rfl
  | 1, _ => rfl
  | 2, _ => rfl
  | 3, _ => rfl

omit [DecidableEq ι] in
theorem foldl_flatMap_events (L : Layout ι) (i : ι) (cs : List Served) :
  (cs.flatMap (Served.events L i)).foldl Event.after .idle = .idle
  := by
  induction cs with
  | nil => rfl
  | cons c cs ih =>
      rw [List.flatMap_cons, List.foldl_append]
      exact ih

omit [DecidableEq ι] in
/-- The last event of a sequence of calls, and where its call was before it. -/
theorem last_event
    {cs : List Served} {c : Served} {m : Nat} {old : List (Event ι)} {ev : Event ι} (hm : m < 4)
    (h : old ++ [ev] = cs.flatMap (Served.events L i) ++ (c.events L i).take m) :
  ∃ c' m', (c'.events L i)[m']? = some ev ∧ old.foldl Event.after .idle = Served.status c' m'
  := by
  have hstatus : ∀ (cs : List Served) (c : Served) (m : Nat), m < 4 →
      (cs.flatMap (Served.events L i) ++ (c.events L i).take m).foldl Event.after .idle = c.status m := by
    intro cs c m hm
    rw [List.foldl_append, foldl_flatMap_events, foldl_take_events L i c hm]
  cases m with
  | zero =>
      rw [List.take_zero, List.append_nil] at h
      obtain rfl | ⟨cs, c', rfl⟩ := List.eq_nil_or_concat' cs
      · simp at h
      · have hlast : (cs ++ [c']).flatMap (Served.events L i)
            = (cs.flatMap (Served.events L i) ++ (c'.events L i).take 3) ++ [.ret i c'.value] := by
          simp [Served.events]
        rw [hlast] at h
        obtain ⟨hold, hev⟩ := List.append_inj' h rfl
        obtain rfl := List.singleton_inj.mp hev
        exact ⟨c', 3, rfl, hold ▸ hstatus cs c' 3 (by decide)⟩
  | succ m =>
      have hlt : m < (c.events L i).length := by
        simp only [Served.events, List.length_cons, List.length_nil]
        omega
      rw [List.take_succ_eq_append_getElem hlt, ← List.append_assoc] at h
      obtain ⟨hold, hev⟩ := List.append_inj' h rfl
      obtain rfl := List.singleton_inj.mp hev
      exact ⟨c, m, List.getElem?_eq_getElem hlt, hold ▸ hstatus cs c m (by omega)⟩

/-- The place of an event among those of its call. -/
def Event.place : Event ι → Nat
  | .call _ _ => 0
  | .flag _ => 1
  | .execute _ _ _ _ _ _ => 2
  | .ret _ _ => 3

omit [DecidableEq ι] in
theorem Served.place_eq {c : Served} {m : Nat} {ev : Event ι} (hget : (c.events L i)[m]? = some ev) :
  m = ev.place
  := by
  obtain _ | _ | _ | _ | m := m
  all_goals cases hget
  all_goals rfl

/-- An event that concerns a client, and where its call was before it. -/
theorem Inv.last_event
    {s : State ι} {ev : Event ι} (h : Inv L s) (hlog : s.log = log ++ [ev]) (hev : ev.concerns L i = true) :
  ∃ c m, (Served.events L i c)[m]? = some ev ∧ statusOf L i log = c.status m
  := by
  obtain ⟨cs, c, m, hc⟩ := h.clients i
  have hfilter := hc.log
  rw [hlog, List.filter_append, List.filter_cons_of_pos hev] at hfilter
  exact Delegation.last_event hc.lt hfilter

theorem statusOf_append (L : Layout ι) (i : ι) (log : List (Event ι)) (ev : Event ι) :
  statusOf L i (log ++ [ev]) = if ev.concerns L i then ev.after (statusOf L i log) else statusOf L i log
  := by
  rw [statusOf, List.filter_append, List.foldl_append]
  split
  · next hev =>
    rw [List.filter_cons_of_pos hev]
    rfl
  · next hev =>
    rw [List.filter_cons_of_neg hev]
    rfl

/-! ### Steps -/

/-- What a step of a client records. -/
def clientEvents (L : Layout ι) (s : State ι) (i : ι) : List (Event ι) :=
  match (s.clients i).pc with
  | .writeFlag _ => [.flag i]
  | .read e => [.ret i ((s.response e.server (lineOf L i)).returnValues (L.id i % L.nclients))]
  | _ => []

theorem clientStep_log {s s' : State ι} (h : clientStep L s i = some s') :
  s'.log = s.log ++ clientEvents L s i
  := by
  simp only [clientStep] at h
  cases hp : (s.clients i).pc <;> simp only [hp] at h <;> simp only [clientEvents, hp]
  case idle => cases h
  case writeArgv e j | poll e =>
    split at h <;>
    · obtain rfl := Option.some.inj h
      exact (List.append_nil _).symm
  all_goals
    obtain rfl := Option.some.inj h
    simp [State.goto, State.setClient, State.setRequest, State.record]

/-- The objects, on which the operations of the clients are where the log says that their calls are. -/
structure Service.Tracks (V : Service Op σ) (L : Layout ι) (d : Delegated ι σ)
    (v : Atomic ι Op Word (Nat → σ)) : Prop where
  inv : Inv L d.shared
  objects : v.state = d.objects
  status : ∀ i, (v.status i).map V.exec = statusOf L i d.shared.log

variable {d : Delegated ι σ} {v : Atomic ι Op Word (Nat → σ)} {s s' : State ι} {sv : Nat}

/-- A step that records an event of client `i`, or an execution of its slot. -/
theorem Service.Tracks.record
    (h : V.Tracks L d v) (hinv : Inv L s') {ev : Event ι} (hlog : s'.log = d.shared.log ++ [ev])
    (hev : ∀ j, ev.concerns L j = decide (j = i)) {x : Status Op Word}
    (hstatus : x.map V.exec = ev.after (statusOf L i d.shared.log)) (objects : Nat → σ) :
  V.Tracks L ⟨s', objects⟩ { v.goto i x with state := objects }
  where
  inv := hinv
  objects := rfl
  status j := by
    simp only [hlog, statusOf_append, hev, decide_eq_true_eq, Atomic.goto, Function.update_apply]
    split
    · next hj =>
      rw [hj]
      exact hstatus
    · exact h.status j

theorem Service.Tracks.start (h : V.Tracks L d v) {op : Op} (hstep : start d.shared i (V.exec op) = some s') :
  ∃ acts v', V.object.atomic.run v acts = some (v', [.call i op]) ∧ V.Tracks L ⟨s', d.objects⟩ v'
  := by
  have hinv : Inv L s' := h.inv.step (l := .start i (V.exec op)) hstep
  obtain ⟨-, hidle, -, hs'⟩ := start_move (L := L) hstep
  have hlog : s'.log = d.shared.log ++ [.call i (V.exec op)] := by
    rw [hs']
    rfl
  obtain ⟨c, m, hget, hstatus⟩ := hinv.last_event (i := i) hlog (by simp [Event.concerns])
  obtain rfl : m = 0 := Served.place_eq hget
  have hquiet := Status.eq_idle_of_map ((h.status i).trans hstatus)
  refine ⟨_, _, Concurrent.atomic_call hquiet op, ?_⟩
  have := h.record (i := i) (x := .pending op) hinv hlog (fun j => by simp [Event.concerns, eq_comm]) rfl
    d.objects
  rw [← h.objects] at this ⊢
  exact this

theorem Service.Tracks.client (h : V.Tracks L d v) (hstep : clientStep L d.shared i = some s') :
  ∃ acts v', V.object.atomic.run v acts = some (v', ((V.system L).event d (.client i)).toList) ∧
    V.Tracks L ⟨s', d.objects⟩ v'
  := by
  have hinv : Inv L s' := h.inv.step (l := .client i) hstep
  have hlog := clientStep_log hstep
  simp only [clientEvents] at hlog
  simp only [Service.system]
  split at hlog
  · next e hp =>
    simp only [hp, Option.toList]
    refine ⟨[], v, rfl, ?_⟩
    have := h.record (i := i) hinv hlog (fun j => by simp [Event.concerns, eq_comm]) (h.status i) d.objects
    simp only [Atomic.goto, Function.update_eq_self, ← h.objects] at this ⊢
    exact this
  · next e hp =>
    simp only [hp, Option.toList]
    obtain ⟨c, m, hget, hstatus⟩ := hinv.last_event (i := i) hlog (by simp [Event.concerns])
    obtain rfl : m = 3 := Served.place_eq hget
    have hdone := Status.eq_done_of_map ((h.status i).trans hstatus)
    simp only [Served.events, List.getElem?_cons_succ, List.getElem?_cons_zero, Option.some.injEq, Event.ret.injEq,
      true_and] at hget
    rw [← hget]
    refine ⟨_, _, Concurrent.atomic_ret hdone, ?_⟩
    have := h.record (i := i) (x := .idle) hinv hlog (fun j => by simp [Event.concerns, eq_comm]) rfl d.objects
    rw [← h.objects] at this ⊢
    exact this
  · next hflag hread =>
    have hnone : ∀ e, (d.shared.clients i).pc ≠ .read e := hread
    refine ⟨[], v, ?_, ?_⟩
    · split
      · next e hp => exact absurd hp (hnone e)
      · rfl
    · rw [List.append_nil] at hlog
      exact ⟨hinv, h.objects, fun j => by rw [h.status, hlog]⟩

theorem Service.Tracks.server (h : V.Tracks L d v) :
  ∃ acts v', V.object.atomic.run v acts = some (v', []) ∧
    V.Tracks L ⟨serverStep L.nclients d.shared sv (V.serve L.nclients d sv).2, (V.serve L.nclients d sv).1⟩ v'
  := by
  have hinv : Inv L (serverStep L.nclients d.shared sv (V.serve L.nclients d sv).2) :=
    h.inv.step (l := .server sv (V.serve L.nclients d sv).2) rfl
  have hlog := serverStep_log L.nclients d.shared sv (V.serve L.nclients d sv).2
  simp only [serverEvents] at hlog
  split at hlog
  · next hf k hp =>
    simp only [Option.toList] at hlog
    obtain ⟨i, hchip, hid⟩ := hinv.owned _ (by rw [hlog]; exact List.mem_append_right _ List.mem_cons_self)
    obtain ⟨c, m, hget, hstatus⟩ :=
      hinv.last_event (i := i) hlog (by simp [Event.concerns, hchip, hid])
    obtain rfl : m = 2 := Served.place_eq hget
    obtain ⟨op, hpending, hop⟩ := Status.eq_pending_of_map ((h.status i).trans hstatus)
    simp only [Served.events, List.getElem?_cons_succ, List.getElem?_cons_zero, Option.some.injEq,
      Event.execute.injEq] at hget
    obtain ⟨rfl, -, -, hfptr, hargv, hvalue⟩ := hget
    -- the words that the server loads beyond the arguments of the call do not matter
    have hcall : V.call (V.exec op).fptr c.argv (d.objects c.exec.server)
        = V.call (V.exec op).fptr (V.exec op).args (d.objects c.exec.server) := by
      apply V.call_args
      rw [hop]
      exact c.carried
    have hserve : V.serve L.nclients d c.exec.server = V.object.apply op d.objects := by
      have hloaded : V.serve L.nclients d c.exec.server
          = (fun r => (Function.update d.objects c.exec.server r.1, r.2))
            (V.call (V.exec op).fptr c.argv (d.objects c.exec.server)) := by
        rw [hop, hfptr, hargv, Service.serve, hp]
      rw [hloaded, hcall, ← hop]
      rfl
    rw [hserve] at hinv hlog ⊢
    refine ⟨_, _, Concurrent.atomic_effect hpending, ?_⟩
    have hev : ∀ j, (Event.execute c.exec.server hf.chip (hf.slot L.nclients k)
        (d.shared.request c.exec.server hf.chip (hf.slot L.nclients k)).fptr
        ((List.range 5).map (d.shared.request c.exec.server hf.chip (hf.slot L.nclients k)).argv)
        (V.object.apply op d.objects).2).concerns L j = decide (j = i) := by
      intro j
      simp only [Event.concerns, ← hchip, ← hid, decide_eq_decide]
      constructor
      · rintro ⟨hchip', hid'⟩
        exact L.inj j i hchip'.symm hid'.symm
      · rintro rfl
        exact ⟨rfl, rfl⟩
    have := h.record (i := i) (x := .done (V.object.apply op d.objects).2) hinv hlog hev rfl
      (V.object.apply op d.objects).1
    rw [← h.objects] at this ⊢
    exact this
  · next hexecute =>
    have hserve : V.serve L.nclients d sv = (d.objects, 0) := by
      rw [Service.serve]
      split
      · next hf k hp => exact absurd hp (hexecute hf k)
      · rfl
    rw [hserve] at hinv hlog ⊢
    rw [Option.toList, List.append_nil] at hlog
    exact ⟨[], v, rfl, hinv, h.objects, fun j => by rw [h.status, hlog]⟩

/-- What the clients see is what they would see of the objects. -/
theorem Service.simulates (V : Service Op σ) (L : Layout ι) :
  Simulates (V.system L) V.object.atomic (V.Tracks L)
  := by
  intro d v move d' h hstep
  cases move with
  | start i op =>
      obtain ⟨s', hstart, rfl⟩ := Option.map_eq_some_iff.mp hstep
      exact h.start hstart
  | client i =>
      obtain ⟨s', hclient, rfl⟩ := Option.map_eq_some_iff.mp hstep
      exact h.client hclient
  | server sv =>
      obtain rfl := Option.some.inj hstep
      exact h.server

theorem Service.tracks_init (V : Service Op σ) (L : Layout ι) (objects : Nat → σ) :
  V.Tracks L ⟨State.init ι, objects⟩ (Atomic.start objects)
  where
  inv := inv_init L
  objects := rfl
  status _ := rfl

/-- Delegated objects are linearizable, for any number of clients and servers and every interleaving of
their steps. -/
theorem delegated_linearizable
    (V : Service Op σ) (L : Layout ι) (objects : Nat → σ) (moves : List (Move ι Op)) (d : Delegated ι σ)
    (h : List (Concurrent.Event ι Op Word))
    (hrun : (V.system L).run ⟨State.init ι, objects⟩ moves = some (d, h)) :
  V.object.Linearizable objects h
  := (V.simulates L).linearizable (V.tracks_init L objects) hrun

/-- A counter at the first server: its only operation adds a number, and returns what was there. -/
def counter : Service Word Word where
  exec amount := ⟨0, 7, [amount]⟩
  call _ argv s := (s + argv.headD 0, s)
  call_args amount argv s hargv := by
    obtain _ | ⟨a, argv⟩ := argv
    · cases hargv
    · obtain ⟨rfl, -⟩ := List.cons.inj hargv
      rfl

/-- Two clients in the two halves of the first chip, with one slot a half. -/
def boolLayout : Layout Bool where
  nclients := 1
  chip _ := 0
  id i := i.toNat
  pos := pairLayout.pos
  fits := pairLayout.fits
  id_lt i := by cases i <;> decide
  inj i j _ h := by
    cases i <;> cases j <;> first | rfl | cases h

/-- Both clients add to the counter; the one that has begun last is served first. -/
def counterMoves : List (Move Bool Word) :=
  [Move.start false 3, Move.start true 5] ++ List.replicate 6 (Move.client true) ++
    List.replicate 13 (Move.server 0) ++ List.replicate 6 (Move.client false) ++
    List.replicate 40 (Move.server 0) ++ List.replicate 2 (Move.client false) ++
    List.replicate 2 (Move.client true)

theorem delegated_linearizable_counter :
  ∃ d, (counter.system boolLayout).run ⟨State.init Bool, fun _ => 10⟩ counterMoves
      = some (d, [.call false 3, .call true 5, .ret false 15, .ret true 10]) ∧
    counter.object.Linearizable (fun _ => 10)
      [.call false 3, .call true 5, .ret false 15, .ret true 10]
  := by
  have hseen : ((counter.system boolLayout).run ⟨State.init Bool, fun _ => 10⟩ counterMoves).map Prod.snd
      = some [.call false 3, .call true 5, .ret false 15, .ret true 10] := by
    decide +kernel
  obtain ⟨⟨d, h⟩, hrun, rfl⟩ := Option.map_eq_some_iff.mp hseen
  exact ⟨d, hrun, delegated_linearizable _ _ _ _ d _ hrun⟩

end Delegation
