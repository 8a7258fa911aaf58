import Ffwd.Delegation.Links

/-!
# The end of the server loop

`server_func` looks at `finished[0]` before each round, and `ffwd_shutdown` sets it at any
moment. Around the loop body of one server, `ServerFunc` has the test of the loop, the flag, and
writes of the clients to the requests at any moment. When the server has returned, what it has
executed is what it has published.
-/

namespace Delegation

open Handshake

variable {ι : Type}

/-- Where a server is in its loop: before the test of the condition, in the body, or behind the
loop. -/
inductive Loop where
  | condition
  | body
  | returned
  deriving DecidableEq

/-- A server in `server_func`, and the flag that ends its loop. -/
structure ServerFunc (ι : Type) where
  state : State ι
  finished : Bool
  loop : Loop

/-- `ffwd_shutdown` sets the flag, a client writes to a request, or the server makes a step, with
the value of the called function if the step is a call. -/
inductive ServerLabel where
  | shutdown
  | write (chip : Fin 4) (id : Nat) (r : Request)
  | server (value : Word)

/-- The start of a round. -/
def ServerPc.head : ServerPc := .test ⟨0, false⟩ 0

/-- One step of the server: the test of the condition, or a step of the body, which ends at the
start of the next round. -/
def ServerFunc.serverStep (nclients sv : Nat) (f : ServerFunc ι) (value : Word) : ServerFunc ι :=
  match f.loop with
  | .condition => if f.finished then { f with loop := .returned } else { f with loop := .body }
  | .body =>
      let s := Delegation.serverStep nclients f.state sv value
      if (s.servers sv).pc = .head then { f with state := s, loop := .condition }
      else { f with state := s }
  | .returned => f

def ServerFunc.step (nclients sv : Nat) (f : ServerFunc ι) : ServerLabel → ServerFunc ι
  | .shutdown => { f with finished := true }
  | .write chip id r => { f with state := f.state.setRequest sv chip id r }
  | .server value => f.serverStep nclients sv value

def ServerFunc.run (nclients sv : Nat) (f : ServerFunc ι) (labels : List ServerLabel) :
    ServerFunc ι :=
  labels.foldl (ServerFunc.step nclients sv) f

def ServerFunc.init (ι : Type) : ServerFunc ι := ⟨.init ι, false, .condition⟩

/-- What the server has executed for the slot of a chip: the values of the calls, in order. -/
def executed (sv : Nat) (chip : Fin 4) (id : Nat) (log : List (Event ι)) : List Word :=
  log.filterMap (fun e => (executionAt sv chip id e).bind Handshake.Event.executed)

/-- In the line of the half-socket of a slot, the published bit of the slot is the parity of the
executed requests, and the published value is that of the last of them. -/
def Answered (nclients sv : Nat) (s : State ι) (chip : Fin 4) (id : Nat) : Prop :=
  let line := s.response sv (halfOf nclients chip id).line
  let values := executed sv chip id s.log
  line.flags.getLsbD id = values.length.bodd ∧
    ∀ value ∈ values.getLast?, line.returnValues (id % nclients) = value

/-- The mailbox of a slot, of which only the server's end is looked at. -/
def mailbox (nclients sv : Nat) (s : State ι) (chip : Fin 4) (id : Nat) : Link Word :=
  linkAt nclients s sv chip id .idle false

/-- What holds at every moment of a run. The server is at the start of a round unless it is in the
body of the loop. -/
structure ServerFunc.Inv (nclients sv : Nat) (f : ServerFunc ι) : Prop where
  inRange : (f.state.servers sv).pc.InRange nclients
  head : f.loop ≠ .body → (f.state.servers sv).pc = .head
  synced : ∀ chip id, id < 2 * nclients →
    (mailbox nclients sv f.state chip id).Synced (id % nclients)
  tallied : ∀ chip id, id < 2 * nclients →
    (mailbox nclients sv f.state chip id).Tallied (executed sv chip id f.state.log)

/-- A step of the body. -/
theorem ServerFunc.Inv.body {nclients sv : Nat} {f : ServerFunc ι} (hpos : 0 < nclients)
    (hfits : 2 * nclients ≤ 64) (h : f.Inv nclients sv) (value : Word) (l : Loop)
    (hhead : l ≠ .body →
      ((Delegation.serverStep nclients f.state sv value).servers sv).pc = .head) :
  ServerFunc.Inv nclients sv
    { f with state := Delegation.serverStep nclients f.state sv value, loop := l }
  := by
  have hstep : ∀ chip id, id < 2 * nclients →
      (mailbox nclients sv f.state chip id).Step (id % nclients) nclients
        ((serverEvents nclients f.state sv value).bind (executionAt sv chip id))
        (mailbox nclients sv (Delegation.serverStep nclients f.state sv value) chip id) := by
    intro chip id hid
    exact serverStep_linkAt value hfits h.inRange hid (h.synced chip id hid)
  refine ⟨?_, hhead, ?_, ?_⟩
  · exact serverStep_inRange_self hpos value h.inRange
  · intro chip id hid
    exact (h.synced chip id hid).step (Nat.mod_lt id hpos) (hstep chip id hid)
  · intro chip id hid
    have htallied := (h.tallied chip id hid).step (hstep chip id hid)
    have hexecuted :
        executed sv chip id (Delegation.serverStep nclients f.state sv value).log =
          executed sv chip id f.state.log ++
            (((serverEvents nclients f.state sv value).bind (executionAt sv chip id)).bind
              Handshake.Event.executed).toList := by
      rw [serverStep_log, executed, List.filterMap_append]
      cases serverEvents nclients f.state sv value with
      | none => simp [executed]
      | some e =>
          simp only [Option.toList_some, List.filterMap_cons, List.filterMap_nil, executed,
            Option.bind_some]
          cases (executionAt sv chip id e).bind Handshake.Event.executed <;> rfl
    rw [hexecuted]
    exact htallied

theorem ServerFunc.Inv.step {nclients sv : Nat} {f : ServerFunc ι} (hpos : 0 < nclients)
    (hfits : 2 * nclients ≤ 64) (h : f.Inv nclients sv) (label : ServerLabel) :
  (f.step nclients sv label).Inv nclients sv
  := by
  cases label with
  | shutdown => exact ⟨h.inRange, h.head, h.synced, h.tallied⟩
  | write chip id r => exact ⟨h.inRange, h.head, h.synced, h.tallied⟩
  | server value =>
      rw [ServerFunc.step, ServerFunc.serverStep]
      cases hloop : f.loop with
      | condition =>
          have hhead := h.head (by rw [hloop]; decide)
          by_cases hfinished : f.finished
          · rw [if_pos hfinished]
            exact ⟨h.inRange, fun _ => hhead, h.synced, h.tallied⟩
          · rw [if_neg hfinished]
            exact ⟨h.inRange, fun _ => hhead, h.synced, h.tallied⟩
      | body =>
          by_cases hpc : ((Delegation.serverStep nclients f.state sv value).servers sv).pc = .head
          · simp only [if_pos hpc]
            exact h.body hpos hfits value .condition (fun _ => hpc)
          · simp only [if_neg hpc, ← hloop]
            exact h.body hpos hfits value f.loop (fun hne => absurd hloop hne)
      | returned => exact h

theorem ServerFunc.Inv.run {nclients sv : Nat} {f : ServerFunc ι} (hpos : 0 < nclients)
    (hfits : 2 * nclients ≤ 64) (h : f.Inv nclients sv) (labels : List ServerLabel) :
  (f.run nclients sv labels).Inv nclients sv
  := by
  induction labels generalizing f with
  | nil => exact h
  | cons label labels ih => exact ih (h.step hpos hfits label)

theorem ServerFunc.inv_init {nclients : Nat} (sv : Nat) (hpos : 0 < nclients) :
  (ServerFunc.init ι).Inv nclients sv
  := by
  have hstage : ∀ (h : Half) (k : Nat), ServerPc.head.stage h k = .away := by
    intro h k
    simp [ServerPc.head, ServerPc.stage]
  refine ⟨hpos, fun _ => rfl, ?_, ?_⟩
  · intro chip id _
    have hst : (mailbox nclients sv (ServerFunc.init ι).state chip id).stage = .away := hstage _ _
    simp only [Link.Synced, hst]
    exact ⟨rfl, rfl, rfl⟩
  · intro chip id _
    have hst : (mailbox nclients sv (ServerFunc.init ι).state chip id).stage = .away := hstage _ _
    simp only [Link.Tallied, hst]
    refine ⟨?_, ?_⟩
    · simp [mailbox, linkAt, executed, ServerFunc.init, State.init]
    · intro w hw
      cases hw

/-- When the server returns, no request is executed but left unanswered. -/
theorem answered_of_returned
    (nclients sv : Nat) (hpos : 0 < nclients) (hfits : 2 * nclients ≤ 64)
    (labels : List ServerLabel)
    (hreturned : ((ServerFunc.init ι).run nclients sv labels).loop = .returned) :
  ∀ chip id, id < 2 * nclients →
    Answered nclients sv ((ServerFunc.init ι).run nclients sv labels).state chip id
  := by
  intro chip id hid
  have hinv := (ServerFunc.inv_init (ι := ι) sv hpos).run hpos hfits labels
  have hpc := hinv.head (by rw [hreturned]; decide)
  apply (hinv.tallied chip id hid).published (hinv.synced chip id hid)
  simp [mailbox, linkAt, hpc, ServerPc.head, ServerPc.stage]

/-- One client for each half: the flag that ends the loop is set while the server is in a call,
and the server returns after the round. -/
theorem answered_of_returned_call :
  let labels : List ServerLabel :=
    .write 0 0 ⟨1, 0, 0, fun _ => 0⟩ :: List.replicate 3 (.server 5) ++
      .shutdown :: List.replicate 29 (.server 5)
  let f := (ServerFunc.init Empty).run 1 0 labels
  f.loop = .returned ∧ executed 0 0 0 f.state.log = [5] ∧
    ∀ chip id, id < 2 * 1 → Answered 1 0 f.state chip id
  := by
  intro labels f
  exact ⟨rfl, rfl, answered_of_returned 1 0 (by decide) (by decide) labels rfl⟩

end Delegation
