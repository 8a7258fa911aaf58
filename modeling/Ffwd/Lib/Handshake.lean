import Mathlib

/-!
# A handshake over toggled bits

A client and a server share a mailbox. The client asks by toggling its request bit; the
server compares the request bit with its own record of the bits it has answered,
executes, keeps the value privately, toggles its private bit, and at the end of its pass
over the mailboxes publishes the value and then the bits. The client takes the published
value once the published bit is the one it toggled.

`Link V` is the state of one such pair as the two ends see it, `Link.Step` its steps.
`Phase V` is what the pair is for: a call is asked for, executed once, and answered with
the value of that execution. `Link.Good` relates the two, and every step keeps it.
-/

namespace Handshake

variable {V : Type}

/-- Where the server is in its pass, as one mailbox sees it: before the mailbox, at one
of the steps that serve it, behind it, copying word `j` of the published line, or about
to record the pass. -/
inductive Stage (V : Type) where
  | away
  | execute
  | store (v : V)
  | toggle
  | behind
  | copy (j : Nat)
  | update

/-- The server is at one of the steps that serve the mailbox. -/
def Stage.Serving : Stage V → Prop
  | .execute | .store _ | .toggle => True
  | _ => False

/-- Where the client is in its call. -/
inductive Side where
  | idle
  | called
  | flipped
  | waiting
  | reading
  deriving DecidableEq

/-- One mailbox as its two ends see it: the client's copy of its bit and the bit in the
request; the server's record of the answered bits, its private bits, the bits in the
line being published and the published ones; and the value kept privately and the one
published. -/
structure Link (V : Type) where
  client : Side
  mine : Bool
  request : Bool
  old : Bool
  socket : Bool
  copied : Bool
  response : Bool
  stage : Stage V
  stored : V
  returned : V

/-- What an observer of the pair sees. -/
inductive Event (V : Type) where
  | call
  | flag
  | execute (v : V)
  | ret (v : V)

/-- The steps of a pair, for the value at word `k` of a line of `n` values. -/
inductive Link.Step (k n : Nat) : Link V → Option (Event V) → Link V → Prop
  | stay (l : Link V) : Step k n l none l
  | call (l : Link V) (h : l.client = .idle) :
      Step k n l (some .call) { l with client := .called }
  | flip (l : Link V) (h : l.client = .called) :
      Step k n l none { l with client := .flipped, mine := !l.mine }
  | flag (l : Link V) (h : l.client = .flipped) :
      Step k n l (some .flag) { l with client := .waiting, request := l.mine }
  | pass (l : Link V) (h : l.client = .waiting) (hb : l.response = l.mine) :
      Step k n l none { l with client := .reading }
  | ret (l : Link V) (h : l.client = .reading) :
      Step k n l (some (.ret l.returned)) { l with client := .idle }
  | hit (l : Link V) (h : l.stage = .away) (hb : l.old ≠ l.request) :
      Step k n l none { l with stage := .execute }
  | miss (l : Link V) (h : l.stage = .away) (hb : l.old = l.request) :
      Step k n l none { l with stage := .behind }
  | execute (l : Link V) (v : V) (h : l.stage = .execute) :
      Step k n l (some (.execute v)) { l with stage := .store v }
  | store (l : Link V) (v : V) (h : l.stage = .store v) :
      Step k n l none { l with stage := .toggle, stored := v }
  | toggle (l : Link V) (h : l.stage = .toggle) :
      Step k n l none { l with stage := .behind, socket := !l.socket }
  | skip (l : Link V) (h : l.stage = .behind) (hb : l.old = l.socket) :
      Step k n l none { l with stage := .update }
  | publish (l : Link V) (h : l.stage = .behind) :
      Step k n l none { l with stage := .copy 0, copied := l.socket }
  | word (l : Link V) (j : Nat) (h : l.stage = .copy j) (hj : j < n) :
      Step k n l none
        { l with stage := .copy (j + 1), returned := if j = k then l.stored else l.returned }
  | bits (l : Link V) (h : l.stage = .copy n) :
      Step k n l none { l with stage := .update, response := l.copied }
  | update (l : Link V) (h : l.stage = .update) :
      Step k n l none { l with stage := .away, old := l.socket }

/-! ### What the pair is for -/

/-- The phases of a call: asked for, its request flagged, executed with a value. -/
inductive Phase (V : Type) where
  | quiet
  | called
  | flagged
  | executed (v : V)

/-- The phase after an event, if the event is one the phase allows. -/
def Phase.next [DecidableEq V] : Phase V → Event V → Option (Phase V)
  | .quiet, .call => some .called
  | .called, .flag => some .flagged
  | .flagged, .execute v => some (.executed v)
  | .executed v, .ret w => if v = w then some .quiet else none
  | _, _ => none

/-! ### The invariant -/

/-- What the server's bits and values say at each stage of its pass. -/
def Link.Synced (k : Nat) (l : Link V) : Prop :=
  match l.stage with
  | .away | .execute | .store _ =>
      l.old = l.socket ∧ l.response = l.socket ∧ l.returned = l.stored
  | .toggle => l.old = l.socket ∧ l.response = l.socket
  | .behind => l.response = l.old ∧ (l.old = l.socket → l.returned = l.stored)
  | .copy j =>
      l.response = l.old ∧ l.copied = l.socket ∧
        (l.old = l.socket ∨ k < j → l.returned = l.stored)
  | .update => l.response = l.socket ∧ l.returned = l.stored

/-- The server has answered everything the client asked for and is not serving it. -/
def Link.Settled (l : Link V) : Prop :=
  l.request = l.socket ∧ l.response = l.socket ∧ ¬ l.stage.Serving

/-- What the client's position and the phase of its call say about the mailbox. -/
def Link.Tracks (l : Link V) : Phase V → Prop
  | .quiet => l.client = .idle ∧ l.mine = l.request ∧ l.Settled
  | .called =>
      (l.client = .called ∧ l.mine = l.request ∨ l.client = .flipped ∧ l.mine ≠ l.request) ∧
        l.Settled
  | .flagged =>
      l.client = .waiting ∧ l.mine = l.request ∧ l.request ≠ l.socket ∧
        l.response = l.socket ∧ (l.stage.Serving → l.stage = .execute)
  | .executed v =>
      l.mine = l.request ∧
        (l.client = .waiting ∧ l.request ≠ l.socket ∧
            (l.stage = .store v ∨ l.stage = .toggle ∧ l.stored = v) ∨
          l.client = .waiting ∧ l.request = l.socket ∧ ¬ l.stage.Serving ∧ l.stored = v ∨
          l.client = .reading ∧ l.Settled ∧ l.stored = v ∧ l.returned = v)

/-- The invariant of a pair. -/
def Link.Good (k : Nat) (l : Link V) (p : Phase V) : Prop :=
  l.Synced k ∧ l.Tracks p

/-- A pair that has not been used. -/
def Link.fresh (v : V) : Link V where
  client := .idle
  mine := false
  request := false
  old := false
  socket := false
  copied := false
  response := false
  stage := .away
  stored := v
  returned := v

theorem Link.good_fresh (k : Nat) (v : V) :
  (Link.fresh v).Good k .quiet
  := by
  simp [Link.fresh, Link.Good, Link.Synced, Link.Tracks, Link.Settled, Stage.Serving]

/-- The phase after a step: unchanged by a silent step. -/
def Phase.after [DecidableEq V] (p : Phase V) : Option (Event V) → Option (Phase V)
  | none => some p
  | some e => p.next e

/-- Every step of a pair keeps the server's bits and values in order. -/
theorem Link.Synced.step
    {k n : Nat} (hk : k < n) {l l' : Link V} {e : Option (Event V)} (hstep : l.Step k n e l')
    (h : l.Synced k) :
  l'.Synced k
  := by
  cases hstep with
  | stay => exact h
  | call hc => exact h
  | flip hc => exact h
  | flag hc => exact h
  | pass hc hb => exact h
  | ret hc => exact h
  | hit hs hb => simpa [Link.Synced, hs] using h
  | miss hs hb =>
      simp only [Link.Synced, hs] at h ⊢
      grind
  | execute v hs => simpa [Link.Synced, hs] using h
  | store v hs =>
      simp only [Link.Synced, hs] at h ⊢
      grind
  | toggle hs =>
      simp only [Link.Synced, hs] at h ⊢
      grind
  | skip hs hb =>
      simp only [Link.Synced, hs] at h ⊢
      grind
  | publish hs =>
      simp only [Link.Synced, hs] at h ⊢
      grind
  | word j hs hj =>
      simp only [Link.Synced, hs] at h ⊢
      grind
  | bits hs =>
      simp only [Link.Synced, hs] at h ⊢
      grind
  | update hs =>
      simp only [Link.Synced, hs] at h ⊢
      grind

/-- A client that sees its bit published by a server in order, for a call that was executed
with `v`, sees `v` published. -/
theorem Link.Tracks.pass
    {k : Nat} {l : Link V} {v : V} (ht : l.Tracks (.executed v)) (hs : l.Synced k)
    (hc : l.client = .waiting) (hb : l.response = l.mine) :
  { l with client := Side.reading }.Tracks (.executed v)
  := by
  simp only [Link.Tracks, hc, true_and, reduceCtorEq, false_and, or_false] at ht
  obtain ⟨hm, ⟨hr, ⟨hst⟩ | ⟨hst, hv⟩⟩ | ⟨hr, hns, hv⟩⟩ := ht
  · simp only [Link.Synced, hst] at hs
    exact absurd (hs.2.1.symm.trans (hb.trans hm)).symm hr
  · simp only [Link.Synced, hst] at hs
    exact absurd (hs.2.symm.trans (hb.trans hm)).symm hr
  · have hresp : l.response = l.socket := hb.trans (hm.trans hr)
    have hret : l.returned = l.stored := by
      cases hst : l.stage <;> simp only [Link.Synced, hst] at hs <;>
        simp only [Stage.Serving, hst, not_true] at hns <;> grind
    simp only [Link.Tracks, Link.Settled, reduceCtorEq, false_and, false_or, true_and]
    exact ⟨hm, ⟨hr, hresp, hns⟩, hv, hret.trans hv⟩

/-- Every step of a pair is one the phase of the call allows, and keeps the invariant for
the next phase. -/
theorem Link.Good.step
    [DecidableEq V] {k n : Nat} (hk : k < n) {l l' : Link V} {e : Option (Event V)}
    {p : Phase V} (hstep : l.Step k n e l') (h : l.Good k p) :
  ∃ p', p.after e = some p' ∧ l'.Good k p'
  := by
  have hsynced := h.1.step hk hstep
  obtain ⟨hs, ht⟩ := h
  suffices ∃ p', p.after e = some p' ∧ l'.Tracks p' by
    obtain ⟨p', hp', ht'⟩ := this
    use p', hp', hsynced
  cases hstep with
  | stay => use p, rfl
  | call hc =>
      cases p <;> simp_all [Link.Tracks, Phase.after, Phase.next, Link.Settled]
  | flip hc =>
      use p, rfl
      cases p <;> simp_all [Link.Tracks, Link.Settled]
  | flag hc =>
      cases p <;> simp_all [Link.Tracks, Phase.after, Phase.next, Link.Settled]
      grind
  | pass hc hb =>
      use p, rfl
      cases p with
      | executed v => exact ht.pass hs hc hb
      | _ => simp only [Link.Tracks, Link.Settled] at ht ⊢; grind
  | ret hc =>
      cases p <;> simp_all [Link.Tracks, Phase.after, Phase.next, Link.Settled]
  | hit hst hb =>
      use p, rfl
      simp only [Link.Synced, hst] at hs
      cases p <;> simp only [Link.Tracks, Link.Settled, Stage.Serving, hst] at ht ⊢ <;> grind
  | miss hst hb =>
      use p, rfl
      cases p <;> simp only [Link.Tracks, Link.Settled, Stage.Serving, hst] at ht ⊢ <;> grind
  | execute v hst =>
      cases p <;> simp_all [Link.Tracks, Link.Settled, Phase.after, Phase.next, Stage.Serving]
  | store v hst =>
      use p, rfl
      cases p <;> simp only [Link.Tracks, Link.Settled, Stage.Serving, hst] at ht ⊢ <;> grind
  | toggle hst =>
      use p, rfl
      cases p <;> simp only [Link.Tracks, Link.Settled, Stage.Serving, hst] at ht ⊢ <;> grind
  | skip hst hb =>
      use p, rfl
      cases p <;> simp only [Link.Tracks, Link.Settled, Stage.Serving, hst] at ht ⊢ <;> grind
  | publish hst =>
      use p, rfl
      cases p <;> simp only [Link.Tracks, Link.Settled, Stage.Serving, hst] at ht ⊢ <;> grind
  | word j hst hj =>
      use p, rfl
      cases p <;> simp only [Link.Tracks, Link.Settled, Stage.Serving, hst] at ht ⊢ <;> grind
  | bits hst =>
      use p, rfl
      simp only [Link.Synced, hst] at hs
      cases p <;> simp only [Link.Tracks, Link.Settled, Stage.Serving, hst] at ht ⊢ <;> grind
  | update hst =>
      use p, rfl
      cases p <;> simp only [Link.Tracks, Link.Settled, Stage.Serving, hst] at ht ⊢ <;> grind

/-! ### Progress -/

/-- The server has left the mailbox in this pass without having served the request in it. -/
def Link.Missed (l : Link V) : Prop :=
  l.request ≠ l.socket ∧ (l.stage = .behind ∨ (∃ j, l.stage = .copy j) ∨ l.stage = .update)

/-- No server leaves a mailbox without serving the request that is in it. -/
theorem Link.Good.missed_of_step
    {k n : Nat} {l l' : Link V} {e : Option (Event V)} {p : Phase V} (h : l.Good k p)
    (hc : l.client = .waiting) (hstep : l.Step k n e l') (hm : l'.Missed) :
  l.Missed
  := by
  obtain ⟨hs, ht⟩ := h
  cases hstep with
  | miss hst hb =>
      simp only [Link.Synced, hst] at hs
      exact absurd (hb.symm.trans hs.1) hm.1
  | toggle hst =>
      cases p <;> simp only [Link.Tracks, Link.Settled, Stage.Serving, hst] at ht <;>
        simp only [Link.Missed] at hm <;> grind
  | _ => simp only [Link.Missed] at hm ⊢; grind

/-- At the end of a pass, a request that is not answered is one the server has missed. -/
theorem Link.Good.missed_of_update
    {k : Nat} {l : Link V} {p : Phase V} (h : l.Good k p) (hc : l.client = .waiting)
    (hr : l.response ≠ l.mine) (hst : l.stage = .update) :
  l.Missed
  := by
  obtain ⟨hs, ht⟩ := h
  simp only [Link.Synced, hst] at hs
  have hm : l.mine = l.request := by
    cases p <;> simp only [Link.Tracks, hc, Link.Settled] at ht <;> grind
  exact ⟨fun heq => hr (hs.1.trans (heq.symm.trans hm.symm)), .inr (.inr hst)⟩

/-- An answer stays until the client takes it. -/
theorem Link.Good.response_of_step
    {k n : Nat} {l l' : Link V} {e : Option (Event V)} {p : Phase V} (h : l.Good k p)
    (hc : l.client = .waiting) (hr : l.response = l.mine) (hstep : l.Step k n e l') :
  l'.response = l'.mine
  := by
  obtain ⟨hs, ht⟩ := h
  cases hstep with
  | bits hst =>
      simp only [Link.Synced, hst] at hs
      cases p <;> simp only [Link.Tracks, hc, Link.Settled, hst] at ht ⊢ <;> grind
  | _ => simp_all

/-! ### What has been executed -/

/-- The value an event is the execution of. -/
def Event.executed : Event V → Option V
  | .execute v => some v
  | _ => none

/-- The private bit says whether the number of the values that have been executed is odd, and the
value kept is the last of them; between the call and the toggle, the bit and then the value are
one behind. -/
def Link.Tallied (l : Link V) (vs : List V) : Prop :=
  match l.stage with
  | .store v => l.socket = !vs.length.bodd ∧ vs.getLast? = some v
  | .toggle => l.socket = !vs.length.bodd ∧ ∀ v ∈ vs.getLast?, l.stored = v
  | _ => l.socket = vs.length.bodd ∧ ∀ v ∈ vs.getLast?, l.stored = v

theorem Link.Tallied.step
    {k n : Nat} {l l' : Link V} {e : Option (Event V)} {vs : List V} (hstep : l.Step k n e l')
    (h : l.Tallied vs) :
  l'.Tallied (vs ++ (e.bind Event.executed).toList)
  := by
  cases hstep with
  | execute v hs =>
      simp only [Link.Tallied, hs] at h
      simp [Link.Tallied, Event.executed, h.1]
  | stay | call | flip | flag | pass | ret =>
      simp only [Option.bind_none, Option.bind_some, Event.executed, Option.toList_none,
        List.append_nil]
      exact h
  | hit hs | miss hs | store v hs | toggle hs | skip hs | publish hs | word j hs | bits hs
  | update hs =>
      simp only [Link.Tallied, hs] at h
      simp_all [Link.Tallied]

/-- At the end of a pass, the published bit and the published value are those of the last
execution. -/
theorem Link.Tallied.published
    {k : Nat} {l : Link V} {vs : List V} (h : l.Tallied vs) (hs : l.Synced k)
    (hst : l.stage = .away) :
  l.response = vs.length.bodd ∧ ∀ v ∈ vs.getLast?, l.returned = v
  := by
  simp only [Link.Tallied, hst] at h
  simp only [Link.Synced, hst] at hs
  obtain ⟨-, hresponse, hreturned⟩ := hs
  rw [hresponse, hreturned]
  exact h

end Handshake
