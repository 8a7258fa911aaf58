import Ffwd.Lib.Handshake
import Ffwd.Delegation.Protocol

/-!
# The mailboxes of the delegation protocol

Every request slot of every server is a mailbox of the handshake: its bits are the bits
of the slot in the flag words of its chip, its values are the words of the slot in the
response line. `linkAt` reads the state of a mailbox off the state of the system, and
every step of a server is, for every mailbox, a step of the handshake.
-/

namespace Delegation

open Handshake (Link Stage Side)

/-! ### Bits -/

theorem getLsbD_mask {id : Nat} (hid : id < 64) (j : Nat) :
  (mask id).getLsbD j = decide (j = id)
  := by
  have hmask : mask id = BitVec.twoPow 64 id := rfl
  rw [hmask, BitVec.getLsbD_twoPow]
  grind

/-- The test of a slot looks at its bit only. -/
theorem xor_and_mask_eq_zero_iff {id : Nat} (hid : id < 64) (x y : Word) :
  (x ^^^ y) &&& mask id = 0 ↔ x.getLsbD id = y.getLsbD id
  := by
  have hmask : mask id = BitVec.twoPow 64 id := rfl
  have hne : BitVec.twoPow 64 id ≠ 0#64 := by
    intro h
    have hbit := getLsbD_mask hid id
    rw [hmask, h] at hbit
    simp at hbit
  rw [hmask, BitVec.and_twoPow, BitVec.getLsbD_xor]
  cases x.getLsbD id <;> cases y.getLsbD id <;> simp [hne]

/-- Toggling the bit of a slot toggles this bit and no other. -/
theorem getLsbD_xor_mask {id : Nat} (hid : id < 64) (x : Word) (j : Nat) :
  (x ^^^ mask id).getLsbD j = (if j = id then !x.getLsbD j else x.getLsbD j)
  := by
  rw [BitVec.getLsbD_xor, getLsbD_mask hid]
  by_cases h : j = id <;> simp [h]

/-! ### Slots and half-sockets -/

/-- The half-socket of a slot. -/
def halfOf (nclients : Nat) (chip : Fin 4) (id : Nat) : Half :=
  ⟨chip, decide (nclients ≤ id)⟩

@[simp] theorem halfOf_chip (nclients : Nat) (chip : Fin 4) (id : Nat) :
  (halfOf nclients chip id).chip = chip
  := rfl

theorem slot_eq_iff
    {nclients k : Nat} (hk : k < nclients) (h : Half) (chip : Fin 4) {id : Nat}
    (hid : id < 2 * nclients) :
  h.chip = chip ∧ h.slot nclients k = id ↔ h = halfOf nclients chip id ∧ k = id % nclients
  := by
  obtain ⟨c, u⟩ := h
  have hmod : id % nclients = if nclients ≤ id then id - nclients else id := by
    split
    · rw [Nat.mod_eq_sub_mod (by omega), Nat.mod_eq_of_lt (by omega)]
    · exact Nat.mod_eq_of_lt (by omega)
  simp only [halfOf, Half.slot, add2Half1, add2Half2, Half.mk.injEq, hmod]
  cases u <;> by_cases h : nclients ≤ id <;> simp [h] <;> omega

theorem slot_lt {nclients k : Nat} (hk : k < nclients) (h : Half) :
  h.slot nclients k < 2 * nclients
  := by
  simp only [Half.slot, add2Half1, add2Half2]
  split <;> omega

theorem slot_mod {nclients k : Nat} (hk : k < nclients) (h : Half) :
  h.slot nclients k % nclients = k
  := by
  simp only [Half.slot, add2Half1, add2Half2]
  split
  · rw [Nat.add_mod_left, Nat.mod_eq_of_lt hk]
  · exact Nat.mod_eq_of_lt hk

/-- No two half-sockets are published on one line. -/
theorem line_injective : Function.Injective Half.line := by
  rintro ⟨c, u⟩ ⟨d, v⟩ h
  simp only [Half.line, maxSock] at h
  have hu : u.toNat < 2 := Bool.toNat_lt u
  have hv : v.toNat < 2 := Bool.toNat_lt v
  have hc : (c : Nat) = d := by omega
  have huv : u = v := by
    cases u <;> cases v <;> simp_all
  rw [Fin.ext hc, huv]

/-- The line of a slot is the one its client polls. -/
theorem halfOf_line {nclients id : Nat} (hid : id < 2 * nclients) (chip : Fin 4) :
  (halfOf nclients chip id).line = chip * maxSock + id / nclients
  := by
  simp only [Half.line, halfOf]
  by_cases h : nclients ≤ id
  · have hdiv : id / nclients = 1 := Nat.div_eq_of_lt_le (by omega) (by omega)
    simp [h, hdiv]
  · simp [h, Nat.div_eq_of_lt (not_le.mp h)]

/-! ### Mailboxes -/

/-- Where a server is, seen from slot `k` of half-socket `h`. -/
def ServerPc.stage (h : Half) (k : Nat) : ServerPc → Stage Word
  | .test h' k' => if h' = h ∧ k < k' then .behind else .away
  | .execute h' k' => if h' = h ∧ k < k' then .behind else if h' = h ∧ k = k' then .execute else .away
  | .store h' k' rax =>
      if h' = h ∧ k < k' then .behind else if h' = h ∧ k = k' then .store rax else .away
  | .toggle h' k' => if h' = h ∧ k < k' then .behind else if h' = h ∧ k = k' then .toggle else .away
  | .compare h' | .setFlags h' => if h' = h then .behind else .away
  | .copy h' j => if h' = h then .copy j else .away
  | .update h' => if h' = h then .update else .away

/-- The server's indices are in range. -/
def ServerPc.InRange (nclients : Nat) : ServerPc → Prop
  | .test _ k | .execute _ k | .store _ k _ | .toggle _ k => k < nclients
  | .copy _ j => j ≤ nclients
  | _ => True

variable {ι : Type}

/-- The mailbox of slot `id` of a chip at a server, for a client that is at `side` and
whose own copy of the bit is `mine`. -/
def linkAt (nclients : Nat) (s : State ι) (sv : Nat) (chip : Fin 4) (id : Nat) (side : Side)
    (mine : Bool) : Link Word where
  client := side
  mine := mine
  request := (s.request sv chip id).flag.getLsbD id
  old := ((s.servers sv).oldClientFlags chip).getLsbD id
  socket := ((s.servers sv).socketClientFlags chip).getLsbD id
  copied := ((s.servers sv).localReturnValues (halfOf nclients chip id).line nclients).getLsbD id
  response := (s.response sv (halfOf nclients chip id).line).flags.getLsbD id
  stage := (s.servers sv).pc.stage (halfOf nclients chip id) (id % nclients)
  stored := (s.servers sv).localReturnValues (halfOf nclients chip id).line (id % nclients)
  returned := (s.response sv (halfOf nclients chip id).line).returnValues (id % nclients)

/-- The part of an event that concerns the mailbox of a slot at a server, as far as
executions go. -/
def executionAt (sv : Nat) (chip : Fin 4) (id : Nat) : Event ι → Option (Handshake.Event Word)
  | .execute sv' chip' id' _ _ value =>
      if sv' = sv ∧ chip' = chip ∧ id' = id then some (.execute value) else none
  | _ => none

/-- What a step of a server records. -/
def serverEvents (nclients : Nat) (s : State ι) (sv : Nat) (value : Word) : Option (Event ι) :=
  match (s.servers sv).pc with
  | .execute h k =>
      let r := s.request sv h.chip (h.slot nclients k)
      some (.execute sv h.chip (h.slot nclients k) r.fptr ((List.range 5).map r.argv) value)
  | _ => none

theorem serverStep_log (nclients : Nat) (s : State ι) (sv : Nat) (value : Word) :
  (serverStep nclients s sv value).log = s.log ++ (serverEvents nclients s sv value).toList
  := by
  simp only [serverStep, serverEvents]
  cases (s.servers sv).pc <;> simp only [] <;> (try split) <;>
    simp [State.setServer, State.setResponse, State.record]

/-- Nothing changes in the mailboxes of other servers. -/
theorem serverStep_linkAt_of_ne
    {nclients : Nat} {s : State ι} {sv sv' : Nat} (hsv : sv ≠ sv') (value : Word)
    (chip : Fin 4) (id : Nat) (side : Side) (mine : Bool) :
  linkAt nclients (serverStep nclients s sv' value) sv chip id side mine
    = linkAt nclients s sv chip id side mine
  := by
  simp only [serverStep]
  cases (s.servers sv').pc <;> simp only [] <;> (try split) <;>
    simp [linkAt, State.setServer, State.setResponse, State.record, hsv]

section Stage

variable {h h' : Half} {k k' : Nat}

@[simp] theorem stage_test :
  (ServerPc.test h' k').stage h k = if h' = h ∧ k < k' then .behind else .away
  := rfl

@[simp] theorem stage_execute :
  (ServerPc.execute h' k').stage h k
    = if h' = h ∧ k < k' then .behind else if h' = h ∧ k = k' then .execute else .away
  := rfl

@[simp] theorem stage_store {rax : Word} :
  (ServerPc.store h' k' rax).stage h k
    = if h' = h ∧ k < k' then .behind else if h' = h ∧ k = k' then .store rax else .away
  := rfl

@[simp] theorem stage_toggle :
  (ServerPc.toggle h' k').stage h k
    = if h' = h ∧ k < k' then .behind else if h' = h ∧ k = k' then .toggle else .away
  := rfl

@[simp] theorem stage_compare :
  (ServerPc.compare h').stage h k = if h' = h then .behind else .away
  := rfl

@[simp] theorem stage_setFlags :
  (ServerPc.setFlags h').stage h k = if h' = h then .behind else .away
  := rfl

@[simp] theorem stage_copy {j : Nat} :
  (ServerPc.copy h' j).stage h k = if h' = h then .copy j else .away
  := rfl

@[simp] theorem stage_update :
  (ServerPc.update h').stage h k = if h' = h then .update else .away
  := rfl

/-- A slot's mailbox is behind the server exactly when the slot is one the server has
left in this half-socket. -/
theorem stage_afterSlot {nclients : Nat} (hk : k < nclients) :
  (afterSlot nclients h' k').stage h k = if h' = h ∧ k ≤ k' then .behind else .away
  := by
  simp only [afterSlot]
  split
  · simp only [stage_test, Nat.lt_succ_iff]
  · simp only [stage_compare]
    grind

end Stage

section Step

variable {nclients : Nat} {s : State ι} {sv : Nat} {value : Word} {chip : Fin 4} {id : Nat}
  {side : Side} {mine : Bool} {h : Half} {k : Nat}

theorem serverStep_linkAt_test
    (hfits : 2 * nclients ≤ 64) (hid : id < 2 * nclients) (hp : (s.servers sv).pc = .test h k)
    (hk : k < nclients) :
  (linkAt nclients s sv chip id side mine).Step (id % nclients) nclients none
    (linkAt nclients (serverStep nclients s sv value) sv chip id side mine)
  := by
  have hmod : id % nclients < nclients := Nat.mod_lt _ (by omega)
  have hslot := slot_eq_iff hk h chip hid
  simp only [serverStep, hp]
  by_cases hown : h = halfOf nclients chip id ∧ k = id % nclients
  · obtain ⟨hchip, hsl⟩ := hslot.mpr hown
    obtain ⟨hh, rfl⟩ := hown
    have hstage : (linkAt nclients s sv chip id side mine).stage = .away := by
      simp [linkAt, hp]
    simp only [hchip, hsl, ne_eq, xor_and_mask_eq_zero_iff (show id < 64 by omega)]
    split
    · next hb =>
      convert Link.Step.hit _ hstage hb using 1
      simp [linkAt, State.setServer, hh]
    · next hb =>
      convert Link.Step.miss _ hstage (not_not.mp hb) using 1
      simp [linkAt, State.setServer, stage_afterSlot hmod, hh]
  · split
    · convert Link.Step.stay _ using 1
      simp [linkAt, State.setServer, hp]
      grind
    · convert Link.Step.stay _ using 1
      simp [linkAt, State.setServer, hp, stage_afterSlot hmod]
      grind

theorem serverStep_linkAt_execute
    (hid : id < 2 * nclients) (hp : (s.servers sv).pc = .execute h k) (hk : k < nclients) :
  (linkAt nclients s sv chip id side mine).Step (id % nclients) nclients
    ((serverEvents nclients s sv value).bind (executionAt sv chip id))
    (linkAt nclients (serverStep nclients s sv value) sv chip id side mine)
  := by
  have hslot := slot_eq_iff hk h chip hid
  simp only [serverEvents, serverStep, hp, Option.bind_some, executionAt, true_and]
  by_cases hown : h = halfOf nclients chip id ∧ k = id % nclients
  · rw [if_pos (hslot.mpr hown)]
    obtain ⟨hh, rfl⟩ := hown
    convert Link.Step.execute _ value _ using 1
    · simp [linkAt, State.setServer, State.record, hh]
    · simp [linkAt, hp, hh]
  · rw [if_neg (fun hc => hown (hslot.mp hc))]
    convert Link.Step.stay _ using 1
    simp [linkAt, State.setServer, State.record, hp]
    grind

theorem serverStep_linkAt_store
    {rax : Word} (hmod : id % nclients < nclients) (hp : (s.servers sv).pc = .store h k rax)
    (hk : k < nclients) :
  (linkAt nclients s sv chip id side mine).Step (id % nclients) nclients none
    (linkAt nclients (serverStep nclients s sv value) sv chip id side mine)
  := by
  simp only [serverStep, hp, slot_mod hk]
  by_cases hown : h = halfOf nclients chip id ∧ k = id % nclients
  · obtain ⟨hh, rfl⟩ := hown
    convert Link.Step.store _ rax _ using 1
    · simp [linkAt, State.setServer, hh, hmod.ne']
    · simp [linkAt, hp, hh]
  · convert Link.Step.stay _ using 1
    simp [linkAt, State.setServer, hp, Function.update_apply, line_injective.eq_iff]
    grind

theorem serverStep_linkAt_toggle
    (hfits : 2 * nclients ≤ 64) (hid : id < 2 * nclients)
    (hp : (s.servers sv).pc = .toggle h k) (hk : k < nclients) :
  (linkAt nclients s sv chip id side mine).Step (id % nclients) nclients none
    (linkAt nclients (serverStep nclients s sv value) sv chip id side mine)
  := by
  have hmod : id % nclients < nclients := Nat.mod_lt _ (by omega)
  have hslot := slot_eq_iff hk h chip hid
  have hlt : h.slot nclients k < 64 := (slot_lt hk h).trans_le hfits
  have hbit := getLsbD_xor_mask hlt
  simp only [serverStep, hp]
  by_cases hown : h = halfOf nclients chip id ∧ k = id % nclients
  · obtain ⟨hchip, hsl⟩ := hslot.mpr hown
    obtain ⟨hh, rfl⟩ := hown
    convert Link.Step.toggle _ _ using 1
    · rw [hsl] at hbit
      simp only [linkAt, State.setServer, Function.update_self, hchip, hsl, hbit]
      simp [stage_afterSlot hmod, hh]
    · simp [linkAt, hp, hh]
  · convert Link.Step.stay _ using 1
    simp only [linkAt, State.setServer, Function.update_apply, hp]
    simp [stage_afterSlot hmod]
    grind

theorem serverStep_linkAt_compare (hp : (s.servers sv).pc = .compare h) :
  (linkAt nclients s sv chip id side mine).Step (id % nclients) nclients none
    (linkAt nclients (serverStep nclients s sv value) sv chip id side mine)
  := by
  simp only [serverStep, hp]
  split
  · convert Link.Step.stay _ using 1
    simp [linkAt, State.setServer, hp]
  · next hb =>
    by_cases hown : h = halfOf nclients chip id
    · have heq : (s.servers sv).oldClientFlags chip = (s.servers sv).socketClientFlags chip := by
        rw [hown, halfOf_chip] at hb
        exact BitVec.xor_eq_zero_iff.mp (not_not.mp hb)
      convert Link.Step.skip _ _ _ using 1
      · simp [linkAt, State.setServer, hown]
      · simp [linkAt, hp, hown]
      · simp [linkAt, heq]
    · convert Link.Step.stay _ using 1
      simp [linkAt, State.setServer, hp, hown]

theorem serverStep_linkAt_setFlags
    (hmod : id % nclients < nclients) (hp : (s.servers sv).pc = .setFlags h) :
  (linkAt nclients s sv chip id side mine).Step (id % nclients) nclients none
    (linkAt nclients (serverStep nclients s sv value) sv chip id side mine)
  := by
  simp only [serverStep, hp]
  by_cases hown : h = halfOf nclients chip id
  · convert Link.Step.publish _ _ using 1
    · simp [linkAt, State.setServer, hown, hmod.ne]
    · simp [linkAt, hp, hown]
  · convert Link.Step.stay _ using 1
    simp [linkAt, State.setServer, hp, line_injective.eq_iff, hown, Ne.symm hown]

theorem serverStep_linkAt_copy
    {j : Nat} (hp : (s.servers sv).pc = .copy h j) (hj : j ≤ nclients) :
  (linkAt nclients s sv chip id side mine).Step (id % nclients) nclients none
    (linkAt nclients (serverStep nclients s sv value) sv chip id side mine)
  := by
  simp only [serverStep, hp]
  by_cases hown : h = halfOf nclients chip id
  · split
    · next hlt =>
      convert Link.Step.word _ j _ hlt using 1
      · simp only [linkAt, State.setServer, State.setResponse, Function.update_apply, hown]
        simp
        grind
      · simp [linkAt, hp, hown]
    · obtain rfl : j = nclients := by omega
      convert Link.Step.bits _ _ using 1
      · simp [linkAt, State.setServer, State.setResponse, hown]
      · simp [linkAt, hp, hown]
  · split <;>
    · convert Link.Step.stay _ using 1
      simp [linkAt, State.setServer, State.setResponse, hp, line_injective.eq_iff, hown,
        Ne.symm hown]

/-- Recording a pass over the other half of a socket changes nothing for a mailbox of this
half: its bit was recorded when its own half was passed. -/
theorem serverStep_linkAt_update
    (hs : (linkAt nclients s sv chip id side mine).Synced (id % nclients))
    (hp : (s.servers sv).pc = .update h) :
  (linkAt nclients s sv chip id side mine).Step (id % nclients) nclients none
    (linkAt nclients (serverStep nclients s sv value) sv chip id side mine)
  := by
  simp only [serverStep, hp]
  by_cases hown : h = halfOf nclients chip id
  · convert Link.Step.update _ _ using 1
    · simp [linkAt, State.setServer, hown]
    · simp [linkAt, hp, hown]
  · convert Link.Step.stay _ using 1
    simp [Link.Synced, linkAt, hp, hown] at hs
    simp [linkAt, State.setServer, hp, hown, Function.update_apply]
    grind

/-- A step of a server, seen from one of its mailboxes. -/
theorem serverStep_linkAt
    (value : Word) (hfits : 2 * nclients ≤ 64) (hpc : (s.servers sv).pc.InRange nclients)
    (hid : id < 2 * nclients)
    (hs : (linkAt nclients s sv chip id side mine).Synced (id % nclients)) :
  (linkAt nclients s sv chip id side mine).Step (id % nclients) nclients
    ((serverEvents nclients s sv value).bind (executionAt sv chip id))
    (linkAt nclients (serverStep nclients s sv value) sv chip id side mine)
  := by
  have hmod : id % nclients < nclients := Nat.mod_lt _ (by omega)
  cases hp : (s.servers sv).pc with
  | execute h k =>
      rw [hp] at hpc
      exact serverStep_linkAt_execute hid hp hpc
  | test h k =>
      rw [hp] at hpc
      simpa [serverEvents, hp] using serverStep_linkAt_test hfits hid hp hpc
  | store h k rax =>
      rw [hp] at hpc
      simpa [serverEvents, hp] using serverStep_linkAt_store hmod hp hpc
  | toggle h k =>
      rw [hp] at hpc
      simpa [serverEvents, hp] using serverStep_linkAt_toggle hfits hid hp hpc
  | compare h => simpa [serverEvents, hp] using serverStep_linkAt_compare hp
  | setFlags h => simpa [serverEvents, hp] using serverStep_linkAt_setFlags hmod hp
  | copy h j =>
      rw [hp] at hpc
      simpa [serverEvents, hp] using serverStep_linkAt_copy hp hpc
  | update h => simpa [serverEvents, hp] using serverStep_linkAt_update hs hp

end Step

theorem serverStep_inRange_self
    {nclients : Nat} (hpos : 0 < nclients) {s : State ι} {sv : Nat} (value : Word)
    (hpc : (s.servers sv).pc.InRange nclients) :
  ((serverStep nclients s sv value).servers sv).pc.InRange nclients
  := by
  have hafter : ∀ h k, (afterSlot nclients h k).InRange nclients := by
    intro h k
    simp only [afterSlot]
    split <;> simp_all [ServerPc.InRange]
  simp only [serverStep]
  cases hp : (s.servers sv).pc <;> rw [hp] at hpc <;> simp only [] <;> (try split) <;>
    simp_all [State.setServer, State.setResponse, State.record, ServerPc.InRange]

theorem serverStep_inRange
    {nclients : Nat} (hpos : 0 < nclients) {s : State ι} (sv : Nat) (value : Word)
    (h : ∀ sv, (s.servers sv).pc.InRange nclients) (sv' : Nat) :
  ((serverStep nclients s sv value).servers sv').pc.InRange nclients
  := by
  by_cases hsv : sv' = sv
  · subst hsv
    exact serverStep_inRange_self hpos value (h sv')
  · have hsame : (serverStep nclients s sv value).servers sv' = s.servers sv' := by
      simp only [serverStep]
      cases (s.servers sv).pc <;> simp only [] <;> (try split) <;>
        simp [State.setServer, State.setResponse, State.record, hsv]
    rw [hsame]
    exact h sv'

/-- A step of a server changes neither the clients nor the requests. -/
theorem serverStep_frame (nclients : Nat) (s : State ι) (sv : Nat) (value : Word) :
  (serverStep nclients s sv value).clients = s.clients ∧
    (serverStep nclients s sv value).request = s.request
  := by
  simp only [serverStep]
  cases (s.servers sv).pc <;> simp only [] <;> (try split) <;>
    simp [State.setServer, State.setResponse, State.record]

/-- A server's mailbox moves by a step of the handshake, whatever server makes the step. -/
theorem serverStep_good
    {L : Layout ι} {s : State ι} (sv : Nat) (value : Word) {chip : Fin 4} {id : Nat}
    {side : Side} {mine : Bool} {p : Handshake.Phase Word}
    (hpc : ∀ sv, (s.servers sv).pc.InRange L.nclients) (hid : id < 2 * L.nclients) (sv' : Nat)
    (h : (linkAt L.nclients s sv' chip id side mine).Good (id % L.nclients) p) :
  ∃ p', p.after ((serverEvents L.nclients s sv value).bind (executionAt sv' chip id)) = some p' ∧
    (linkAt L.nclients (serverStep L.nclients s sv value) sv' chip id side mine).Good
      (id % L.nclients) p'
  := by
  have hmod : id % L.nclients < L.nclients := Nat.mod_lt _ L.pos
  by_cases hsv : sv' = sv
  · subst hsv
    exact h.step hmod (serverStep_linkAt value L.fits (hpc sv') hid h.1)
  · have hnone : (serverEvents L.nclients s sv value).bind (executionAt sv' chip id) = none := by
      simp only [serverEvents]
      split <;> simp [executionAt, Ne.symm hsv]
    rw [hnone, serverStep_linkAt_of_ne hsv]
    exact ⟨p, rfl, h⟩

end Delegation
