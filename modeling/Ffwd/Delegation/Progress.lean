import Ffwd.Delegation.Exec

/-!
# A polling client is answered

A server passes over every slot, so a request that is flagged is executed and published
within two rounds of the server it addresses. `remaining` counts the steps a server can
make before it has passed over a half-socket.
-/

namespace Delegation

open Handshake (Link Stage Side)

/-! ### How far a server is from the end of a half-socket -/

/-- The number of a half-socket in the round. -/
def Half.index (h : Half) : Nat := 2 * h.chip + h.upper.toNat

/-- The half-socket a server is in. -/
def ServerPc.half : ServerPc → Half
  | .test h _ | .execute h _ | .store h _ _ | .toggle h _ | .compare h | .setFlags h
  | .copy h _ | .update h => h

/-- The place of a position among the positions of a half-socket. -/
def ServerPc.place (nclients : Nat) : ServerPc → Nat
  | .test _ k => 4 * k
  | .execute _ k => 4 * k + 1
  | .store _ k _ => 4 * k + 2
  | .toggle _ k => 4 * k + 3
  | .compare _ => 4 * nclients
  | .setFlags _ => 4 * nclients + 1
  | .copy _ j => 4 * nclients + 2 + j
  | .update _ => 5 * nclients + 3

/-- The number of positions in a half-socket. -/
def places (nclients : Nat) : Nat := 5 * nclients + 4

/-- A bound on the steps a server makes before it has passed over half-socket `h`. -/
def ServerPc.remaining (nclients : Nat) (h : Half) (pc : ServerPc) : Nat :=
  (h.index + 8 - pc.half.index) % 8 * places nclients + (places nclients - 1 - pc.place nclients)

theorem Half.index_lt (h : Half) : h.index < 8 := by
  have := h.upper.toNat_lt
  have := h.chip.isLt
  simp only [Half.index]
  omega

theorem Half.index_injective : Function.Injective Half.index := by
  rintro ⟨c, u⟩ ⟨d, v⟩ h
  simp only [Half.index] at h
  cases u <;> cases v <;> simp at h ⊢ <;> omega

theorem Half.index_next (h : Half) : h.next.index = (h.index + 1) % 8 := by
  obtain ⟨c, u⟩ := h
  fin_cases c <;> cases u <;> rfl

theorem ServerPc.place_lt {nclients : Nat} {pc : ServerPc} (h : pc.InRange nclients) :
  pc.place nclients < places nclients
  := by
  cases pc <;> simp only [ServerPc.InRange, ServerPc.place, places] at h ⊢ <;> omega

theorem ServerPc.remaining_lt
    {nclients : Nat} {pc : ServerPc} (h : Half) (hpc : pc.InRange nclients) :
  pc.remaining nclients h < 8 * places nclients
  := by
  have hd : (h.index + 8 - pc.half.index) % 8 ≤ 7 := by omega
  have hmul := Nat.mul_le_mul_right (places nclients) hd
  have := ServerPc.place_lt hpc
  simp only [ServerPc.remaining]
  omega

variable {ι : Type}

/-- A server moves forward in its half-socket, and from its end to the next one. -/
theorem serverStep_place
    {nclients : Nat} {s : State ι} {sv : Nat} (value : Word)
    (hpc : (s.servers sv).pc.InRange nclients) :
  let pc := (s.servers sv).pc
  let pc' := ((serverStep nclients s sv value).servers sv).pc
  (pc'.half = pc.half ∧ pc.place nclients < pc'.place nclients) ∨
    (∃ h, pc = .update h ∧ pc' = .test h.next 0)
  := by
  have hafter : ∀ h k, k < nclients → (afterSlot nclients h k).half = h ∧
      4 * k + 3 < (afterSlot nclients h k).place nclients := by
    intro h k hk
    simp only [afterSlot]
    split <;> simp only [ServerPc.half, ServerPc.place, true_and] <;> omega
  simp only [serverStep]
  cases hp : (s.servers sv).pc with
  | test h k =>
      rw [hp] at hpc
      obtain ⟨hhalf, hplace⟩ := hafter h k hpc
      left
      simp only []
      split
      · simp [State.setServer, ServerPc.half, ServerPc.place]
      · simp only [State.setServer, Function.update_self]
        exact ⟨hhalf, lt_trans (Nat.lt_add_of_pos_right (by decide)) hplace⟩
  | execute h k => left; simp [State.setServer, State.record, ServerPc.half, ServerPc.place]
  | store h k rax => left; simp [State.setServer, ServerPc.half, ServerPc.place]
  | toggle h k =>
      rw [hp] at hpc
      left
      simp only [State.setServer, Function.update_self]
      exact hafter h k hpc
  | compare h =>
      left
      simp only []
      split
      · simp [State.setServer, ServerPc.half, ServerPc.place]
      · simp only [State.setServer, Function.update_self, ServerPc.half, ServerPc.place, true_and]
        omega
  | setFlags h => left; simp [State.setServer, ServerPc.half, ServerPc.place]
  | copy h j =>
      rw [hp] at hpc
      simp only [ServerPc.InRange] at hpc
      left
      simp only []
      split
      · simp [State.setServer, ServerPc.half, ServerPc.place]
      · simp only [State.setServer, Function.update_self, ServerPc.half, ServerPc.place, true_and]
        omega
  | update h =>
      right
      simp [State.setServer]

/-- A server that is not at the end of `h` comes nearer to it. -/
theorem serverStep_remaining
    {nclients : Nat} (hpos : 0 < nclients) {s : State ι} {sv : Nat} (value : Word)
    (hpc : ∀ sv, (s.servers sv).pc.InRange nclients) {h : Half}
    (hne : (s.servers sv).pc ≠ .update h) :
  ((serverStep nclients s sv value).servers sv).pc.remaining nclients h
    < (s.servers sv).pc.remaining nclients h
  := by
  obtain ⟨hhalf, hplace⟩ | ⟨h', hp, hp'⟩ := serverStep_place value (hpc sv)
  · have hlt := ServerPc.place_lt (serverStep_inRange hpos sv value hpc sv)
    simp only [ServerPc.remaining, hhalf]
    omega
  · have hne' : h'.index ≠ h.index := by
      intro heq
      apply hne
      rw [hp, Half.index_injective heq]
    have hlt := h.index_lt
    have hlt' := h'.index_lt
    obtain ⟨d, hd⟩ : ∃ d, (h.index + 8 - h'.index) % 8 = d + 1 := ⟨(h.index + 8 - h'.index) % 8 - 1, by omega⟩
    have hd' : (h.index + 8 - (h'.index + 1) % 8) % 8 = d := by omega
    have hplaces : places nclients = 5 * nclients + 4 := rfl
    simp only [ServerPc.remaining, hp, hp', ServerPc.half, ServerPc.place, Half.index_next, hd, hd',
      Nat.add_one_mul]
    omega

/-! ### The answer -/

variable [DecidableEq ι]

/-- A bound on the steps the server of a waiting client makes before it has answered: it
has to reach the end of the client's half-socket, and to do so once more if it has left
the client's slot before the request was in it. -/
noncomputable def rank (L : Layout ι) (s : State ι) (i : ι) (sv : Nat) : Nat :=
  open Classical in
  (s.servers sv).pc.remaining L.nclients (halfOf L.nclients (L.chip i) (L.id i))
    + if (linkOf L s i sv).Missed then 8 * places L.nclients else 0

/-- The label is a step of server `sv`. -/
def Label.serves (sv : Nat) : Label ι → Bool
  | .server sv' _ => decide (sv' = sv)
  | _ => false

section Answer

variable {L : Layout ι} {s s' : State ι} {i : ι} {e : Exec}

omit [DecidableEq ι] in
theorem linkOf_waiting (hp : (s.clients i).pc = .poll e) :
  (linkOf L s i e.server).client = .waiting
  := by
  simp [linkOf, linkAt, hp, ClientPc.side]

omit [DecidableEq ι] in
theorem rank_lt (hpc : ∀ sv, (s.servers sv).pc.InRange L.nclients) (sv : Nat) :
  rank L s i sv < 16 * places L.nclients
  := by
  have := ServerPc.remaining_lt (halfOf L.nclients (L.chip i) (L.id i)) (hpc sv)
  simp only [rank]
  split <;> omega

theorem linkOf_step (h : Inv L s) (i : ι) (sv : Nat) (value : Word) :
  ∃ p ev, (linkOf L s i sv).Good (L.id i % L.nclients) p ∧
    (linkOf L s i sv).Step (L.id i % L.nclients) L.nclients ev
      (linkOf L (serverStep L.nclients s sv value) i sv)
  := by
  obtain ⟨cs, c, m, hc⟩ := h.clients i
  have hgood := hc.links sv
  have hstep := serverStep_linkAt value L.fits (h.inRange sv) (L.id_lt i) hgood.1
  rw [← linkOf_serverStep] at hstep
  exact ⟨_, _, hgood, hstep⟩

/-- A step of the server of a waiting client leaves it answered or comes nearer to its
answer. -/
theorem rank_serverStep
    (h : Inv L s) (hp : (s.clients i).pc = .poll e) (value : Word)
    (hr : (linkOf L s i e.server).response ≠ (linkOf L s i e.server).mine) :
  rank L (serverStep L.nclients s e.server value) i e.server < rank L s i e.server
  := by
  obtain ⟨p, ev, hgood, hstep⟩ := linkOf_step h i e.server value
  have hwait := linkOf_waiting (L := L) hp
  have hmissed := hgood.missed_of_step hwait hstep
  by_cases hup : (s.servers e.server).pc = .update (halfOf L.nclients (L.chip i) (L.id i))
  · have hm : (linkOf L s i e.server).Missed := by
      apply hgood.missed_of_update hwait hr
      simp [linkOf, linkAt, hup]
    have hm' : ¬ (linkOf L (serverStep L.nclients s e.server value) i e.server).Missed := by
      simp [Link.Missed, linkOf, linkAt, serverStep, hup, State.setServer]
    have := ServerPc.remaining_lt (halfOf L.nclients (L.chip i) (L.id i))
      (serverStep_inRange L.pos e.server value h.inRange e.server)
    simp only [rank, if_pos hm, if_neg hm']
    omega
  · have := serverStep_remaining L.pos value h.inRange hup
    simp only [rank]
    split
    · next hm' =>
      rw [if_pos (hmissed hm')]
      omega
    · omega

/-- A step that is neither the client's nor its server's changes nothing for the call. -/
theorem step_other
    (hp : (s.clients i).pc = .poll e) {l : Label ι} (hstep : step L s l = some s')
    (hl : l ≠ .client i) (hsv : l.serves e.server = false) :
  s'.clients i = s.clients i ∧ s'.servers e.server = s.servers e.server ∧
    linkOf L s' i e.server = linkOf L s i e.server
  := by
  have hmoved : ∀ j, j ≠ i → ClientMove L j s s' → s'.clients i = s.clients i ∧
      s'.servers e.server = s.servers e.server ∧
      linkOf L s' i e.server = linkOf L s i e.server := by
    intro j hj hmove
    have hclient := hmove.clients i hj.symm
    have hrequest := hmove.request e.server (L.chip i) (L.id i)
      (fun heq => hj (L.inj j i heq.1 heq.2))
    exact ⟨hclient, by rw [hmove.servers],
      by simp only [linkOf, linkAt, hclient, hmove.servers, hmove.response, hrequest]⟩
  cases l with
  | start j e' =>
      obtain ⟨hmove, hidle, -⟩ := start_move (L := L) hstep
      apply hmoved j _ hmove
      rintro rfl
      rw [hp] at hidle
      cases hidle
  | client j =>
      apply hmoved j _ (clientStep_move hstep)
      rintro rfl
      exact hl rfl
  | server sv value =>
      obtain rfl := Option.some.inj hstep
      have hne : e.server ≠ sv := by
        rintro rfl
        simp [Label.serves] at hsv
      refine ⟨by rw [(serverStep_frame L.nclients s sv value).1], ?_, ?_⟩
      · simp only [serverStep]
        cases (s.servers sv).pc <;> simp only [] <;> (try split) <;>
          simp [State.setServer, State.setResponse, State.record, hne]
      · rw [linkOf_serverStep, serverStep_linkAt_of_ne hne, linkOf]

/-- While a client polls, it stays answered, and unless it is answered every step of its
server brings it nearer to its answer. -/
theorem poll_step
    (h : Inv L s) (hp : (s.clients i).pc = .poll e) {l : Label ι} (hstep : step L s l = some s')
    (hl : l ≠ .client i) :
  (s'.clients i).pc = .poll e ∧
    ((linkOf L s i e.server).response = (linkOf L s i e.server).mine →
      (linkOf L s' i e.server).response = (linkOf L s' i e.server).mine) ∧
    ((linkOf L s i e.server).response ≠ (linkOf L s i e.server).mine →
      rank L s' i e.server + (if l.serves e.server then 1 else 0) ≤ rank L s i e.server)
  := by
  cases hsv : l.serves e.server with
  | false =>
      obtain ⟨hclient, hserver, hlink⟩ := step_other hp hstep hl hsv
      have hrank : rank L s' i e.server = rank L s i e.server := by
        rw [rank, rank, hserver, hlink]
      simp [hclient, hp, hlink, hrank]
  | true =>
      cases l with
      | start j e' => cases hsv
      | client j => cases hsv
      | server sv value =>
          obtain rfl : sv = e.server := of_decide_eq_true hsv
          obtain rfl := Option.some.inj hstep
          obtain ⟨p, ev, hgood, hlink⟩ := linkOf_step h i e.server value
          refine ⟨by rw [(serverStep_frame L.nclients s e.server value).1, hp], ?_, ?_⟩
          · exact fun hr => hgood.response_of_step (linkOf_waiting hp) hr hlink
          · exact fun hr => rank_serverStep h hp value hr

theorem poll_run
    (h : Inv L s) (hp : (s.clients i).pc = .poll e) {ls : List (Label ι)}
    (hrun : run L s ls = some s') (hls : ∀ l ∈ ls, l ≠ .client i) :
  (s'.clients i).pc = .poll e ∧
    ((linkOf L s' i e.server).response = (linkOf L s' i e.server).mine ∨
      (linkOf L s i e.server).response ≠ (linkOf L s i e.server).mine ∧
      rank L s' i e.server + ls.countP (Label.serves e.server) ≤ rank L s i e.server)
  := by
  induction ls generalizing s with
  | nil =>
      obtain rfl := Option.some.inj hrun
      refine ⟨hp, ?_⟩
      by_cases hr : (linkOf L s i e.server).response = (linkOf L s i e.server).mine
      · exact .inl hr
      · exact .inr ⟨hr, le_rfl⟩
  | cons l ls ih =>
      obtain ⟨s₁, hstep, hrest⟩ := Option.bind_eq_some_iff.mp hrun
      obtain ⟨hp₁, hanswered, hnearer⟩ := poll_step h hp hstep (hls l List.mem_cons_self)
      obtain ⟨hp', hleft | ⟨hr₁, hright⟩⟩ :=
        ih (h.step hstep) hp₁ hrest (fun l' hl' => hls l' (List.mem_cons_of_mem l hl'))
      · exact ⟨hp', .inl hleft⟩
      · have hr := mt hanswered hr₁
        have := hnearer hr
        refine ⟨hp', .inr ⟨hr, ?_⟩⟩
        rw [List.countP_cons]
        omega

/-- A client whose server has made the steps of two rounds sees its answer at its next
poll. -/
theorem poll_answered
    (h : Inv L s) (hp : (s.clients i).pc = .poll e) {ls : List (Label ι)}
    (hrun : run L s ls = some s') (hls : ∀ l ∈ ls, l ≠ .client i)
    (hcount : 16 * places L.nclients ≤ ls.countP (Label.serves e.server)) :
  clientStep L s' i = some (s'.goto i (.read e))
  := by
  obtain ⟨hp', hr | ⟨-, hrank⟩⟩ := poll_run h hp hrun hls
  · have hlt : L.id i < 64 := (L.id_lt i).trans_le L.fits
    simp only [linkOf, linkAt] at hr
    rw [halfOf_line (L.id_lt i)] at hr
    simp only [clientStep, hp']
    rw [if_pos]
    rw [xor_and_mask_eq_zero_iff hlt]
    exact hr
  · have := rank_lt (i := i) h.inRange e.server
    omega

end Answer

/-- In every run of any number of clients in distinct slots with any servers: the events
of every client are those of whole calls, each executed exactly once between its flag and
its return, by the server it addresses, with the function and the arguments it wrote, and
returning the value of that execution, followed by the first events of one more call; no
slot is executed that is not a client's; and a client that polls is answered once its
server has made the steps of two rounds. -/
theorem delegation_exactlyOnce
    (L : Layout ι) (ls : List (Label ι)) (s : State ι) (hrun : run L (State.init ι) ls = some s) :
  (∀ i, ExactlyOnce L i s.log) ∧ (∀ ev ∈ s.log, ev.Owned L) ∧
    ∀ i e ls' s', (s.clients i).pc = .poll e → run L s ls' = some s' →
      (∀ l ∈ ls', l ≠ .client i) →
      16 * places L.nclients ≤ ls'.countP (Label.serves e.server) →
      clientStep L s' i = some (s'.goto i (.read e))
  := by
  have h : Inv L s := (inv_init L).run hrun
  refine ⟨?_, h.owned, ?_⟩
  · intro i
    obtain ⟨cs, c, m, hc⟩ := h.clients i
    exact ⟨cs, c, m, hc.lt, hc.log⟩
  · intro i e ls' s' hp hrun' hls hcount
    exact poll_answered h hp hrun' hls hcount

/-- Two clients in the two halves of the first chip, with one slot a half. -/
def pairLayout : Layout (Fin 2) where
  nclients := 1
  chip _ := 0
  id i := i
  pos := by decide
  fits := by decide
  id_lt i := i.isLt
  inj _ _ _ h := Fin.ext h

/-- The second client delegates a call with one argument to server `0`, which makes a
round and more, and takes the answer. -/
def pairRun : List (Label (Fin 2)) :=
  [.start 1 ⟨0, 7, [3]⟩] ++ List.replicate 6 (.client 1) ++
    List.replicate 13 (.server 0 9) ++ [.client 1, .client 1]

theorem delegation_exactlyOnce_pair :
  ∃ s, run pairLayout (State.init (Fin 2)) pairRun = some s ∧
    s.log = [.call 1 ⟨0, 7, [3]⟩, .flag 1, .execute 0 0 1 7 [3, 0, 0, 0, 0] 9, .ret 1 9] ∧
    (∀ i, ExactlyOnce pairLayout i s.log) ∧ (∀ ev ∈ s.log, ev.Owned pairLayout)
  := by
  obtain ⟨s, hrun, hlog⟩ := Option.map_eq_some_iff.mp
    (show (run pairLayout (State.init (Fin 2)) pairRun).map State.log
      = some [.call 1 ⟨0, 7, [3]⟩, .flag 1, .execute 0 0 1 7 [3, 0, 0, 0, 0] 9, .ret 1 9] by decide)
  obtain ⟨honce, howned, -⟩ := delegation_exactlyOnce pairLayout pairRun s hrun
  exact ⟨s, hrun, hlog, honce, howned⟩

end Delegation
