import Ffwd.Lib.Counting

/-!
# Fetch and add

The clients of the fetch-and-add benchmark ask for increments of the shared variables, each at the
server that the variable belongs to. A server reads the variable and writes it back without a lock,
while the other servers do the same; no increment is lost because a variable belongs to one server
only. The option for the number of variables is not compared with the size of their array, beyond
which the program writes if there are more of them.
-/

namespace FetchAdd

/-- The number of the entries of `variables`. -/
def maxVars : Nat := 4096

def multiplier : Nat := 5101

def varsPerServer (vars numOfServers : Nat) : Nat :=
  vars / numOfServers + if vars % numOfServers ≠ 0 then 1 else 0

/-- A client is about to ask for an increment, waits for it, or has got the answer. -/
inductive Stage where
  | ready
  | waiting
  | answered
  deriving DecidableEq

/-- A client in its loop: the variable to be incremented next and the number of rounds that are
over. -/
structure Client where
  randno : Nat
  i : Nat
  stage : Stage

def Client.setStage (client : Client) (stage : Stage) : Client :=
  ⟨client.randno, client.i, stage⟩

/-- A server between two requests, or in `increment` after it has read the variable. -/
inductive Server (C : Type) where
  | idle
  | loaded (c : C) (a value : Nat)

/-- The shared variables; `fault` says whether an entry beyond the array has been accessed. -/
structure State (C : Type) where
  var : Nat → Nat
  fault : Bool
  client : C → Client
  server : Nat → Server C

section System

variable {C : Type} [DecidableEq C] (vars numOfServers iteration : Nat) (rand : C → Nat)

/-- The variables have been set to zero, one after the other. -/
def State.start : State C where
  var _ := 0
  fault := maxVars < vars
  client c := ⟨rand c % vars, 0, .ready⟩
  server _ := .idle

def State.setClient (s : State C) (c : C) (client : Client) : State C :=
  { s with client := Function.update s.client c client }

def State.setServer (s : State C) (k : Nat) (server : Server C) : State C :=
  { s with server := Function.update s.server k server }

/-- An access to `variables[a]`. -/
def State.touch (s : State C) (a : Nat) : State C := { s with fault := s.fault || maxVars ≤ a }

/-- A client asks for an increment or goes on with its loop, or a server reads the variable for a
client that waits for it, or writes it back. In a run without a fault the numbers are too small for
the arithmetic of `int` to overflow. -/
inductive State.Step (s : State C) : State C → Prop where
  | request (c : C) (hstage : (s.client c).stage = .ready) (hi : (s.client c).i < iteration) :
      Step s (s.setClient c ((s.client c).setStage .waiting))
  | load (k : Nat) (c : C) (hk : k < numOfServers) (hidle : s.server k = .idle)
      (hstage : (s.client c).stage = .waiting)
      (hserver : (s.client c).randno / varsPerServer vars numOfServers = k) :
      Step s ((s.touch (s.client c).randno).setServer k
        (.loaded c (s.client c).randno (s.var (s.client c).randno)))
  | store (k : Nat) (c : C) (a value : Nat) (hloaded : s.server k = .loaded c a value) :
      Step s ({ s.touch a with var := Function.update s.var a (value + 1) }.setClient c
        ((s.client c).setStage .answered) |>.setServer k .idle)
  | next (c : C) (hstage : (s.client c).stage = .answered) :
      Step s (s.setClient c
        ⟨((s.client c).randno + multiplier) % vars, (s.client c).i + 1, .ready⟩)

/-- The variable that a client increments in a round. -/
def index (c : C) : Nat → Nat
  | 0 => rand c % vars
  | i + 1 => (index c i + multiplier) % vars

/-- The number of the increments of a variable a client asks for in its first rounds. -/
def requests (a : Nat) (c : C) (rounds : Nat) : Nat :=
  ((List.range rounds).filter (fun i => index vars rand c i = a)).length

/-- The number of the increments that have been made for a client. -/
def Client.executed (client : Client) : Nat :=
  client.i + if client.stage = .answered then 1 else 0

end System

/-! ### The servers of the variables -/

theorem varsPerServer_pos {vars numOfServers : Nat} (hvars : 1 ≤ vars) (hs : 1 ≤ numOfServers) :
  0 < varsPerServer vars numOfServers
  := by
  rw [varsPerServer]
  split_ifs with hrem
  · apply Nat.succ_pos
  · apply Nat.div_pos _ hs
    apply Nat.le_of_dvd hvars
    exact Nat.dvd_of_mod_eq_zero (not_not.mp hrem)

/-- The quotient is rounded up, so that there is a server for every variable. -/
theorem div_varsPerServer_lt
    {vars numOfServers a : Nat} (ha : a < vars) (hs : 1 ≤ numOfServers) :
  a / varsPerServer vars numOfServers < numOfServers
  := by
  have hvars : 1 ≤ vars := by omega
  rw [Nat.div_lt_iff_lt_mul (varsPerServer_pos hvars hs)]
  have hdiv := Nat.div_add_mod vars numOfServers
  have hmod := Nat.mod_lt vars hs
  rw [varsPerServer, Nat.mul_add]
  split_ifs with hrem
  · omega
  · omega

/-! ### The invariant -/

section Inv

variable {C : Type} [DecidableEq C] [Fintype C] {vars numOfServers iteration : Nat} {rand : C → Nat}
    {s s' : State C}

omit [DecidableEq C] [Fintype C] in
theorem index_lt (hvars : 1 ≤ vars) (c : C) (i : Nat) :
  index vars rand c i < vars
  := by
  cases i with
  | zero => apply Nat.mod_lt _ hvars
  | succ i => apply Nat.mod_lt _ hvars

omit [DecidableEq C] [Fintype C] in
theorem requests_succ (a : Nat) (c : C) (rounds : Nat) :
  requests vars rand a c (rounds + 1) =
    requests vars rand a c rounds + if index vars rand c rounds = a then 1 else 0
  := by
  rw [requests, requests, List.range_succ, List.filter_append, List.length_append]
  split_ifs with ha <;> simp [ha]

omit [DecidableEq C] [Fintype C] in
theorem State.setServer_self {k : Nat} {server : Server C} :
  (s.setServer k server).server k = server
  :=
  Function.update_self _ _ _

omit [DecidableEq C] [Fintype C] in
theorem State.setServer_of_ne {k k' : Nat} {server : Server C} (hk : k' ≠ k) :
  (s.setServer k server).server k' = s.server k'
  :=
  Function.update_of_ne hk _ _

structure State.Inv (vars numOfServers : Nat) (rand : C → Nat) (s : State C) : Prop where
  inside : s.fault = false
  randno : ∀ c, (s.client c).randno = index vars rand c (s.client c).i
  server : ∀ k c a value, s.server k = .loaded c a value →
    a / varsPerServer vars numOfServers = k ∧ a = (s.client c).randno ∧
      (s.client c).stage = .waiting ∧ value = s.var a
  var : ∀ a, s.var a = ∑ c, requests vars rand a c (s.client c).executed

omit [DecidableEq C] in
theorem inv_start (hle : vars ≤ maxVars) :
  (State.start vars rand).Inv vars numOfServers rand
  := by
  constructor
  · exact decide_eq_false (Nat.not_lt.mpr hle)
  · intro c
    rfl
  · intro k c a value hserver
    exact absurd hserver nofun
  · intro a
    symm
    apply Finset.sum_eq_zero
    intro c _
    rfl

/-- A step of a client that is not waiting before the step. -/
theorem State.Inv.setClient
    {c : C} {client : Client} (h : s.Inv vars numOfServers rand)
    (hrandno : client.randno = index vars rand c client.i)
    (hstage : (s.client c).stage ≠ .waiting) (hexecuted : client.executed = (s.client c).executed) :
  (s.setClient c client).Inv vars numOfServers rand
  := by
  have hself : (s.setClient c client).client c = client := Function.update_self _ _ _
  have hother : ∀ {c' : C}, c' ≠ c → (s.setClient c client).client c' = s.client c' :=
    fun hc => Function.update_of_ne hc _ _
  constructor
  · exact h.inside
  · intro c'
    by_cases hc : c' = c
    · rw [hc, hself]
      exact hrandno
    · rw [hother hc]
      exact h.randno c'
  · intro k c' a value hserver
    obtain ⟨hk, ha, hwaiting, hvalue⟩ := h.server k c' a value hserver
    have hc : c' ≠ c := by
      rintro rfl
      exact hstage hwaiting
    rw [hother hc]
    exact ⟨hk, ha, hwaiting, hvalue⟩
  · intro a
    have hsum := Counting.sum_update (fun c' client => requests vars rand a c' client.executed)
      s.client c client
    rw [hexecuted, Nat.add_right_cancel_iff] at hsum
    exact (h.var a).trans hsum.symm

omit [DecidableEq C] in
theorem State.Inv.touch {a : Nat} (h : s.Inv vars numOfServers rand) (ha : a < maxVars) :
  (s.touch a).fault = false
  := by
  rw [State.touch, h.inside]
  exact decide_eq_false (Nat.not_le.mpr ha)

omit [DecidableEq C] in
/-- The variable that a client asks for is in the array. -/
theorem State.Inv.randno_lt
    (h : s.Inv vars numOfServers rand) (hvars : 1 ≤ vars) (c : C) :
  (s.client c).randno < vars
  := by
  rw [h.randno c]
  apply index_lt hvars

/-- A server writes the variable back. -/
theorem State.Inv.store
    {k a value : Nat} {c : C} (h : s.Inv vars numOfServers rand) (hvars : 1 ≤ vars) (hle : vars ≤ maxVars)
    (hloaded : s.server k = .loaded c a value) :
  ({ s.touch a with var := Function.update s.var a (value + 1) }.setClient c
    ((s.client c).setStage .answered) |>.setServer k .idle).Inv vars numOfServers rand
  := by
  obtain ⟨hk, ha, hwaiting, hvalue⟩ := h.server k c a value hloaded
  constructor
  · apply h.touch
    rw [ha]
    exact (h.randno_lt hvars c).trans_le hle
  · intro c'
    show (Function.update s.client c ((s.client c).setStage .answered) c').randno =
      index vars rand c' (Function.update s.client c ((s.client c).setStage .answered) c').i
    by_cases hc : c' = c
    · rw [hc, Function.update_self]
      exact h.randno c
    · rw [Function.update_of_ne hc]
      exact h.randno c'
  · intro k' c' a' value' hserver
    have hk' : k' ≠ k := by
      rintro rfl
      rw [State.setServer_self] at hserver
      exact absurd hserver nofun
    have hserver' : s.server k' = .loaded c' a' value' := by
      rw [State.setServer_of_ne hk'] at hserver
      exact hserver
    obtain ⟨hk'', ha', hwaiting', hvalue'⟩ := h.server k' c' a' value' hserver'
    have hc : c' ≠ c := by
      rintro rfl
      rw [ha'] at hk''
      rw [ha] at hk
      exact hk' (hk''.symm.trans hk)
    have hne : a' ≠ a := by
      rintro rfl
      exact hk' (hk''.symm.trans hk)
    refine ⟨hk'', ?_, ?_, ?_⟩
    · show a' = (Function.update s.client c ((s.client c).setStage .answered) c').randno
      rw [Function.update_of_ne hc]
      exact ha'
    · show (Function.update s.client c ((s.client c).setStage .answered) c').stage = _
      rw [Function.update_of_ne hc]
      exact hwaiting'
    · show value' = Function.update s.var a (value + 1) a'
      rw [Function.update_of_ne hne]
      exact hvalue'
  · intro a'
    have hsum := Counting.sum_update (fun c' client => requests vars rand a' c' client.executed)
      s.client c ((s.client c).setStage .answered)
    have hbefore : (s.client c).executed = (s.client c).i := by
      rw [Client.executed, hwaiting]
      rfl
    have hafter : ((s.client c).setStage .answered).executed = (s.client c).i + 1 := rfl
    simp only [hbefore, hafter] at hsum
    rw [requests_succ, ← h.randno c, ← ha, ← h.var a'] at hsum
    show Function.update s.var a (value + 1) a' = ∑ c', requests vars rand a' c'
      (Function.update s.client c ((s.client c).setStage .answered) c').executed
    by_cases haa : a' = a
    · rw [haa, Function.update_self, hvalue]
      rw [haa, if_pos rfl] at hsum
      omega
    · rw [Function.update_of_ne haa]
      rw [if_neg (Ne.symm haa)] at hsum
      omega

theorem State.Inv.step
    (h : s.Inv vars numOfServers rand) (hvars : 1 ≤ vars) (hle : vars ≤ maxVars)
    (hstep : s.Step vars numOfServers iteration s') :
  s'.Inv vars numOfServers rand
  := by
  cases hstep with
  | request c hstage hi =>
      apply h.setClient
      · exact h.randno c
      · rw [hstage]
        nofun
      · rw [Client.executed, Client.executed, hstage]
        rfl
  | load k c hk hidle hstage hserver =>
      refine ⟨h.touch ((h.randno_lt hvars c).trans_le hle), h.randno, ?_, h.var⟩
      intro k' c' a value hloaded
      by_cases hk' : k' = k
      · subst hk'
        rw [State.setServer_self] at hloaded
        obtain ⟨rfl, rfl, rfl⟩ := Server.loaded.inj hloaded
        exact ⟨hserver, rfl, hstage, rfl⟩
      · rw [State.setServer_of_ne hk'] at hloaded
        exact h.server k' c' a value hloaded
  | store k c a value hloaded => exact h.store hvars hle hloaded
  | next c hstage =>
      apply h.setClient
      · rw [h.randno c]
        rfl
      · rw [hstage]
        nofun
      · rw [Client.executed, Client.executed, hstage]
        rfl

/-- The states the benchmark can come to. -/
def Reachable (vars numOfServers iteration : Nat) (rand : C → Nat) (s : State C) : Prop :=
  Relation.ReflTransGen (State.Step vars numOfServers iteration) (State.start vars rand) s

/-- No entry beyond the array has been accessed. Every variable a client asks to be incremented is one of
the variables and belongs to one of the servers, no other server works on it, and when all clients are
at the end of their loops the value of each variable is the number of the increments they have asked
for. -/
structure State.Correct (vars numOfServers iteration : Nat) (rand : C → Nat) (s : State C) : Prop where
  inside : s.fault = false
  randno : ∀ c, (s.client c).randno < vars ∧
    (s.client c).randno / varsPerServer vars numOfServers < numOfServers
  server : ∀ k c a value, s.server k = .loaded c a value →
    a < vars ∧ k = a / varsPerServer vars numOfServers ∧ value = s.var a
  var : (∀ c, (s.client c).i = iteration ∧ (s.client c).stage = .ready) →
    ∀ a, s.var a = ∑ c, requests vars rand a c iteration

omit [DecidableEq C] in
theorem State.Inv.correct
    (hinv : s.Inv vars numOfServers rand) (hvars : 1 ≤ vars) (hservers : 1 ≤ numOfServers) :
  s.Correct vars numOfServers iteration rand
  := by
  have hrandno := hinv.randno_lt hvars
  constructor
  · exact hinv.inside
  · intro c
    exact ⟨hrandno c, div_varsPerServer_lt (hrandno c) hservers⟩
  · intro k c a value hserver
    obtain ⟨hk, ha, -, hvalue⟩ := hinv.server k c a value hserver
    rw [ha] at hk ⊢
    exact ⟨hrandno c, hk.symm, ha ▸ hvalue⟩
  · intro hend a
    rw [hinv.var a]
    apply Finset.sum_congr rfl
    intro c _
    obtain ⟨hi, hstage⟩ := hend c
    rw [Client.executed, hi, hstage]
    rfl

end Inv

end FetchAdd
