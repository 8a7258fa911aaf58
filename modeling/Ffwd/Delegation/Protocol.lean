import Ffwd.Delegation.Slots

/-!
# The delegation protocol

The shared memory of clients and servers, the private variables of each, and their
steps: `FFWD_EXEC` write by write on the client's side, and on the server's side the
test of a slot, the call, the store of the return value, the toggle of the client's bit,
and the publication of a response line word by word. The steps of all parties
interleave; `State.log` records what an observer sees, in order.
-/

namespace Delegation

/-- A machine word. -/
abbrev Word := BitVec 64

/-- A client's request slot. -/
structure Request where
  flag : Word
  argc : Nat
  fptr : Word
  argv : Nat → Word

/-- A response line: the return values of a half-socket and the flags of its socket. -/
structure Response where
  returnValues : Nat → Word
  flags : Word

instance neZero_chips : NeZero 4 := ⟨by decide⟩

/-- A half of a socket, the unit the server publishes. -/
structure Half where
  chip : Fin 4
  upper : Bool
  deriving DecidableEq

/-- The number of the response line of a half-socket. -/
def Half.line (h : Half) : Nat := h.chip * maxSock + h.upper.toNat

/-- The id in the chip of the `k`-th slot of a half-socket. -/
def Half.slot (nclients : Nat) (h : Half) (k : Nat) : Nat :=
  if h.upper then add2Half2 nclients k else add2Half1 k

/-- The half-socket scanned after this one. -/
def Half.next (h : Half) : Half :=
  if h.upper then ⟨h.chip + 1, false⟩ else ⟨h.chip, true⟩

/-- Where a server is in its loop. `store` carries the value the called function left in
`rax`; `copy` is at word `j` of the line. -/
inductive ServerPc where
  | test (h : Half) (k : Nat)
  | execute (h : Half) (k : Nat)
  | store (h : Half) (k : Nat) (rax : Word)
  | toggle (h : Half) (k : Nat)
  | compare (h : Half)
  | setFlags (h : Half)
  | copy (h : Half) (j : Nat)
  | update (h : Half)
  deriving DecidableEq

/-- The private variables of `server_func`. The lines of return values have one more
word, for the flags. -/
structure Server where
  pc : ServerPc
  oldClientFlags : Fin 4 → Word
  socketClientFlags : Fin 4 → Word
  localReturnValues : Nat → Nat → Word

/-- One use of `FFWD_EXEC`: the server it addresses, the function and its arguments. -/
structure Exec where
  server : Nat
  fptr : Word
  args : List Word
  deriving DecidableEq

/-- Where a client is in `FFWD_EXEC`. -/
inductive ClientPc where
  | idle
  | writeFptr (e : Exec)
  | writeArgc (e : Exec)
  | writeArgv (e : Exec) (i : Nat)
  | toggle (e : Exec)
  | writeFlag (e : Exec)
  | poll (e : Exec)
  | read (e : Exec)
  deriving DecidableEq

/-- The private variables of a client: its position and its copies of the flags it wrote,
one for each server. -/
structure Client where
  pc : ClientPc
  localClientFlag : Nat → Word

/-- What an observer sees: a client enters `FFWD_EXEC`, writes its request flag, returns
with a value; a server executes a slot with the function pointer and the arguments it
finds there and obtains a value. -/
inductive Event (ι : Type) where
  | call (i : ι) (e : Exec)
  | flag (i : ι)
  | execute (server : Nat) (chip : Fin 4) (id : Nat) (fptr : Word) (argv : List Word)
      (value : Word)
  | ret (i : ι) (value : Word)
  deriving DecidableEq

/-- Clients with their slots: pairwise distinct pairs of chip and id in the chip, the
flags of a chip fitting in a word. -/
structure Layout (ι : Type) where
  nclients : Nat
  chip : ι → Fin 4
  id : ι → Nat
  pos : 0 < nclients
  fits : 2 * nclients ≤ 64
  id_lt : ∀ i, id i < 2 * nclients
  inj : ∀ i j, chip i = chip j → id i = id j → i = j

/-- The whole system. -/
structure State (ι : Type) where
  clients : ι → Client
  servers : Nat → Server
  request : Nat → Fin 4 → Nat → Request
  response : Nat → Nat → Response
  log : List (Event ι)

variable {ι : Type} [DecidableEq ι]

/-- The bit of the slot with a given id in its chip. -/
def mask (id : Nat) : Word := 1 <<< id

namespace State

/-- Everything zero, as the allocation of the requests and the responses leaves it; the
servers at the start of their loops and the clients outside `FFWD_EXEC`. -/
def init (ι : Type) : State ι where
  clients _ := ⟨.idle, fun _ => 0⟩
  servers _ := ⟨.test ⟨0, false⟩ 0, fun _ => 0, fun _ => 0, fun _ _ => 0⟩
  request _ _ _ := ⟨0, 0, 0, fun _ => 0⟩
  response _ _ := ⟨fun _ => 0, 0⟩
  log := []

/-- Client `i` with its private variables changed. -/
def setClient (s : State ι) (i : ι) (c : Client) : State ι :=
  { s with clients := Function.update s.clients i c }

/-- The position of client `i` changed. -/
def goto (s : State ι) (i : ι) (pc : ClientPc) : State ι :=
  s.setClient i { s.clients i with pc := pc }

/-- A write to the request slot `id` of a chip at a server. -/
def setRequest (s : State ι) (server : Nat) (chip : Fin 4) (id : Nat) (r : Request) : State ι :=
  { s with
    request := Function.update s.request server
      (Function.update (s.request server) chip
        (Function.update (s.request server chip) id r)) }

/-- A write to a response line of a server. -/
def setResponse (s : State ι) (server line : Nat) (r : Response) : State ι :=
  { s with
    response := Function.update s.response server
      (Function.update (s.response server) line r) }

/-- A server with its private variables changed. -/
def setServer (s : State ι) (server : Nat) (v : Server) : State ι :=
  { s with servers := Function.update s.servers server v }

/-- An event recorded. -/
def record (s : State ι) (e : Event ι) : State ι :=
  { s with log := s.log ++ [e] }

end State

open State

/-- The slot of client `i` at a server. -/
def slotOf (L : Layout ι) (s : State ι) (i : ι) (server : Nat) : Request :=
  s.request server (L.chip i) (L.id i)

/-- The response line client `i` polls at a server. -/
def lineOf (L : Layout ι) (i : ι) : Nat := (L.chip i : Nat) * maxSock + L.id i / L.nclients

/-- A client enters `FFWD_EXEC`. -/
def start (s : State ι) (i : ι) (e : Exec) : Option (State ι) :=
  match (s.clients i).pc with
  | .idle =>
      if e.args.length ≤ 5 then some ((s.goto i (.writeFptr e)).record (.call i e)) else none
  | _ => none

/-- One step of a client inside `FFWD_EXEC`: the writes of the request, one word at a
time, the toggle of its own flag, the write of the request flag, the poll of the response
line, and the read of the return value. -/
def clientStep (L : Layout ι) (s : State ι) (i : ι) : Option (State ι) :=
  match (s.clients i).pc with
  | .idle => none
  | .writeFptr e =>
      some ((s.setRequest e.server (L.chip i) (L.id i)
        { slotOf L s i e.server with fptr := e.fptr }).goto i (.writeArgc e))
  | .writeArgc e =>
      some ((s.setRequest e.server (L.chip i) (L.id i)
        { slotOf L s i e.server with argc := e.args.length }).goto i (.writeArgv e 0))
  | .writeArgv e j =>
      match e.args[j]? with
      | some a =>
          some ((s.setRequest e.server (L.chip i) (L.id i)
            { slotOf L s i e.server with
              argv := Function.update (slotOf L s i e.server).argv j a }).goto i
                (.writeArgv e (j + 1)))
      | none => some (s.goto i (.toggle e))
  | .toggle e =>
      some (s.setClient i ⟨.writeFlag e, Function.update (s.clients i).localClientFlag e.server
        ((s.clients i).localClientFlag e.server ^^^ mask (L.id i))⟩)
  | .writeFlag e =>
      some (((s.setRequest e.server (L.chip i) (L.id i)
        { slotOf L s i e.server with
          flag := (s.clients i).localClientFlag e.server }).goto i (.poll e)).record (.flag i))
  | .poll e =>
      if ((s.response e.server (lineOf L i)).flags ^^^ (s.clients i).localClientFlag e.server)
          &&& mask (L.id i) = 0 then
        some (s.goto i (.read e))
      else some s
  | .read e =>
      some ((s.goto i .idle).record
        (.ret i ((s.response e.server (lineOf L i)).returnValues (L.id i % L.nclients))))

/-- The position after the `k`-th slot of a half-socket. -/
def afterSlot (nclients : Nat) (h : Half) (k : Nat) : ServerPc :=
  if k + 1 < nclients then .test h (k + 1) else .compare h

/-- One step of a server; `value` is what the called function returns, if the step is a
call. -/
def serverStep (nclients : Nat) (s : State ι) (sv : Nat) (value : Word) : State ι :=
  let v := s.servers sv
  match v.pc with
  | .test h k =>
      if (v.oldClientFlags h.chip ^^^ (s.request sv h.chip (h.slot nclients k)).flag)
          &&& mask (h.slot nclients k) ≠ 0 then
        s.setServer sv { v with pc := .execute h k }
      else s.setServer sv { v with pc := afterSlot nclients h k }
  | .execute h k =>
      let r := s.request sv h.chip (h.slot nclients k)
      (s.setServer sv { v with pc := .store h k value }).record
        (.execute sv h.chip (h.slot nclients k) r.fptr ((List.range 5).map r.argv) value)
  | .store h k rax =>
      s.setServer sv { v with
        pc := .toggle h k
        localReturnValues := Function.update v.localReturnValues h.line
          (Function.update (v.localReturnValues h.line) (h.slot nclients k % nclients) rax) }
  | .toggle h k =>
      s.setServer sv { v with
        pc := afterSlot nclients h k
        socketClientFlags := Function.update v.socketClientFlags h.chip
          (v.socketClientFlags h.chip ^^^ mask (h.slot nclients k)) }
  | .compare h =>
      if v.oldClientFlags h.chip ^^^ v.socketClientFlags h.chip ≠ 0 then
        s.setServer sv { v with pc := .setFlags h }
      else s.setServer sv { v with pc := .update h }
  | .setFlags h =>
      s.setServer sv { v with
        pc := .copy h 0
        localReturnValues := Function.update v.localReturnValues h.line
          (Function.update (v.localReturnValues h.line) nclients (v.socketClientFlags h.chip)) }
  | .copy h j =>
      let r := s.response sv h.line
      if j < nclients then
        (s.setResponse sv h.line
          { r with
            returnValues := Function.update r.returnValues j
              (v.localReturnValues h.line j) }).setServer sv { v with pc := .copy h (j + 1) }
      else
        (s.setResponse sv h.line
          { r with flags := v.localReturnValues h.line nclients }).setServer sv
            { v with pc := .update h }
  | .update h =>
      s.setServer sv { v with
        pc := .test h.next 0
        oldClientFlags := Function.update v.oldClientFlags h.chip
          (v.socketClientFlags h.chip) }

/-- The steps of the system: a client enters `FFWD_EXEC`, a client moves, a server
moves. -/
inductive Label (ι : Type) where
  | start (i : ι) (e : Exec)
  | client (i : ι)
  | server (sv : Nat) (value : Word)

/-- One step of the system. -/
def step (L : Layout ι) (s : State ι) : Label ι → Option (State ι)
  | .start i e => start s i e
  | .client i => clientStep L s i
  | .server sv value => some (serverStep L.nclients s sv value)

/-- A run: any interleaving of steps. -/
def run (L : Layout ι) : State ι → List (Label ι) → Option (State ι)
  | s, [] => some s
  | s, l :: ls => (step L s l).bind fun s' => run L s' ls

end Delegation
