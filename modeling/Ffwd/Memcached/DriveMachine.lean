import Ffwd.Lib.Transducer
import Ffwd.Memcached.RoundTrip

/-!
# The bytes of a connection

`drive_machine` reads from a socket as much as there is, cuts what has been read into command lines and the
data of items, and hands them on. What it hands on depends only on the bytes, not on the portions in which
they come. Connections are those of the text protocol over TCP.
-/

namespace Memcached.DriveMachine

open Memcached

/-! ### Command lines -/

/-- The bytes of a text in ASCII. -/
def ascii (text : String) : List UInt8 := text.toList.map fun c => UInt8.ofNat c.toNat

/-- What `process_command` does to the connection: `out_string`, a response made of items, the end of the
connection, or an item of `vlen` bytes to be read, behind which comes `\r\n`. -/
inductive Reaction where
  | outString (noreply : Bool)
  | send
  | close
  | update (vlen : Nat) (noreply : Bool)

/-- The command of a token that asks for an item to be stored without a CAS id. -/
def commOf (token : Key) : Option Comm :=
  if token = ascii "add" then some .add
  else if token = ascii "set" then some .set
  else if token = ascii "replace" then some .replace
  else if token = ascii "prepend" then some .prepend
  else if token = ascii "append" then some .append
  else none

/-- `process_update_command`, with the tokens behind the first one. -/
def reactToUpdate (args : List Key) (handleCas : Bool) (comm : Comm) (noreply : Bool) : Reaction :=
  match args with
  | key :: flags :: exptime :: bytes :: rest =>
      let line : UpdateLine := ⟨key, flags, exptime, bytes, if handleCas then rest.head? else none, comm⟩
      match processUpdateCommand line (fun _ => 0) with
      | some (.update _ _ _ vlen _ _ _) => .update vlen noreply
      | _ => .outString noreply
  | _ => .outString noreply

/-- `process_command`. -/
def processCommand (line : List UInt8) : Reaction :=
  match (tokenizeCommand (maxTokens - 1) [] (cString line)).1 with
  | [] => .outString false
  | command :: args =>
      let ntokens := args.length + 2
      let noreply : Bool := args.getLast? = some (ascii "noreply")
      if 3 ≤ ntokens ∧ (command = ascii "get" ∨ command = ascii "bget" ∨ command = ascii "gets") then .send
      else if command = ascii "cas" ∧ (ntokens = 7 ∨ ntokens = 8) then reactToUpdate args true .cas noreply
      else if command = ascii "quit" ∧ ntokens = 2 then .close
      else if (command = ascii "incr" ∨ command = ascii "decr") ∧ (ntokens = 4 ∨ ntokens = 5) then
        .outString noreply
      else if command = ascii "delete" ∧ 3 < ntokens ∧ ntokens ≤ 5 then .outString noreply
      else if command = ascii "flush_all" ∧ 2 < ntokens ∧ ntokens ≤ 4 then .outString noreply
      else if command = ascii "verbosity" ∧ (ntokens = 3 ∨ ntokens = 4) then .outString noreply
      else
        match commOf command with
        | some comm =>
            if ntokens = 6 ∨ ntokens = 7 then reactToUpdate args false comm noreply else .outString false
        | none => .outString false

/-! ### The machine -/

/-- The states of a connection; `network` is the loop of `try_read_network`. -/
inductive ConnState where
  | newCmd
  | waiting
  | read
  | network (numAllocs : Nat) (gotdata : Bool)
  | parseCmd
  | write
  | nread
  | swallow
  | closing
  | mwrite
  deriving DecidableEq

/-- What is handed on: a command line, or the data of an item. -/
inductive Frame where
  | command (line : List UInt8)
  | data (bytes : List UInt8)
  deriving DecidableEq

/-- The fields of a connection that concern the bytes it reads. `rcurr` is a position in `rbuf`, and `ritem`
what has been read into the item. It is recorded what has been read from the socket, and what has been
handed on. -/
structure Conn where
  state : ConnState
  writeAndGo : ConnState
  rbuf : Nat → UInt8
  rsize : Nat
  rcurr : Nat
  rbytes : Nat
  ritem : List UInt8
  rlbytes : Nat
  sbytes : Nat
  noreply : Bool
  nreqs : Nat
  stop : Bool
  received : List UInt8
  frames : List Frame

/-- The answer of `read`: an error, that there is nothing at the moment, or bytes, which are none at the end
of the stream. -/
inductive Read where
  | error
  | again
  | data (bytes : List UInt8)

inductive Transmit where
  | complete
  | incomplete
  | softError
  | hardError

/-- What the system answers in a round of the loop: `ok` is the answer to `realloc`, `update_event` and
`add_iov`. -/
structure Round where
  ok : Bool
  read : Read
  transmit : Transmit

/-- Libevent reports something, or the loop makes a round. -/
inductive Label where
  | event
  | round (r : Round)

/-- The bytes that have been read from the socket and not been used. -/
def Conn.pending (c : Conn) : List UInt8 := (List.range c.rbytes).map fun i => c.rbuf (c.rcurr + i)

def Conn.outString (c : Conn) : Conn :=
  if c.noreply then { c with noreply := false, state := .newCmd }
  else { c with state := .write, writeAndGo := .newCmd }

/-- The pending bytes go to the beginning of the buffer. -/
def Conn.rewind (c : Conn) : Conn :=
  { c with rbuf := fun i => if i < c.rbytes then c.rbuf (c.rcurr + i) else c.rbuf i, rcurr := 0 }

def Conn.shrink (c : Conn) (ok : Bool) : Conn :=
  if 8192 < c.rsize ∧ c.rbytes < 2048 then { c.rewind with rsize := if ok then 2048 else c.rsize } else c

def Conn.resetCmdHandler (c : Conn) (ok : Bool) : Conn :=
  { c.shrink ok with state := if 0 < c.rbytes then .parseCmd else .waiting }

/-- Bytes are written into a buffer from `off` on. -/
def writeBytes (rbuf : Nat → UInt8) (off : Nat) (bytes : List UInt8) (i : Nat) : UInt8 :=
  if off ≤ i ∧ i < off + bytes.length then bytes.getD (i - off) 0 else rbuf i

/-- The end of `try_read_network`, unless there is an error. -/
def Conn.afterRead (c : Conn) (gotdata : Bool) : Conn :=
  { c with state := if gotdata then .parseCmd else .waiting }

/-- Bytes are read from the socket into the buffer behind those that are there. -/
def Conn.fill (c : Conn) (bytes : List UInt8) : Conn :=
  { c with
    rbuf := writeBytes c.rbuf c.rbytes bytes
    rbytes := c.rbytes + bytes.length
    received := c.received ++ bytes }

/-- The buffer gets larger, in the loop of `try_read_network`. -/
def Conn.grow (c : Conn) : Conn := { c with rcurr := 0, rsize := c.rsize * 2 }

/-- A call of `read` in the loop. -/
def Conn.readNetwork (c : Conn) (numAllocs : Nat) (gotdata : Bool) : Read → Conn
  | .error => { c with state := .closing }
  | .again => c.afterRead gotdata
  | .data bytes =>
      let avail := c.rsize - c.rbytes
      let res := bytes.take avail
      if res = [] then { c with state := .closing }
      else if res.length = avail then { c.fill res with state := .network numAllocs true }
      else (c.fill res).afterRead true

/-- A round of the loop of `try_read_network`. -/
def Conn.tryReadNetwork (c : Conn) (numAllocs : Nat) (gotdata : Bool) (r : Round) : Conn :=
  if c.rsize ≤ c.rbytes then
    if numAllocs = 4 then c.afterRead gotdata
    else if r.ok then c.grow.readNetwork (numAllocs + 1) gotdata r.read
    else { ({ c with rbytes := 0 } : Conn).outString with writeAndGo := .closing }
  else c.readNetwork numAllocs gotdata r.read

/-- A line without the `\r` at its end. -/
def stripCr (line : List UInt8) : List UInt8 :=
  if 1 < line.length ∧ line.getLast? = some 13 then line.dropLast else line

/-- There is no end of a line in the first kilobyte, and it is not the beginning of a `get`. -/
def tooLong (pending : List UInt8) : Bool :=
  let rest := pending.dropWhile (· = 32)
  1024 < pending.length ∧
    (100 < pending.length - rest.length ∨ ¬(ascii "get " <+: rest ∨ ascii "gets " <+: rest))

/-- What happens to the connection in `process_command`, which records the line; `granted` says whether
there is memory. -/
def Conn.react (c : Conn) (granted : Bool) : Reaction → Conn
  | .outString noreply => ({ c with noreply := noreply } : Conn).outString
  | .send => if granted then { c with state := .mwrite } else c.outString
  | .close => { c with state := .closing }
  | .update vlen noreply =>
      let c := { c with noreply := noreply }
      if granted then { c with ritem := [], rlbytes := vlen + 2, state := .nread }
      else { c.outString with writeAndGo := .swallow, sbytes := vlen + 2 }

/-- `try_read_command`; `granted` says of each of the lines whether there is memory. -/
def Conn.tryReadCommand (c : Conn) (granted : Nat → Bool) : Conn :=
  match (List.range c.rbytes).find? fun i => c.rbuf (c.rcurr + i) = 10 with
  | none => if tooLong c.pending then { c with state := .closing } else { c with state := .waiting }
  | some el =>
      let line := stripCr (c.pending.take el)
      let c' := ({ c with frames := c.frames ++ [.command line] } : Conn).react (granted c.frames.length)
        (processCommand line)
      { c' with
        rbuf := Function.update c.rbuf (c.rcurr + line.length) 0
        rcurr := c.rcurr + (el + 1)
        rbytes := c.rbytes - (el + 1) }

/-- Pending bytes are used. -/
def Conn.use (c : Conn) (n : Nat) : Conn := { c with rcurr := c.rcurr + n, rbytes := c.rbytes - n }

/-- A call of `read` for the rest of an item. -/
def Conn.readItem (c : Conn) (r : Round) : Conn :=
  match r.read with
  | .error => { c with state := .closing }
  | .again => if r.ok then { c with stop := true } else { c with state := .closing }
  | .data bytes =>
      let res := bytes.take c.rlbytes
      if res = [] then { c with state := .closing }
      else
        { c with
          ritem := c.ritem ++ res
          rlbytes := c.rlbytes - res.length
          received := c.received ++ res }

/-- A round in `conn_nread`. -/
def Conn.nreadRound (c : Conn) (r : Round) : Conn :=
  if c.rlbytes = 0 then ({ c with frames := c.frames ++ [.data c.ritem] } : Conn).outString
  else if 0 < c.rbytes then
    let tocopy := min c.rbytes c.rlbytes
    let c' : Conn := { c.use tocopy with
      ritem := c.ritem ++ c.pending.take tocopy, rlbytes := c.rlbytes - tocopy }
    if c'.rlbytes = 0 then c' else c'.readItem r
  else c.readItem r

/-- A round in `conn_swallow`. -/
def Conn.swallowRound (c : Conn) (r : Round) : Conn :=
  if c.sbytes = 0 then { c with state := .newCmd }
  else if 0 < c.rbytes then
    let tocopy := min c.rbytes c.sbytes
    { c.use tocopy with sbytes := c.sbytes - tocopy }
  else
    match r.read with
    | .error => { c with state := .closing }
    | .again => if r.ok then { c with stop := true } else { c with state := .closing }
    | .data bytes =>
        let res := bytes.take (min c.rsize c.sbytes)
        if res = [] then { c with state := .closing }
        else
          { c with
            rbuf := writeBytes c.rbuf 0 res
            sbytes := c.sbytes - res.length
            received := c.received ++ res }

/-- `transmit`, and what follows when all has been sent. -/
def Conn.transmit (c : Conn) (next : ConnState) : Transmit → Conn
  | .complete => { c with state := next }
  | .incomplete => c
  | .softError => { c with stop := true }
  | .hardError => { c with state := .closing }

/-- A round of the loop of `drive_machine`. -/
def Conn.round (c : Conn) (granted : Nat → Bool) (r : Round) : Conn :=
  match c.state with
  | .waiting => if r.ok then { c with state := .read, stop := true } else { c with state := .closing }
  | .read => { c.rewind with state := .network 0 false }
  | .network numAllocs gotdata => c.tryReadNetwork numAllocs gotdata r
  | .parseCmd => c.tryReadCommand granted
  | .newCmd =>
      if 0 < c.nreqs then ({ c with nreqs := c.nreqs - 1 } : Conn).resetCmdHandler r.ok
      else if 0 < c.rbytes ∧ r.ok = false then { c with state := .closing, stop := true }
      else { c with stop := true }
  | .nread => c.nreadRound r
  | .swallow => c.swallowRound r
  | .write => if r.ok then c.transmit c.writeAndGo r.transmit else { c with state := .closing }
  | .mwrite => c.transmit .newCmd r.transmit
  | .closing => { c with stop := true }

/-- The loop makes rounds until it stops, and begins again when libevent reports something. -/
def Conn.exec (reqsPerEvent : Nat) (granted : Nat → Bool) (c : Conn) : Label → Conn
  | .event => if c.stop then { c with stop := false, nreqs := reqsPerEvent } else c
  | .round r => if c.stop then c else c.round granted r

def Conn.run (reqsPerEvent : Nat) (granted : Nat → Bool) (c : Conn) (labels : List Label) : Conn :=
  labels.foldl (Conn.exec reqsPerEvent granted) c

/-- A new connection, with a buffer that may come from an old one. -/
def connNew (rbuf : Nat → UInt8) (rsize : Nat) : Conn where
  state := .newCmd
  writeAndGo := .newCmd
  rbuf := rbuf
  rsize := rsize
  rcurr := 0
  rbytes := 0
  ritem := []
  rlbytes := 0
  sbytes := 0
  noreply := false
  nreqs := 0
  stop := true
  received := []
  frames := []

/-! ### What the bytes say -/

/-- Where a reader of the bytes is: in a command line, in the data of an item of which `left` bytes are still
to come, in data that are thrown away, or at the end. -/
inductive Mode where
  | line (acc : List UInt8)
  | data (left : Nat) (acc : List UInt8)
  | swallow (left : Nat)
  | closed
  deriving DecidableEq

def afterLine (granted : Bool) : Reaction → Mode
  | .outString _ | .send => .line []
  | .close => .closed
  | .update vlen noreply =>
      if granted then .data (vlen + 2) [] else if noreply then .line [] else .swallow (vlen + 2)

/-- A reader that takes the bytes one at a time; it keeps the number of what has been handed on. -/
def reader (granted : Nat → Bool) : Transducer (Mode × Nat) UInt8 Frame where
  start := (.line [], 0)
  next q b :=
    match q.1 with
    | .line acc =>
        if b = 10 then (afterLine (granted q.2) (processCommand (stripCr acc)), q.2 + 1)
        else (.line (acc ++ [b]), q.2)
    | .data left acc => if left ≤ 1 then (.line [], q.2 + 1) else (.data (left - 1) (acc ++ [b]), q.2)
    | .swallow left => if left ≤ 1 then (.line [], q.2) else (.swallow (left - 1), q.2)
    | .closed => q
  out q b :=
    match q.1 with
    | .line acc => if b = 10 then [.command (stripCr acc)] else []
    | .data left acc => if left ≤ 1 then [.data (acc ++ [b])] else []
    | _ => []

variable {granted : Nat → Bool} {c : Conn} {n left : Nat} {acc l used : List UInt8} {good : Prop}

variable (granted n acc) in
/-- Bytes of a line. -/
theorem reader_line (h : 10 ∉ l) :
  (reader granted).go (.line acc, n) l = (.line (acc ++ l), n) ∧ (reader granted).write (.line acc, n) l = []
  := by
  induction l generalizing acc with
  | nil => simp
  | cons b l ih =>
      obtain ⟨hb, hl⟩ := List.ne_and_not_mem_of_not_mem_cons h
      obtain ⟨hgo, hwrite⟩ := ih (acc ++ [b]) hl
      have hnext : (reader granted).next (.line acc, n) b = (.line (acc ++ [b]), n) := if_neg (Ne.symm hb)
      have hout : (reader granted).out (.line acc, n) b = [] := if_neg (Ne.symm hb)
      rw [Transducer.go_cons, Transducer.write_cons, hnext, hout, hgo, hwrite, List.append_assoc]
      exact ⟨rfl, rfl⟩

variable (granted n) in
/-- A line, up to its end. -/
theorem reader_command (h : 10 ∉ l) :
  (reader granted).go (.line [], n) (l ++ [10])
      = (afterLine (granted n) (processCommand (stripCr l)), n + 1) ∧
    (reader granted).write (.line [], n) (l ++ [10]) = [.command (stripCr l)]
  := by
  obtain ⟨hgo, hwrite⟩ := reader_line granted n [] h
  rw [Transducer.go_append, Transducer.write_append, hgo, hwrite]
  exact ⟨rfl, rfl⟩

/-- Where the reader is when it has got `acc` of an item. -/
def Mode.item (left : Nat) (acc : List UInt8) : Mode := if left = 0 then .line [] else .data left acc

/-- Where the reader is when it throws data away. -/
def Mode.rest (left : Nat) : Mode := if left = 0 then .line [] else .swallow left

variable (granted n acc) in
/-- Bytes of an item. -/
theorem reader_data (hleft : 0 < left) (hl : l.length ≤ left) :
  (reader granted).go (.data left acc, n) l
      = (.item (left - l.length) (acc ++ l), if l.length = left then n + 1 else n) ∧
    (reader granted).write (.data left acc, n) l = if l.length = left then [.data (acc ++ l)] else []
  := by
  induction l generalizing left acc with
  | nil =>
      have hne : left ≠ 0 := Nat.pos_iff_ne_zero.mp hleft
      simp [Mode.item, hne, hne.symm]
  | cons b l ih =>
      rw [List.length_cons] at hl
      rw [Transducer.go_cons, Transducer.write_cons]
      by_cases hone : left ≤ 1
      · obtain rfl : left = 1 := by omega
        obtain rfl : l = [] := List.eq_nil_of_length_eq_zero (by omega)
        exact ⟨rfl, rfl⟩
      · have hnext : (reader granted).next (.data left acc, n) b = (.data (left - 1) (acc ++ [b]), n) :=
          if_neg hone
        have hout : (reader granted).out (.data left acc, n) b = [] := if_neg hone
        have hpos : 0 < left - 1 := by omega
        have hle : l.length ≤ left - 1 := by omega
        obtain ⟨hgo, hwrite⟩ := ih (acc ++ [b]) hpos hle
        have hsub : left - (l.length + 1) = left - 1 - l.length := by omega
        have hiff : l.length + 1 = left ↔ l.length = left - 1 := by omega
        rw [hnext, hout, hgo, hwrite]
        simp only [List.length_cons, List.append_assoc, List.cons_append, List.nil_append, hsub, hiff,
          and_self]

variable (granted n) in
/-- Bytes that are thrown away. -/
theorem reader_swallow (hleft : 0 < left) (hl : l.length ≤ left) :
  (reader granted).go (.swallow left, n) l = (.rest (left - l.length), n) ∧
    (reader granted).write (.swallow left, n) l = []
  := by
  induction l generalizing left with
  | nil =>
      have hne : left ≠ 0 := Nat.pos_iff_ne_zero.mp hleft
      simp [Mode.rest, hne]
  | cons b l ih =>
      rw [List.length_cons] at hl
      rw [Transducer.go_cons, Transducer.write_cons]
      by_cases hone : left ≤ 1
      · obtain rfl : left = 1 := by omega
        obtain rfl : l = [] := List.eq_nil_of_length_eq_zero (by omega)
        exact ⟨rfl, rfl⟩
      · have hnext : (reader granted).next (.swallow left, n) b = (.swallow (left - 1), n) := if_neg hone
        have hout : (reader granted).out (.swallow left, n) b = [] := rfl
        have hpos : 0 < left - 1 := by omega
        have hle : l.length ≤ left - 1 := by omega
        obtain ⟨hgo, hwrite⟩ := ih hpos hle
        have hsub : left - (l.length + 1) = left - 1 - l.length := by omega
        rw [hnext, hout, hgo, hwrite, List.length_cons, hsub]
        exact ⟨rfl, rfl⟩

theorem reader_closed (l : List UInt8) :
  (reader granted).go (.closed, n) l = (.closed, n)
  := by
  induction l with
  | nil => rfl
  | cons b l ih => exact ih

/-! ### What the connection has used -/

/-- Where a reader is that has got what the connection has used. -/
def Conn.mode (c : Conn) : Option Mode :=
  match c.state with
  | .closing => none
  | .write =>
      match c.writeAndGo with
      | .newCmd => some (.line [])
      | .swallow => some (.rest c.sbytes)
      | _ => none
  | .nread => some (.item c.rlbytes c.ritem)
  | .swallow => some (.rest c.sbytes)
  | _ => some (.line [])

/-- An item that is complete and has not been handed on. -/
def Conn.due (c : Conn) : List Frame := if c.state = .nread ∧ c.rlbytes = 0 then [.data c.ritem] else []

/-- The bytes say that the connection is to be closed, or a line is too long. -/
def Conn.Ends (granted : Nat → Bool) (c : Conn) : Prop :=
  ((reader granted).state c.received).1 = .closed ∨
    ∃ used rest, c.received = used ++ rest ∧ ((reader granted).state used).1 = .line [] ∧ 10 ∉ rest ∧
      tooLong rest = true

/-- The connection looks for bytes in the socket, and it has found none yet. -/
def ConnState.Looks : ConnState → Prop
  | .waiting | .read | .network _ false => True
  | _ => False

/-- The pending bytes are in the buffer, and the fields are as they should be in the state. -/
structure Conn.Proper (c : Conn) : Prop where
  room : c.rcurr + c.rbytes ≤ c.rsize
  pos : 0 < c.rsize
  rewound : ∀ n gotdata, c.state = .network n gotdata → c.rcurr = 0
  looks : c.state.Looks → 10 ∉ c.pending
  noreply : c.noreply = true → c.state = .nread ∨ c.state = .closing
  goes : c.state = .write → c.writeAndGo = .newCmd ∨ c.writeAndGo = .swallow ∨ c.writeAndGo = .closing

/-- The bytes `used` have been used, and what has been handed on is what they say. If it has been `good`, the
connection ends only as the bytes say. -/
structure Conn.Inv (granted : Nat → Bool) (good : Prop) (c : Conn) (used : List UInt8) : Prop where
  proper : c.Proper
  received : c.received = used ++ c.pending
  handed : c.frames <+: (reader granted).output used
  synced : ∀ m, c.mode = some m →
    (reader granted).state used = (m, (c.frames ++ c.due).length) ∧
      (reader granted).output used = c.frames ++ c.due
  ends : good → c.mode = none → c.Ends granted

theorem Conn.length_pending (c : Conn) : c.pending.length = c.rbytes := by
  rw [Conn.pending, List.length_map, List.length_range]

theorem Conn.pending_eq_nil (h : c.rbytes = 0) : c.pending = [] := by
  rw [Conn.pending, h, List.range_zero, List.map_nil]

theorem Conn.pending_use (c : Conn) (n : Nat) :
  (c.use n).pending = c.pending.drop n
  := by
  apply List.ext_getElem
  · simp [Conn.pending, Conn.use]
  · intro i hi hi'
    simp [Conn.pending, Conn.use, Nat.add_assoc]

theorem Conn.pending_rewind (c : Conn) :
  c.rewind.pending = c.pending
  := by
  apply List.map_congr_left
  intro i hi
  have hlt : i < c.rbytes := List.mem_range.mp hi
  simp only [Conn.rewind, Nat.zero_add, if_pos hlt]

theorem Conn.pending_fill (c : Conn) (h : c.rcurr = 0) (bytes : List UInt8) :
  (c.fill bytes).pending = c.pending ++ bytes
  := by
  apply List.ext_getElem
  · simp [Conn.pending, Conn.fill]
  · intro i hi hi'
    have hlen : i < c.rbytes + bytes.length := by
      simpa [Conn.pending, Conn.fill] using hi
    simp only [Conn.pending, Conn.fill, h, List.getElem_map, List.getElem_range, Nat.zero_add, writeBytes,
      List.getElem_append, List.length_map, List.length_range]
    split
    · next hin =>
      rw [dif_neg (by omega), List.getD_eq_getElem _ _ (by omega)]
    · next hout => rw [dif_pos (by omega)]

/-- The same bytes have been used. -/
theorem Conn.Inv.move
    {c' : Conn} (h : c.Inv granted good used) (hproper : c'.Proper) (hreceived : c'.received = c.received)
    (hpending : c'.pending = c.pending) (hmode : c'.mode = c.mode) (hsome : c.mode ≠ none)
    (hsynced : c'.frames ++ c'.due = c.frames ++ c.due) :
  c'.Inv granted good used
  where
  proper := hproper
  received := by rw [hreceived, hpending, h.received]
  handed := by
    obtain ⟨m, hm⟩ := Option.ne_none_iff_exists'.mp hsome
    rw [(h.synced m hm).2, ← hsynced]
    exact List.prefix_append _ _
  synced := by
    intro m hm
    rw [hsynced]
    exact h.synced m (hmode.symm.trans hm)
  ends := fun _ hnone => absurd (hmode.symm.trans hnone) hsome

/-- The connection is about to be closed. -/
theorem Conn.Inv.close
    {good' : Prop} {c' : Conn} (h : c.Inv granted good used) (hproper : c'.Proper)
    (hreceived : c'.received = c.received) (hpending : c'.pending = c.pending) (hframes : c'.frames = c.frames)
    (hmode : c'.mode = none) (hends : good' → c.Ends granted) :
  c'.Inv granted good' used
  where
  proper := hproper
  received := by rw [hreceived, hpending, h.received]
  handed := by
    rw [hframes]
    exact h.handed
  synced := by
    intro m hm
    rw [hmode] at hm
    cases hm
  ends := by
    intro hgood _
    rw [Conn.Ends, hreceived]
    exact hends hgood

/-- More bytes have been used. -/
theorem Conn.Inv.take
    {c' : Conn} {m : Mode} (h : c.Inv granted good used) (hproper : c'.Proper)
    (hreceived : c'.received = used ++ l ++ c'.pending) (hmode : c.mode = some m) {m' : Mode}
    (hmode' : c'.mode = some m') (hdue : c.due = [])
    (hgo : (reader granted).go (m, c.frames.length) l = (m', (c'.frames ++ c'.due).length))
    (hwrite : c.frames ++ (reader granted).write (m, c.frames.length) l = c'.frames ++ c'.due) :
  c'.Inv granted good (used ++ l)
  := by
  obtain ⟨hstate, houtput⟩ := h.synced m hmode
  rw [hdue, List.append_nil] at hstate houtput
  have houtput' : (reader granted).output (used ++ l) = c'.frames ++ c'.due := by
    rw [Transducer.output_append, houtput, hstate, hwrite]
  have hstate' : (reader granted).state (used ++ l) = (m', (c'.frames ++ c'.due).length) := by
    rw [Transducer.state_append, hstate, hgo]
  constructor
  · exact hproper
  · exact hreceived
  · rw [houtput']
    exact List.prefix_append _ _
  · intro x hx
    rw [hmode'] at hx
    obtain rfl := Option.some.inj hx
    exact ⟨hstate', houtput'⟩
  · intro _ hnone
    rw [hmode'] at hnone
    cases hnone

/-! ### Rounds -/

/-- The system gives no errors, and the stream does not end. -/
structure Round.Good (r : Round) : Prop where
  ok : r.ok = true
  read : r.read ≠ .error ∧ r.read ≠ .data []
  transmit : r.transmit ≠ .hardError

variable {r : Round}

theorem Conn.Inv.mono {good' : Prop} (h : c.Inv granted good used) (hgood : good' → good) :
  c.Inv granted good' used
  where
  proper := h.proper
  received := h.received
  handed := h.handed
  synced := h.synced
  ends := fun hg => h.ends (hgood hg)

theorem Conn.Proper.replies
    {state : ConnState} (h : c.Proper) (hstate : c.state = state) (hnread : state ≠ .nread)
    (hclosing : state ≠ .closing) :
  c.noreply = false
  := by
  subst hstate
  rw [← Bool.not_eq_true]
  intro hnoreply
  obtain hstate | hstate := h.noreply hnoreply
  · exact hnread hstate
  · exact hclosing hstate

/-- The connection gets into a state in which it does not look for bytes. -/
theorem Conn.Proper.goto
    {c' : Conn} (h : c.Proper) (hrcurr : c'.rcurr = c.rcurr) (hrbytes : c'.rbytes = c.rbytes)
    (hrsize : c'.rsize = c.rsize) (hrewound : ∀ n gotdata, c'.state ≠ .network n gotdata)
    (hlooks : ¬c'.state.Looks) (hnoreply : c'.noreply = true → c'.state = .nread ∨ c'.state = .closing)
    (hgoes : c'.state = .write → c'.writeAndGo = .newCmd ∨ c'.writeAndGo = .swallow ∨ c'.writeAndGo = .closing) :
  c'.Proper
  where
  room := by
    rw [hrcurr, hrbytes, hrsize]
    exact h.room
  pos := by
    rw [hrsize]
    exact h.pos
  rewound n gotdata hstate := absurd hstate (hrewound n gotdata)
  looks hl := absurd hl hlooks
  noreply := hnoreply
  goes := hgoes

theorem Conn.Inv.closing (h : c.Inv granted good used) {good' : Prop} (hends : good' → c.Ends granted) :
  ({ c with state := .closing } : Conn).Inv granted good' used
  := by
  apply h.close
  · apply h.proper.goto
    · rfl
    · rfl
    · rfl
    · rintro _ _ ⟨⟩
    · exact id
    · exact fun _ => .inr rfl
    · rintro ⟨⟩
  · rfl
  · rfl
  · rfl
  · rfl
  · exact hends

theorem Conn.outString_cases (c : Conn) :
  c.outString = { c with noreply := false, state := .newCmd } ∨
    c.outString = { c with noreply := false, state := .write, writeAndGo := .newCmd }
  := by
  unfold Conn.outString
  split
  · exact .inl rfl
  · next hreply =>
    right
    rw [← Bool.not_eq_true _ |>.mp hreply]

/-- The response to what has been handed on. -/
theorem Conn.Inv.outString
    (h : c.Inv granted good used) {c' : Conn} (hsame : c'.rcurr = c.rcurr) (hrbytes : c'.rbytes = c.rbytes)
    (hrsize : c'.rsize = c.rsize) (hreceived : c'.received = c.received) (hpending : c'.pending = c.pending)
    (hmode : c.mode = some (.line [])) (hframes : c'.frames = c.frames ++ c.due) :
  c'.outString.Inv granted good used
  := by
  have hsome : c.mode ≠ none := by
    rw [hmode]
    rintro ⟨⟩
  obtain heq | heq := c'.outString_cases
  all_goals
    rw [heq]
    apply h.move
    · apply h.proper.goto
      · exact hsame
      · exact hrbytes
      · exact hrsize
      · rintro _ _ ⟨⟩
      · exact id
      · rintro ⟨⟩
      · simp
    · exact hreceived
    · exact hpending
    · exact hmode.symm
    · exact hsome
    · simp [Conn.due, hframes]

/-- Behind a response, or behind bytes thrown away, the connection goes on with what the reader is at. -/
theorem Conn.Inv.goOn
    {state : ConnState} (h : c.Inv granted good used) (hreply : c.noreply = false) (hdue : c.due = [])
    (hnext : state = .newCmd ∨ state = .swallow) (hmode : ({ c with state := state } : Conn).mode = c.mode) :
  ({ c with state := state } : Conn).Inv granted good used
  := by
  obtain rfl | rfl := hnext
  all_goals
    apply h.move
    · apply h.proper.goto
      · rfl
      · rfl
      · rfl
      · rintro _ _ ⟨⟩
      · exact id
      · simp [hreply]
      · rintro ⟨⟩
    · rfl
    · rfl
    · exact hmode
    · rw [← hmode]
      rintro ⟨⟩
    · rw [hdue]
      rfl

/-- The connection waits for something to be reported. -/
theorem Conn.Inv.pause (h : c.Inv granted good used) :
  ({ c with stop := true } : Conn).Inv granted good used
  where
  proper := ⟨h.proper.room, h.proper.pos, h.proper.rewound, h.proper.looks, h.proper.noreply, h.proper.goes⟩
  received := h.received
  handed := h.handed
  synced := h.synced
  ends := h.ends

/-- The states between commands. -/
def ConnState.Plain : ConnState → Prop
  | .closing | .write | .nread | .swallow => False
  | _ => True

theorem Conn.plain (h : c.state.Plain) :
  c.mode = some (.line []) ∧ c.due = []
  := by
  unfold Conn.mode Conn.due
  cases hstate : c.state <;> simp_all [ConnState.Plain]

/-- The connection goes from one state between commands to another one. -/
theorem Conn.Inv.plain
    {c' : Conn} (h : c.Inv granted good used) (hstate : c.state.Plain) (hstate' : c'.state.Plain)
    (hreceived : c'.received = used ++ c'.pending) (hframes : c'.frames = c.frames)
    (hroom : c'.rcurr + c'.rbytes ≤ c'.rsize) (hpos : 0 < c'.rsize)
    (hrewound : ∀ n gotdata, c'.state = .network n gotdata → c'.rcurr = 0)
    (hlooks : c'.state.Looks → 10 ∉ c'.pending) (hnoreply : c'.noreply = c.noreply) :
  c'.Inv granted good used
  := by
  obtain ⟨hmode, hdue⟩ := Conn.plain hstate
  obtain ⟨hmode', hdue'⟩ := Conn.plain hstate'
  have hreply : c.noreply = false := by
    apply h.proper.replies rfl
    · intro hnread
      rw [hnread] at hstate
      exact hstate
    · intro hclosing
      rw [hclosing] at hstate
      exact hstate
  obtain ⟨hplace, houtput⟩ := h.synced _ hmode
  have hsame : c'.frames ++ c'.due = c.frames ++ c.due := by rw [hframes, hdue, hdue']
  constructor
  · constructor
    · exact hroom
    · exact hpos
    · exact hrewound
    · exact hlooks
    · rw [hnoreply, hreply]
      rintro ⟨⟩
    · intro hwrite
      rw [hwrite] at hstate'
      exact hstate'.elim
  · exact hreceived
  · rw [hframes]
    exact h.handed
  · intro m hm
    rw [hmode'] at hm
    obtain rfl := Option.some.inj hm
    rw [hsame]
    exact ⟨hplace, houtput⟩
  · intro _ hnone
    rw [hmode'] at hnone
    cases hnone

theorem Conn.Inv.waiting (h : c.Inv granted good used) (hstate : c.state = .waiting) :
  (c.round granted r).Inv granted (good ∧ r.Good) used
  := by
  simp only [Conn.round, hstate]
  split
  · apply Conn.Inv.mono _ And.left
    apply h.plain
    · rw [hstate]
      trivial
    · trivial
    · exact h.received
    · rfl
    · exact h.proper.room
    · exact h.proper.pos
    · rintro _ _ ⟨⟩
    · intro _
      apply h.proper.looks
      rw [hstate]
      trivial
    · rfl
  · next hok => exact h.closing fun hgood => absurd hgood.2.ok hok

theorem Conn.Inv.read (h : c.Inv granted good used) (hstate : c.state = .read) :
  (c.round granted r).Inv granted (good ∧ r.Good) used
  := by
  simp only [Conn.round, hstate]
  apply Conn.Inv.mono _ And.left
  apply h.plain
  · rw [hstate]
    trivial
  · trivial
  · exact h.received.trans (congrArg _ c.pending_rewind.symm)
  · rfl
  · have hroom := h.proper.room
    simp only [Conn.rewind]
    omega
  · exact h.proper.pos
  · exact fun _ _ _ => rfl
  · intro _ hmem
    apply h.proper.looks
    · rw [hstate]
      trivial
    · exact c.pending_rewind ▸ hmem
  · rfl

/-- The end of `try_read_network`. -/
theorem Conn.Inv.afterRead
    {gotdata : Bool} (h : c.Inv granted good used) (hstate : c.state.Plain)
    (hlooks : gotdata = false → 10 ∉ c.pending) :
  (c.afterRead gotdata).Inv granted good used
  := by
  cases gotdata
  all_goals
    apply h.plain hstate
    · trivial
    · exact h.received
    · rfl
    · exact h.proper.room
    · exact h.proper.pos
    · rintro _ _ ⟨⟩
    · first | exact fun _ => hlooks rfl | exact False.elim
    · rfl

/-- Bytes come from the socket into the buffer. -/
theorem Conn.Inv.fill
    {bytes : List UInt8} {state : ConnState} (h : c.Inv granted good used) (hstate : c.state.Plain)
    (hstate' : state.Plain) (hlooks : ¬state.Looks) (hrewound : c.rcurr = 0)
    (hbytes : c.rbytes + bytes.length ≤ c.rsize) :
  ({ c.fill bytes with state := state } : Conn).Inv granted good used
  := by
  apply h.plain hstate
  · exact hstate'
  · have hpending := c.pending_fill hrewound bytes
    have hreceived : (c.fill bytes).received = used ++ (c.fill bytes).pending := by
      rw [hpending, ← List.append_assoc, ← h.received]
      rfl
    exact hreceived
  · rfl
  · simp only [Conn.fill, hrewound]
    omega
  · exact h.proper.pos
  · exact fun _ _ _ => hrewound
  · exact fun hl => absurd hl hlooks
  · rfl

/-- A call of `read`, for a buffer with room. -/
theorem Conn.Inv.readNetwork
    {gotdata : Bool} {numAllocs : Nat} (h : c.Inv granted good used) (hstate : c.state.Plain)
    (hrewound : c.rcurr = 0) (hlooks : gotdata = false → 10 ∉ c.pending) (hroom : c.rbytes < c.rsize) :
  (c.readNetwork numAllocs gotdata r.read).Inv granted (good ∧ r.Good) used
  := by
  cases hread : r.read with
  | error => exact h.closing fun hgood => absurd hread hgood.2.read.1
  | again => exact (h.afterRead hstate hlooks).mono And.left
  | data bytes =>
      simp only [Conn.readNetwork]
      have hlen : (bytes.take (c.rsize - c.rbytes)).length ≤ c.rsize - c.rbytes := List.length_take_le _ _
      split
      · next hend =>
        apply h.closing
        intro hgood
        apply absurd hread
        rw [(List.take_eq_nil_iff.mp hend).resolve_left (by omega)]
        exact hgood.2.read.2
      · split
        all_goals
          apply Conn.Inv.mono _ And.left
          apply h.fill hstate
          · trivial
          · exact id
          · exact hrewound
          · omega

theorem Conn.pending_grow (c : Conn) (h : c.rcurr = 0) : c.grow.pending = c.pending := by
  simp only [Conn.pending, Conn.grow, h]

/-- The buffer gets larger. -/
theorem Conn.Inv.grow (h : c.Inv granted good used) (hstate : c.state.Plain) (hrewound : c.rcurr = 0) :
  c.grow.Inv granted good used
  := by
  have hpending := c.pending_grow hrewound
  apply h.plain hstate
  · exact hstate
  · rw [hpending]
    exact h.received
  · rfl
  · have hroom := h.proper.room
    simp only [Conn.grow]
    omega
  · exact Nat.mul_pos h.proper.pos two_pos
  · exact fun _ _ _ => rfl
  · rw [hpending]
    exact h.proper.looks
  · rfl

/-- There is no memory for a larger buffer. -/
theorem Conn.Inv.outOfMemory
    {good' : Prop} (h : c.Inv granted good used) (hreply : c.noreply = false) (hbad : ¬good') :
  ({ ({ c with rbytes := 0 } : Conn).outString with writeAndGo := .closing } : Conn).Inv granted good' c.received
  := by
  have hout : ({ c with rbytes := 0 } : Conn).outString
      = { c with rbytes := 0, state := .write, writeAndGo := .newCmd } := if_neg (by simp [hreply])
  rw [hout]
  constructor
  · constructor
    · have hroom := h.proper.room
      simp only
      omega
    · exact h.proper.pos
    · rintro _ _ ⟨⟩
    · exact False.elim
    · simp [hreply]
    · exact fun _ => .inr (.inr rfl)
  · exact (List.append_nil _).symm
  · apply h.handed.trans
    apply (reader granted).output_mono
    rw [h.received]
    exact List.prefix_append _ _
  · rintro m ⟨⟩
  · exact fun hgood => absurd hgood hbad

theorem Conn.Inv.network
    {gotdata : Bool} {numAllocs : Nat} (h : c.Inv granted good used)
    (hstate : c.state = .network numAllocs gotdata) :
  ∃ used', (c.round granted r).Inv granted (good ∧ r.Good) used'
  := by
  have hplain : c.state.Plain := by
    rw [hstate]
    trivial
  have hrewound := h.proper.rewound _ _ hstate
  have hlooks : gotdata = false → 10 ∉ c.pending := by
    rintro rfl
    apply h.proper.looks
    rw [hstate]
    trivial
  have hreply : c.noreply = false := by
    apply h.proper.replies hstate
    all_goals rintro ⟨⟩
  simp only [Conn.round, hstate, Conn.tryReadNetwork]
  split
  · next hfull =>
    split
    · exact ⟨used, (h.afterRead hplain hlooks).mono And.left⟩
    · split
      · refine ⟨used, ?_⟩
        apply (h.grow hplain hrewound).readNetwork hplain
        · rfl
        · rw [c.pending_grow hrewound]
          exact hlooks
        · have hroom := h.proper.room
          have hpos := h.proper.pos
          simp only [Conn.grow]
          omega
      · next hok => exact ⟨_, h.outOfMemory hreply fun hgood => hok hgood.2.ok⟩
  · next hroom => exact ⟨used, h.readNetwork hplain hrewound hlooks (Nat.not_le.mp hroom)⟩

/-! ### Commands -/

/-- What `process_command` does to the connection, and where the reader is then. -/
structure Conn.Reacts (c c' : Conn) (m : Mode) : Prop where
  mode : c'.mode = if m = .closed then none else some m
  due : c'.due = []
  frames : c'.frames = c.frames
  received : c'.received = c.received
  rsize : c'.rsize = c.rsize
  looks : ¬c'.state.Looks
  rewound : ∀ n gotdata, c'.state ≠ .network n gotdata
  noreply : c'.noreply = true → c'.state = .nread
  goes : c'.state = .write → c'.writeAndGo = .newCmd ∨ c'.writeAndGo = .swallow

theorem Conn.reacts_outString (c : Conn) :
  c.Reacts c.outString (.line [])
  := by
  obtain heq | heq := c.outString_cases
  all_goals
    rw [heq]
    constructor
    · rfl
    · rfl
    · rfl
    · rfl
    · rfl
    · exact id
    · rintro _ _ ⟨⟩
    · rintro ⟨⟩
    · simp

theorem Conn.reacts (hreply : c.noreply = false) (granted : Bool) (reaction : Reaction) :
  c.Reacts (c.react granted reaction) (afterLine granted reaction)
  := by
  cases reaction with
  | outString noreply =>
      have hreacts := ({ c with noreply := noreply } : Conn).reacts_outString
      exact ⟨hreacts.mode, hreacts.due, hreacts.frames, hreacts.received, hreacts.rsize, hreacts.looks,
        hreacts.rewound, hreacts.noreply, hreacts.goes⟩
  | send =>
      cases granted with
      | true =>
          constructor
          · rfl
          · rfl
          · rfl
          · rfl
          · rfl
          · exact id
          · rintro _ _ ⟨⟩
          · simp [Conn.react, hreply]
          · rintro ⟨⟩
      | false => exact c.reacts_outString
  | close =>
      constructor
      · rfl
      · rfl
      · rfl
      · rfl
      · rfl
      · exact id
      · rintro _ _ ⟨⟩
      · simp [Conn.react, hreply]
      · rintro ⟨⟩
  | update vlen noreply =>
      cases granted with
      | true =>
          constructor
          · rfl
          · rfl
          · rfl
          · rfl
          · rfl
          · exact id
          · rintro _ _ ⟨⟩
          · exact fun _ => rfl
          · rintro ⟨⟩
      | false =>
          cases noreply
          all_goals
            constructor
            · rfl
            · rfl
            · rfl
            · rfl
            · rfl
            · exact id
            · rintro _ _ ⟨⟩
            · rintro ⟨⟩
            · simp [Conn.react, Conn.outString]

theorem Conn.take_pending (c : Conn) {k : Nat} (h : k ≤ c.rbytes) :
  c.pending.take k = (List.range k).map fun i => c.rbuf (c.rcurr + i)
  := by
  rw [Conn.pending, ← List.map_take, List.take_range, Nat.min_eq_left h]

/-- The end of a line, as `memchr` finds it. -/
theorem Conn.line_end
    {el : Nat} (h : ((List.range c.rbytes).find? fun i => c.rbuf (c.rcurr + i) = 10) = some el) :
  el < c.rbytes ∧ 10 ∉ c.pending.take el ∧ c.pending.take (el + 1) = c.pending.take el ++ [10]
  := by
  obtain ⟨hel, hmem, hbefore⟩ := List.find?_range_eq_some.mp h
  have hlt : el < c.rbytes := List.mem_range.mp hmem
  refine ⟨hlt, ?_, ?_⟩
  · rw [c.take_pending hlt.le]
    intro hten
    obtain ⟨i, hi, hval⟩ := List.mem_map.mp hten
    have hnot := hbefore i (List.mem_range.mp hi)
    simp [hval] at hnot
  · rw [c.take_pending hlt.le, c.take_pending hlt, List.range_succ, List.map_append]
    simpa using hel

theorem Conn.no_line_end (h : ((List.range c.rbytes).find? fun i => c.rbuf (c.rcurr + i) = 10) = none) :
  10 ∉ c.pending
  := by
  intro hten
  obtain ⟨i, hi, hval⟩ := List.mem_map.mp hten
  have hnot := List.find?_range_eq_none.mp h i (List.mem_range.mp hi)
  simp [hval] at hnot

theorem stripCr_length (line : List UInt8) : (stripCr line).length ≤ line.length := by
  unfold stripCr
  split
  · rw [List.length_dropLast]
    exact Nat.sub_le _ _
  · exact le_rfl

/-- What is behind a line is not changed when the line is ended with a zero. -/
theorem Conn.pending_zero (c : Conn) {el k : Nat} (h : k ≤ el) :
  ({ c.use (el + 1) with rbuf := Function.update c.rbuf (c.rcurr + k) 0 } : Conn).pending
    = c.pending.drop (el + 1)
  := by
  rw [← c.pending_use]
  apply List.map_congr_left
  intro i _
  apply Function.update_of_ne
  simp only [Conn.use]
  omega

/-- A line has been handed on. -/
theorem Conn.Inv.react
    {c' : Conn} {m : Mode} {rbuf : Nat → UInt8} {rcurr rbytes : Nat} {rest : List UInt8}
    (h : c.Inv granted good used) (hstate : c.state.Plain) (hnot : 10 ∉ l)
    (hm : m = afterLine (granted c.frames.length) (processCommand (stripCr l)))
    (hreacts : ({ c with frames := c.frames ++ [.command (stripCr l)] } : Conn).Reacts c' m)
    (hpending : c.pending = l ++ [10] ++ rest) (hroom : rcurr + rbytes ≤ c.rsize)
    (hpending' : ({ c' with rbuf := rbuf, rcurr := rcurr, rbytes := rbytes } : Conn).pending = rest) :
  ({ c' with rbuf := rbuf, rcurr := rcurr, rbytes := rbytes } : Conn).Inv granted good (used ++ (l ++ [10]))
  := by
  obtain ⟨hmode, hdue⟩ := Conn.plain hstate
  obtain ⟨hgo, hwrite⟩ := reader_command granted c.frames.length hnot
  rw [← hm] at hgo
  have hframes : c'.frames ++ c'.due = c.frames ++ [.command (stripCr l)] := by
    rw [hreacts.frames, hreacts.due, List.append_nil]
  have hproper : ({ c' with rbuf := rbuf, rcurr := rcurr, rbytes := rbytes } : Conn).Proper := by
    constructor
    · exact hroom.trans hreacts.rsize.ge
    · exact h.proper.pos.trans_le hreacts.rsize.ge
    · exact fun n gotdata hnetwork => absurd hnetwork (hreacts.rewound n gotdata)
    · exact fun hlooks => absurd hlooks hreacts.looks
    · exact fun hnoreply => .inl (hreacts.noreply hnoreply)
    · exact fun hwrite => (hreacts.goes hwrite).imp_right .inl
  have hreceived : c'.received = used ++ (l ++ [10]) ++ rest := by
    rw [hreacts.received, List.append_assoc, ← hpending]
    exact h.received
  by_cases hclosed : m = .closed
  · obtain ⟨hplace, houtput⟩ := h.synced _ hmode
    rw [hdue, List.append_nil] at hplace houtput
    have hnone : c'.mode = none := hreacts.mode.trans (if_pos hclosed)
    constructor
    · exact hproper
    · rw [hpending']
      exact hreceived
    · rw [Transducer.output_append, houtput, hplace, hwrite, ← hframes, hreacts.due, List.append_nil]
    · intro x hx
      cases hnone.symm.trans hx
    · intro _ _
      left
      have hend : (reader granted).state c'.received = (.closed, c.frames.length + 1) := by
        rw [hreceived, Transducer.state_append, Transducer.state_append, hplace, hgo, hclosed, reader_closed]
      exact congrArg Prod.fst hend
  · apply h.take
    · exact hproper
    · rw [hpending']
      exact hreceived
    · exact hmode
    · exact hreacts.mode.trans (if_neg hclosed)
    · exact hdue
    · rw [hgo]
      have hlength : (c'.frames ++ c'.due).length = c.frames.length + 1 := by
        rw [hframes, List.length_append]
        rfl
      exact congrArg _ hlength.symm
    · rw [hwrite]
      exact hframes.symm

theorem Conn.Inv.parseCmd (h : c.Inv granted good used) (hstate : c.state = .parseCmd) :
  ∃ used', (c.round granted r).Inv granted (good ∧ r.Good) used'
  := by
  have hplain : c.state.Plain := by
    rw [hstate]
    trivial
  obtain ⟨hmode, hdue⟩ := Conn.plain hplain
  have hreply : c.noreply = false := by
    apply h.proper.replies hstate
    all_goals rintro ⟨⟩
  have hround : c.round granted r = c.tryReadCommand granted := by rw [Conn.round, hstate]
  rw [hround, Conn.tryReadCommand]
  split
  · next hnone =>
    have hnot := Conn.no_line_end hnone
    refine ⟨used, ?_⟩
    split
    · next hlong =>
      apply h.closing
      intro _
      refine .inr ⟨used, c.pending, h.received, ?_, hnot, hlong⟩
      rw [(h.synced _ hmode).1]
    · apply Conn.Inv.mono _ And.left
      apply h.plain hplain
      · trivial
      · exact h.received
      · rfl
      · exact h.proper.room
      · exact h.proper.pos
      · rintro _ _ ⟨⟩
      · exact fun _ => hnot
      · rfl
  · next el hsome =>
    obtain ⟨hlt, hnot, htake⟩ := Conn.line_end hsome
    refine ⟨used ++ (c.pending.take el ++ [10]), ?_⟩
    apply Conn.Inv.mono _ And.left
    apply h.react hplain hnot rfl
    · apply Conn.reacts
      exact hreply
    · rw [← htake, List.take_append_drop]
    · have hroom := h.proper.room
      omega
    · apply c.pending_zero
      exact (stripCr_length _).trans (List.length_take_le _ _)

theorem Conn.pending_shrink (c : Conn) (ok : Bool) :
  (c.shrink ok).pending = c.pending
  := by
  unfold Conn.shrink
  split
  · exact c.pending_rewind
  · rfl

/-- What shrinking the buffer does not change, and that there is still room. -/
theorem Conn.shrink_spec (h : c.Proper) (ok : Bool) :
  ((c.shrink ok).rcurr + (c.shrink ok).rbytes ≤ (c.shrink ok).rsize ∧ 0 < (c.shrink ok).rsize) ∧
    (c.shrink ok).received = c.received ∧ (c.shrink ok).frames = c.frames ∧ (c.shrink ok).noreply = c.noreply ∧
    (c.shrink ok).rbytes = c.rbytes
  := by
  have hroom := h.room
  have hpos := h.pos
  unfold Conn.shrink
  split
  · next hlarge =>
    refine ⟨?_, rfl, rfl, rfl, rfl⟩
    cases ok
    all_goals
      simp only [Conn.rewind, Bool.false_eq_true, if_true, if_false]
      omega
  · exact ⟨⟨hroom, hpos⟩, rfl, rfl, rfl, rfl⟩

/-- The connection goes on with the next command, or waits for it. -/
theorem Conn.Inv.resetCmdHandler (h : c.Inv granted good used) (hstate : c.state.Plain) (ok : Bool) :
  (c.resetCmdHandler ok).Inv granted good used
  := by
  obtain ⟨⟨hroom, hpos⟩, hreceived, hframes, hnoreply, hrbytes⟩ := Conn.shrink_spec h.proper ok
  have hpending := c.pending_shrink ok
  apply h.plain hstate
  · simp only [Conn.resetCmdHandler]
    split <;> trivial
  · have hsplit : (c.shrink ok).received = used ++ (c.shrink ok).pending := by
      rw [hreceived, hpending]
      exact h.received
    exact hsplit
  · exact hframes
  · exact hroom
  · exact hpos
  · simp only [Conn.resetCmdHandler]
    split
    all_goals rintro _ _ ⟨⟩
  · simp only [Conn.resetCmdHandler]
    split
    · exact False.elim
    · next hempty =>
      intro _
      have hnil : (c.shrink ok).pending = [] := by
        rw [hpending]
        exact Conn.pending_eq_nil (Nat.eq_zero_of_not_pos hempty)
      have hnot : 10 ∉ (c.shrink ok).pending := by
        rw [hnil]
        exact List.not_mem_nil
      exact hnot
  · exact hnoreply

theorem Conn.Inv.newCmd (h : c.Inv granted good used) (hstate : c.state = .newCmd) :
  (c.round granted r).Inv granted (good ∧ r.Good) used
  := by
  have hplain : c.state.Plain := by
    rw [hstate]
    trivial
  have hround : c.round granted r =
      if 0 < c.nreqs then ({ c with nreqs := c.nreqs - 1 } : Conn).resetCmdHandler r.ok
      else if 0 < c.rbytes ∧ r.ok = false then { c with state := .closing, stop := true }
      else { c with stop := true } := by
    rw [Conn.round, hstate]
  rw [hround]
  split
  · apply Conn.Inv.mono _ And.left
    have hnext : ({ c with nreqs := c.nreqs - 1 } : Conn).Inv granted good used :=
      ⟨⟨h.proper.room, h.proper.pos, h.proper.rewound, h.proper.looks, h.proper.noreply, h.proper.goes⟩,
        h.received, h.handed, h.synced, h.ends⟩
    exact hnext.resetCmdHandler hplain r.ok
  · split
    · next hbad =>
      have hclosing : ({ c with state := .closing } : Conn).Inv granted (good ∧ r.Good) used := by
        apply h.closing
        intro hgood
        rw [hgood.2.ok] at hbad
        cases hbad.2
      exact hclosing.pause
    · exact (h.mono And.left).pause

/-! ### Data -/

/-- Bytes of the item have been used. -/
theorem Conn.Inv.data
    {c' : Conn} (h : c.Inv granted good used) (hstate : c.state = .nread) (hleft : 0 < c.rlbytes)
    (hl : l.length ≤ c.rlbytes) (hstate' : c'.state = .nread) (hritem : c'.ritem = c.ritem ++ l)
    (hrlbytes : c'.rlbytes = c.rlbytes - l.length) (hframes : c'.frames = c.frames)
    (hreceived : c'.received = used ++ l ++ c'.pending) (hroom : c'.rcurr + c'.rbytes ≤ c'.rsize)
    (hpos : 0 < c'.rsize) :
  c'.Inv granted good (used ++ l)
  := by
  have hne : c.rlbytes ≠ 0 := Nat.pos_iff_ne_zero.mp hleft
  obtain ⟨hgo, hwrite⟩ := reader_data granted c.frames.length c.ritem hleft hl
  have hitem : Mode.item c.rlbytes c.ritem = .data c.rlbytes c.ritem := if_neg hne
  have hdue : c'.due = if l.length = c.rlbytes then [.data (c.ritem ++ l)] else [] := by
    have hiff : c.rlbytes - l.length = 0 ↔ l.length = c.rlbytes := by omega
    simp only [Conn.due, hstate', hrlbytes, hritem, true_and, hiff]
  apply h.take
  · constructor
    · exact hroom
    · exact hpos
    · intro n gotdata hnetwork
      rw [hstate'] at hnetwork
      cases hnetwork
    · rw [hstate']
      exact False.elim
    · exact fun _ => .inl hstate'
    · rw [hstate']
      rintro ⟨⟩
  · exact hreceived
  · rw [Conn.mode, hstate]
  · rw [Conn.mode, hstate']
  · simp only [Conn.due, hne, and_false, if_false]
  · rw [hritem, hrlbytes, hframes, hdue, hitem, hgo]
    split <;> simp
  · rw [hframes, hdue, hitem, hwrite]

/-- A call of `read` for the rest of an item, when nothing is pending. -/
theorem Conn.Inv.readItem
    (h : c.Inv granted good used) (hstate : c.state = .nread) (hleft : 0 < c.rlbytes) (hempty : c.rbytes = 0) :
  ∃ used', (c.readItem r).Inv granted (good ∧ r.Good) used'
  := by
  unfold Conn.readItem
  cases hread : r.read with
  | error => exact ⟨used, h.closing fun hgood => absurd hread hgood.2.read.1⟩
  | again =>
      refine ⟨used, ?_⟩
      simp only
      split
      · exact (h.mono And.left).pause
      · next hok => exact h.closing fun hgood => absurd hgood.2.ok hok
  | data bytes =>
      simp only
      split
      · next hend =>
        refine ⟨used, h.closing ?_⟩
        intro hgood
        apply absurd hread
        rw [(List.take_eq_nil_iff.mp hend).resolve_left (Nat.pos_iff_ne_zero.mp hleft)]
        exact hgood.2.read.2
      · refine ⟨used ++ bytes.take c.rlbytes, ?_⟩
        apply Conn.Inv.mono _ And.left
        apply h.data hstate hleft (List.length_take_le _ _)
        · exact hstate
        · rfl
        · rfl
        · rfl
        · have hpending := Conn.pending_eq_nil hempty
          have hreceived : c.received ++ bytes.take c.rlbytes = used ++ bytes.take c.rlbytes ++ c.pending := by
            rw [h.received, hpending, List.append_nil, List.append_nil]
          exact hreceived
        · exact h.proper.room
        · exact h.proper.pos

theorem Conn.Inv.nread (h : c.Inv granted good used) (hstate : c.state = .nread) :
  ∃ used', (c.round granted r).Inv granted (good ∧ r.Good) used'
  := by
  have hround : c.round granted r = c.nreadRound r := by rw [Conn.round, hstate]
  rw [hround, Conn.nreadRound]
  split
  · next hdone =>
    refine ⟨used, ?_⟩
    apply Conn.Inv.mono _ And.left
    apply h.outString
    · rfl
    · rfl
    · rfl
    · rfl
    · rfl
    · simp only [Conn.mode, hstate, Mode.item, hdone, if_true]
    · simp only [Conn.due, hstate, hdone, and_self, if_true]
  · next hleft =>
    have hleft := Nat.pos_of_ne_zero hleft
    split
    · next hsome =>
      have hlen : (c.pending.take (min c.rbytes c.rlbytes)).length = min c.rbytes c.rlbytes := by
        rw [List.length_take, c.length_pending]
        omega
      have hcopy : ({ c.use (min c.rbytes c.rlbytes) with
          ritem := c.ritem ++ c.pending.take (min c.rbytes c.rlbytes)
          rlbytes := c.rlbytes - min c.rbytes c.rlbytes } : Conn).Inv granted good
            (used ++ c.pending.take (min c.rbytes c.rlbytes)) := by
        apply h.data hstate hleft
        · rw [hlen]
          exact Nat.min_le_right _ _
        · exact hstate
        · rfl
        · rw [hlen]
        · rfl
        · have hpending := c.pending_use (min c.rbytes c.rlbytes)
          have hreceived : c.received
              = used ++ c.pending.take (min c.rbytes c.rlbytes) ++ (c.use (min c.rbytes c.rlbytes)).pending := by
            rw [hpending, List.append_assoc, List.take_append_drop, h.received]
          exact hreceived
        · have hroom := h.proper.room
          simp only [Conn.use]
          omega
        · exact h.proper.pos
      simp only
      split
      · exact ⟨_, hcopy.mono And.left⟩
      · next hrest =>
        apply hcopy.readItem
        · exact hstate
        · exact Nat.pos_of_ne_zero hrest
        · simp only [Conn.use]
          omega
    · next hnone => exact h.readItem hstate hleft (Nat.eq_zero_of_not_pos hnone)

/-- Bytes have been thrown away. -/
theorem Conn.Inv.skip
    {c' : Conn} (h : c.Inv granted good used) (hstate : c.state = .swallow) (hleft : 0 < c.sbytes)
    (hl : l.length ≤ c.sbytes) (hstate' : c'.state = .swallow) (hsbytes : c'.sbytes = c.sbytes - l.length)
    (hframes : c'.frames = c.frames) (hreceived : c'.received = used ++ l ++ c'.pending)
    (hroom : c'.rcurr + c'.rbytes ≤ c'.rsize) (hpos : 0 < c'.rsize) (hnoreply : c'.noreply = c.noreply) :
  c'.Inv granted good (used ++ l)
  := by
  have hne : c.sbytes ≠ 0 := Nat.pos_iff_ne_zero.mp hleft
  obtain ⟨hgo, hwrite⟩ := reader_swallow granted c.frames.length hleft hl
  have hrest : Mode.rest c.sbytes = .swallow c.sbytes := if_neg hne
  have hdue : c'.due = [] := by simp [Conn.due, hstate']
  apply h.take
  · constructor
    · exact hroom
    · exact hpos
    · intro n gotdata hnetwork
      rw [hstate'] at hnetwork
      cases hnetwork
    · rw [hstate']
      exact False.elim
    · rw [hnoreply, h.proper.replies hstate]
      all_goals rintro ⟨⟩
    · rw [hstate']
      rintro ⟨⟩
  · exact hreceived
  · rw [Conn.mode, hstate]
  · rw [Conn.mode, hstate']
  · simp [Conn.due, hstate]
  · rw [hsbytes, hframes, hdue, hrest, hgo, List.append_nil]
  · rw [hframes, hdue, hrest, hwrite]

theorem Conn.Inv.swallow (h : c.Inv granted good used) (hstate : c.state = .swallow) :
  ∃ used', (c.round granted r).Inv granted (good ∧ r.Good) used'
  := by
  have hround : c.round granted r = c.swallowRound r := by rw [Conn.round, hstate]
  have hmode : c.mode = some (.rest c.sbytes) := by rw [Conn.mode, hstate]
  have hdue : c.due = [] := by simp [Conn.due, hstate]
  have hreply : c.noreply = false := by
    apply h.proper.replies hstate
    all_goals rintro ⟨⟩
  rw [hround, Conn.swallowRound]
  split
  · next hdone =>
    refine ⟨used, ?_⟩
    apply Conn.Inv.mono _ And.left
    apply h.goOn hreply hdue (.inl rfl)
    rw [hmode, Mode.rest, if_pos hdone]
    rfl
  · next hleft =>
    have hleft := Nat.pos_of_ne_zero hleft
    split
    · next hsome =>
      have hlen : (c.pending.take (min c.rbytes c.sbytes)).length = min c.rbytes c.sbytes := by
        rw [List.length_take, c.length_pending]
        omega
      refine ⟨used ++ c.pending.take (min c.rbytes c.sbytes), ?_⟩
      apply Conn.Inv.mono _ And.left
      apply h.skip hstate hleft
      · rw [hlen]
        exact Nat.min_le_right _ _
      · exact hstate
      · rw [hlen]
      · rfl
      · have hpending := c.pending_use (min c.rbytes c.sbytes)
        have hreceived : c.received
            = used ++ c.pending.take (min c.rbytes c.sbytes) ++ (c.use (min c.rbytes c.sbytes)).pending := by
          rw [hpending, List.append_assoc, List.take_append_drop, h.received]
        exact hreceived
      · have hroom := h.proper.room
        simp only [Conn.use]
        omega
      · exact h.proper.pos
      · rfl
    · next hnone =>
      have hempty := Nat.eq_zero_of_not_pos hnone
      cases hread : r.read with
      | error => exact ⟨used, h.closing fun hgood => absurd hread hgood.2.read.1⟩
      | again =>
          refine ⟨used, ?_⟩
          simp only
          split
          · exact (h.mono And.left).pause
          · next hok => exact h.closing fun hgood => absurd hgood.2.ok hok
      | data bytes =>
          simp only
          split
          · next hend =>
            refine ⟨used, h.closing ?_⟩
            intro hgood
            have hpos := h.proper.pos
            apply absurd hread
            rw [(List.take_eq_nil_iff.mp hend).resolve_left (by omega)]
            exact hgood.2.read.2
          · refine ⟨used ++ bytes.take (min c.rsize c.sbytes), ?_⟩
            apply Conn.Inv.mono _ And.left
            apply h.skip hstate hleft
            · exact (List.length_take_le _ _).trans (Nat.min_le_right _ _)
            · exact hstate
            · rfl
            · rfl
            · rw [h.received, Conn.pending_eq_nil hempty, Conn.pending_eq_nil, List.append_nil, List.append_nil]
              exact hempty
            · exact h.proper.room
            · exact h.proper.pos
            · rfl

/-! ### Responses -/

/-- Sending a response, behind which comes the state `next`. -/
theorem Conn.Inv.transmit
    {next : ConnState} (h : c.Inv granted good used)
    (hnext : ({ c with state := next } : Conn).Inv granted good used) :
  (c.transmit next r.transmit).Inv granted (good ∧ r.Good) used
  := by
  cases htransmit : r.transmit with
  | complete => exact hnext.mono And.left
  | incomplete => exact h.mono And.left
  | softError => exact (h.mono And.left).pause
  | hardError => exact h.closing fun hgood => absurd htransmit hgood.2.transmit

/-- A response has been sent. -/
theorem Conn.Inv.sent (h : c.Inv granted good used) (hstate : c.state = .write) :
  ({ c with state := c.writeAndGo } : Conn).Inv granted good used
  := by
  have hdue : c.due = [] := by simp [Conn.due, hstate]
  have hreply : c.noreply = false := by
    apply h.proper.replies hstate
    all_goals rintro ⟨⟩
  obtain hgo | hgo := or_assoc.mpr (h.proper.goes hstate)
  · apply h.goOn hreply hdue hgo
    obtain hgo | hgo := hgo
    all_goals simp [Conn.mode, hstate, hgo]
  · have heq : ({ c with state := c.writeAndGo } : Conn) = { c with state := .closing } := by rw [hgo]
    rw [heq]
    apply h.closing
    intro hgood
    apply h.ends hgood
    simp [Conn.mode, hstate, hgo]

theorem Conn.Inv.write (h : c.Inv granted good used) (hstate : c.state = .write) :
  (c.round granted r).Inv granted (good ∧ r.Good) used
  := by
  have hround : c.round granted r
      = if r.ok then c.transmit c.writeAndGo r.transmit else { c with state := .closing } := by
    rw [Conn.round, hstate]
  rw [hround]
  split
  · exact h.transmit (h.sent hstate)
  · next hok => exact h.closing fun hgood => absurd hgood.2.ok hok

theorem Conn.Inv.mwrite (h : c.Inv granted good used) (hstate : c.state = .mwrite) :
  (c.round granted r).Inv granted (good ∧ r.Good) used
  := by
  have hround : c.round granted r = c.transmit .newCmd r.transmit := by rw [Conn.round, hstate]
  rw [hround]
  apply h.transmit
  apply h.plain
  · rw [hstate]
    trivial
  · trivial
  · exact h.received
  · rfl
  · exact h.proper.room
  · exact h.proper.pos
  · rintro _ _ ⟨⟩
  · exact False.elim
  · rfl

/-! ### Runs -/

theorem Conn.Inv.round (h : c.Inv granted good used) :
  ∃ used', (c.round granted r).Inv granted (good ∧ r.Good) used'
  := by
  cases hstate : c.state with
  | newCmd => exact ⟨used, h.newCmd hstate⟩
  | waiting => exact ⟨used, h.waiting hstate⟩
  | read => exact ⟨used, h.read hstate⟩
  | network numAllocs gotdata => exact h.network hstate
  | parseCmd => exact h.parseCmd hstate
  | write => exact ⟨used, h.write hstate⟩
  | nread => exact h.nread hstate
  | swallow => exact h.swallow hstate
  | closing =>
      have hround : c.round granted r = { c with stop := true } := by rw [Conn.round, hstate]
      rw [hround]
      exact ⟨used, (h.mono And.left).pause⟩
  | mwrite => exact ⟨used, h.mwrite hstate⟩

def Label.Good : Label → Prop
  | .event => True
  | .round r => r.Good

variable {reqsPerEvent : Nat} {label : Label} {labels : List Label}

variable (reqsPerEvent label) in
theorem Conn.Inv.exec (h : c.Inv granted good used) :
  ∃ used', (c.exec reqsPerEvent granted label).Inv granted (good ∧ label.Good) used'
  := by
  cases label with
  | event =>
      refine ⟨used, ?_⟩
      apply Conn.Inv.mono _ And.left
      simp only [Conn.exec]
      split
      · exact ⟨⟨h.proper.room, h.proper.pos, h.proper.rewound, h.proper.looks, h.proper.noreply, h.proper.goes⟩,
          h.received, h.handed, h.synced, h.ends⟩
      · exact h
  | round r =>
      simp only [Conn.exec]
      split
      · exact ⟨used, h.mono And.left⟩
      · exact h.round

variable (reqsPerEvent labels) in
theorem Conn.Inv.run (h : c.Inv granted good used) :
  ∃ used', (c.run reqsPerEvent granted labels).Inv granted (good ∧ ∀ label ∈ labels, label.Good) used'
  := by
  induction labels generalizing c good used with
  | nil => exact ⟨used, h.mono And.left⟩
  | cons label labels ih =>
      obtain ⟨used₁, h₁⟩ := h.exec reqsPerEvent label
      obtain ⟨used₂, h₂⟩ := ih h₁
      refine ⟨used₂, h₂.mono ?_⟩
      rintro ⟨hgood, hall⟩
      obtain ⟨hlabel, hlabels⟩ := List.forall_mem_cons.mp hall
      exact ⟨⟨hgood, hlabel⟩, hlabels⟩

theorem inv_connNew (granted : Nat → Bool) (rbuf : Nat → UInt8) {rsize : Nat} (hrsize : 0 < rsize) :
  (connNew rbuf rsize).Inv granted True []
  := by
  constructor
  · constructor
    · exact Nat.zero_le _
    · exact hrsize
    · rintro _ _ ⟨⟩
    · exact False.elim
    · rintro ⟨⟩
    · rintro ⟨⟩
  · rfl
  · exact List.prefix_rfl
  · rintro m ⟨⟩
    exact ⟨rfl, rfl⟩
  · rintro _ ⟨⟩

/-- The connection has nothing left to do before more bytes come. -/
def Conn.Quiet (c : Conn) : Prop :=
  match c.state with
  | .waiting | .read => True
  | .nread => c.rbytes = 0 ∧ 0 < c.rlbytes
  | .swallow => c.rbytes = 0 ∧ 0 < c.sbytes
  | _ => False

/-- What has been handed on is what the bytes say, as far as the connection has come; it has handed on
everything when it is quiet, it stays in its buffer, and it is closed only as the bytes say if the system
gives no errors. -/
structure Conn.Framed (granted : Nat → Bool) (good : Prop) (c : Conn) : Prop where
  handed : c.frames <+: (reader granted).output c.received
  complete : c.Quiet → c.frames = (reader granted).output c.received
  room : c.rcurr + c.rbytes ≤ c.rsize
  ends : good → c.state = .closing → c.Ends granted

/-- A quiet connection looks for bytes, or it has used all that are there. -/
theorem Conn.Quiet.cases (h : c.Quiet) :
  c.state.Plain ∧ c.state.Looks ∨ c.rbytes = 0 ∧ c.due = [] ∧ c.mode ≠ none
  := by
  unfold Conn.Quiet at h
  cases hstate : c.state
  all_goals rw [hstate] at h
  case waiting => exact .inl ⟨trivial, trivial⟩
  case read => exact .inl ⟨trivial, trivial⟩
  case nread =>
    right
    refine ⟨h.1, ?_, ?_⟩
    · simp [Conn.due, Nat.pos_iff_ne_zero.mp h.2]
    · simp [Conn.mode, hstate]
  case swallow =>
    right
    refine ⟨h.1, ?_, ?_⟩
    · simp [Conn.due, hstate]
    · simp [Conn.mode, hstate]
  all_goals exact h.elim

theorem Conn.Inv.framed (h : c.Inv granted good used) :
  c.Framed granted good
  where
  handed := by
    apply h.handed.trans
    apply (reader granted).output_mono
    rw [h.received]
    exact List.prefix_append _ _
  complete := by
    intro hquiet
    rw [h.received, Transducer.output_append]
    obtain ⟨hplain, hlooks⟩ | ⟨hempty, hdue, hsome⟩ := hquiet.cases
    · obtain ⟨hmode, hdue⟩ := Conn.plain hplain
      obtain ⟨hplace, houtput⟩ := h.synced _ hmode
      obtain ⟨-, hwrite⟩ := reader_line granted (c.frames ++ c.due).length [] (h.proper.looks hlooks)
      rw [hplace, hwrite, houtput, hdue, List.append_nil, List.append_nil]
    · obtain ⟨m, hm⟩ := Option.ne_none_iff_exists'.mp hsome
      rw [Conn.pending_eq_nil hempty, (h.synced m hm).2, hdue, Transducer.write_nil, List.append_nil,
        List.append_nil]
  room := h.proper.room
  ends := by
    intro hgood hstate
    apply h.ends hgood
    rw [Conn.mode, hstate]

/-- What a connection hands on depends only on the bytes it gets: in every run, whatever comes from the socket at
a time, however large the buffer is, and whenever the loop stops, it is what a reader of one byte at a time
would hand on. -/
theorem drive_machine_framed
    (granted : Nat → Bool) (reqsPerEvent : Nat) (rbuf : Nat → UInt8) (rsize : Nat) (labels : List Label)
    (hrsize : 0 < rsize) :
  ((connNew rbuf rsize).run reqsPerEvent granted labels).Framed granted (∀ label ∈ labels, label.Good)
  := by
  obtain ⟨used, h⟩ := (inv_connNew granted rbuf hrsize).run reqsPerEvent labels
  exact (h.mono fun hgood => ⟨trivial, hgood⟩).framed

/-- A round in which nothing goes wrong. -/
def Read.round (read : Read) : Label := .round ⟨true, read, .complete⟩

/-- A `set` comes in portions, of which one ends in the data of the item, and a `get` comes behind it. -/
def portionRun : List Label :=
  [.event, Read.again.round, Read.again.round, .event, Read.again.round, (Read.data (ascii "set a 0 0 ")).round,
    Read.again.round, Read.again.round, .event, Read.again.round, (Read.data (ascii "3\r\nx\n")).round,
    Read.again.round, Read.again.round, .event, (Read.data (ascii "y\r\n")).round, Read.again.round,
    Read.again.round, Read.again.round, Read.again.round, .event, Read.again.round,
    (Read.data (ascii "get a\r\n")).round, Read.again.round, Read.again.round, Read.again.round]

theorem drive_machine_framed_portions :
  ((connNew (fun _ => 0) 16).run 20 (fun _ => true) portionRun).frames
      = [.command (ascii "set a 0 0 3"), .data (ascii "x\ny\r\n"), .command (ascii "get a")] ∧
    ((connNew (fun _ => 0) 16).run 20 (fun _ => true) portionRun).Framed (fun _ => true)
      (∀ label ∈ portionRun, label.Good)
  := ⟨by decide +kernel, drive_machine_framed (fun _ => true) 20 (fun _ => 0) 16 portionRun (by decide)⟩

end Memcached.DriveMachine
