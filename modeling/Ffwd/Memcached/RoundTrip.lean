import Ffwd.Memcached.Cache
import Ffwd.Memcached.Drafts
import Ffwd.Memcached.GetCommand

/-!
# From a storage command to the answer of a get

The tokens of a storage command are read as numbers, the data is stored, and a `VALUE` line is made of the
item that is found. The numbers are read as 64-bit numbers and kept in 32 bits, and the flags are printed
as a signed number.
-/

namespace Memcached

open Linked Counting Runs Decimal

/-! ### The command line -/

/-- `safe_strtoul`, where a `long` has 64 bits. -/
def safeStrtoul (str : List UInt8) : Option (BitVec 32) := (safeStrtoull str).map (BitVec.ofNat 32)

/-- The number that `strtol` reads, unless it is out of range, and what follows it. -/
def strtolEnd (l : List UInt8) : Option Int × List UInt8 :=
  let (neg, t) := sign (l.dropWhile isSpace)
  let v : Int := if neg then -(value (digits t) : Int) else value (digits t)
  if digits t = [] then (some 0, l)
  else if v < -2 ^ 63 ∨ 2 ^ 63 ≤ v then (none, t.dropWhile isDigit)
  else (some v, t.dropWhile isDigit)

/-- `safe_strtol`, where a `long` has 64 bits. -/
def safeStrtol (str : List UInt8) : Option Int :=
  match strtolEnd str with
  | (none, _) => none
  | (some l, endptr) => if endsNumber str endptr then some (toInt32 l) else none

/-- The tokens of a storage command. There is a CAS id if it is a `cas`. -/
structure UpdateLine where
  key : Key
  flags : List UInt8
  exptime : List UInt8
  bytes : List UInt8
  cas : Option (List UInt8)
  comm : Comm

/-- `process_update_command`, unless it answers with an error, when `data` comes next. A zero ends a
token. -/
def processUpdateCommand (line : UpdateLine) (data : Nat → UInt8) : Option Command :=
  if keyMaxLength < line.key.length then none
  else
    match safeStrtoul (line.flags ++ [0]), safeStrtol (line.exptime ++ [0]), safeStrtol (line.bytes ++ [0]) with
    | some flags, some exptime, some vlen =>
        match (match line.cas with | none => some 0 | some cas => safeStrtoull (cas ++ [0])) with
        | none => none
        | some cas =>
            let vlen := toInt32 (vlen + 2)
            if vlen < 0 ∨ vlen - 2 < 0 then none
            else some (.update line.key flags exptime (vlen - 2).toNat cas line.comm data)
    | _, _, _ => none

/-- The line that `process_get_command` sends for an item, with the data: the suffix and the data are one
behind the other. -/
def valueLine (it : Item) : List UInt8 := [86, 65, 76, 85, 69, 32] ++ it.key ++ it.suffix ++ it.value

/-! ### Numerals -/

theorem dropWhile_print (n : Nat) (l : List UInt8) :
  (print n ++ l).dropWhile isSpace = print n ++ l
  := by
  obtain ⟨c, l', hc, hdigit⟩ := print_eq_cons n
  rw [hc, List.cons_append, List.dropWhile_cons_of_neg]
  rw [isSpace_eq_false_of_isDigit hdigit]
  exact Bool.false_ne_true

theorem dropWhile_isDigit_print (n : Nat) :
  (print n ++ [0]).dropWhile isDigit = [0]
  := by
  rw [List.dropWhile_append_of_pos fun c hc => isDigit_of_mem_print hc]
  rfl

theorem digits_print_zero (n : Nat) :
  digits (print n ++ [0]) = print n
  := by
  apply digits_print_append
  rintro c ⟨rfl⟩
  rfl

theorem endsNumber_print (n : Nat) :
  endsNumber (print n ++ [0]) [0] = true
  := by
  simp [endsNumber, print_ne_nil]

theorem safeStrtoull_print (n : Nat) :
  safeStrtoull (print n ++ [0]) = if n < 2 ^ 64 then some n else none
  := by
  have hminus : 45 ∉ cString (print n ++ [0]) := by
    intro hmem
    obtain hmem | hmem := List.mem_append.mp ((List.takeWhile_sublist _).mem hmem)
    · have hdigit := isDigit_of_mem_print hmem
      cases hdigit
    · cases hmem with
      | tail _ hmem => cases hmem
  rw [safeStrtoull, strtoull, dropWhile_print, sign_print]
  simp only [digits_print_zero, dropWhile_isDigit_print, value_print, print_ne_nil, if_false,
    Bool.false_eq_true]
  by_cases hlt : n < 2 ^ 64
  · rw [if_neg (Nat.not_le.mpr hlt), if_pos hlt]
    simp only [endsNumber_print, hminus, and_false, if_false, if_true]
  · rw [if_pos (Nat.not_lt.mp hlt), if_neg hlt]

theorem safeStrtol_print (n : Nat) :
  safeStrtol (print n ++ [0]) = if n < 2 ^ 63 then some (toInt32 n) else none
  := by
  rw [safeStrtol, strtolEnd, dropWhile_print, sign_print]
  simp only [digits_print_zero, dropWhile_isDigit_print, value_print, print_ne_nil, if_false,
    Bool.false_eq_true]
  by_cases hlt : n < 2 ^ 63
  · have hin : ¬((n : Int) < -2 ^ 63 ∨ 2 ^ 63 ≤ (n : Int)) := by omega
    rw [if_neg hin, if_pos hlt]
    simp only [endsNumber_print, if_true]
  · have hout : (n : Int) < -2 ^ 63 ∨ 2 ^ 63 ≤ (n : Int) := by omega
    rw [if_pos hout, if_neg hlt]

/-- What is read from numerals of any size. -/
theorem processUpdateCommand_numerals
    {line : UpdateLine} {data : Nat → UInt8} {command : Command} {flags bytes : Nat}
    (h : processUpdateCommand line data = some command) (hflags : line.flags = print flags)
    (hbytes : line.bytes = print bytes) :
  flags < 2 ^ 64 ∧ bytes < 2 ^ 63 ∧ bytes % 2 ^ 32 + 2 < 2 ^ 31 ∧ ∃ exptime cas,
    command = .update line.key (BitVec.ofNat 32 flags) exptime (bytes % 2 ^ 32) cas line.comm data
  := by
  rw [processUpdateCommand, hflags, hbytes, safeStrtoul, safeStrtoull_print, safeStrtol_print] at h
  split at h
  · cases h
  · split at h
    · next hread hexptime hlen =>
      split at h
      · cases h
      · simp only at h
        split at h
        · cases h
        · next hnonneg =>
          cases h
          split at hread
          · next hlt =>
            split at hlen
            · next hlt' =>
              cases hread
              cases hlen
              have hvlen : toInt32 (toInt32 bytes + 2) - 2 = ((bytes % 2 ^ 32 : Nat) : Int) ∧
                  bytes % 2 ^ 32 + 2 < 2 ^ 31 := by
                simp only [toInt32, BitVec.toInt_ofInt, Int.bmod_def] at hnonneg ⊢
                omega
              rw [hvlen.1, Int.toNat_natCast]
              exact ⟨hlt, hlt', hvlen.2, _, _, rfl⟩
            · cases hlen
          · cases hread
    · cases h

theorem printInt_natCast (n : Nat) : printInt n = print n := by
  rw [printInt, if_neg (by omega), Int.natAbs_natCast]

/-- The line of an item whose suffix is in order. -/
theorem valueLine_eq
    {it : Item} {k : Key} {flags : Int} {n : Nat} {data : Nat → UInt8} (hkey : it.key = k)
    (hsuffix : it.suffix = suffixOf it.flags it.nbytes) (hflags : it.toStored.flags = flags)
    (hvalue : it.toStored.value = (List.range (n + 2)).map data) :
  valueLine it = [86, 65, 76, 85, 69, 32] ++ k ++ 32 :: printInt flags ++ 32 :: print n ++ [13, 10]
    ++ (List.range (n + 2)).map data
  := by
  have hflags : it.flags = flags := hflags
  have hvalue : it.value = (List.range (n + 2)).map data := hvalue
  have hlength := length_value it
  rw [hvalue, List.length_map, List.length_range] at hlength
  have hlen : ((n + 2 : Nat) : Int) - 2 = n := by omega
  rw [valueLine, hsuffix, suffixOf, hflags, hvalue, ← hlength, hlen, printInt_natCast, hkey]
  simp

/-! ### Runs -/

variable {ι : Type} [Fintype ι] [DecidableEq ι] {hash : Key → BitVec 32} {started : Int} {v : Server ι}
  {A : Finset Addr} {ls : Nat → List Addr} {es : List (Event ι)} {b : Addr} {k : Key} {x : Stored}

/-- What is stored under a key at the end of a run was there at its start, if nothing is stored under the key
in between. -/
theorem Server.Inv.contents_run
    (h : v.Inv hash A ls) (hes : v.CalmRun hash started es)
    (hstores : Always (Server.exec hash started) (fun v d => (v.move hash d).stores ≠ some k) v es)
    (hx : (v.run hash started es).contents hash k = some x) :
  v.contents hash k = some x
  := by
  induction es generalizing v A ls with
  | nil => exact hx
  | cons e es ih =>
      obtain ⟨A', ls', h', hmoves⟩ := h.step started e hes.1
      have hafter := ih h' hes.2 hstores.2 hx
      obtain hsame | hnone := hmoves.contents h h' hstores.1
      · rw [← hsame]
        exact hafter
      · rw [hnone] at hafter
        cases hafter

omit [Fintype ι] in
/-- A command that is no concatenation stores the item that the connection has made. -/
theorem storeSpec_new
    {comm : Comm} {old : Option Entry} {new : Entry} {room : Bool}
    (h : (storeSpec comm old new room).2 = some x) (hcomm : comm ≠ .append ∧ comm ≠ .prepend) :
  x = new.toStored
  := by
  cases comm with
  | set => exact (Option.some.inj h).symm
  | add =>
      cases old with
      | none => exact (Option.some.inj h).symm
      | some o => cases h
  | replace =>
      cases old with
      | none => cases h
      | some o => exact (Option.some.inj h).symm
  | cas =>
      cases old with
      | none => cases h
      | some o =>
          simp only [storeSpec] at h
          split at h
          · exact (Option.some.inj h).symm
          · cases h
  | append => exact absurd rfl hcomm.1
  | prepend => exact absurd rfl hcomm.2

/-- The item that a script hands to `store_item`, and the command. -/
def Script.hands : Script → Option (Addr × Comm)
  | store a comm _ => some (a, comm)
  | _ => none

theorem Script.hands_eq_some {p : Script} {a : Addr} {comm : Comm} :
  p.hands = some (a, comm) ↔ ∃ next, p = .store a comm next
  := by
  cases p <;> simp [hands]

instance (p : Script) (a : Addr) (comm : Comm) : Decidable (∃ next, p = .store a comm next) :=
  decidable_of_iff (p.hands = some (a, comm)) Script.hands_eq_some

/-- The last event of the run is the one at which connection `c`, which is executing `command`, gets the
answer that its item has been stored. -/
def Server.Sets (hash : Key → BitVec 32) (started : Int) (v : Server ι) (c : ι) (command : Command)
    (es : List (Event ι)) : Prop :=
  ∃ before during choice behind, es = before ++ .start c command :: during ++ [.step c choice behind] ∧
    (∃ answer, ((v.run hash started before).clients c).script = .done answer) ∧
    (∀ e ∈ during, ∀ command', e ≠ .start c command') ∧
    ∃ a comm next,
      ((v.run hash started (before ++ .start c command :: during)).clients c).script = .store a comm next ∧
      (doStoreItemDel hash (v.run hash started (before ++ .start c command :: during)).state a comm).2.1
        = .stored

/-- What is under the key then is what the command says. -/
theorem Server.Inv.sets
    {c : ι} {flags : BitVec 32} {exptime : Int} {vlen cas : Nat} {comm : Comm} {data : Nat → UInt8}
    (h : v.Inv hash A ls) (hes : v.CalmRun hash started es)
    (hsets : v.Sets hash started c (.update k flags exptime vlen cas comm data) es)
    (hcomm : comm ≠ .append ∧ comm ≠ .prepend) :
  ∃ x, (v.run hash started es).contents hash k = some x ∧ x.flags = flags.toInt ∧
    x.value = (List.range (vlen + 2)).map data
  := by
  obtain ⟨before, during, choice, behind, rfl, hdone, hduring, a, comm', next, hscript, hstored⟩ := hsets
  obtain ⟨hrun, hlast⟩ := Server.calmRun_append.mp hes
  obtain ⟨hbefore, hcommand⟩ := Server.calmRun_append.mp hrun
  obtain ⟨A₁, ls₁, h₁⟩ := h.run hbefore
  obtain ⟨A₂, ls₂, h₂⟩ := h.run hrun
  obtain ⟨acc, hacc, hallows⟩ := h₂.access_store started hlast.1 hscript
  rw [Server.run_append] at hscript
  obtain ⟨rfl, hkey, hsuffix, -, hvalue⟩ := h₁.offers hdone hcommand hduring hscript
  rw [← Server.run_append] at hscript hkey hsuffix hvalue
  have hkey : (v.run hash started (before ++ .start c (.update k flags exptime vlen cas comm' data) :: during)).state.key
      a = k := hkey
  simp only [Server.Accesses, hscript] at hacc
  obtain ⟨hanswer, rfl⟩ := hacc
  rw [hanswer, storeSpec_stored] at hstored
  obtain ⟨x, hx⟩ := Option.ne_none_iff_exists'.mp hstored
  simp only [hx] at hallows
  obtain ⟨hwritten, -⟩ := hallows
  rw [hkey] at hwritten
  rw [Server.run_append]
  refine ⟨x, hwritten, ?_, ?_⟩
  · rw [storeSpec_new hx hcomm]
    have hsame : ∀ it : Item, it.suffix = suffixOf flags.toInt (vlen + 2) → it.flags = flags.toInt := by
      intro it hit
      rw [Item.flags, hit, flags_suffixOf ⟨BitVec.le_toInt flags, BitVec.toInt_lt⟩]
    exact hsame _ hsuffix
  · rw [storeSpec_new hx hcomm]
    exact hvalue

/-- A storage command whose flags and length are numerals `flags` and `bytes` of any size, and that is not
rejected, stores its data; and as long as nothing else is stored under the key, in whatever order the
connections take their steps, the line that is sent for the key has the flags as a signed 32-bit number,
the length modulo `2 ^ 32`, and the data. -/
theorem ascii_round_trip
    (hash : Key → BitVec 32) (started : Int) (ι : Type) [Fintype ι] [DecidableEq ι] (config : Config)
    (es es' : List (Event ι)) (c : ι) (e : Event ι) (b : Addr) (line : UpdateLine) (data : Nat → UInt8)
    (command : Command) (flags bytes : Nat) (hline : processUpdateCommand line data = some command)
    (hflags : line.flags = print flags) (hbytes : line.bytes = print bytes)
    (hcomm : line.comm ≠ .append ∧ line.comm ≠ .prepend)
    (hcalm : (Server.init ι config).CalmRun hash started (es ++ es'))
    (hsets : (Server.init ι config).Sets hash started c command es)
    (hstores : Always (Server.exec hash started) (fun v d => (v.move hash d).stores ≠ some line.key)
      ((Server.init ι config).run hash started es) es')
    (hget : ((Server.init ι config).run hash started (es ++ es')).Gets hash line.key b e) :
  (flags < 2 ^ 64 ∧ bytes < 2 ^ 63 ∧ bytes % 2 ^ 32 + 2 < 2 ^ 31) ∧
    valueLine (((Server.init ι config).run hash started (es ++ es')).state.mem b)
      = [86, 65, 76, 85, 69, 32] ++ line.key ++ 32 :: printInt (toInt32 flags) ++
          32 :: print (bytes % 2 ^ 32) ++ [13, 10] ++ (List.range (bytes % 2 ^ 32 + 2)).map data
  := by
  obtain ⟨hlt, hlt', hfits, exptime, cas, rfl⟩ := processUpdateCommand_numerals hline hflags hbytes
  obtain ⟨hes, hes'⟩ := Server.calmRun_append.mp hcalm
  obtain ⟨A₁, ls₁, h₁⟩ := (inv_init hash ι config).run hes
  obtain ⟨A₂, ls₂, h₂⟩ := (inv_init hash ι config).run hcalm
  obtain ⟨x, hx, hxflags, hxvalue⟩ := (inv_init hash ι config).sets hes hsets hcomm
  obtain ⟨hb, hk, -⟩ := h₂.gets hget
  have hfound := h₂.contents_eq_some.mpr ⟨b, hb, hk, rfl⟩
  rw [Server.run_append] at hfound
  have hsame := h₁.contents_run hes' hstores hfound
  rw [hx] at hsame
  rw [← Server.run_append] at hsame
  obtain rfl := Option.some.inj hsame
  refine ⟨⟨hlt, hlt', hfits⟩, ?_⟩
  apply valueLine_eq hk (h₂.proper b hb).flags.2.2 _ hxvalue
  rw [hxflags, toInt32, BitVec.ofInt_natCast]

/-- `set` with the flags `4294967295` and one byte of data. -/
def setLine : UpdateLine :=
  ⟨[1], [52, 50, 57, 52, 57, 54, 55, 50, 57, 53], [48], [49], none, .set⟩

def setCommand : Command := .update [1] 4294967295 0 1 0 .set (textOf 53 1)

/-- A connection stores an item, and another one deletes something else and asks for it. -/
def setRun : List (Event Bool) := Event.execute false setCommand 7

def askRun : List (Event Bool) :=
  [.step false true 0] ++ Event.execute true (.delete [2]) 2 ++ [.start true (.get [[1]])]

theorem ascii_round_trip_set :
  valueLine (((Server.init Bool (smallConfig 0)).run (fun _ => 0) 0 (setRun ++ askRun)).state.mem 8)
    = [86, 65, 76, 85, 69, 32, 1, 32, 45, 49, 32, 49, 13, 10, 53, 13, 10]
  := by
  have hline : processUpdateCommand setLine (textOf 53 1) = some setCommand := by
    rfl
  have hcalm : (Server.init Bool (smallConfig 0)).CalmRun (fun _ => 0) 0 (setRun ++ askRun) := by
    decide +kernel
  have hget : ((Server.init Bool (smallConfig 0)).run (fun _ => 0) 0 (setRun ++ askRun)).Gets (fun _ => 0)
      [1] 8 (.step true true 0) := by
    decide +kernel
  have hscript : ∃ next, (((Server.init Bool (smallConfig 0)).run (fun _ => 0) 0
      (Event.execute false setCommand 6)).clients false).script = .store 8 .set next := by
    decide +kernel
  have hsets : (Server.init Bool (smallConfig 0)).Sets (fun _ => 0) 0 false setCommand setRun := by
    refine ⟨[], List.replicate 6 (.step false true 0), true, 0, rfl, ⟨.ok, rfl⟩, ?_, 8, .set, ?_⟩
    · intro e he command
      rw [List.eq_of_mem_replicate he]
      rintro ⟨⟩
    · obtain ⟨next, hscript⟩ := hscript
      refine ⟨next, hscript, ?_⟩
      decide +kernel
  have hstores : Always (Server.exec (fun _ => 0) 0)
      (fun v d => (v.move (fun _ => 0) d).stores ≠ some setLine.key)
      ((Server.init Bool (smallConfig 0)).run (fun _ => 0) 0 setRun) askRun := by
    decide +kernel
  obtain ⟨-, hvalue⟩ := ascii_round_trip (fun _ => 0) 0 Bool (smallConfig 0) setRun askRun false
    (.step true true 0) 8 setLine (textOf 53 1) setCommand 4294967295 1 hline (by decide +kernel)
    (by decide +kernel) (by decide) hcalm hsets hstores hget
  rw [hvalue]
  decide +kernel

end Memcached
