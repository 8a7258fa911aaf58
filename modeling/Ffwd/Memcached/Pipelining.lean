import Ffwd.Memcached.DriveMachine

/-!
# Requests one behind the other

A client may send requests before the ones before them are answered. A connection takes them one by one,
whatever portions their bytes come in; the data of a request are never read as a command, unless the server
refuses data that have been sent with `noreply`.
-/

namespace Memcached.DriveMachine

/-! ### Requests -/

/-- A request: a line, behind which comes `\r\n`, and the data behind it. -/
structure Request where
  line : List UInt8
  data : List UInt8

def Request.bytes (q : Request) : List UInt8 := q.line ++ [13] ++ [10] ++ q.data

/-- How many bytes belong to a line. -/
def Reaction.length : Reaction → Nat
  | .update vlen _ => vlen + 2
  | _ => 0

/-- The line is not empty, no end of a line is in it, it is not `quit`, and the data are as long as it says. -/
structure Request.Wf (q : Request) : Prop where
  nonempty : q.line ≠ []
  line : 10 ∉ q.line
  stays : processCommand q.line ≠ .close
  data : q.data.length = (processCommand q.line).length

/-- What is handed on of a request. -/
def Request.frames (granted : Bool) (q : Request) : List Frame :=
  match processCommand q.line with
  | .update _ _ => if granted then [.command q.line, .data q.data] else [.command q.line]
  | _ => [.command q.line]

/-- A reader that takes whole requests; it keeps the number of what has been handed on. -/
def requestReader (granted : Nat → Bool) : Transducer Nat Request Frame where
  start := 0
  next n q := n + (q.frames (granted n)).length
  out n q := q.frames (granted n)

/-- The data of the request are not refused without a reply. -/
structure Request.Kept (granted : Nat → Bool) (n : Nat) (q : Request) : Prop extends q.Wf where
  replies : ∀ vlen, processCommand q.line = .update vlen true → granted n = true

/-! ### The bytes of a request -/

theorem stripCr_append {line : List UInt8} (h : line ≠ []) :
  stripCr (line ++ [13]) = line
  := by
  have hpos := List.length_pos_of_ne_nil h
  rw [stripCr, if_pos, List.dropLast_concat]
  rw [List.length_append, List.getLast?_concat]
  exact ⟨Nat.lt_add_of_pos_left hpos, rfl⟩

theorem Mode.item_eq_line (left : Nat) (acc : List UInt8) :
  Mode.item left acc = .line [] ↔ left = 0
  := by
  rw [Mode.item]
  split
  · next hzero => exact iff_of_true rfl hzero
  · next hne => exact iff_of_false (by rintro ⟨⟩) hne

theorem Mode.rest_eq_line (left : Nat) :
  Mode.rest left = .line [] ↔ left = 0
  := by
  rw [Mode.rest]
  split
  · next hzero => exact iff_of_true rfl hzero
  · next hne => exact iff_of_false (by rintro ⟨⟩) hne

variable {granted : Nat → Bool} {n : Nat} {q : Request}

theorem Request.Wf.not_mem (h : q.Wf) : 10 ∉ q.line ++ [13] := by
  rw [List.mem_append, List.mem_singleton]
  rintro (hline | hten)
  · exact h.line hline
  · cases hten

/-- The reader has got the line of a request. -/
theorem Request.Wf.line_read (h : q.Wf) (granted : Nat → Bool) (n : Nat) :
  (reader granted).go (.line [], n) (q.line ++ [13] ++ [10])
      = (afterLine (granted n) (processCommand q.line), n + 1) ∧
    (reader granted).write (.line [], n) (q.line ++ [13] ++ [10]) = [.command q.line]
  := by
  have hread := reader_command granted n h.not_mem
  rw [stripCr_append h.nonempty] at hread
  exact hread

/-- Where the reader is in the data of a request, and what it has handed on of the request. -/
theorem Request.Kept.data_read
    {d : List UInt8} (h : q.Kept granted n) (hd : d.length ≤ q.data.length) :
  ∃ m k, (reader granted).go (.line [], n) (q.line ++ [13] ++ [10] ++ d) = (m, k) ∧
    (m = .line [] ↔ d.length = q.data.length) ∧
    (d = q.data → k = (requestReader granted).next n q ∧
      (reader granted).write (.line [], n) (q.line ++ [13] ++ [10] ++ d) = (requestReader granted).out n q)
  := by
  obtain ⟨hgo, hwrite⟩ := h.line_read granted n
  have hdata := h.data
  rw [Transducer.go_append, Transducer.write_append, hgo, hwrite]
  simp only [requestReader, Request.frames]
  cases hreaction : processCommand q.line with
  | update vlen noreply =>
      have hlen : q.data.length = vlen + 2 := by
        rw [hdata, hreaction]
        rfl
      have hpos : 0 < vlen + 2 := Nat.succ_pos _
      have hle : d.length ≤ vlen + 2 := hd.trans hlen.le
      have hiff : vlen + 2 - d.length = 0 ↔ d.length = q.data.length := by omega
      cases hgranted : granted n with
      | true =>
          obtain ⟨hgo', hwrite'⟩ := reader_data granted (n + 1) [] hpos hle
          refine ⟨_, _, hgo', (Mode.item_eq_line _ _).trans hiff, ?_⟩
          rintro rfl
          simp only [afterLine, if_true]
          rw [hwrite', if_pos hlen, if_pos hlen]
          exact ⟨rfl, rfl⟩
      | false =>
          have hreply : noreply = false := by
            rw [← Bool.not_eq_true]
            rintro rfl
            rw [h.replies vlen hreaction] at hgranted
            cases hgranted
          obtain ⟨hgo', hwrite'⟩ := reader_swallow granted (n + 1) hpos hle
          rw [hreply]
          refine ⟨_, _, hgo', (Mode.rest_eq_line _).trans hiff, ?_⟩
          rintro rfl
          simp only [afterLine, Bool.false_eq_true, if_false]
          rw [hwrite']
          exact ⟨rfl, rfl⟩
  | close => exact absurd hreaction h.stays
  | outString noreply =>
      rw [hreaction] at hdata
      rw [hdata] at hd
      obtain rfl := List.eq_nil_of_length_eq_zero (Nat.le_zero.mp hd)
      exact ⟨_, _, rfl, iff_of_true rfl hdata.symm, fun _ => ⟨rfl, rfl⟩⟩
  | send =>
      rw [hreaction] at hdata
      rw [hdata] at hd
      obtain rfl := List.eq_nil_of_length_eq_zero (Nat.le_zero.mp hd)
      exact ⟨_, _, rfl, iff_of_true rfl hdata.symm, fun _ => ⟨rfl, rfl⟩⟩

/-- The reader takes the bytes of a request as the request. -/
theorem reader_request (h : q.Kept granted n) :
  (reader granted).go (.line [], n) q.bytes = (.line [], (requestReader granted).next n q) ∧
    (reader granted).write (.line [], n) q.bytes = (requestReader granted).out n q
  := by
  obtain ⟨m, k, hgo, hm, hread⟩ := h.data_read le_rfl
  obtain ⟨rfl, hwrite⟩ := hread rfl
  obtain rfl := hm.mpr rfl
  exact ⟨hgo, hwrite⟩

variable (granted) in
theorem codes_request :
  Transducer.Codes (reader granted) (requestReader granted) Request.bytes (fun n => (.line [], n))
    (Request.Kept granted)
  where
  start := rfl
  go _ _ h := (reader_request h).1
  write _ _ h := (reader_request h).2

/-- In the bytes of a request, the reader begins a line only where the request begins. -/
theorem Request.Kept.eq_nil
    {used : List UInt8} (h : q.Kept granted n) (hused : used <+: q.bytes) (hne : used ≠ q.bytes)
    (hmode : ((reader granted).go (.line [], n) used).1 = .line []) :
  used = []
  := by
  by_cases hline : q.line ++ [13] ++ [10] <+: used
  · obtain ⟨d, rfl⟩ := hline
    have hd : d <+: q.data := (List.prefix_append_right_inj _).mp hused
    obtain ⟨m, k, hgo, hm, -⟩ := h.data_read hd.length_le
    rw [hgo] at hmode
    have heq : d = q.data := hd.eq_of_length (hm.mp hmode)
    rw [heq] at hne
    exact absurd rfl hne
  · have hin := (List.prefix_or_prefix_of_prefix hused (List.prefix_append _ q.data)).resolve_right hline
    have hin' : used <+: q.line ++ [13] := by
      refine (List.prefix_concat_iff.mp hin).resolve_left ?_
      rintro rfl
      exact hline List.prefix_rfl
    rw [(reader_line granted n [] fun hten => h.not_mem (hin'.subset hten)).1] at hmode
    exact Mode.line.inj hmode

/-- Bytes without the end of a line that begin as a request does are no more than its line. -/
theorem length_le_of_prefix
    {rest more : List UInt8} (hrest : 10 ∉ rest) (h : rest <+: q.bytes ++ more) :
  rest.length ≤ q.line.length + 1
  := by
  rw [Request.bytes, List.append_assoc] at h
  obtain hin | hin := List.prefix_or_prefix_of_prefix h (List.prefix_append _ _)
  · obtain rfl | hline := List.prefix_concat_iff.mp hin
    · exact absurd (List.mem_append_right _ List.mem_cons_self) hrest
    · exact hline.length_le.trans (List.length_append ..).le
  · exact absurd (hin.subset (List.mem_append_right _ List.mem_cons_self)) hrest

/-- Where the reader begins a line, there is no more than the line of a request. -/
theorem line_le
    {requests : List Request} {used rest : List UInt8}
    (h : (requestReader granted).Along (Request.Kept granted) n requests)
    (hbytes : used ++ rest <+: requests.flatMap Request.bytes)
    (hmode : ((reader granted).go (.line [], n) used).1 = .line []) (hrest : 10 ∉ rest) (hne : rest ≠ []) :
  ∃ q ∈ requests, rest.length ≤ q.line.length + 1
  := by
  induction requests generalizing n used with
  | nil =>
      obtain ⟨-, hnil⟩ := List.append_eq_nil_iff.mp (List.prefix_nil.mp hbytes)
      exact absurd hnil hne
  | cons q requests ih =>
      obtain ⟨hq, hrequests⟩ := h
      rw [List.flatMap_cons] at hbytes
      by_cases hfull : q.bytes <+: used
      · obtain ⟨used', rfl⟩ := hfull
        rw [List.append_assoc, List.prefix_append_right_inj] at hbytes
        rw [Transducer.go_append, (reader_request hq).1] at hmode
        obtain ⟨q', hmem, hle⟩ := ih hrequests hbytes hmode
        exact ⟨q', List.mem_cons_of_mem _ hmem, hle⟩
      · have hused : used <+: q.bytes :=
          (List.prefix_or_prefix_of_prefix ((List.prefix_append _ _).trans hbytes)
            (List.prefix_append _ _)).resolve_right hfull
        have hne' : used ≠ q.bytes := by
          rintro rfl
          exact hfull List.prefix_rfl
        obtain rfl := hq.eq_nil hused hne' hmode
        exact ⟨q, List.mem_cons_self, length_le_of_prefix hrest hbytes⟩

/-! ### Runs -/

/-- What is handed on of requests that come one behind the other: what has come of them, and everything when all
have come and the connection is quiet. If the system gives no errors, the connection is closed only for a line
as long as a kilobyte. -/
structure Conn.Serves (granted : Nat → Bool) (good : Prop) (requests : List Request) (c : Conn) : Prop where
  handed : c.frames <+: (requestReader granted).output requests
  complete : c.received = requests.flatMap Request.bytes → c.Quiet →
    c.frames = (requestReader granted).output requests
  stays : good → c.state = .closing → ∃ q ∈ requests, 1024 ≤ q.line.length

/-- Requests that are sent one behind the other, before any of them is answered, are taken one by one, whatever
comes from the socket at a time. -/
theorem requests_framed
    (granted : Nat → Bool) (reqsPerEvent : Nat) (rbuf : Nat → UInt8) (rsize : Nat) (labels : List Label)
    (requests : List Request) (hrsize : 0 < rsize)
    (hrequests : (requestReader granted).Along (Request.Kept granted) 0 requests)
    (hreceived : ((connNew rbuf rsize).run reqsPerEvent granted labels).received
      <+: requests.flatMap Request.bytes) :
  ((connNew rbuf rsize).run reqsPerEvent granted labels).Serves granted (∀ label ∈ labels, label.Good) requests
  := by
  obtain ⟨_, hinv⟩ := (inv_connNew granted rbuf hrsize).run reqsPerEvent labels
  have h := (hinv.mono fun hgood => ⟨trivial, hgood⟩).framed
  have houtput := (codes_request granted).output hrequests
  have hstate := (codes_request granted).state hrequests
  constructor
  · rw [← houtput]
    exact h.handed.trans ((reader granted).output_mono hreceived)
  · intro hall hquiet
    rw [h.complete hquiet, hall, houtput]
  · intro hgood hclosing
    obtain hclosed | ⟨used, rest, hsplit, hmode, hrest, hlong⟩ := h.ends hgood hclosing
    · obtain ⟨more, hmore⟩ := hreceived
      rw [← hmore, Transducer.state_append] at hstate
      generalize (reader granted).state _ = place at hclosed hstate
      obtain ⟨m, k⟩ := place
      obtain rfl : m = .closed := hclosed
      rw [reader_closed] at hstate
      cases hstate
    · rw [hsplit] at hreceived
      have hlt : 1024 < rest.length := (of_decide_eq_true hlong).1
      have hne : rest ≠ [] := by
        rintro rfl
        exact absurd hlt (by decide)
      obtain ⟨q, hmem, hle⟩ := line_le hrequests hreceived hmode hrest hne
      exact ⟨q, hmem, by omega⟩

/-- A `set` and a `get`, which come in the portions of `portionRun`. -/
def setAndGet : List Request := [⟨ascii "set a 0 0 3", ascii "x\ny\r\n"⟩, ⟨ascii "get a", []⟩]

theorem requests_framed_setAndGet :
  ((connNew (fun _ => 0) 16).run 20 (fun _ => true) portionRun).received = setAndGet.flatMap Request.bytes ∧
    ((connNew (fun _ => 0) 16).run 20 (fun _ => true) portionRun).Serves (fun _ => true)
      (∀ label ∈ portionRun, label.Good) setAndGet
  := by
  have hset : (⟨ascii "set a 0 0 3", ascii "x\ny\r\n"⟩ : Request).Kept (fun _ => true) 0 :=
    ⟨⟨by decide, by decide, by rintro ⟨⟩, by decide⟩, fun _ _ => rfl⟩
  have hget : (⟨ascii "get a", []⟩ : Request).Kept (fun _ => true) 2 :=
    ⟨⟨by decide, by decide, by rintro ⟨⟩, by decide⟩, fun _ _ => rfl⟩
  have hall : ((connNew (fun _ => 0) 16).run 20 (fun _ => true) portionRun).received
      = setAndGet.flatMap Request.bytes := by
    decide +kernel
  refine ⟨hall, ?_⟩
  apply requests_framed
  · decide
  · exact ⟨hset, hget, trivial⟩
  · exact hall ▸ List.prefix_rfl

end Memcached.DriveMachine
