import Ffwd.Memcached.Effects

/-!
# The get commands

`process_get_command` takes a reference to every item it finds, and keeps it in the list of the
connection until the response has been sent. It hands the list over when it comes to its end, even if the
list of an earlier command is still there; two of its errors return before that. What the command gets from the server and from the allocators are the
arguments of the model, and what it asks of the server is recorded in a trace.
-/

namespace Memcached

/-! ### The command -/

/-- `tokenize_command`, for a string up to its end: at most `n` more tokens are taken off, the first
of which begins with `cur`; then there is the rest, or a null pointer. -/
def tokenizeCommand : Nat → List UInt8 → List UInt8 → List Key × Option (List UInt8)
  | 0, _, text => ([], if text = [] then none else some text)
  | _ + 1, cur, [] => (if cur ≠ [] then [cur] else [], none)
  | n + 1, cur, char :: text =>
      if char = 32 then
        if cur ≠ [] then
          let (tokens, rest) := tokenizeCommand n [] text
          (cur :: tokens, rest)
        else tokenizeCommand (n + 1) [] text
      else tokenizeCommand (n + 1) (cur ++ [char]) text

def maxTokens : Nat := 8

def keyMaxLength : Nat := 250

/-- The fields of a connection that the command works on. `icurr` is a position in the list. -/
structure Conn where
  ilist : Nat → Addr
  isize : Nat
  suffixsize : Nat
  icurr : Nat
  ileft : Nat
  suffixleft : Nat
  iov : List (List UInt8)

/-- What a command asks of the server, with the answer to `item_get`. -/
inductive Request where
  | get (k : Key) (answer : Option Addr)
  | remove (a : Addr)
  | update (a : Addr)
  deriving DecidableEq

/-- Where the loop is. -/
structure Progress where
  c : Conn
  i : Nat
  trace : List Request

/-- The references that have been taken to an item. -/
def taken (trace : List Request) (a : Addr) : Nat :=
  trace.countP (fun r => match r with
    | .get _ (some b) => b = a
    | _ => false)

/-- The references to an item that have been released. -/
def released (trace : List Request) (a : Addr) : Nat :=
  trace.countP (fun r => match r with
    | .remove b => b = a
    | _ => false)

/-- What the server does for a request. -/
def Request.exec (hash : Key → BitVec 32) (s : State) : Request → State
  | .get k _ => (doItemGetDel hash s k).1
  | .remove a => doItemRemoveDel s a
  | .update a => doItemUpdate s a

/-- The answer of the server is the one in the request. -/
def Request.Answered (hash : Key → BitVec 32) (s : State) : Request → Prop
  | .get k answer => (doItemGetDel hash s k).2 = answer
  | _ => True

/-- The server gives the answers of the trace, and has no other requests. -/
def Replay (hash : Key → BitVec 32) : State → List Request → State → Prop
  | s, [], s' => s = s'
  | s, r :: trace, s' => r.Answered hash s ∧ Replay hash (r.exec hash s) trace s'

/-- No number of references gets out of range. -/
def InRange (s : State) (trace : List Request) : Prop :=
  ∀ a, (s.mem a).refcount + taken trace a < 2 ^ 16

/-- The items that the loop has kept. -/
def Progress.kept (p : Progress) : List Addr := (List.range p.i).map p.c.ilist

/-- What has been asked for a key that is not kept. -/
def Dropped (key : Key) (requests : List Request) : Prop :=
  requests = [.get key none] ∨ ∃ a, requests = [.get key (some a), .remove a]

/-- What the visit of a key does: the item is kept, or it is not. -/
structure Progress.Step (p p' : Progress) (key : Key) : Prop where
  ileft : p'.c.ileft = p.c.ileft
  icurr : p'.c.icurr = p.c.icurr
  ilist : ∀ j, p'.i ≤ j → p'.c.ilist j = p.c.ilist j
  le : p.i ≤ p'.i
  requests : (∃ requests, Dropped key requests ∧ p'.trace = p.trace ++ requests ∧ p'.i = p.i ∧
      p'.kept = p.kept) ∨
    ∃ a, p'.trace = p.trace ++ [.get key (some a), .update a] ∧ p'.kept = p.kept ++ [a]

section Visit

variable {returnCas : Bool} {p : Progress} {key : Key} {v : Visit}

end Visit

/-! ### The numbers of references in memory -/

section Refcount

variable {hash : Key → BitVec 32} {s s' : State} {a : Addr}

theorem refcount_itemFreeDel (s : State) (b a : Addr) :
  ((itemFreeDel s b).mem a).refcount = (s.mem a).refcount
  := by
  simp only [itemFreeDel, State.mem_modify]
  split
  · next h => rw [h]
  · rfl

theorem refcount_doItemUnlinkDel (hash : Key → BitVec 32) (s : State) (b a : Addr) :
  ((doItemUnlinkDel hash s b).mem a).refcount = (s.mem a).refcount
  := by
  have hunlink : ∀ c, ((unlinkItem hash s b).mem c).refcount = (s.mem c).refcount := by
    intro c
    rw [unlinkItem_mem, Function.update_apply]
    split
    · next h => rw [h]
    · rfl
  simp only [doItemUnlinkDel]
  split
  · split
    · rw [refcount_itemFreeDel, hunlink]
    · exact hunlink a
  · rfl

theorem refcount_doItemUpdate (s : State) (b a : Addr) :
  ((doItemUpdate s b).mem a).refcount = (s.mem a).refcount
  := by
  by_cases hab : a = b
  · subst hab
    obtain heq | heq := doItemUpdate_self s a
    · rw [heq]
    · rw [heq]
  · rw [doItemUpdate_of_ne s hab]

theorem refcount_doItemRemoveDel (s : State) (b a : Addr) :
  ((doItemRemoveDel s b).mem a).refcount = (s.mem a).refcount - (if a = b then 1 else 0)
  := by
  have hfree : ∀ s' : State, ((if (s'.mem b).refcount = 0 ∧ (s'.mem b).linked = false then
      itemFreeDel s' b else s').mem a).refcount = (s'.mem a).refcount := by
    intro s'
    split
    · exact refcount_itemFreeDel s' b a
    · rfl
  simp only [doItemRemoveDel]
  rw [hfree]
  split
  · rw [State.mem_modify]
    split
    · next h => rw [h]
    · rfl
  · next hzero =>
    split
    · next h =>
      rw [h]
      omega
    · rfl

theorem refcount_doItemGetDel (hash : Key → BitVec 32) (s : State) (k : Key) (a : Addr) :
  (((doItemGetDel hash s k).1).mem a).refcount
    = if (doItemGetDel hash s k).2 = some a then ((s.mem a).refcount + 1) % 2 ^ 16
      else (s.mem a).refcount
  := by
  rw [doItemGetDel]
  split
  · rw [if_neg (by rintro ⟨⟩)]
  · next b hb =>
    split
    · rw [if_neg (by rintro ⟨⟩), refcount_doItemUnlinkDel]
    · split
      · rw [if_neg (by rintro ⟨⟩), refcount_doItemUnlinkDel]
      · simp only [State.mem_modify, Option.some.injEq]
        by_cases hab : a = b
        · rw [if_pos hab, if_pos hab.symm, hab]
        · rw [if_neg hab, if_neg (Ne.symm hab)]

theorem replay_append {trace₁ trace₂ : List Request} :
  Replay hash s (trace₁ ++ trace₂) s' ↔
    ∃ s'', Replay hash s trace₁ s'' ∧ Replay hash s'' trace₂ s'
  := by
  induction trace₁ generalizing s with
  | nil =>
      constructor
      · intro h
        exact ⟨s, rfl, h⟩
      · rintro ⟨s'', rfl, h⟩
        exact h
  | cons r trace₁ ih => simp only [List.cons_append, Replay, ih, and_assoc, exists_and_left]

end Refcount

/-! ### The loop -/

/-- The references in the trace and the numbers in memory say that the command has those to the
items that the loop has kept. -/
structure Progress.Sound (p : Progress) : Prop where
  balance : ∀ a, taken p.trace a = released p.trace a + p.kept.count a
  refcount : ∀ hash s s', Replay hash s p.trace s' → InRange s p.trace →
    ∀ a, (s'.mem a).refcount = (s.mem a).refcount + p.kept.count a

theorem taken_append (trace₁ trace₂ : List Request) (a : Addr) :
  taken (trace₁ ++ trace₂) a = taken trace₁ a + taken trace₂ a
  := List.countP_append

theorem released_append (trace₁ trace₂ : List Request) (a : Addr) :
  released (trace₁ ++ trace₂) a = released trace₁ a + released trace₂ a
  := List.countP_append

/-- The requests for a key that is not kept leave the numbers of references as they are. -/
theorem Dropped.refcount
    {hash : Key → BitVec 32} {s s' : State} {key : Key} {requests : List Request}
    (h : Dropped key requests) (hreplay : Replay hash s requests s')
    (hrange : ∀ a, (s.mem a).refcount + taken requests a < 2 ^ 16) (a : Addr) :
  (s'.mem a).refcount = (s.mem a).refcount
  := by
  rcases h with rfl | ⟨b, rfl⟩
  · obtain ⟨hanswer, rfl⟩ := hreplay
    have hanswer : (doItemGetDel hash s key).2 = none := hanswer
    rw [Request.exec, refcount_doItemGetDel, hanswer, if_neg nofun]
  · obtain ⟨hanswer, -, rfl⟩ := hreplay
    have hanswer : (doItemGetDel hash s key).2 = some b := hanswer
    rw [Request.exec, Request.exec, refcount_doItemRemoveDel, refcount_doItemGetDel, hanswer]
    by_cases hab : a = b
    · subst hab
      have hlt := hrange a
      rw [show taken [.get key (some a), .remove a] a = 1 by simp [taken]] at hlt
      rw [if_pos rfl, if_pos rfl, Nat.mod_eq_of_lt hlt, Nat.add_sub_cancel]
    · rw [if_neg hab, if_neg (by simpa using Ne.symm hab), Nat.sub_zero]

theorem Progress.Sound.step {p p' : Progress} {key : Key} (h : p.Sound) (hstep : p.Step p' key) :
  p'.Sound
  := by
  rcases hstep.requests with ⟨requests, hdropped, htrace, -, hkept⟩ | ⟨b, htrace, hkept⟩
  · constructor
    · intro a
      have hbalance := h.balance a
      rw [htrace, hkept, taken_append, released_append]
      rcases hdropped with rfl | ⟨b, rfl⟩
      · simp only [taken, released, List.countP_cons, List.countP_nil] at hbalance ⊢
        simpa using hbalance
      · simp only [taken, released, List.countP_cons, List.countP_nil] at hbalance ⊢
        by_cases hba : b = a
        · simp [hba]
          omega
        · simp [hba]
          omega
    · intro hash s s' hreplay hrange a
      rw [htrace] at hreplay hrange
      obtain ⟨s'', h₁, h₂⟩ := replay_append.mp hreplay
      have hrange' : InRange s p.trace := by
        intro c
        have := hrange c
        rw [taken_append] at this
        omega
      have hcount := h.refcount hash s s'' h₁ hrange'
      rw [hkept, ← hcount a]
      apply hdropped.refcount h₂
      intro c
      have hle : p.kept.count c ≤ taken p.trace c := by
        rw [h.balance c]
        exact Nat.le_add_left _ _
      have := hrange c
      rw [taken_append] at this
      rw [hcount c]
      omega
  · have hcons : ∀ a, (p.kept ++ [b]).count a = p.kept.count a + if a = b then 1 else 0 := by
      intro a
      rw [List.count_append]
      by_cases hab : a = b
      · subst hab
        simp
      · simp [hab, Ne.symm hab]
    constructor
    · intro a
      have hbalance := h.balance a
      rw [htrace, hkept, taken_append, released_append, hcons]
      simp only [taken, released, List.countP_cons, List.countP_nil] at hbalance ⊢
      by_cases hba : a = b
      · simp [hba] at hbalance ⊢
        omega
      · simp [hba, Ne.symm hba]
        omega
    · intro hash s s' hreplay hrange a
      rw [htrace] at hreplay hrange
      obtain ⟨s'', h₁, hanswer, -, rfl⟩ := replay_append.mp hreplay
      have hanswer : (doItemGetDel hash s'' key).2 = some b := hanswer
      have hrange' : InRange s p.trace := by
        intro c
        have := hrange c
        rw [taken_append] at this
        omega
      have hcount := h.refcount hash s s'' h₁ hrange'
      rw [hkept, hcons, Request.exec, Request.exec, refcount_doItemUpdate, refcount_doItemGetDel, hanswer]
      by_cases hab : a = b
      · subst hab
        have hle : p.kept.count a ≤ taken p.trace a := by
          rw [h.balance a]
          exact Nat.le_add_left _ _
        have hlt := hrange a
        rw [taken_append, show taken [.get key (some a), .update a] a = 1 by simp [taken]] at hlt
        rw [if_pos rfl, if_pos rfl, hcount a, Nat.mod_eq_of_lt (by omega)]
        omega
      · rw [if_neg hab, if_neg (by simpa using Ne.symm hab), hcount a, Nat.add_zero]

end Memcached
