import Mathlib

/-!
# The MCS lock

The queue lock of the benchmarks, with one queue node for each thread that it uses again for every
acquisition. A step is one access to the memory that the threads share. The threads that have put
their nodes into the queue and have not given the lock away form a list; the first of them holds the
lock or is about to find that it does, and each of the others has linked itself into the one before
it or is about to.
-/

namespace Mcs

/-- Where a thread is: outside of the lock, in `lock_mcs` about to swap the tail, to clear its spin
variable, to link itself into the node before it or spinning, in the critical section, or in
`unlock_mcs` about to read `next`, to compare and swap the tail, to read `next` again, or to set the
spin variable of its successor. -/
inductive Stage (T : Type) where
  | idle
  | swapping
  | clearing (tail : T)
  | linking (tail : T)
  | spinning
  | critical
  | reading
  | releasing
  | waiting
  | handing (succ : T)
  deriving DecidableEq

/-- The lock, the nodes and the threads, with the orders in which the threads have swapped the tail
and have come into the critical section. -/
structure State (T : Type) where
  tail : Option T
  next : T → Option T
  spin : T → Bool
  stage : T → Stage T
  swaps : List T
  entries : List T

variable {T : Type} [DecidableEq T]

def State.start : State T where
  tail := none
  next _ := none
  spin _ := false
  stage _ := .idle
  swaps := []
  entries := []

def State.setNext (s : State T) (p : T) (o : Option T) : State T :=
  { s with next := Function.update s.next p o }

def State.setSpin (s : State T) (p : T) (b : Bool) : State T :=
  { s with spin := Function.update s.spin p b }

def State.setTail (s : State T) (o : Option T) : State T := { s with tail := o }

def State.go (s : State T) (p : T) (stage : Stage T) : State T :=
  { s with stage := Function.update s.stage p stage }

/-- The thread is in the critical section from now on. -/
def State.enter (s : State T) (p : T) : State T :=
  { s.go p .critical with entries := s.entries ++ [p] }

/-- `xchg_64(m, me)` -/
def State.swap (s : State T) (p : T) : State T :=
  { s with tail := some p, swaps := s.swaps ++ [p] }

/-- A step of a thread. -/
inductive State.Step (s : State T) : State T → Prop where
  | clearNext (p : T) (hstage : s.stage p = .idle) : Step s ((s.setNext p none).go p .swapping)
  | swapFree (p : T) (hstage : s.stage p = .swapping) (htail : s.tail = none) :
      Step s ((s.swap p).enter p)
  | swapBusy (p tail : T) (hstage : s.stage p = .swapping) (htail : s.tail = some tail) :
      Step s ((s.swap p).go p (.clearing tail))
  | clearSpin (p tail : T) (hstage : s.stage p = .clearing tail) :
      Step s ((s.setSpin p false).go p (.linking tail))
  | link (p tail : T) (hstage : s.stage p = .linking tail) :
      Step s ((s.setNext tail (some p)).go p .spinning)
  | spin (p : T) (hstage : s.stage p = .spinning) (hspin : s.spin p = true) : Step s (s.enter p)
  | unlock (p : T) (hstage : s.stage p = .critical) : Step s (s.go p .reading)
  | readNone (p : T) (hstage : s.stage p = .reading) (hnext : s.next p = none) :
      Step s (s.go p .releasing)
  | readSome (p succ : T) (hstage : s.stage p = .reading) (hnext : s.next p = some succ) :
      Step s (s.go p (.handing succ))
  | release (p : T) (hstage : s.stage p = .releasing) (htail : s.tail = some p) :
      Step s ((s.setTail none).go p .idle)
  | fail (p : T) (hstage : s.stage p = .releasing) (htail : s.tail ≠ some p) :
      Step s (s.go p .waiting)
  | wait (p succ : T) (hstage : s.stage p = .waiting) (hnext : s.next p = some succ) :
      Step s (s.go p (.handing succ))
  | hand (p succ : T) (hstage : s.stage p = .handing succ) :
      Step s ((s.setSpin succ true).go p .idle)

/-- The threads that have the lock: in the critical section or on the way out of it. -/
def Stage.Holds : Stage T → Prop
  | .critical => True
  | .reading => True
  | .releasing => True
  | .waiting => True
  | .handing _ => True
  | _ => False

/-! ### The queue -/

/-- One thread is right behind another in a list. -/
def Behind (q : List T) (x y : T) : Prop := ∃ i, q[i]? = some x ∧ q[i + 1]? = some y

section Behind

variable {q : List T} {x y z p : T}

omit [DecidableEq T] in
theorem Behind.left_unique (hq : q.Nodup) (hx : Behind q x y) (hz : Behind q z y) :
  x = z
  := by
  obtain ⟨i, hix, hiy⟩ := hx
  obtain ⟨j, hjz, hjy⟩ := hz
  have hij := (List.getElem?_inj (List.getElem?_eq_some_iff.mp hiy).1 hq).mp (hiy.trans hjy.symm)
  obtain rfl : i = j := by omega
  exact Option.some.inj (hix.symm.trans hjz)

omit [DecidableEq T] in
theorem Behind.right_unique (hq : q.Nodup) (hy : Behind q x y) (hz : Behind q x z) :
  y = z
  := by
  obtain ⟨i, hix, hiy⟩ := hy
  obtain ⟨j, hjx, hjz⟩ := hz
  obtain rfl := (List.getElem?_inj (List.getElem?_eq_some_iff.mp hix).1 hq).mp
    (hix.trans hjx.symm)
  exact Option.some.inj (hiy.symm.trans hjz)

omit [DecidableEq T] in
theorem Behind.mem (h : Behind q x y) :
  x ∈ q ∧ y ∈ q
  := by
  obtain ⟨i, hx, hy⟩ := h
  exact ⟨List.mem_of_getElem? hx, List.mem_of_getElem? hy⟩

omit [DecidableEq T] in
theorem Behind.tail (h : Behind q x y) (p : T) :
  Behind (p :: q) x y
  := by
  obtain ⟨i, hx, hy⟩ := h
  exact ⟨i + 1, hx, hy⟩

omit [DecidableEq T] in
/-- The first of a list is behind nobody. -/
theorem Behind.ne_head (hq : q.Nodup) (h : Behind q x y) (hp : q.head? = some p) :
  p ≠ y
  := by
  obtain ⟨i, -, hy⟩ := h
  rintro rfl
  rw [List.head?_eq_getElem?] at hp
  have := (List.getElem?_inj (List.getElem?_eq_some_iff.mp hp).1 hq).mp (hp.trans hy.symm)
  omega

omit [DecidableEq T] in
/-- Nobody is behind the last of a list. -/
theorem Behind.ne_last (hq : q.Nodup) (h : Behind q x y) (hp : q.getLast? = some p) :
  p ≠ x
  := by
  obtain ⟨i, hx, hy⟩ := h
  rintro rfl
  rw [List.getLast?_eq_getElem?] at hp
  have hlt := (List.getElem?_eq_some_iff.mp hy).1
  have := (List.getElem?_inj (List.getElem?_eq_some_iff.mp hp).1 hq).mp (hp.trans hx.symm)
  omega

omit [DecidableEq T] in
/-- Who is behind whom when one more has come. -/
theorem Behind.of_append (h : Behind (q ++ [p]) x y) :
  Behind q x y ∨ (q.getLast? = some x ∧ y = p)
  := by
  obtain ⟨i, hx, hy⟩ := h
  obtain ⟨hlt, -⟩ := List.getElem?_eq_some_iff.mp hy
  rw [List.length_append, List.length_singleton] at hlt
  rw [List.getElem?_append_left (by omega)] at hx
  by_cases hlast : i + 1 < q.length
  · rw [List.getElem?_append_left hlast] at hy
    exact .inl ⟨i, hx, hy⟩
  · right
    have hi : i = q.length - 1 := by omega
    constructor
    · rw [List.getLast?_eq_getElem?, ← hi]
      exact hx
    · rw [List.getElem?_append_right (by omega), show i + 1 - q.length = 0 by omega] at hy
      exact (Option.some.inj hy).symm

omit [DecidableEq T] in
/-- Everybody in a list is its first or is behind somebody. -/
theorem head_or_behind (hy : y ∈ q) :
  q.head? = some y ∨ ∃ x, Behind q x y
  := by
  obtain ⟨i, hlt, rfl⟩ := List.mem_iff_getElem.mp hy
  cases i with
  | zero =>
      left
      rw [List.head?_eq_getElem?, List.getElem?_eq_getElem hlt]
  | succ i =>
      right
      refine ⟨q[i], i, List.getElem?_eq_getElem _, List.getElem?_eq_getElem hlt⟩

end Behind

/-! ### The invariant -/

/-- The first thread of the queue: it has the lock, or its spin variable is set. -/
def State.Owner (s : State T) (p : T) : Prop :=
  match s.stage p with
  | .spinning => s.spin p = true
  | .handing succ => s.next p = some succ
  | .critical => True
  | .reading => True
  | .releasing => True
  | .waiting => True
  | _ => False

/-- A thread behind another one in the queue: it will link itself into the other node or it has, and
its spin variable is not set. -/
def State.Waits (s : State T) (x y : T) : Prop :=
  (s.stage y = .clearing x ∧ s.next x = none) ∨
    (s.stage y = .linking x ∧ s.spin y = false ∧ s.next x = none) ∨
    (s.stage y = .spinning ∧ s.spin y = false ∧ s.next x = some y)

/-- The threads of the queue that have not come into the critical section. -/
def State.pending (s : State T) : List T → List T
  | [] => []
  | p :: q => if s.stage p = .spinning then p :: q else q

structure State.Inv (s : State T) (q : List T) : Prop where
  nodup : q.Nodup
  tail : s.tail = q.getLast?
  owner : ∀ p, q.head? = some p → s.Owner p
  behind : ∀ x y, Behind q x y → s.Waits x y
  last : ∀ p, q.getLast? = some p → s.next p = none
  outside : ∀ p, p ∉ q → s.stage p = .idle ∨ (s.stage p = .swapping ∧ s.next p = none)
  log : s.swaps = s.entries ++ s.pending q

section Inv

variable {s s' : State T} {q : List T} {p : T}

omit [DecidableEq T] in
theorem State.Owner.congr
    (h : s.Owner p) (hstage : s'.stage p = s.stage p) (hspin : s'.spin p = s.spin p)
    (hnext : s'.next p = s.next p) :
  s'.Owner p
  := by
  rw [State.Owner] at h ⊢
  rw [hstage, hspin, hnext]
  exact h

omit [DecidableEq T] in
theorem State.Waits.congr
    {x y : T} (h : s.Waits x y) (hstage : s'.stage y = s.stage y) (hspin : s'.spin y = s.spin y)
    (hnext : s'.next x = s.next x) :
  s'.Waits x y
  := by
  rw [State.Waits] at h ⊢
  rw [hstage, hspin, hnext]
  exact h

theorem State.pending_congr {s' : State T} (h : ∀ p, q.head? = some p → s'.stage p = s.stage p) :
  s'.pending q = s.pending q
  := by
  cases q with
  | nil => rfl
  | cons p q => rw [State.pending, State.pending, h p rfl]

theorem State.go_self {stage : Stage T} :
  (s.go p stage).stage p = stage
  :=
  Function.update_self _ _ _

theorem State.go_of_ne {x : T} {stage : Stage T} (hx : x ≠ p) :
  (s.go p stage).stage x = s.stage x
  :=
  Function.update_of_ne hx _ _

theorem State.setNext_of_ne {x : T} {o : Option T} (hx : x ≠ p) :
  (s.setNext p o).next x = s.next x
  :=
  Function.update_of_ne hx _ _

theorem State.setSpin_of_ne {x : T} {b : Bool} (hx : x ≠ p) :
  (s.setSpin p b).spin x = s.spin x
  :=
  Function.update_of_ne hx _ _

/-- Where a thread is in the queue, by its stage. -/
theorem State.Inv.cases (h : s.Inv q) (p : T) :
  (p ∉ q ∧ (s.stage p = .idle ∨ (s.stage p = .swapping ∧ s.next p = none))) ∨
    (q.head? = some p ∧ s.Owner p) ∨ ∃ x, Behind q x p ∧ s.Waits x p
  := by
  by_cases hp : p ∈ q
  · rcases head_or_behind hp with hhead | ⟨x, hx⟩
    · exact .inr (.inl ⟨hhead, h.owner p hhead⟩)
    · exact .inr (.inr ⟨x, hx, h.behind x p hx⟩)
  · exact .inl ⟨hp, h.outside p hp⟩

/-- Only the first thread of the queue has the lock. -/
theorem State.Inv.head_of_holds (h : s.Inv q) (hp : (s.stage p).Holds) :
  q.head? = some p ∧ s.Owner p
  := by
  rcases h.cases p with ⟨-, hidle | ⟨hswapping, -⟩⟩ | hhead | ⟨x, -, hwaits⟩
  · rw [hidle] at hp
    exact hp.elim
  · rw [hswapping] at hp
    exact hp.elim
  · exact hhead
  · rcases hwaits with ⟨hstage, -⟩ | ⟨hstage, -⟩ | ⟨hstage, -⟩ <;> rw [hstage] at hp <;>
      exact hp.elim

theorem State.Inv.not_mem
    (h : s.Inv q) (hp : s.stage p = .idle ∨ s.stage p = .swapping) :
  p ∉ q
  := by
  rcases h.cases p with ⟨hnot, -⟩ | ⟨-, howner⟩ | ⟨x, -, hwaits⟩
  · exact hnot
  · rw [State.Owner] at howner
    rcases hp with hp | hp <;> rw [hp] at howner <;> exact howner.elim
  · rcases hwaits with ⟨hstage, -⟩ | ⟨hstage, -⟩ | ⟨hstage, -⟩ <;> rw [hstage] at hp <;>
      rcases hp with hp | hp <;> exact absurd hp nofun

/-- A step of a thread that is not in the queue. -/
theorem State.Inv.clearNext (h : s.Inv q) (hstage : s.stage p = .idle) :
  ((s.setNext p none).go p .swapping).Inv q
  := by
  have hp := h.not_mem (.inl hstage)
  have hne : ∀ {x}, x ∈ q → x ≠ p := by
    rintro x hx rfl
    exact hp hx
  refine ⟨h.nodup, h.tail, ?_, ?_, ?_, ?_, ?_⟩
  · intro x hx
    have hxp := hne (List.mem_of_head? hx)
    exact (h.owner x hx).congr (State.go_of_ne hxp) rfl (State.setNext_of_ne hxp)
  · intro x y hxy
    obtain ⟨hx, hy⟩ := hxy.mem
    exact (h.behind x y hxy).congr (State.go_of_ne (hne hy)) rfl (State.setNext_of_ne (hne hx))
  · intro x hx
    exact (State.setNext_of_ne (hne (List.mem_of_getLast? hx))).trans (h.last x hx)
  · intro x hx
    by_cases hxp : x = p
    · rw [hxp, State.go_self]
      exact .inr ⟨rfl, Function.update_self _ _ _⟩
    · rw [State.go_of_ne hxp]
      rcases h.outside x hx with hidle | ⟨hswapping, hnext⟩
      · exact .inl hidle
      · exact .inr ⟨hswapping, (State.setNext_of_ne hxp).trans hnext⟩
  · have hpending : ((s.setNext p none).go p .swapping).pending q = s.pending q := by
      apply State.pending_congr
      intro x hx
      exact State.go_of_ne (hne (List.mem_of_head? hx))
    rw [hpending]
    exact h.log

/-- A thread swaps the tail and finds the lock free. -/
theorem State.Inv.swapFree
    (h : s.Inv q) (hstage : s.stage p = .swapping) (htail : s.tail = none) :
  ((s.swap p).enter p).Inv [p]
  := by
  have hq : q = [] := by
    rw [h.tail] at htail
    exact List.getLast?_eq_none_iff.mp htail
  subst hq
  have hself : ((s.swap p).enter p).stage p = .critical := State.go_self
  have hnext : s.next p = none := by
    rcases h.outside p List.not_mem_nil with hidle | ⟨-, hnext⟩
    · rw [hstage] at hidle
      exact absurd hidle nofun
    · exact hnext
  refine ⟨List.nodup_singleton p, rfl, ?_, ?_, ?_, ?_, ?_⟩
  · intro x hx
    obtain rfl := Option.some.inj hx
    rw [State.Owner, hself]
    trivial
  · rintro x y ⟨i, -, hy⟩
    exact absurd hy nofun
  · intro x hx
    obtain rfl := Option.some.inj hx
    exact hnext
  · intro x hx
    rw [List.mem_singleton] at hx
    have hout := h.outside x List.not_mem_nil
    have hx : ((s.swap p).enter p).stage x = s.stage x := State.go_of_ne hx
    rw [hx]
    exact hout
  · rw [State.pending, hself, if_neg nofun, List.append_nil]
    show s.swaps ++ [p] = s.entries ++ [p]
    rw [h.log]
    exact congrArg (· ++ [p]) (List.append_nil _)

/-- A thread swaps the tail and finds another one before it. -/
theorem State.Inv.swapBusy
    {tail : T} (h : s.Inv q) (hstage : s.stage p = .swapping) (htail : s.tail = some tail) :
  ((s.swap p).go p (.clearing tail)).Inv (q ++ [p])
  := by
  have hp := h.not_mem (.inr hstage)
  have hne : ∀ {x}, x ∈ q → x ≠ p := by
    rintro x hx rfl
    exact hp hx
  have hlast : q.getLast? = some tail := h.tail.symm.trans htail
  have hnext : s.next p = none := by
    rcases h.outside p hp with hidle | ⟨-, hnext⟩
    · rw [hstage] at hidle
      exact absurd hidle nofun
    · exact hnext
  have hhead : (q ++ [p]).head? = q.head? := by
    cases q with
    | nil => exact absurd hlast nofun
    | cons x q => rfl
  refine ⟨?_, ?_, ?_, ?_, ?_, ?_, ?_⟩
  · rw [List.nodup_append]
    refine ⟨h.nodup, List.nodup_singleton p, ?_⟩
    intro x hx y hy
    rw [List.mem_singleton.mp hy]
    exact hne hx
  · rw [List.getLast?_concat]
    rfl
  · intro x hx
    rw [hhead] at hx
    exact (h.owner x hx).congr (State.go_of_ne (hne (List.mem_of_head? hx))) rfl rfl
  · intro x y hxy
    rcases hxy.of_append with hxy | ⟨hx, rfl⟩
    · exact (h.behind x y hxy).congr (State.go_of_ne (hne hxy.mem.2)) rfl rfl
    · obtain rfl := Option.some.inj (hlast.symm.trans hx)
      exact .inl ⟨State.go_self, h.last _ hx⟩
  · intro x hx
    rw [List.getLast?_concat] at hx
    obtain rfl := Option.some.inj hx
    exact hnext
  · intro x hx
    rw [List.mem_append, not_or, List.mem_singleton] at hx
    rw [State.go_of_ne hx.2]
    exact h.outside x hx.1
  · have hpending : ((s.swap p).go p (.clearing tail)).pending (q ++ [p]) = s.pending q ++ [p] := by
      cases q with
      | nil => exact absurd hlast nofun
      | cons x q =>
          rw [List.cons_append, State.pending, State.pending, State.go_of_ne (hne (by simp))]
          show (if s.stage x = .spinning then _ else _) = _
          split_ifs <;> rfl
    rw [hpending, ← List.append_assoc]
    exact congrArg (· ++ [p]) h.log

/-- A thread on its way into the queue is behind the one whose node it has found. -/
theorem State.Inv.behind_of_stage
    {t : T} (h : s.Inv q) (hp : s.stage p = .clearing t ∨ s.stage p = .linking t) :
  Behind q t p ∧ s.next t = none ∧ (s.stage p = .linking t → s.spin p = false)
  := by
  rcases h.cases p with ⟨-, hstage | ⟨hstage, -⟩⟩ | ⟨-, howner⟩ | ⟨x, hx, hwaits⟩
  · rw [hstage] at hp
    rcases hp with hp | hp <;> exact absurd hp nofun
  · rw [hstage] at hp
    rcases hp with hp | hp <;> exact absurd hp nofun
  · rw [State.Owner] at howner
    rcases hp with hp | hp <;> rw [hp] at howner <;> exact howner.elim
  · rcases hwaits with ⟨hstage, hnext⟩ | ⟨hstage, hspin, hnext⟩ | ⟨hstage, -⟩
    · rw [hstage] at hp
      rcases hp with hp | hp
      · obtain rfl := Stage.clearing.inj hp
        refine ⟨hx, hnext, ?_⟩
        rw [hstage]
        nofun
      · exact absurd hp nofun
    · rw [hstage] at hp
      rcases hp with hp | hp
      · exact absurd hp nofun
      · obtain rfl := Stage.linking.inj hp
        exact ⟨hx, hnext, fun _ => hspin⟩
    · rw [hstage] at hp
      rcases hp with hp | hp <;> exact absurd hp nofun

theorem State.Inv.clearSpin {t : T} (h : s.Inv q) (hstage : s.stage p = .clearing t) :
  ((s.setSpin p false).go p (.linking t)).Inv q
  := by
  obtain ⟨htp, hnext, -⟩ := h.behind_of_stage (.inl hstage)
  refine ⟨h.nodup, h.tail, ?_, ?_, h.last, ?_, ?_⟩
  · intro x hx
    have hxp := htp.ne_head h.nodup hx
    exact (h.owner x hx).congr (State.go_of_ne hxp) (State.setSpin_of_ne hxp) rfl
  · intro x y hxy
    by_cases hyp : y = p
    · subst hyp
      obtain rfl := hxy.left_unique h.nodup htp
      exact .inr (.inl ⟨State.go_self, Function.update_self _ _ _, hnext⟩)
    · exact (h.behind x y hxy).congr (State.go_of_ne hyp) (State.setSpin_of_ne hyp) rfl
  · intro x hx
    have hxp : x ≠ p := by
      rintro rfl
      exact hx htp.mem.2
    rw [State.go_of_ne hxp]
    exact h.outside x hx
  · have hpending : ((s.setSpin p false).go p (.linking t)).pending q = s.pending q := by
      apply State.pending_congr
      intro x hx
      exact State.go_of_ne (htp.ne_head h.nodup hx)
    rw [hpending]
    exact h.log

theorem State.Inv.link {t : T} (h : s.Inv q) (hstage : s.stage p = .linking t) :
  ((s.setNext t (some p)).go p .spinning).Inv q
  := by
  obtain ⟨htp, hnext, hspin⟩ := h.behind_of_stage (.inr hstage)
  refine ⟨h.nodup, h.tail, ?_, ?_, ?_, ?_, ?_⟩
  · intro x hx
    have howner := h.owner x hx
    have hxp := htp.ne_head h.nodup hx
    by_cases hxt : x = t
    · subst hxt
      rw [State.Owner] at howner ⊢
      rw [State.go_of_ne hxp]
      show match s.stage x with
        | .spinning => s.spin x = true
        | .handing succ => (s.setNext x (some p)).next x = some succ
        | .critical => True
        | .reading => True
        | .releasing => True
        | .waiting => True
        | _ => False
      cases hx' : s.stage x with
      | handing succ =>
          rw [hx'] at howner
          exact absurd (hnext.symm.trans howner) nofun
      | _ =>
          rw [hx'] at howner
          exact howner
    · exact howner.congr (State.go_of_ne hxp) rfl (State.setNext_of_ne hxt)
  · intro x y hxy
    by_cases hyp : y = p
    · subst hyp
      obtain rfl := hxy.left_unique h.nodup htp
      exact .inr (.inr ⟨State.go_self, hspin hstage, Function.update_self _ _ _⟩)
    · have hxt : x ≠ t := by
        rintro rfl
        exact hyp (hxy.right_unique h.nodup htp)
      exact (h.behind x y hxy).congr (State.go_of_ne hyp) rfl (State.setNext_of_ne hxt)
  · intro x hx
    exact (State.setNext_of_ne (htp.ne_last h.nodup hx)).trans (h.last x hx)
  · intro x hx
    have hxp : x ≠ p := by
      rintro rfl
      exact hx htp.mem.2
    have hxt : x ≠ t := by
      rintro rfl
      exact hx htp.mem.1
    rw [State.go_of_ne hxp]
    rcases h.outside x hx with hidle | ⟨hswapping, hnext⟩
    · exact .inl hidle
    · exact .inr ⟨hswapping, (State.setNext_of_ne hxt).trans hnext⟩
  · have hpending : ((s.setNext t (some p)).go p .spinning).pending q = s.pending q := by
      apply State.pending_congr
      intro x hx
      exact State.go_of_ne (htp.ne_head h.nodup hx)
    rw [hpending]
    exact h.log

/-- A step of the first thread, which keeps the lock. -/
theorem State.Inv.goHead
    {stage : Stage T} (h : s.Inv q) (hp : (s.stage p).Holds) (howner : (s.go p stage).Owner p)
    (hstage : stage ≠ .spinning) :
  (s.go p stage).Inv q
  := by
  obtain ⟨hhead, -⟩ := h.head_of_holds hp
  refine ⟨h.nodup, h.tail, ?_, ?_, h.last, ?_, ?_⟩
  · intro x hx
    obtain rfl := Option.some.inj (hhead.symm.trans hx)
    exact howner
  · intro x y hxy
    have hyp := (hxy.ne_head h.nodup hhead).symm
    exact (h.behind x y hxy).congr (State.go_of_ne hyp) rfl rfl
  · intro x hx
    have hxp : x ≠ p := by
      rintro rfl
      exact hx (List.mem_of_head? hhead)
    rw [State.go_of_ne hxp]
    exact h.outside x hx
  · have hpending : (s.go p stage).pending q = s.pending q := by
      cases q with
      | nil => rfl
      | cons x q =>
          obtain rfl : x = p := Option.some.inj hhead
          rw [State.pending, State.pending, State.go_self, if_neg hstage, if_neg]
          intro hspinning
          rw [hspinning] at hp
          exact hp
    rw [hpending]
    exact h.log

/-- The first thread finds its spin variable set. -/
theorem State.Inv.spin
    (h : s.Inv q) (hstage : s.stage p = .spinning) (hspin : s.spin p = true) :
  (s.enter p).Inv q
  := by
  have hhead : q.head? = some p := by
    rcases h.cases p with ⟨-, hout | ⟨hout, -⟩⟩ | ⟨hhead, -⟩ | ⟨x, -, hwaits⟩
    · exact absurd (hstage.symm.trans hout) nofun
    · exact absurd (hstage.symm.trans hout) nofun
    · exact hhead
    · rcases hwaits with ⟨hwait, -⟩ | ⟨-, hwait, -⟩ | ⟨-, hwait, -⟩
      · exact absurd (hstage.symm.trans hwait) nofun
      · exact absurd (hspin.symm.trans hwait) nofun
      · exact absurd (hspin.symm.trans hwait) nofun
  have hself : (s.enter p).stage p = .critical := State.go_self
  have hother : ∀ {x}, x ≠ p → (s.enter p).stage x = s.stage x := fun hx => State.go_of_ne hx
  refine ⟨h.nodup, h.tail, ?_, ?_, h.last, ?_, ?_⟩
  · intro x hx
    obtain rfl := Option.some.inj (hhead.symm.trans hx)
    rw [State.Owner, hself]
    trivial
  · intro x y hxy
    exact (h.behind x y hxy).congr (hother (hxy.ne_head h.nodup hhead).symm) rfl rfl
  · intro x hx
    have hxp : x ≠ p := by
      rintro rfl
      exact hx (List.mem_of_head? hhead)
    rw [hother hxp]
    exact h.outside x hx
  · cases q with
    | nil => exact absurd hhead nofun
    | cons x q =>
        obtain rfl : x = p := Option.some.inj hhead
        have hlog := h.log
        rw [State.pending, if_pos hstage] at hlog
        rw [State.pending, hself, if_neg nofun]
        show s.swaps = s.entries ++ [x] ++ q
        rw [hlog, List.append_assoc, List.singleton_append]

/-- The first thread is alone in the queue and gives the lock up. -/
theorem State.Inv.release
    (h : s.Inv q) (hstage : s.stage p = .releasing) (htail : s.tail = some p) :
  ((s.setTail none).go p .idle).Inv []
  := by
  obtain ⟨hhead, -⟩ := h.head_of_holds (p := p) (by rw [hstage]; trivial)
  have hlast : q.getLast? = some p := h.tail.symm.trans htail
  obtain rfl : q = [p] := by
    cases q with
    | nil => exact absurd hhead nofun
    | cons x q =>
        obtain rfl : x = p := Option.some.inj hhead
        cases q with
        | nil => rfl
        | cons y q =>
            rw [List.getLast?_cons_cons] at hlast
            exact absurd (List.mem_of_getLast? hlast) (List.nodup_cons.mp h.nodup).1
  refine ⟨List.nodup_nil, rfl, nofun, ?_, nofun, ?_, ?_⟩
  · rintro x y ⟨i, hx, -⟩
    exact absurd hx nofun
  · intro x _
    by_cases hxp : x = p
    · rw [hxp, State.go_self]
      exact .inl rfl
    · rw [State.go_of_ne hxp]
      apply h.outside x
      rw [List.mem_singleton]
      exact hxp
  · have hlog := h.log
    rw [State.pending, hstage, if_neg nofun] at hlog
    exact hlog

/-- The first thread hands the lock over to the one behind it. -/
theorem State.Inv.hand {succ : T} (h : s.Inv q) (hstage : s.stage p = .handing succ) :
  ((s.setSpin succ true).go p .idle).Inv q.tail
  := by
  obtain ⟨hhead, howner⟩ := h.head_of_holds (p := p) (by rw [hstage]; trivial)
  have hnext : s.next p = some succ := by
    rw [State.Owner, hstage] at howner
    exact howner
  obtain ⟨y, l, rfl⟩ : ∃ y l, q = p :: y :: l := by
    cases q with
    | nil => exact absurd hhead nofun
    | cons x q =>
        obtain rfl : x = p := Option.some.inj hhead
        cases q with
        | nil => exact absurd ((h.last x rfl).symm.trans hnext) nofun
        | cons y l => exact ⟨y, l, rfl⟩
  obtain ⟨hyspinning, rfl⟩ : s.stage y = .spinning ∧ succ = y := by
    rcases h.behind p y ⟨0, rfl, rfl⟩ with ⟨-, hnone⟩ | ⟨-, -, hnone⟩ | ⟨hspinning, -, hsome⟩
    · exact absurd (hnone.symm.trans hnext) nofun
    · exact absurd (hnone.symm.trans hnext) nofun
    · exact ⟨hspinning, Option.some.inj (hnext.symm.trans hsome)⟩
  obtain ⟨hnot, hnodup⟩ := List.nodup_cons.mp h.nodup
  have hne : ∀ {x}, x ∈ succ :: l → x ≠ p := by
    rintro x hx rfl
    exact hnot hx
  have hhead' : (succ :: l).head? = some succ := rfl
  refine ⟨hnodup, ?_, ?_, ?_, ?_, ?_, ?_⟩
  · exact h.tail.trans List.getLast?_cons_cons
  · intro x hx
    obtain rfl := Option.some.inj hx
    rw [State.Owner, State.go_of_ne (hne List.mem_cons_self)]
    show match s.stage succ with
      | .spinning => (s.setSpin succ true).spin succ = true
      | .handing succ' => s.next succ = some succ'
      | .critical => True
      | .reading => True
      | .releasing => True
      | .waiting => True
      | _ => False
    rw [hyspinning]
    exact Function.update_self _ _ _
  · intro x y hxy
    have hy : y ≠ succ := (hxy.ne_head hnodup hhead').symm
    exact (h.behind x y (hxy.tail p)).congr (State.go_of_ne (hne hxy.mem.2))
      (State.setSpin_of_ne hy) rfl
  · intro x hx
    apply h.last x
    rw [List.getLast?_cons_cons]
    exact hx
  · intro x hx
    by_cases hxp : x = p
    · rw [hxp, State.go_self]
      exact .inl rfl
    · rw [State.go_of_ne hxp]
      apply h.outside x
      intro hmem
      rcases List.mem_cons.mp hmem with hmem | hmem
      · exact hxp hmem
      · exact hx hmem
  · have hlog := h.log
    rw [State.pending, hstage, if_neg nofun] at hlog
    show _ = s.entries ++ State.pending _ (succ :: l)
    rw [State.pending, State.go_of_ne (hne List.mem_cons_self)]
    show _ = s.entries ++ (if s.stage succ = .spinning then succ :: l else l)
    rw [if_pos hyspinning]
    exact hlog

/-- What a step keeps. -/
theorem State.Inv.step (h : s.Inv q) (hstep : s.Step s') :
  ∃ q', s'.Inv q'
  := by
  cases hstep with
  | clearNext p hstage => exact ⟨q, h.clearNext hstage⟩
  | swapFree p hstage htail => exact ⟨[p], h.swapFree hstage htail⟩
  | swapBusy p tail hstage htail => exact ⟨q ++ [p], h.swapBusy hstage htail⟩
  | clearSpin p tail hstage => exact ⟨q, h.clearSpin hstage⟩
  | link p tail hstage => exact ⟨q, h.link hstage⟩
  | spin p hstage hspin => exact ⟨q, h.spin hstage hspin⟩
  | unlock p hstage =>
      refine ⟨q, h.goHead (by rw [hstage]; trivial) ?_ nofun⟩
      rw [State.Owner, State.go_self]
      trivial
  | readNone p hstage hnext =>
      refine ⟨q, h.goHead (by rw [hstage]; trivial) ?_ nofun⟩
      rw [State.Owner, State.go_self]
      trivial
  | readSome p succ hstage hnext =>
      refine ⟨q, h.goHead (by rw [hstage]; trivial) ?_ nofun⟩
      rw [State.Owner, State.go_self]
      exact hnext
  | release p hstage htail => exact ⟨[], h.release hstage htail⟩
  | fail p hstage htail =>
      refine ⟨q, h.goHead (by rw [hstage]; trivial) ?_ nofun⟩
      rw [State.Owner, State.go_self]
      trivial
  | wait p succ hstage hnext =>
      refine ⟨q, h.goHead (by rw [hstage]; trivial) ?_ nofun⟩
      rw [State.Owner, State.go_self]
      exact hnext
  | hand p succ hstage => exact ⟨q.tail, h.hand hstage⟩

theorem State.inv_start :
  (State.start : State T).Inv []
  := by
  refine ⟨List.nodup_nil, rfl, nofun, ?_, nofun, ?_, rfl⟩
  · rintro x y ⟨i, hx, -⟩
    exact absurd hx nofun
  · intro p _
    exact .inl rfl

def Reachable (s : State T) : Prop := Relation.ReflTransGen State.Step State.start s

/-- At most one thread has the lock, and the threads come into the critical section in the order in
which they have swapped the tail. -/
theorem mcs_exclusive_fifo (h : Reachable s) :
  (∀ p p', (s.stage p).Holds → (s.stage p').Holds → p = p') ∧ s.entries <+: s.swaps
  := by
  have hinv : ∃ q, s.Inv q := by
    induction h with
    | refl => exact ⟨[], State.inv_start⟩
    | tail _ hstep ih =>
        obtain ⟨q, hq⟩ := ih
        exact hq.step hstep
  obtain ⟨q, hq⟩ := hinv
  constructor
  · intro p p' hp hp'
    obtain ⟨hhead, -⟩ := hq.head_of_holds hp
    obtain ⟨hhead', -⟩ := hq.head_of_holds hp'
    exact Option.some.inj (hhead.symm.trans hhead')
  · exact ⟨s.pending q, hq.log.symm⟩

/-- The second thread swaps the tail before the compare-and-swap of the first and links itself in
after it, and the first comes back for the lock before the second leaves the critical section. -/
theorem mcs_exclusive_fifo_handover :
  ∃ s : State Bool, Reachable s ∧ s.stage false = .critical ∧ s.stage true = .spinning ∧
    s.entries = [true, false] ∧ s.swaps = [true, false, true] ∧ s.entries <+: s.swaps
  := by
  have h : Reachable (T := Bool) State.start := .refl
  have h := h.tail (.clearNext true rfl)
  have h := h.tail (.swapFree true rfl rfl)
  have h := h.tail (.clearNext false rfl)
  have h := h.tail (.unlock true rfl)
  have h := h.tail (.readNone true rfl rfl)
  have h := h.tail (.swapBusy false true rfl rfl)
  have h := h.tail (.fail true rfl (by decide))
  have h := h.tail (.clearSpin false true rfl)
  have h := h.tail (.link false true rfl)
  have h := h.tail (.wait true false rfl rfl)
  have h := h.tail (.hand true false rfl)
  have h := h.tail (.clearNext true rfl)
  have h := h.tail (.spin false rfl rfl)
  have h := h.tail (.swapBusy true false rfl rfl)
  have h := h.tail (.clearSpin true false rfl)
  have h := h.tail (.link true false rfl)
  exact ⟨_, h, rfl, rfl, rfl, rfl, (mcs_exclusive_fifo h).2⟩

end Inv

end Mcs
