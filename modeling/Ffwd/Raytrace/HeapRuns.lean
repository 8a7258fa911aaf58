import Ffwd.Raytrace.HeapOps

/-!
# Runs of the global heap

One client calls `GlobalMalloc` and `GlobalFree` and writes into the blocks it has got. In every such
run the heap is well-formed and its used blocks are those of the client, as long as the size of the
heap can be rounded up: `GlobalHeapInit` rounds a size above `2 ^ 64 - 8` to zero, and then makes a
header where there is no memory.
-/

namespace Raytrace

open Linked (Path)
open Tiling (Tiles)
open Relation (ReflTransGen)

/-- The heap, and the pointers that have been returned and not been freed with the sizes that were
asked for. -/
structure Client where
  heap : Heap
  live : List (Nat × Nat)

/-- A word is written. -/
def Heap.write (h : Heap) (a v : Nat) : Heap := { h with mem := Function.update h.mem a v }

/-- A completed call, or a write into a block. -/
inductive Client.Step (heapSize : Nat) : Client → Client → Prop where
  | malloc {c : Client} {n size p : Nat} {msg : String} {h : Heap} (hsize : size ≤ heapSize)
      (hcall : globalMalloc n size msg c.heap = .ok (p, h)) :
    Step heapSize c ⟨h, if p = 0 then c.live else (p, size) :: c.live⟩
  | free {c : Client} {n p size : Nat} {h : Heap} (hp : (p, size) ∈ c.live)
      (hcall : globalFree n p c.heap = .ok h) :
    Step heapSize c ⟨h, c.live.erase (p, size)⟩
  | write {c : Client} {p size a : Nat} (hp : (p, size) ∈ c.live) (ha : 8 ∣ a) (hle : p ≤ a)
      (hlt : a < p + size) (v : Nat) :
    Step heapSize c ⟨c.heap.write a v, c.live⟩

/-- The heap is well-formed, the used blocks are those of the client, which are as long as they should
be, aligned and disjoint, and a call returns or finds that there is not enough memory. -/
structure Client.Correct (heapSize : Nat) (c : Client) (l : List Block) : Prop where
  heap : c.heap.Wf l
  used : (c.live.map Prod.fst).Perm ((used l).map Block.data)
  size : ∀ e ∈ c.live, ∃ k ∈ Raytrace.used l, k.data = e.1 ∧ e.2 ≤ k.size
  aligned : ∀ e ∈ c.live, 8 ∣ e.1
  disjoint : c.live.Pairwise (fun e e' => e.1 + e.2 ≤ e'.1 ∨ e'.1 + e'.2 ≤ e.1)
  malloc : ∀ n size msg, l.length < n → size ≤ heapSize →
    (∃ r, globalMalloc n size msg c.heap = .ok r) ∨
      globalMalloc n size msg c.heap = .error (.exit (.cannotAllocate msg))
  free : ∀ n, l.length < n → ∀ e ∈ c.live, ∃ h, globalFree n e.1 c.heap = .ok h

/-- What `valloc` is documented to do: it returns an address of a page with that much memory behind
it, or fails. -/
def Valloc (valloc : Nat → Option Nat) : Prop :=
  ∀ n p, valloc n = some p → 0 < p ∧ 4096 ∣ p ∧ p + n < 2 ^ 64

section Runs

variable {h : Heap} {c c' : Client} {l : List Block} {k k' : Block} {a v heapSize size : Nat}

/-- The invariant of the runs. -/
structure Client.Inv (c : Client) (l : List Block) : Prop where
  heap : c.heap.Wf l
  used : (c.live.map Prod.fst).Perm ((used l).map Block.data)
  size : ∀ e ∈ c.live, ∃ k ∈ Raytrace.used l, k.data = e.1 ∧ e.2 ≤ k.size

theorem used_subset (hk : k ∈ used l) :
  k ∈ l
  := (List.mem_filter.mp hk).1

theorem Heap.Wf.data_nodup (hw : h.Wf l) :
  ((used l).map Block.data).Nodup
  := by
  have hpair : (used l).Pairwise (fun k k' => k.addr + k.len ≤ k'.addr) :=
    hw.tiles.pairwise.sublist List.filter_sublist
  apply List.Pairwise.map Block.data _ hpair
  intro k k' hle
  rw [Block.data, Block.data]
  have hne := (Block.apart_of_le hle).ne
  omega

theorem Heap.Wf.addr_dvd (hw : h.Wf l) (hk : k ∈ l) :
  8 ∣ k.addr
  := by
  obtain ⟨l₁, l₂, rfl⟩ := List.append_of_mem hk
  have htiles := hw.tiles.split.1
  have hdvd : ∀ k ∈ l₁, 8 ∣ k.len := by
    intro k hk
    have hsize := hw.size_dvd k (List.mem_append_left _ hk)
    rw [Block.len, nodesize]
    omega
  have hbeg := hw.begmem_dvd
  generalize h.begmem = b at htiles hbeg
  generalize k.addr = e at htiles
  clear hw hk
  induction l₁ generalizing b with
  | nil =>
      obtain rfl : b = e := htiles
      exact hbeg
  | cons k l₁ ih =>
      exact ih (fun k' hk' => hdvd k' (List.mem_cons_of_mem k hk')) _
        (Nat.dvd_add hbeg (hdvd k List.mem_cons_self)) htiles.2

/-- A word of the data of a block is no word of a header. -/
theorem Heap.Wf.write (hw : h.Wf l) (hk : k ∈ l) (hle : k.data ≤ a) (hlt : a < k.data + k.size) :
  (h.write a v).Wf l
  := by
  have hget : ∀ k' ∈ l, ∀ f, (h.write a v).get k'.addr f = h.get k'.addr f := by
    intro k' hk' f
    apply Function.update_of_ne
    have hf := f.offset_le
    simp only [Block.data, nodesize] at hle hlt
    rcases hw.tiles.eq_or_apart hk hk' with rfl | happart | happart
    · omega
    · simp only [Block.len, nodesize] at happart
      omega
    · simp only [Block.len, nodesize] at happart
      omega
  constructor
  · exact hw.begmem_pos
  · exact hw.begmem_dvd
  · exact hw.endmem_lt
  · exact hw.tiles
  · intro k' hk'
    obtain ⟨hsize, hfree, hcksm⟩ := hw.headers k' hk'
    exact ⟨(hget k' hk' _).trans hsize, (hget k' hk' _).trans hfree, (hget k' hk' _).trans hcksm⟩
  · exact hw.size_dvd
  · apply hw.list.congr_of_mem
    intro b hb
    rcases List.mem_cons.mp hb with rfl | hb
    · rfl
    · obtain ⟨k', hk', -, rfl⟩ := mem_freeAddrs.mp hb
      unfold Heap.link
      rw [hget k' hk']
      rfl
  · exact hw.coalesced

/-- One step keeps the invariant. -/
theorem Client.Inv.step (hstep : Client.Step heapSize c c') (hheap : heapSize + 7 < 2 ^ 64)
    (hinv : c.Inv l) :
  ∃ l', c'.Inv l'
  := by
  obtain ⟨hw, hused, hsizes⟩ := hinv
  cases hstep with
  | @malloc n size p msg h hsize hcall =>
      by_cases hsize₀ : size = 0
      · rw [globalMalloc, if_pos hsize₀] at hcall
        obtain ⟨rfl, rfl⟩ := Prod.mk.inj (Except.ok.inj hcall)
        exact ⟨l, hw, hused, hsizes⟩
      · have hmono := globalMalloc_mono (n := n + (l.length + 1)) (Nat.le_add_right n _)
          (by rw [hcall]; rintro ⟨⟩)
        rcases globalMalloc_spec (n := n + (l.length + 1)) msg hw (by omega) hsize₀ (by omega)
          with herror | ⟨h', l', k, hok, hw', hk, hle, hperm⟩
        · rw [hmono, hcall] at herror
          exact absurd herror (by rintro ⟨⟩)
        · rw [hmono, hcall] at hok
          obtain ⟨rfl, rfl⟩ := Prod.mk.inj (Except.ok.inj hok)
          have hmem : k ∈ Raytrace.used l' := hperm.symm.subset List.mem_cons_self
          have hp : k.data ≠ 0 := by
            have hpos := hw'.addr_pos (used_subset hmem)
            rw [Block.data]
            omega
          rw [if_neg hp]
          refine ⟨l', hw', ?_, ?_⟩
          · exact (hused.cons k.data).trans (hperm.map Block.data).symm
          · intro e he
            rcases List.mem_cons.mp he with rfl | he
            · exact ⟨k, hmem, rfl, hle⟩
            · obtain ⟨k', hk', hdata⟩ := hsizes e he
              exact ⟨k', hperm.symm.subset (List.mem_cons_of_mem k hk'), hdata⟩
  | @free n p size h hp hcall =>
      obtain ⟨k, hk, hdata, hle⟩ := hsizes (p, size) hp
      obtain ⟨h', l', hok, hw', hperm⟩ := globalFree_spec (n := n + (l.length + 1)) hw hk (by omega)
      have hmono := globalFree_mono (n := n + (l.length + 1)) (Nat.le_add_right n _)
        (by rw [hcall]; rintro ⟨⟩)
      rw [hdata, hmono, hcall] at hok
      obtain rfl := Except.ok.inj hok
      have hlive : ((p, size) :: c.live.erase (p, size)).Perm c.live := (List.perm_cons_erase hp).symm
      have hused' : ((c.live.erase (p, size)).map Prod.fst).Perm ((Raytrace.used l').map Block.data) := by
        have hcons := ((hlive.map Prod.fst).trans hused).trans (hperm.map Block.data).symm
        rw [List.map_cons, List.map_cons, hdata] at hcons
        exact hcons.cons_inv
      refine ⟨l', hw', hused', ?_⟩
      intro e he
      obtain ⟨k', hk', hdata', hle'⟩ := hsizes e (List.mem_of_mem_erase he)
      rcases List.mem_cons.mp (hperm.symm.subset hk') with rfl | hk'
      · have hnodup := (hperm.map Block.data).nodup_iff.mpr hw.data_nodup
        have hmem := hused'.subset (List.mem_map_of_mem (f := Prod.fst) he)
        rw [← hdata'] at hmem
        exact absurd hmem (List.nodup_cons.mp hnodup).1
      · exact ⟨k', hk', hdata', hle'⟩
  | @write p size a hp ha hle hlt v =>
      obtain ⟨k, hk, hdata, hsize⟩ := hsizes (p, size) hp
      refine ⟨l, hw.write (used_subset hk) ?_ ?_, hused, hsizes⟩
      · rw [hdata]
        exact hle
      · rw [hdata]
        dsimp only at hsize hlt ⊢
        omega

theorem Client.Inv.correct (hinv : c.Inv l) (hheap : heapSize + 7 < 2 ^ 64) :
  c.Correct heapSize l
  := by
  obtain ⟨hw, hused, hsizes⟩ := hinv
  constructor
  · exact hw
  · exact hused
  · exact hsizes
  · intro e he
    obtain ⟨k, hk, hdata, -⟩ := hsizes e he
    have hdvd := hw.addr_dvd (used_subset hk)
    rw [← hdata, Block.data, nodesize]
    omega
  · have hnodup : (c.live.map Prod.fst).Nodup := hused.nodup_iff.mpr hw.data_nodup
    apply (List.pairwise_map.mp hnodup).imp_of_mem
    intro e e' he he' hne
    obtain ⟨k, hk, hdata, hle⟩ := hsizes e he
    obtain ⟨k', hk', hdata', hle'⟩ := hsizes e' he'
    rw [← hdata, ← hdata'] at hne ⊢
    rcases hw.tiles.eq_or_apart (used_subset hk) (used_subset hk') with rfl | happart | happart
    · exact absurd rfl hne
    · simp only [Block.data, Block.len] at happart ⊢
      omega
    · simp only [Block.data, Block.len] at happart ⊢
      omega
  · intro n size msg hn hsize
    by_cases hsize₀ : size = 0
    · rw [globalMalloc, if_pos hsize₀]
      exact .inl ⟨_, rfl⟩
    · rcases globalMalloc_spec msg hw hn hsize₀ (by omega) with herror | ⟨h', l', k, hok, -⟩
      · exact .inr herror
      · exact .inl ⟨_, hok⟩
  · intro n hn e he
    obtain ⟨k, hk, hdata, -⟩ := hsizes e he
    obtain ⟨h', l', hok, -⟩ := globalFree_spec hw hk hn
    rw [← hdata]
    exact ⟨h', hok⟩

variable {valloc : Nat → Option Nat} {mem : Mem} {p : Nat}

/-- A new heap is one free block. -/
theorem Client.Inv.init
    (hvalloc : Valloc valloc) (hsize : nodesize + 8 ≤ size) (hround : size + 7 < 2 ^ 64)
    (hinit : globalHeapInit valloc size mem = some h) :
  ∃ l, Client.Inv ⟨h, []⟩ l
  := by
  obtain ⟨p, hp, hh⟩ := Option.bind_eq_some_iff.mp hinit
  obtain ⟨hpos, hdvd, hlt⟩ := hvalloc _ p hp
  have hle := le_roundUp hround
  have hmod : (roundUp size + (2 ^ 64 - nodesize)) % 2 ^ 64 = roundUp size - nodesize := by
    rw [nodesize] at hsize ⊢
    omega
  have hend : nodeAdd p (roundUp size) = p + roundUp size := Nat.mod_eq_of_lt hlt
  have hp₀ : p ≠ 0 := Nat.ne_of_gt hpos
  rw [hmod, hend] at hh
  obtain rfl := Option.some.inj hh
  refine ⟨[⟨p, roundUp size - nodesize, true⟩], ?_, List.Perm.nil, by simp⟩
  constructor
  · exact hpos
  · exact Nat.dvd_trans (by decide) hdvd
  · exact hlt
  · refine ⟨rfl, ?_⟩
    simp only [Tiles, Block.len, Heap.set_begmem, Heap.set_endmem]
    omega
  · intro k hk
    obtain rfl := List.mem_singleton.mp hk
    constructor <;> simp [Heap.get_set_field]
  · intro k hk
    obtain rfl := List.mem_singleton.mp hk
    have hround := roundUp_dvd size
    rw [nodesize]
    dsimp only
    omega
  · refine ⟨rfl, ?_⟩
    show Heap.link _ p = 0
    rw [Heap.link, if_neg hp₀]
    simp [Heap.get_set_field]
  · exact .singleton _

/-- A size that cannot be rounded up gives a heap without memory, but with a free list. -/
theorem globalHeapInit_overflow
    (mem : Mem) (hround : ¬ size + 7 < 2 ^ 64) (hlt : size < 2 ^ 64) (hvalloc : Valloc valloc)
    (hp : valloc 0 = some p) :
  ∃ h, globalHeapInit valloc size mem = some h ∧ ∀ l, ¬ h.Wf l
  := by
  have hzero : roundUp size = 0 := by
    rw [roundUp]
    omega
  obtain ⟨hpos, -, hple⟩ := hvalloc 0 p hp
  refine ⟨_, by rw [globalHeapInit, hzero, hp]; rfl, ?_⟩
  intro l hw
  have htiles := hw.tiles
  have hend : nodeAdd p 0 = p := Nat.mod_eq_of_lt hple
  simp only [Heap.set_begmem, Heap.set_endmem, hend] at htiles
  cases l with
  | nil => exact Nat.ne_of_gt hpos hw.list
  | cons k l =>
      have hle := htiles.2.le
      rw [Block.len, nodesize] at hle
      omega

theorem Client.Inv.run
    {c : Client} (hvalloc : Valloc valloc) (hsize : nodesize + 8 ≤ size) (hround : size + 7 < 2 ^ 64)
    (hinit : globalHeapInit valloc size mem = some h) (hrun : ReflTransGen (Client.Step size) ⟨h, []⟩ c) :
  ∃ l, c.Inv l
  := by
  induction hrun with
  | refl => exact Client.Inv.init hvalloc hsize hround hinit
  | tail _ hstep ih =>
      obtain ⟨l, hl⟩ := ih
      exact hl.step hstep hround

/-- In every run the heap is correct. The sizes that the program asks for are whole megabytes, so that they can
be rounded up. -/
theorem globalHeap_correct
    (valloc : Nat → Option Nat) (hvalloc : Valloc valloc) (size : Nat) (hsize : nodesize + 8 ≤ size)
    (hle : size ≤ 2 ^ 64 - 8) (mem : Mem) (h : Heap) (hinit : globalHeapInit valloc size mem = some h) (c : Client)
    (hrun : ReflTransGen (Client.Step size) ⟨h, []⟩ c) :
  ∃ l, c.Correct size l
  := by
  have hround : size + 7 < 2 ^ 64 := by omega
  obtain ⟨l, hl⟩ := Client.Inv.run hvalloc hsize hround hinit hrun
  exact ⟨l, hl.correct hround⟩

/-- Beyond that, the heap is correct if and only if there is no memory of size zero. -/
theorem globalHeap_correct_iff
    (valloc : Nat → Option Nat) (hvalloc : Valloc valloc) (size : Nat) (hsize : nodesize + 8 ≤ size)
    (hlt : size < 2 ^ 64) (mem : Mem) :
  (∀ h, globalHeapInit valloc size mem = some h →
      ∀ c, ReflTransGen (Client.Step size) ⟨h, []⟩ c → ∃ l, c.Correct size l)
    ↔ size ≤ 2 ^ 64 - 8 ∨ valloc 0 = none
  := by
  constructor
  · intro hcorrect
    by_cases hround : size + 7 < 2 ^ 64
    · exact .inl (by omega)
    · right
      cases hp : valloc 0 with
      | none => rfl
      | some p =>
          obtain ⟨h, hinit, hw⟩ := globalHeapInit_overflow mem hround hlt hvalloc hp
          obtain ⟨l, hl⟩ := hcorrect h hinit _ .refl
          exact absurd hl.heap (hw l)
  · intro hcond h hinit c hrun
    have hround : size + 7 < 2 ^ 64 := by
      rcases hcond with hle | hnone
      · omega
      · by_contra hround
        have hzero : roundUp size = 0 := by
          rw [roundUp]
          omega
        rw [globalHeapInit, hzero, hnone] at hinit
        exact absurd hinit (by rintro ⟨⟩)
    obtain ⟨l, hl⟩ := Client.Inv.run hvalloc hsize hround hinit hrun
    exact ⟨l, hl.correct hround⟩

end Runs

/-- Memory of at most a megabyte behind the first page. -/
def smallValloc (n : Nat) : Option Nat := if n ≤ 2 ^ 20 then some 4096 else none

theorem valloc_small :
  Valloc smallValloc
  := by
  intro n p hp
  unfold smallValloc at hp
  split at hp
  · obtain rfl := Option.some.inj hp
    omega
  · exact absurd hp nofun

/-- Two blocks of a heap of 200 bytes, of which the first is freed. -/
theorem globalHeap_correct_two :
  ∃ h h₁ h₂ h₃, globalHeapInit smallValloc 200 (fun _ => 0) = some h ∧
    globalMalloc 9 20 "geo.c" h = .ok (4128, h₁) ∧ globalMalloc 9 8 "geo.c" h₁ = .ok (4184, h₂) ∧
    globalFree 9 4128 h₂ = .ok h₃ ∧ h₃.freelist = 4096 ∧ ∃ l, Client.Correct 200 ⟨h₃, [(4184, 8)]⟩ l
  := by
  obtain ⟨h, hinit, h₁, hfirst, h₂, hsecond, h₃, hfree, hlist⟩ :
      ∃ h, globalHeapInit smallValloc 200 (fun _ => 0) = some h ∧
        ∃ h₁, globalMalloc 9 20 "geo.c" h = .ok (4128, h₁) ∧
        ∃ h₂, globalMalloc 9 8 "geo.c" h₁ = .ok (4184, h₂) ∧
        ∃ h₃, globalFree 9 4128 h₂ = .ok h₃ ∧ h₃.freelist = 4096 :=
    ⟨_, rfl, _, rfl, _, rfl, _, rfl, rfl⟩
  refine ⟨h, h₁, h₂, h₃, hinit, hfirst, hsecond, hfree, hlist, ?_⟩
  apply globalHeap_correct smallValloc valloc_small 200 (by decide) (by decide) (fun _ => 0) h hinit
  have hstep₁ : Client.Step 200 ⟨h, []⟩ ⟨h₁, [(4128, 20)]⟩ :=
    .malloc (c := ⟨h, []⟩) (p := 4128) (by decide : 20 ≤ 200) hfirst
  have hstep₂ : Client.Step 200 ⟨h₁, [(4128, 20)]⟩ ⟨h₂, [(4184, 8), (4128, 20)]⟩ :=
    .malloc (c := ⟨h₁, [(4128, 20)]⟩) (p := 4184) (by decide : 8 ≤ 200) hsecond
  have hstep₃ : Client.Step 200 ⟨h₂, [(4184, 8), (4128, 20)]⟩ ⟨h₃, [(4184, 8)]⟩ :=
    .free (c := ⟨h₂, _⟩) (by decide : (4128, 20) ∈ [(4184, 8), (4128, 20)]) hfree
  exact ((ReflTransGen.single hstep₁).tail hstep₂).tail hstep₃

end Raytrace
