import Ffwd.Raytrace.HeapSafety

/-!
# What `GlobalRealloc` does to a well-formed heap

When all its stores have been made, the block has become shorter and a used block lies behind it, or
it has become longer and the free block behind it is gone or has become shorter.
-/

namespace Raytrace

open Linked (Path)
open Tiling (Tiles)

section Realloc

variable {h : Heap} {l₁ l₂ : List Block} {k q : Block} {n : Nat}

theorem Store.apply_link {prev v : Nat} :
  (Store.link prev v).apply h = h.setLink prev v
  := by
  unfold Store.link Heap.setLink
  split <;> rfl

theorem foldl_apply_begmem {ss : List Store} :
  (ss.foldl Store.apply h).begmem = h.begmem
  := by
  induction ss generalizing h with
  | nil => rfl
  | cons s ss ih =>
      rw [List.foldl_cons, ih]
      cases s <;> rfl

theorem foldl_apply_endmem {ss : List Store} :
  (ss.foldl Store.apply h).endmem = h.endmem
  := by
  induction ss generalizing h with
  | nil => rfl
  | cons s ss ih =>
      rw [List.foldl_cons, ih]
      cases s <;> rfl

/-- An address inside a block is not the address of a block. -/
theorem Heap.Wf.inside_notMem {l : List Block} {a : Nat} (hw : h.Wf l) (hk : k ∈ l)
    (hlt : k.addr < a) (hle : a < k.addr + k.len) :
  a ∉ addrs l
  := by
  intro hmem
  rcases List.mem_cons.mp hmem with rfl | hmem
  · exact Nat.not_lt_zero _ hlt
  · obtain ⟨k', hk', rfl⟩ := List.mem_map.mp hmem
    rcases hw.tiles.eq_or_apart hk hk' with rfl | happart | happart
    · exact Nat.lt_irrefl _ hlt
    · omega
    · rw [Block.len] at happart
      omega

/-- The end of a used block is cut off. -/
theorem Heap.Wf.shrink
    (hw : h.Wf (l₁ ++ k :: l₂)) (hk : k.free = false) (hn : 8 ∣ n) (hle : n + THRESHOLD ≤ k.size) :
  ((shrinkStores k.data n k.size).foldl Store.apply h).Wf
    (l₁ ++ ([⟨k.addr, n, false⟩, ⟨k.data + n, k.size - nodesize - n, false⟩] ++ l₂))
  := by
  have hmem : k ∈ l₁ ++ k :: l₂ := by simp
  have hk₀ := Nat.ne_of_gt (hw.addr_pos hmem)
  have hlt := hw.addr_add_len hmem
  obtain ⟨hksize, hkfree, hkcksm⟩ := hw.headers k hmem
  simp only [THRESHOLD] at hle
  have htiles : ∀ c d, Tiles Block.addr Block.len c [k] d → Tiles Block.addr Block.len c
      [⟨k.addr, n, false⟩, ⟨k.data + n, k.size - nodesize - n, false⟩] d := by
    rintro c d ⟨rfl, rfl⟩
    refine ⟨rfl, ?_, ?_⟩
    · simp only [Block.data, Block.len]
      omega
    · simp only [Tiles, Block.len]
      omega
  have hA := separate_of_tiles (hw.tiles.replace (l := [k]) htiles)
  obtain ⟨r, hr⟩ : ∃ r, r = k.data + n := ⟨_, rfl⟩
  rw [← hr] at hA htiles ⊢
  have hr_notMem : r ∉ addrs (l₁ ++ k :: l₂) := by
    apply hw.inside_notMem hmem
    · rw [hr, Block.data, nodesize]
      omega
    · rw [hr, Block.data, Block.len]
      omega
  have hr₀ : r ≠ 0 := by
    rintro rfl
    exact hr_notMem List.mem_cons_self
  have hkr : k.addr ≠ r := by
    rw [Block.data, nodesize] at hr
    omega
  have hrA : r ∈ addrs (l₁ ++ ([⟨k.addr, n, false⟩, ⟨r, k.size - nodesize - n, false⟩] ++ l₂)) := by
    simp [addrs]
  have hkA : k.addr ∈
      addrs (l₁ ++ ([⟨k.addr, n, false⟩, ⟨r, k.size - nodesize - n, false⟩] ++ l₂)) := by
    simp [addrs]
  have hnode : nodeAdd k.data n = r := by
    rw [hr]
    apply Nat.mod_eq_of_lt
    rw [Block.len] at hlt
    rw [Block.data]
    omega
  have heq : (shrinkStores k.data n k.size).foldl Store.apply h
      = ((((h.set k.addr .size n).set r .size (k.size - nodesize - n)).set r .next 0).set r .free
        0).set r .cksm CKSM := by
    rw [shrinkStores, Block.nodeAdd_pn hlt, hnode]
    rfl
  have hT := (((((Heap.tableOn (h := h)).set hA hkA hk₀ (f := .size) (v := n)).set hA hrA hr₀
    (f := .size) (v := k.size - nodesize - n)).set hA hrA hr₀ (f := .next) (v := 0)).set hA hrA hr₀
    (f := .free) (v := 0)).set hA hrA hr₀ (f := .cksm) (v := CKSM)
  rw [heq]
  refine Heap.Wf.replace [k] _ hw ?_ ?_ htiles hT ?_ ?_ ?_ ?_
  · simp
  · simp
  · intro k' hk' f hf
    have hk'k : k'.addr ≠ k.addr := Heap.Wf.addr_ne [k] hw hk' (by simp)
    have hk'r : k'.addr ≠ r := by
      rintro rfl
      apply hr_notMem
      apply addr_mem_addrs
      simp only [List.mem_append, List.mem_cons]
      tauto
    rw [Table.set_addr hk'r, Table.set_addr hk'r, Table.set_addr hk'r, Table.set_addr hk'r,
      Table.set_addr hk'k]
  · intro k' hk'
    have hrest : 8 ∣ k.size - nodesize - n := by
      have hkdvd := hw.size_dvd k hmem
      rw [nodesize]
      omega
    simp only [List.mem_cons, List.not_mem_nil, or_false] at hk'
    rcases hk' with rfl | rfl
    · simp [Table.set, Heap.table_of_ne hk₀, hkcksm, hkr, hn, hkfree, hk]
    · simp [Table.set, hrest]
  · have hlist := hw.list
    rw [freeAddrs_used hk] at hlist
    rw [Table.next_set_field (by decide), Table.next_set_field (by decide), Table.next_set,
      Table.next_set_field (by decide), Table.next_set_field (by decide), ← Heap.link_eq,
      freeAddrs_append, List.cons_append, freeAddrs_cons_used rfl, List.singleton_append,
      freeAddrs_cons_used rfl]
    apply hlist.congr_of_mem
    intro b hb
    apply Function.update_of_ne
    rintro rfl
    rw [← freeAddrs_append] at hb
    apply hr_notMem
    exact addrs_subset (by simp) (freeAddrs_subset_addrs hb)
  · obtain ⟨h₁, h₂, -, -⟩ := isChain_mid.mp hw.coalesced
    rw [List.cons_append, isChain_mid]
    refine ⟨h₁, ?_, by simp, by simp⟩
    rw [← List.nil_append ([_] ++ l₂), List.singleton_append, isChain_mid]
    exact ⟨.nil, h₂, by simp, by simp⟩

/-- The free block behind a used one is added to it. -/
theorem Heap.Wf.join
    (hw : h.Wf (l₁ ++ k :: q :: l₂)) (hk : k.free = false) (hq : q.free = true) :
  ((joinStores k.data k.size (k.size + q.len) (Linked.last 0 (freeAddrs l₁))
    (h.get q.addr .next)).foldl Store.apply h).Wf (l₁ ++ ⟨k.addr, k.size + q.len, false⟩ :: l₂)
  := by
  have hkmem : k ∈ l₁ ++ k :: q :: l₂ := by simp
  have hqmem : q ∈ l₁ ++ k :: q :: l₂ := by simp
  have hA := separate_of_tiles hw.tiles
  have hkA := addr_mem_addrs hkmem
  have hqA := addr_mem_addrs hqmem
  have hk₀ := Nat.ne_of_gt (hw.addr_pos hkmem)
  have hq₀ := Nat.ne_of_gt (hw.addr_pos hqmem)
  have hkq : k.addr ≠ q.addr := (hw.apart_of_mem (.inr List.mem_cons_self)).ne
  have hlt := hw.addr_add_len hkmem
  have hstart : q.addr = k.addr + k.len := hw.tiles.split.2.1
  have hnext : nodeAdd k.data k.size = q.addr := by
    rw [hstart, Block.data, Block.len, ← Nat.add_assoc]
    apply Nat.mod_eq_of_lt
    rw [Block.len] at hlt
    omega
  obtain ⟨hksize, hkfree, hkcksm⟩ := hw.headers k hkmem
  have heq : (joinStores k.data k.size (k.size + q.len) (Linked.last 0 (freeAddrs l₁))
      (h.get q.addr .next)).foldl Store.apply h
      = (((h.setLink (Linked.last 0 (freeAddrs l₁)) (h.get q.addr .next)).set q.addr .next 0).set q.addr
        .free 0).set k.addr .size (k.size + q.len) := by
    rw [joinStores, Block.nodeAdd_pn hlt, hnext, List.foldl_cons, Store.apply_link]
    rfl
  rw [heq]
  refine Heap.Wf.replace [k, q] [⟨k.addr, k.size + q.len, false⟩] hw ?_ ?_ ?_
    (TableOn.mono ((((Heap.tableOn.setLink hA last_mem_addrs).set hA hqA hq₀).set hA hqA hq₀).set hA hkA
      hk₀) (addrs_subset (by simp; grind))) ?_ ?_ ?_ ?_
  · simp
  · simp
  · rintro c d ⟨hc, -, rfl⟩
    refine ⟨hc, ?_⟩
    simp only [Tiles, Block.len]
    omega
  · intro k' hk' f hf
    have hk'k : k'.addr ≠ k.addr := Heap.Wf.addr_ne [k, q] hw hk' (by simp)
    have hk'q : k'.addr ≠ q.addr := Heap.Wf.addr_ne [k, q] hw hk' (by simp)
    rw [Table.set_addr hk'k, Table.set_addr hk'q, Table.set_addr hk'q, Table.set_field hf]
  · intro k' hk'
    obtain rfl := List.mem_singleton.mp hk'
    have hdvd : 8 ∣ k.size + q.len := by
      have hkdvd := hw.size_dvd k hkmem
      have hqdvd := hw.size_dvd q hqmem
      rw [Block.len, nodesize]
      omega
    simp [Table.set, Heap.table_of_ne hk₀, hkfree, hk, hkcksm, hkq, hdvd]
  · have hlist := hw.list
    have hnodup := hw.freeAddrs_nodup
    rw [freeAddrs_used hk, freeAddrs_cons_free hq] at hlist hnodup
    have hpath := hlist.remove hnodup
    rw [Heap.link_eq] at hpath
    rw [Table.next_set_field (by decide), Table.next_set_field (by decide), Table.next_set,
      Table.next_set, freeAddrs_append, List.singleton_append, freeAddrs_cons_used rfl]
    have hvalue : h.get q.addr .next = h.table.next q.addr := (Heap.table_of_ne hq₀).symm
    rw [hvalue]
    apply hpath.congr_of_mem
    intro b hb
    apply Function.update_of_ne
    rintro rfl
    have hw' : h.Wf ((l₁ ++ [k]) ++ q :: l₂) := by simpa using hw
    apply hw'.addr_notMem
    apply addrs_subset (by simp) (freeAddrs_subset_addrs (l := l₁ ++ l₂) _)
    rw [freeAddrs_append]
    exact hb
  · rw [List.singleton_append, isChain_mid]
    obtain ⟨h₁, h₂, -, -⟩ := isChain_mid.mp hw.coalesced
    rw [← List.nil_append (q :: l₂), isChain_mid] at h₂
    exact ⟨h₁, h₂.2.1, by simp, by simp⟩

/-- A word of the data of a block is no word of a header. -/
theorem data_ne_field {l : List Block} {a b c e : Nat} {f : Field}
    (htiles : Tiles Block.addr Block.len c l e) (hk : k ∈ l) (hle : k.data ≤ b)
    (hlt : b < k.data + k.size) (ha : a ∈ addrs l) (ha₀ : a ≠ 0) :
  b ≠ a + f.offset
  := by
  have hf := f.offset_le
  obtain ⟨k', hk', rfl⟩ := List.mem_map.mp ((List.mem_cons.mp ha).resolve_left ha₀)
  simp only [Block.data, nodesize] at hle hlt
  rcases htiles.eq_or_apart hk hk' with rfl | happart | happart
  · omega
  · simp only [Block.len, nodesize] at happart
    omega
  · simp only [Block.len, nodesize] at happart
    omega

theorem TableOn.write {A : List Nat} {T : Table} {b v : Nat} (hT : TableOn A h T)
    (hb : ∀ a ∈ A, a ≠ 0 → ∀ f : Field, b ≠ a + f.offset) :
  TableOn A (h.write b v) T
  := by
  intro a ha f
  rw [← hT a ha f]
  by_cases ha₀ : a = 0
  · simp only [Heap.table, if_pos ha₀]
    rfl
  · rw [Heap.table_of_ne ha₀, Heap.table_of_ne ha₀]
    exact Heap.get_write (hb a ha ha₀ f)

theorem Table.set_eq_self {T : Table} {a v : Nat} {f : Field} (hv : T a f = v) :
  T.set a f v = T
  := by
  funext b g
  unfold Table.set
  split
  · rename_i heq
    rw [heq.1, heq.2, hv]
  · rfl

/-- A block and the free one behind it are cut at another place. -/
theorem tiles_extend {c d : Nat} (hle : n + THRESHOLD ≤ k.size + q.len)
    (htiles : Tiles Block.addr Block.len c [k, q] d) :
  Tiles Block.addr Block.len c
    [⟨k.addr, n, false⟩, ⟨k.data + n, k.size + q.len - nodesize - n, true⟩] d
  := by
  obtain ⟨rfl, -, rfl⟩ := htiles
  simp only [THRESHOLD] at hle
  refine ⟨rfl, ?_, ?_⟩
  · simp only [Block.data, Block.len]
    omega
  · simp only [Tiles, Block.len] at hle ⊢
    omega

/-- What the stores do to the headers at the addresses `A`, of which `r` is the new one and `b`, that
of the old free block, is none any more. -/
theorem splitStores_tableOn
    {A : List Nat} {p old prev a b r : Nat} (total link : Nat) (hpn : nodeAdd p (2 ^ 64 - nodesize) = a)
    (hnext : nodeAdd p old = b) (hnode : nodeAdd p n = r) (hA : Separate A) (ha : a ∈ A) (ha₀ : a ≠ 0)
    (hr : r ∈ A) (hr₀ : r ≠ 0) (hprev : prev ∈ A) (hne : prev ≠ r)
    (hbody : ∀ c, b ≤ c → c < r → ∀ a ∈ A, a ≠ 0 → ∀ f : Field, c ≠ a + f.offset)
    (hgap : b + 16 < r ∨ r = b + 16 ∧ link = 0) :
  TableOn A ((splitStores p n old total prev link).foldl Store.apply h)
    ((((((h.table.set r .next link).set r .size (total - nodesize - n)).set r .free 1).set r .cksm
      CKSM).set prev .next r).set a .size n)
  := by
  have heq : (splitStores p n old total prev link).foldl Store.apply h
      = ((((((((h.set r .next link).set r .size (total - nodesize - n)).set r .free 1).set r .cksm
        CKSM).setLink prev r).write (b + 0) 0).write (b + 16) 0).set a .size n) := by
    rw [splitStores, hpn, hnext, hnode, ← Store.apply_link]
    rfl
  have hT := ((((((Heap.tableOn (h := h)).set hA hr hr₀ (f := .next) (v := link)).set hA hr hr₀
    (f := .size) (v := total - nodesize - n)).set hA hr hr₀ (f := .free) (v := 1)).set hA hr hr₀
    (f := .cksm) (v := CKSM)).setLink hA hprev (v := r))
  have hT' := hT.write (v := 0) (hbody (b + 0) (by omega) (by omega))
  rw [heq]
  apply TableOn.set _ hA ha ha₀
  rcases hgap with hgap | ⟨hgap, hzero⟩
  · exact hT'.write (hbody (b + 16) (by omega) hgap)
  · -- The word is the pointer of the new block, which is zero already.
    have hword : b + 16 = r + Field.next.offset := hgap.symm
    rw [hword, ← Heap.set_eq_write]
    have hset := hT'.set hA hr hr₀ (f := .next) (v := 0)
    rw [Table.set_eq_self] at hset
    · exact hset
    · rw [Table.set_addr hne.symm, Table.set_field (by decide), Table.set_field (by decide),
        Table.set_field (by decide), Table.set_self, hzero]

/-- The new free block is on the list in the place of the old one. -/
theorem Heap.Wf.extend_list
    {m r a s : Nat} (hw : h.Wf (l₁ ++ k :: q :: l₂)) (hk : k.free = false) (hq : q.free = true)
    (hr : r ∉ addrs (l₁ ++ k :: q :: l₂)) :
  Path ((((((h.table.set r .next (h.get q.addr .next)).set r .size s).set r .free 1).set r .cksm
      CKSM).set (Linked.last 0 (freeAddrs l₁)) .next r).set a .size n).next 0
    (freeAddrs (l₁ ++ ([⟨k.addr, n, false⟩, ⟨r, m, true⟩] ++ l₂))) 0
  := by
  have hqmem : q ∈ l₁ ++ k :: q :: l₂ := by simp
  have hlist := hw.list
  have hnodup := hw.freeAddrs_nodup
  rw [freeAddrs_used hk, freeAddrs_cons_free hq] at hlist hnodup
  have hnodup' : (0 :: (freeAddrs l₁ ++ freeAddrs l₂)).Nodup := List.Nodup.sublist (by simp) hnodup
  have hr_list : r ∉ 0 :: (freeAddrs l₁ ++ freeAddrs l₂) := by
    rw [← freeAddrs_append]
    intro hmem
    apply hr
    exact addrs_subset (by simp; grind) (freeAddrs_subset_addrs hmem)
  have hprev : Linked.last 0 (freeAddrs l₁) ≠ r := by
    rintro rfl
    exact hr last_mem_addrs
  have hpath := (hlist.remove hnodup).insert hnodup' hr_list
  have hvalue : h.table.next q.addr = h.get q.addr .next :=
    Heap.table_of_ne (Nat.ne_of_gt (hw.addr_pos hqmem))
  rw [Function.update_self, Function.update_comm hprev, Function.update_idem, Heap.link_eq,
    hvalue] at hpath
  rw [Table.next_set_field (by decide), Table.next_set, Table.next_set_field (by decide),
    Table.next_set_field (by decide), Table.next_set_field (by decide), Table.next_set,
    freeAddrs_append, List.cons_append, freeAddrs_cons_used rfl, List.singleton_append,
    freeAddrs_cons_free rfl]
  exact hpath

/-- The first part of the free block behind a used one is added to it. -/
theorem Heap.Wf.extend
    (hw : h.Wf (l₁ ++ k :: q :: l₂)) (hk : k.free = false) (hq : q.free = true) (hn : 8 ∣ n)
    (hlt : k.size < n) (hle : n + THRESHOLD ≤ k.size + q.len)
    (hgap : k.size + 16 < n ∨ n = k.size + 16 ∧ h.get q.addr .next = 0) :
  ((splitStores k.data n k.size (k.size + q.len) (Linked.last 0 (freeAddrs l₁))
    (h.get q.addr .next)).foldl Store.apply h).Wf
    (l₁ ++ ([⟨k.addr, n, false⟩, ⟨k.data + n, k.size + q.len - nodesize - n, true⟩] ++ l₂))
  := by
  have hkmem : k ∈ l₁ ++ k :: q :: l₂ := by simp
  have hqmem : q ∈ l₁ ++ k :: q :: l₂ := by simp
  have hk₀ := Nat.ne_of_gt (hw.addr_pos hkmem)
  have hklt := hw.addr_add_len hkmem
  have hqlt := hw.addr_add_len hqmem
  have hstart : q.addr = k.data + k.size := by
    have hq := hw.tiles.split.2.1
    rw [hq, Block.len, Block.data, Nat.add_assoc]
  obtain ⟨hksize, hkfree, hkcksm⟩ := hw.headers k hkmem
  have htiles := fun c d => tiles_extend (c := c) (d := d) (k := k) (q := q) hle
  have hall := hw.tiles.replace (l := [k, q]) htiles
  simp only [THRESHOLD] at hle
  obtain ⟨r, hr⟩ : ∃ r, r = k.data + n := ⟨_, rfl⟩
  rw [← hr] at htiles hall ⊢
  have hr_notMem : r ∉ addrs (l₁ ++ k :: q :: l₂) := by
    apply hw.inside_notMem hqmem
    · omega
    · omega
  have hr₀ : r ≠ 0 := by
    rintro rfl
    exact hr_notMem List.mem_cons_self
  have hkr : k.addr ≠ r := by
    rw [Block.data, nodesize] at hr
    omega
  have hprev : Linked.last 0 (freeAddrs l₁) ≠ r := by
    rintro rfl
    exact hr_notMem last_mem_addrs
  have hnext : nodeAdd k.data k.size = q.addr := by
    rw [hstart]
    apply Nat.mod_eq_of_lt
    rw [Block.len] at hklt
    rw [Block.data]
    omega
  have hnode : nodeAdd k.data n = r := by
    rw [hr]
    apply Nat.mod_eq_of_lt
    omega
  have hbody : ∀ b, q.addr ≤ b → b < r → ∀ a ∈ addrs (l₁ ++ ([⟨k.addr, n, false⟩,
      ⟨r, k.size + q.len - nodesize - n, true⟩] ++ l₂)), a ≠ 0 → ∀ f : Field, b ≠ a + f.offset := by
    intro b hle hlt a ha ha₀ f
    apply data_ne_field (k := ⟨k.addr, n, false⟩) hall (by simp) _ _ ha ha₀
    · exact (Nat.le_add_right k.data k.size).trans (hstart.symm.le.trans hle)
    · rw [hr] at hlt
      exact hlt
  have hT := splitStores_tableOn (h := h) (k.size + q.len) (h.get q.addr .next)
    (Block.nodeAdd_pn hklt) hnext hnode (separate_of_tiles hall) (by simp [addrs]) hk₀
    (by simp [addrs]) hr₀ last_mem_addrs hprev hbody (by omega)
  refine Heap.Wf.replace [k, q] _ hw ?_ ?_ htiles hT ?_ ?_ (hw.extend_list hk hq hr_notMem) ?_
  · rw [foldl_apply_begmem]
  · rw [foldl_apply_endmem]
  · intro k' hk' f hf
    have hk'k : k'.addr ≠ k.addr := Heap.Wf.addr_ne [k, q] hw hk' (by simp)
    have hk'r : k'.addr ≠ r := by
      rintro rfl
      apply hr_notMem
      apply addr_mem_addrs
      simp only [List.mem_append, List.mem_cons]
      tauto
    rw [Table.set_addr hk'k, Table.set_field hf, Table.set_addr hk'r, Table.set_addr hk'r,
      Table.set_addr hk'r, Table.set_addr hk'r]
  · intro k' hk'
    have hrest : 8 ∣ k.size + q.len - nodesize - n := by
      have hkdvd := hw.size_dvd k hkmem
      have hqdvd := hw.size_dvd q hqmem
      rw [Block.len, nodesize]
      omega
    simp only [List.mem_cons, List.not_mem_nil, or_false] at hk'
    rcases hk' with rfl | rfl
    · simp [Table.set, Heap.table_of_ne hk₀, hkcksm, hkr, hn, hkfree, hk]
    · simp [Table.set, hkr.symm, hrest]
  · obtain ⟨h₁, h₂, -, -⟩ := isChain_mid.mp hw.coalesced
    rw [← List.nil_append (q :: l₂), isChain_mid] at h₂
    rw [List.cons_append, isChain_mid]
    refine ⟨h₁, ?_, by simp, by simp⟩
    rw [← List.nil_append ([_] ++ l₂), List.singleton_append, isChain_mid]
    refine ⟨.nil, h₂.2.1, by simp, ?_⟩
    simpa [hq] using h₂.2.2.2

end Realloc

end Raytrace
