import Mathlib

/-!
# The work pools of the ray tracer

The screen is cut into blocks, which are dealt to the processors in turn, and every block is cut
into bundles of pixels, which are put on the stack of jobs of its processor. Behind a barrier the
processors take the jobs from the stacks, at first their own, then those of the others, guided by
the unsynchronised hints `wpstat`. The numbers are of the type `INT`, and a sum that is too large
for it wraps around. While no sum is, the pools have the jobs of the blocks and bundles. Each job is
then counted for every pixel, and the numbers show that the jobs taken have every pixel of the
screen once.
-/

namespace Raytrace

/-! ### Jobs -/

/-- An entry of a work pool: the first pixel of a bundle, and its size. -/
structure WpJob where
  xpix : Int
  ypix : Int
  xdim : Int
  ydim : Int
  deriving DecidableEq

/-- A job as a processor works on it. -/
structure RayJob where
  x : Int
  y : Int
  xcurr : Int
  ycurr : Int
  xlen : Int
  ylen : Int
  deriving DecidableEq

/-- A sum as it is left in an `INT`, which is a `long` of 64 bits. -/
def wrap (k : Int) : Int :=
  Int.bmod k (2 ^ 64)

/-- The values of the variable of a loop `for (...; i < bound; i += step)` from `i` on, which is
left after less than `n` rounds. -/
def loopFrom (bound step : Int) : Nat → Int → Option (List Int)
  | 0, _ => none
  | n + 1, i =>
      if i < bound then
        (loopFrom bound step n (wrap (i + step))).map (i :: ·)
      else
        some []

/-- The size of a bundle that is cut off at the end of its block. -/
def bundleSize (addr be stop : Int) : Int :=
  if wrap (wrap (addr + be) - 1) ≤ stop then be else wrap (wrap (stop - addr) + 1)

/-- The bundles of a block are put on a stack; `xs`, `ys` are the first pixel of the block, `xe`,
`ye` its size and `xbe`, `ybe` the size of a bundle. -/
def putJob (n : Nat) (xs ys xe ye xbe ybe : Int) (pool : List WpJob) : Option (List WpJob) := do
  let xbEnd := wrap (wrap (xs + xe) - 1)
  let ybEnd := wrap (wrap (ys + ye) - 1)
  let s ← (← loopFrom ye ybe n 0).foldlM (fun (ybAddr, pool) _ => do
    let t := (← loopFrom xe xbe n 0).foldl (fun (xbAddr, pool) _ =>
      (wrap (xbAddr + xbe),
        ⟨xbAddr, ybAddr, bundleSize xbAddr xbe xbEnd, bundleSize ybAddr ybe ybEnd⟩ :: pool))
      (xs, pool)
    return (wrap (ybAddr + ybe), t.2)) (ys, pool)
  return s.2

/-- The size of the screen, the number of blocks and the size of the bundles in both
directions. -/
structure Config where
  xres : Int
  yres : Int
  blockx : Int
  blocky : Int
  bundlex : Int
  bundley : Int
  nprocs : Nat

/-- The work pool of a processor at the start, if every loop is left after less than `n` rounds. -/
def initWorkPool (n : Nat) (c : Config) (pid : Nat) : Option (List WpJob) := do
  let xsize := c.xres / c.blockx
  let ysize := c.yres / c.blocky
  let s ← (← loopFrom c.yres ysize n 0).foldlM (fun s y => do
    let ye := if wrap (y + ysize) > c.yres then wrap (c.yres - y) else ysize
    (← loopFrom c.xres xsize n 0).foldlM (fun (i, pool) x => do
      let xe := if wrap (x + xsize) > c.xres then wrap (c.xres - x) else xsize
      let pool ← if i = pid then putJob n x y xe ye c.bundlex c.bundley pool else some pool
      return ((i + 1) % c.nprocs, pool)) s) (0, [])
  return s.2

/-- The job a processor makes of an entry. -/
def WpJob.toRayJob (j : WpJob) : RayJob := ⟨j.xpix, j.ypix, j.xpix, j.ypix, j.xdim, j.ydim⟩

/-- The next pixel of a job, and the job behind it. -/
def getRayJobFromBundle (job : RayJob) : Option ((Int × Int) × RayJob) :=
  if wrap (job.y + job.ylen) = job.ycurr then
    none
  else if wrap (job.x + job.xlen) = wrap (job.xcurr + 1) then
    some ((job.xcurr, job.ycurr), { job with xcurr := job.x, ycurr := wrap (job.ycurr + 1) })
  else
    some ((job.xcurr, job.ycurr), { job with xcurr := wrap (job.xcurr + 1) })

/-- The loop over the pixels of a job, with at most `n` rounds. -/
def rays : Nat → RayJob → Option (List (Int × Int))
  | 0, _ => none
  | n + 1, job =>
      match getRayJobFromBundle job with
      | none => some []
      | some (pixel, job) => (rays n job).map (pixel :: ·)

/-- All pixels of a list of jobs. -/
def render (jobs : List RayJob) : Option (List (Int × Int)) := do
  let pixels ← jobs.mapM (fun job => rays ((job.xlen * job.ylen).toNat + 1) job)
  return pixels.flatten

/-! ### Taking jobs -/

/-- Where a processor is: it works on the job it has, or it calls `GetJobs` and is about to read
the hint of a pool or to let the server take a job from it, or it has got `WPS_EMPTY`. -/
inductive Place where
  | tracing
  | looking (i : Nat)
  | taking (i : Nat)
  | empty

structure State where
  workpool : Nat → List WpJob
  /-- `WPS_VALID` is `true`. -/
  wpstat : Nat → Bool
  place : Nat → Place
  /-- The jobs the processors have got. -/
  taken : List RayJob

/-- The state behind the barrier. -/
def State.start (pools : Nat → List WpJob) : State where
  workpool := pools
  wpstat _ := true
  place _ := .tracing
  taken := []

/-- The place behind the pool `i`, in the loop of `GetJobs`. -/
def Place.next (nprocs pid i : Nat) : Place :=
  if (i + 1) % nprocs = pid then .empty else .looking ((i + 1) % nprocs)

/-- A step of a processor, or of the server for it. A hint that is read as `WPS_VALID` may be
out of date. -/
inductive Step (nprocs : Nat) (s : State) : State → Prop where
  | getJobs (pid : Nat) (hpid : pid < nprocs) (hplace : s.place pid = .tracing) :
      Step nprocs s { s with place := Function.update s.place pid (.looking pid) }
  | hintEmpty (pid i : Nat) (hpid : pid < nprocs) (hplace : s.place pid = .looking i)
      (hhint : s.wpstat i = false) :
      Step nprocs s { s with place := Function.update s.place pid (.next nprocs pid i) }
  | hintValid (pid i : Nat) (hpid : pid < nprocs) (hplace : s.place pid = .looking i) :
      Step nprocs s { s with place := Function.update s.place pid (.taking i) }
  | func3Empty (pid i : Nat) (hpid : pid < nprocs) (hplace : s.place pid = .taking i)
      (hempty : s.workpool i = []) :
      Step nprocs s { s with
        wpstat := Function.update s.wpstat i false
        place := Function.update s.place pid (.next nprocs pid i) }
  | func3Job (pid i : Nat) (hpid : pid < nprocs) (hplace : s.place pid = .taking i)
      (j : WpJob) (pool : List WpJob) (hpool : s.workpool i = j :: pool) :
      Step nprocs s { s with
        workpool := Function.update s.workpool i pool
        place := Function.update s.place pid .tracing
        taken := s.taken ++ [j.toRayJob] }

/-! ### Sums that are not too large -/

theorem wrap_of_lt {k : Int} (hle : -2 ^ 63 ≤ k) (hlt : k < 2 ^ 63) :
  wrap k = k
  := by
  rw [wrap]
  apply Int.bmod_eq_of_le <;> omega

/-- The values of the variable of a loop `for (i = 0; i < bound; i += step)` over all numbers. -/
def upTo (bound step : Int) : List Int :=
  (List.range ((bound + step - 1) / step).toNat).map (fun k : Nat => (k : Int) * step)

/-- The sums of a loop fit, those of an address that starts at `a` too. -/
def LoopFits (a bound step : Int) : Prop :=
  ∀ k ∈ upTo bound step, a + k + step < 2 ^ 63

instance (a bound step : Int) : Decidable (LoopFits a bound step) :=
  inferInstanceAs (Decidable (∀ _ ∈ _, _))

theorem mem_upTo {bound step k : Int} (hstep : 1 ≤ step) (hk : k ∈ upTo bound step) :
  0 ≤ k ∧ k < bound
  := by
  rw [upTo, List.mem_map] at hk
  obtain ⟨n, hn, rfl⟩ := hk
  rw [List.mem_range] at hn
  have hn' : (n : Int) < (bound + step - 1) / step := by omega
  have hle : ((n : Int) + 1) * step ≤ bound + step - 1 := by
    calc ((n : Int) + 1) * step ≤ (bound + step - 1) / step * step := by
          apply mul_le_mul_of_nonneg_right (by omega) (by omega)
      _ ≤ bound + step - 1 := Int.ediv_mul_le _ (by omega)
  constructor
  · positivity
  · have : ((n : Int) + 1) * step = n * step + step := by ring
    omega

/-- Behind its last value the loop is at its bound. -/
theorem le_length_upTo (bound : Int) {step : Int} (hstep : 1 ≤ step) :
  bound ≤ ((bound + step - 1) / step).toNat * step
  := by
  have hlt := Int.lt_ediv_add_one_mul_self (bound + step - 1) (show 0 < step by omega)
  have hmul : ((bound + step - 1) / step + 1) * step = (bound + step - 1) / step * step + step := by
    ring
  have hle : (bound + step - 1) / step * step ≤ ((bound + step - 1) / step).toNat * step :=
    mul_le_mul_of_nonneg_right (Int.self_le_toNat _) (by omega)
  omega

theorem length_upTo_le (bound : Int) {step : Int} (hstep : 1 ≤ step) :
  ((bound + step - 1) / step).toNat ≤ bound.toNat
  := by
  by_cases hzero : ((bound + step - 1) / step).toNat = 0
  · rw [hzero]
    exact Nat.zero_le _
  · obtain ⟨n, hn⟩ := Nat.exists_eq_succ_of_ne_zero hzero
    have hmem : (n : Int) * step ∈ upTo bound step :=
      List.mem_map.mpr ⟨n, List.mem_range.mpr (by omega), rfl⟩
    have hlt := (mem_upTo hstep hmem).2
    have hle : (n : Int) * 1 ≤ n * step := mul_le_mul_of_nonneg_left hstep (by omega)
    omega

/-- A loop that starts at `0` and whose sums fit is left, after as many rounds as it has values. -/
theorem loopFrom_eq
    {bound step : Int} {n : Nat} (hstep : 1 ≤ step) (hbound : 0 ≤ bound)
    (hfits : LoopFits 0 bound step) (hn : bound < n) :
  loopFrom bound step n 0 = some (upTo bound step)
  := by
  have hrest : ∀ (d k n : Nat), k + d = ((bound + step - 1) / step).toNat → d < n →
      loopFrom bound step n (k * step) =
        some ((List.range' k d).map (fun k : Nat => (k : Int) * step)) := by
    intro d
    induction d with
    | zero =>
        intro k n hk hn
        obtain ⟨n, rfl⟩ := Nat.exists_eq_succ_of_ne_zero (Nat.ne_of_gt hn)
        have hle := le_length_upTo bound hstep
        rw [← hk, Nat.add_zero] at hle
        rw [loopFrom, if_neg (by omega)]
        rfl
    | succ d ih =>
        intro k n hk hn
        obtain ⟨n, rfl⟩ := Nat.exists_eq_succ_of_ne_zero (Nat.ne_of_gt (Nat.zero_lt_of_lt hn))
        have hmem : (k : Int) * step ∈ upTo bound step :=
          List.mem_map.mpr ⟨k, List.mem_range.mpr (by omega), rfl⟩
        have hbound := mem_upTo hstep hmem
        have hlt := hfits _ hmem
        have hnext : wrap (k * step + step) = ((k + 1 : Nat) : Int) * step := by
          rw [wrap_of_lt (by omega) (by omega)]
          push_cast
          ring
        rw [loopFrom, if_pos hbound.2, hnext, ih (k + 1) n (by omega) (by omega),
          List.range'_succ]
        rfl
  have hlength := length_upTo_le bound hstep
  have hall := hrest _ 0 n (Nat.zero_add _) (by omega)
  rw [Int.natCast_zero, Int.zero_mul] at hall
  rw [hall, upTo, List.range_eq_range']

/-- An address that the loop advances by its step. -/
theorem foldl_upTo
    {β : Type} (f : Int → β → β) {bound step a : Int} (hstep : 1 ≤ step) (ha : 0 ≤ a)
    (hfits : LoopFits a bound step) (b : β) :
  ((upTo bound step).foldl (fun (s : Int × β) _ => (wrap (s.1 + step), f s.1 s.2)) (a, b)).2
    = (upTo bound step).foldl (fun b k => f (a + k) b) b
  := by
  have hpair : ∀ n : Nat, n ≤ ((bound + step - 1) / step).toNat →
      (List.range n).foldl (fun (s : Int × β) _ => (wrap (s.1 + step), f s.1 s.2)) (a, b)
        = (a + n * step, (List.range n).foldl (fun b (k : Nat) => f (a + (k : Int) * step) b) b) := by
    intro n hn
    induction n with
    | zero => simp
    | succ n ih =>
        have hmem : (n : Int) * step ∈ upTo bound step :=
          List.mem_map.mpr ⟨n, List.mem_range.mpr (by omega), rfl⟩
        have hbound := mem_upTo hstep hmem
        have hlt := hfits _ hmem
        rw [List.range_succ, List.foldl_append, ih (by omega), List.foldl_append]
        simp only [List.foldl_cons, List.foldl_nil, Prod.mk.injEq, and_true]
        rw [wrap_of_lt (by omega) (by omega)]
        push_cast
        ring
  rw [upTo, List.foldl_map, List.foldl_map, hpair _ (Nat.le_refl _)]

theorem foldlM_eq_some
    {α β : Type} {f : β → α → Option β} {g : β → α → β} {l : List α}
    (hf : ∀ b, ∀ a ∈ l, f b a = some (g b a)) (b : β) :
  l.foldlM f b = some (l.foldl g b)
  := by
  induction l generalizing b with
  | nil => rfl
  | cons a l ih =>
      rw [List.foldlM_cons, hf b a List.mem_cons_self]
      exact ih (fun b a ha => hf b a (List.mem_cons_of_mem _ ha)) _

/-! ### The jobs of the blocks and bundles -/

/-- The jobs of a block, on top of a stack. -/
def bundleJobs (xs ys xe ye xbe ybe : Int) (pool : List WpJob) : List WpJob :=
  (upTo ye ybe).foldl (fun pool i => (upTo xe xbe).foldl (fun pool j =>
    ⟨xs + j, ys + i, min xbe (xe - j), min ybe (ye - i)⟩ :: pool) pool) pool

/-- The jobs of the blocks of a processor. -/
def blockJobs (c : Config) (pid : Nat) : List WpJob :=
  let xsize := c.xres / c.blockx
  let ysize := c.yres / c.blocky
  ((upTo c.yres ysize).foldl (fun s y => (upTo c.xres xsize).foldl (fun (i, pool) x =>
    ((i + 1) % c.nprocs,
      if i = pid then
        bundleJobs x y (min xsize (c.xres - x)) (min ysize (c.yres - y)) c.bundlex c.bundley pool
      else
        pool)) s) (0, [])).2

/-- The number of blocks, their size and the size of the bundles are positive. -/
structure Config.Valid (c : Config) : Prop where
  blockx : 1 ≤ c.blockx ∧ c.blockx ≤ c.xres
  blocky : 1 ≤ c.blocky ∧ c.blocky ≤ c.yres
  bundlex : 1 ≤ c.bundlex
  bundley : 1 ≤ c.bundley
  nprocs : 1 ≤ c.nprocs

/-- Every block and every bundle ends below `2 ^ 63`, also when it is counted with its full size. -/
structure Config.Fits (c : Config) : Prop where
  blockx : LoopFits 0 c.xres (c.xres / c.blockx)
  blocky : LoopFits 0 c.yres (c.yres / c.blocky)
  bundlex : ∀ x ∈ upTo c.xres (c.xres / c.blockx),
    LoopFits x (min (c.xres / c.blockx) (c.xres - x)) c.bundlex
  bundley : ∀ y ∈ upTo c.yres (c.yres / c.blocky),
    LoopFits y (min (c.yres / c.blocky) (c.yres - y)) c.bundley

variable {c : Config}

theorem Config.Valid.xsize_pos (hc : c.Valid) :
  1 ≤ c.xres / c.blockx
  := by
  have h := hc.blockx
  rw [Int.le_ediv_iff_mul_le (by omega)]
  omega

theorem Config.Valid.ysize_pos (hc : c.Valid) :
  1 ≤ c.yres / c.blocky
  := by
  have h := hc.blocky
  rw [Int.le_ediv_iff_mul_le (by omega)]
  omega

/-- The bound of a loop whose sums fit is an `INT`. -/
theorem LoopFits.bound_lt
    {bound step : Int} (h : LoopFits 0 bound step) (hstep : 1 ≤ step) (hbound : 1 ≤ bound) :
  bound < 2 ^ 63
  := by
  have hle := le_length_upTo bound hstep
  have hne : ((bound + step - 1) / step).toNat ≠ 0 := by
    intro hzero
    rw [hzero] at hle
    omega
  obtain ⟨n, hn⟩ := Nat.exists_eq_succ_of_ne_zero hne
  have hlt := h _ (List.mem_map.mpr ⟨n, List.mem_range.mpr (by omega), rfl⟩)
  have hmul : ((n.succ : Nat) : Int) * step = n * step + step := by
    push_cast
    ring
  rw [hn, hmul] at hle
  omega

theorem bundleSize_eq
    {s k be e : Int} (hs : 0 ≤ s) (hk : 0 ≤ k ∧ k < e) (hbe : 1 ≤ be) (hfits : s + k + be < 2 ^ 63)
    (he : s + e < 2 ^ 63) :
  bundleSize (s + k) be (s + e - 1) = min be (e - k)
  := by
  rw [bundleSize, wrap_of_lt (k := s + k + be) (by omega) (by omega), wrap_of_lt (by omega) (by omega),
    wrap_of_lt (k := s + e - 1 - (s + k)) (by omega) (by omega), wrap_of_lt (by omega) (by omega)]
  split <;> omega

/-- A block whose sums fit. -/
theorem putJob_eq
    {n : Nat} {xs ys xe ye xbe ybe : Int} (hxs : 0 ≤ xs) (hys : 0 ≤ ys) (hxe : xs + xe < 2 ^ 63)
    (hye : ys + ye < 2 ^ 63) (hx : 1 ≤ xbe) (hy : 1 ≤ ybe) (hfitsx : LoopFits xs xe xbe)
    (hfitsy : LoopFits ys ye ybe) (hnx : xe < n) (hny : ye < n) (hxe' : 0 ≤ xe) (hye' : 0 ≤ ye)
    (pool : List WpJob) :
  putJob n xs ys xe ye xbe ybe pool = some (bundleJobs xs ys xe ye xbe ybe pool)
  := by
  have hcols : loopFrom xe xbe n 0 = some (upTo xe xbe) := by
    apply loopFrom_eq hx hxe' _ hnx
    intro k hk
    have := hfitsx k hk
    omega
  have hrows : loopFrom ye ybe n 0 = some (upTo ye ybe) := by
    apply loopFrom_eq hy hye' _ hny
    intro k hk
    have := hfitsy k hk
    omega
  have hxend : wrap (wrap (xs + xe) - 1) = xs + xe - 1 := by
    rw [wrap_of_lt (k := xs + xe) (by omega) (by omega), wrap_of_lt (by omega) (by omega)]
  have hyend : wrap (wrap (ys + ye) - 1) = ys + ye - 1 := by
    rw [wrap_of_lt (k := ys + ye) (by omega) (by omega), wrap_of_lt (by omega) (by omega)]
  rw [putJob, hrows, hxend, hyend, Option.bind_eq_bind, Option.bind_some, foldlM_eq_some
    (g := fun (s : Int × List WpJob) _ => (wrap (s.1 + ybe),
      ((upTo xe xbe).foldl (fun (t : Int × List WpJob) _ => (wrap (t.1 + xbe),
        ⟨t.1, s.1, bundleSize t.1 xbe (xs + xe - 1), bundleSize s.1 ybe (ys + ye - 1)⟩ :: t.2))
        (xs, s.2)).2)) (fun s _ _ => by rw [hcols]; rfl)]
  apply congrArg some
  rw [foldl_upTo (fun a (pool : List WpJob) => ((upTo xe xbe).foldl
    (fun (t : Int × List WpJob) _ => (wrap (t.1 + xbe),
      ⟨t.1, a, bundleSize t.1 xbe (xs + xe - 1), bundleSize a ybe (ys + ye - 1)⟩ :: t.2))
      (xs, pool)).2) hy hys hfitsy, bundleJobs]
  apply List.foldl_ext
  intro pool i hi
  rw [foldl_upTo (fun a (pool : List WpJob) =>
    ⟨a, ys + i, bundleSize a xbe (xs + xe - 1), bundleSize (ys + i) ybe (ys + ye - 1)⟩ :: pool)
    hx hxs hfitsx]
  apply List.foldl_ext
  intro pool j hj
  rw [bundleSize_eq hxs (mem_upTo hx hj) hx (hfitsx j hj) hxe,
    bundleSize_eq hys (mem_upTo hy hi) hy (hfitsy i hi) hye]

theorem blockSize_eq
    {k size res : Int} (hk : 0 ≤ k ∧ k < res) (hsize : 1 ≤ size) (hfits : 0 + k + size < 2 ^ 63)
    (hres : res < 2 ^ 63) :
  (if wrap (k + size) > res then wrap (res - k) else size) = min size (res - k)
  := by
  rw [wrap_of_lt (k := k + size) (by omega) (by omega), wrap_of_lt (by omega) (by omega)]
  split <;> omega

/-- While all sums fit, the work pools have the jobs of the blocks. -/
theorem initWorkPool_eq
    (hc : c.Valid) (hfits : c.Fits) {n : Nat} (hx : c.xres < n) (hy : c.yres < n) (pid : Nat) :
  initWorkPool n c pid = some (blockJobs c pid)
  := by
  have hxpos := hc.blockx
  have hypos := hc.blocky
  have hxres : c.xres < 2 ^ 63 :=
    hfits.blockx.bound_lt hc.xsize_pos (by omega)
  have hyres : c.yres < 2 ^ 63 :=
    hfits.blocky.bound_lt hc.ysize_pos (by omega)
  rw [initWorkPool]
  simp only [loopFrom_eq hc.xsize_pos (by omega) hfits.blockx hx,
    loopFrom_eq hc.ysize_pos (by omega) hfits.blocky hy, Option.bind_eq_bind, Option.bind_some]
  rw [foldlM_eq_some (g := fun (s : Nat × List WpJob) y =>
    (upTo c.xres (c.xres / c.blockx)).foldl (fun (t : Nat × List WpJob) x =>
      ((t.1 + 1) % c.nprocs,
        if t.1 = pid then
          bundleJobs x y (min (c.xres / c.blockx) (c.xres - x))
            (min (c.yres / c.blocky) (c.yres - y)) c.bundlex c.bundley t.2
        else
          t.2)) s)]
  · rfl
  · intro s y hymem
    have hybound := mem_upTo hc.ysize_pos hymem
    apply foldlM_eq_some
    intro t x hxmem
    have hxbound := mem_upTo hc.xsize_pos hxmem
    rw [blockSize_eq hxbound hc.xsize_pos (hfits.blockx x hxmem) hxres,
      blockSize_eq hybound hc.ysize_pos (hfits.blocky y hymem) hyres,
      putJob_eq hxbound.1 hybound.1 (by omega) (by omega) hc.bundlex hc.bundley
        (hfits.bundlex x hxmem) (hfits.bundley y hymem) (by omega) (by omega)
        (by have := hc.xsize_pos; omega) (by have := hc.ysize_pos; omega)]
    split <;> rfl

/-! ### Counting along a loop -/

/-- What a loop adds to the number of the elements of a list with a property. -/
theorem countP_foldl
    {α β : Type} {q : β → Bool} {f : List β → α → List β} {c : α → Nat} (ks : List α) (l : List β)
    (hf : ∀ l, ∀ k ∈ ks, (f l k).countP q = l.countP q + c k) :
  (ks.foldl f l).countP q = l.countP q + (ks.map c).sum
  := by
  induction ks generalizing l with
  | nil => simp
  | cons k ks ih =>
      rw [List.foldl_cons, ih _ (fun l k hk => hf l k (List.mem_cons_of_mem _ hk)),
        hf l k List.mem_cons_self, List.map_cons, List.sum_cons, Nat.add_assoc]

theorem sum_map_ite {α : Type} (q : α → Bool) (n : Nat) (ks : List α) :
  (ks.map (fun k => if q k then n else 0)).sum = ks.countP q * n
  := by
  induction ks with
  | nil => simp
  | cons k ks ih =>
      rw [List.map_cons, List.sum_cons, ih, List.countP_cons]
      by_cases hk : q k = true
      · simp [hk]
        ring
      · simp [hk]

/-- The pieces of an interval: every place in it is in one of them. -/
theorem countP_upTo
    {bound step : Int} (hstep : 1 ≤ step) (size : Int → Int)
    (hsize : ∀ k ∈ upTo bound step, size k = min step (bound - k)) (d : Int) :
  (upTo bound step).countP (fun k => k ≤ d ∧ d < k + size k) = if 0 ≤ d ∧ d < bound then 1 else 0
  := by
  have hcount : ∀ n : Nat, (List.range n).countP
      (fun k : Nat => decide ((k : Int) * step ≤ d ∧ d < (k : Int) * step + step))
        = if 0 ≤ d ∧ d < n * step then 1 else 0 := by
    intro n
    induction n with
    | zero =>
        rw [if_neg (by push_cast; omega)]
        rfl
    | succ n ih =>
        have hsucc : ((n + 1 : Nat) : Int) * step = n * step + step := by
          push_cast
          ring
        have hnonneg : 0 ≤ (n : Int) * step := by positivity
        rw [List.range_succ, List.countP_append, ih, hsucc, List.countP_singleton]
        simp only [decide_eq_true_eq]
        split_ifs <;> omega
  have hall := le_length_upTo bound hstep
  by_cases hd : d < bound
  · have hcongr : (upTo bound step).countP (fun k => k ≤ d ∧ d < k + size k) =
        (upTo bound step).countP (fun k => k ≤ d ∧ d < k + step) := by
      apply List.countP_congr
      intro k hk
      rw [hsize k hk]
      simp only [decide_eq_true_eq]
      omega
    rw [hcongr, upTo, List.countP_map]
    have hrange := hcount ((bound + step - 1) / step).toNat
    simp only [Function.comp_def]
    rw [hrange]
    by_cases hd' : 0 ≤ d
    · rw [if_pos ⟨hd', by omega⟩, if_pos ⟨hd', hd⟩]
    · rw [if_neg (by omega), if_neg (by omega)]
  · rw [if_neg (by omega), List.countP_eq_zero]
    intro k hk
    rw [hsize k hk, decide_eq_true_eq]
    omega

/-! ### The work pools at the start -/

/-- What the bundles of a block add to the number of the jobs with a property. -/
theorem countP_bundleJobs (q : WpJob → Bool) (xs ys xe ye xbe ybe : Int) (pool : List WpJob) :
  (bundleJobs xs ys xe ye xbe ybe pool).countP q = pool.countP q +
    ((upTo ye ybe).map (fun i => (upTo xe xbe).countP (fun j =>
      q ⟨xs + j, ys + i, min xbe (xe - j), min ybe (ye - i)⟩))).sum
  := by
  rw [bundleJobs]
  apply countP_foldl
  intro pool i _
  rw [countP_foldl (c := fun j =>
    if q ⟨xs + j, ys + i, min xbe (xe - j), min ybe (ye - i)⟩ then 1 else 0)]
  · rw [sum_map_ite, Nat.mul_one]
  · intro l j _
    rw [List.countP_cons]

/-- The pixel is in the bundle of the job. -/
def WpJob.covers (j : WpJob) (p : Int × Int) : Bool :=
  (j.xpix ≤ p.1 ∧ p.1 < j.xpix + j.xdim) ∧ j.ypix ≤ p.2 ∧ p.2 < j.ypix + j.ydim

/-- The bundles of a block have each of its pixels once. -/
theorem countP_covers_bundleJobs
    {xbe ybe : Int} (hx : 1 ≤ xbe) (hy : 1 ≤ ybe) (xs ys xe ye : Int) (pool : List WpJob)
    (p : Int × Int) :
  (bundleJobs xs ys xe ye xbe ybe pool).countP (WpJob.covers · p) =
    pool.countP (WpJob.covers · p) +
      if (xs ≤ p.1 ∧ p.1 < xs + xe) ∧ ys ≤ p.2 ∧ p.2 < ys + ye then 1 else 0
  := by
  have hcols := countP_upTo hx (fun j => min xbe (xe - j)) (fun _ _ => rfl) (p.1 - xs)
  have hrows := countP_upTo hy (fun i => min ybe (ye - i)) (fun _ _ => rfl) (p.2 - ys)
  rw [countP_bundleJobs]
  congr 1
  have hrow : ∀ i, (upTo xe xbe).countP (fun j =>
      WpJob.covers ⟨xs + j, ys + i, min xbe (xe - j), min ybe (ye - i)⟩ p) =
      if decide (i ≤ p.2 - ys ∧ p.2 - ys < i + min ybe (ye - i)) then
        (if 0 ≤ p.1 - xs ∧ p.1 - xs < xe then 1 else 0) else 0 := by
    intro i
    by_cases hi : i ≤ p.2 - ys ∧ p.2 - ys < i + min ybe (ye - i)
    · rw [if_pos (decide_eq_true hi), ← hcols]
      apply List.countP_congr
      intro j _
      simp only [WpJob.covers, decide_eq_true_eq]
      omega
    · rw [if_neg (by rw [decide_eq_true_iff]; exact hi), List.countP_eq_zero]
      intro j _
      simp only [WpJob.covers, decide_eq_true_eq]
      omega
  rw [List.map_congr_left (fun i _ => hrow i), sum_map_ite, hrows]
  split_ifs <;> omega

/-- The bundles of a block that is not empty are not empty. -/
theorem countP_empty_bundleJobs
    {xbe ybe : Int} (hx : 1 ≤ xbe) (hy : 1 ≤ ybe) (xs ys xe ye : Int) (pool : List WpJob) :
  (bundleJobs xs ys xe ye xbe ybe pool).countP (fun j => j.xdim < 1 ∨ j.ydim < 1) =
    pool.countP (fun j => j.xdim < 1 ∨ j.ydim < 1)
  := by
  rw [countP_bundleJobs, Nat.add_eq_left, List.sum_eq_zero_iff]
  intro n hn
  obtain ⟨i, hi, rfl⟩ := List.mem_map.mp hn
  rw [List.countP_eq_zero]
  intro j hj
  have hi := mem_upTo hy hi
  have hj := mem_upTo hx hj
  simp only [decide_eq_true_eq]
  omega

/-- Blocks are dealt to the processors in turn: with a property that a block gives to `c b` more
jobs, all pools together have as many more as the blocks give. -/
theorem sum_countP_deal
    {α : Type} {q : WpJob → Bool} {n : Nat} (f : α → List WpJob → List WpJob) (c : α → Nat)
    (bs : List α) (hf : ∀ b ∈ bs, ∀ pool, (f b pool).countP q = pool.countP q + c b) (i : Nat)
    (hi : i < n) (pools : Nat → List WpJob) :
  ∑ pid ∈ Finset.range n, (bs.foldl (fun (s : Nat × List WpJob) b =>
      ((s.1 + 1) % n, if s.1 = pid then f b s.2 else s.2)) (i, pools pid)).2.countP q
    = ∑ pid ∈ Finset.range n, (pools pid).countP q + (bs.map c).sum
  := by
  induction bs generalizing i pools with
  | nil => simp
  | cons b bs ih =>
      have hstep : ∑ pid ∈ Finset.range n, (if i = pid then f b (pools pid) else pools pid).countP q
          = ∑ pid ∈ Finset.range n, (pools pid).countP q + c b := by
        have hpid : ∀ pid ∈ Finset.range n,
            (if i = pid then f b (pools pid) else pools pid).countP q
              = (pools pid).countP q + if i = pid then c b else 0 := by
          intro pid _
          split
          · exact hf b List.mem_cons_self (pools pid)
          · exact (Nat.add_zero _).symm
        rw [Finset.sum_congr rfl hpid, Finset.sum_add_distrib, Finset.sum_ite_eq,
          if_pos (Finset.mem_range.mpr hi)]
      simp only [List.foldl_cons]
      rw [ih (fun b hb => hf b (List.mem_cons_of_mem _ hb)) _ (Nat.mod_lt _ (by omega)), hstep,
        List.map_cons, List.sum_cons, Nat.add_assoc]

/-- The pixel is on the screen. -/
def Config.screen (c : Config) (p : Int × Int) : Prop :=
  (0 ≤ p.1 ∧ p.1 < c.xres) ∧ 0 ≤ p.2 ∧ p.2 < c.yres

instance (c : Config) (p : Int × Int) : Decidable (c.screen p) :=
  inferInstanceAs (Decidable (_ ∧ _))

/-- The numbers of the jobs of all pools, from those of the blocks. -/
theorem sum_countP_blockJobs
    {q : WpJob → Bool} (hn : 1 ≤ c.nprocs) (cnt : Int → Int → Nat)
    (hjobs : ∀ y ∈ upTo c.yres (c.yres / c.blocky), ∀ x ∈ upTo c.xres (c.xres / c.blockx),
      ∀ pool, (bundleJobs x y (min (c.xres / c.blockx) (c.xres - x))
        (min (c.yres / c.blocky) (c.yres - y)) c.bundlex c.bundley pool).countP q =
          pool.countP q + cnt y x) :
  ∑ pid ∈ Finset.range c.nprocs, (blockJobs c pid).countP q =
    ((upTo c.yres (c.yres / c.blocky)).map (fun y =>
      ((upTo c.xres (c.xres / c.blockx)).map (cnt y)).sum)).sum
  := by
  have hflat : ∀ pid, blockJobs c pid =
      (((upTo c.yres (c.yres / c.blocky)).flatMap (fun y =>
        (upTo c.xres (c.xres / c.blockx)).map (fun x => (y, x)))).foldl
        (fun (s : Nat × List WpJob) b => ((s.1 + 1) % c.nprocs,
          if s.1 = pid then
            bundleJobs b.2 b.1 (min (c.xres / c.blockx) (c.xres - b.2))
              (min (c.yres / c.blocky) (c.yres - b.1)) c.bundlex c.bundley s.2
          else s.2)) (0, [])).2 := by
    intro pid
    rw [List.foldl_flatMap]
    simp only [List.foldl_map]
    rfl
  simp only [hflat]
  rw [sum_countP_deal (fun (b : Int × Int) pool => bundleJobs b.2 b.1
      (min (c.xres / c.blockx) (c.xres - b.2)) (min (c.yres / c.blocky) (c.yres - b.1))
      c.bundlex c.bundley pool) (fun b => cnt b.1 b.2) _ ?_ 0 hn (fun _ => [])]
  · simp only [List.countP_nil, Finset.sum_const_zero, Nat.zero_add]
    rw [List.map_flatMap, List.flatMap_def, List.sum_flatten, List.map_map]
    simp only [Function.comp_def, List.map_map]
  · intro b hb pool
    rw [List.mem_flatMap] at hb
    obtain ⟨y, hy, hb⟩ := hb
    obtain ⟨x, hx, rfl⟩ := List.mem_map.mp hb
    exact hjobs y hy x hx pool

/-- All pools together have every pixel of the screen once, and no other pixel. -/
theorem sum_covers_blockJobs (hc : c.Valid) (p : Int × Int) :
  ∑ pid ∈ Finset.range c.nprocs, (blockJobs c pid).countP (WpJob.covers · p) =
    if c.screen p then 1 else 0
  := by
  have hcols := countP_upTo hc.xsize_pos (fun x => min (c.xres / c.blockx) (c.xres - x))
    (fun _ _ => rfl) p.1
  have hrows := countP_upTo hc.ysize_pos (fun y => min (c.yres / c.blocky) (c.yres - y))
    (fun _ _ => rfl) p.2
  rw [sum_countP_blockJobs hc.nprocs (fun y x =>
    if (x ≤ p.1 ∧ p.1 < x + min (c.xres / c.blockx) (c.xres - x)) ∧
      y ≤ p.2 ∧ p.2 < y + min (c.yres / c.blocky) (c.yres - y) then 1 else 0)]
  · have hrow : ∀ y, ((upTo c.xres (c.xres / c.blockx)).map (fun x =>
        if (x ≤ p.1 ∧ p.1 < x + min (c.xres / c.blockx) (c.xres - x)) ∧
          y ≤ p.2 ∧ p.2 < y + min (c.yres / c.blocky) (c.yres - y) then 1 else 0)).sum =
        if decide (y ≤ p.2 ∧ p.2 < y + min (c.yres / c.blocky) (c.yres - y)) then
          (if 0 ≤ p.1 ∧ p.1 < c.xres then 1 else 0) else 0 := by
      intro y
      by_cases hy : y ≤ p.2 ∧ p.2 < y + min (c.yres / c.blocky) (c.yres - y)
      · rw [if_pos (decide_eq_true hy), ← hcols, ← Nat.mul_one (List.countP _ _), ← sum_map_ite]
        simp only [hy, and_true, decide_eq_true_eq]
      · simp only [hy, and_false, if_false, decide_false, Bool.false_eq_true]
        exact List.sum_eq_zero (by simp)
    have hscreen : c.screen p ↔ (0 ≤ p.1 ∧ p.1 < c.xres) ∧ 0 ≤ p.2 ∧ p.2 < c.yres := Iff.rfl
    rw [List.map_congr_left (fun y _ => hrow y), sum_map_ite, hrows]
    simp only [hscreen]
    split_ifs <;> omega
  · intro y _ x _ pool
    exact countP_covers_bundleJobs hc.bundlex hc.bundley x y _ _ pool p

theorem blockJobs_pos
    (hc : c.Valid) {pid : Nat} (hpid : pid < c.nprocs) {j : WpJob} (hj : j ∈ blockJobs c pid) :
  1 ≤ j.xdim ∧ 1 ≤ j.ydim
  := by
  have hsum : ∑ pid ∈ Finset.range c.nprocs,
      (blockJobs c pid).countP (fun j => j.xdim < 1 ∨ j.ydim < 1) = 0 := by
    rw [sum_countP_blockJobs hc.nprocs (fun _ _ => 0)]
    · simp
    · intro y _ x _ pool
      exact countP_empty_bundleJobs hc.bundlex hc.bundley x y _ _ pool
  rw [Finset.sum_eq_zero_iff] at hsum
  have hzero := hsum pid (Finset.mem_range.mpr hpid)
  rw [List.countP_eq_zero] at hzero
  have := hzero j hj
  rw [decide_eq_true_eq] at this
  omega

/-- The bundle of a job is a part of the screen. -/
def WpJob.Inside (c : Config) (j : WpJob) : Prop :=
  (0 ≤ j.xpix ∧ 1 ≤ j.xdim ∧ j.xpix + j.xdim ≤ c.xres) ∧
    0 ≤ j.ypix ∧ 1 ≤ j.ydim ∧ j.ypix + j.ydim ≤ c.yres

theorem blockJobs_inside
    (hc : c.Valid) {pid : Nat} (hpid : pid < c.nprocs) {j : WpJob} (hj : j ∈ blockJobs c pid) :
  j.Inside c
  := by
  obtain ⟨hxdim, hydim⟩ := blockJobs_pos hc hpid hj
  have hscreen : ∀ p, j.covers p = true → c.screen p := by
    intro p hp
    have hle := Finset.single_le_sum (f := fun pid => (blockJobs c pid).countP (WpJob.covers · p))
      (fun _ _ => Nat.zero_le _) (Finset.mem_range.mpr hpid)
    rw [sum_covers_blockJobs hc p] at hle
    by_contra hout
    rw [if_neg hout, Nat.le_zero, List.countP_eq_zero] at hle
    exact hle j hj hp
  have hfirst := hscreen (j.xpix, j.ypix) (decide_eq_true (by simp only; omega))
  have hlast := hscreen (j.xpix + j.xdim - 1, j.ypix + j.ydim - 1)
    (decide_eq_true (by simp only; omega))
  simp only [Config.screen] at hfirst hlast
  rw [WpJob.Inside]
  omega

/-! ### The pixels of a job -/

/-- The pixels of a job that are still to come, in the order of the loop. -/
def RayJob.rest (job : RayJob) (p : Int × Int) : Prop :=
  (p.2 = job.ycurr ∧ p.2 < job.y + job.ylen ∧ job.xcurr ≤ p.1 ∧ p.1 < job.x + job.xlen) ∨
    (job.ycurr < p.2 ∧ p.2 < job.y + job.ylen ∧ job.x ≤ p.1 ∧ p.1 < job.x + job.xlen)

instance (job : RayJob) (p : Int × Int) : Decidable (job.rest p) :=
  inferInstanceAs (Decidable (_ ∨ _))

/-- The pixel the loop has got first. -/
theorem count_cons_pixel {job job' : RayJob} {pixels : List (Int × Int)}
    (hcount : ∀ p, pixels.count p = if job'.rest p then 1 else 0)
    (hrest : ∀ p, job.rest p ↔ p = (job.xcurr, job.ycurr) ∨ job'.rest p)
    (hnot : ¬job'.rest (job.xcurr, job.ycurr)) (p : Int × Int) :
  ((job.xcurr, job.ycurr) :: pixels).count p = if job.rest p then 1 else 0
  := by
  rw [List.count_cons, hcount p]
  by_cases hp : p = (job.xcurr, job.ycurr)
  · subst hp
    rw [if_neg hnot, if_pos ((hrest _).mpr (.inl rfl))]
    simp
  · have hiff : job.rest p ↔ job'.rest p := by
      rw [hrest p]
      exact or_iff_right hp
    have hne : ((job.xcurr, job.ycurr) == p) = false := by
      rw [beq_eq_false_iff_ne]
      exact Ne.symm hp
    simp only [hiff, hne, Bool.false_eq_true, if_false, Nat.add_zero]

theorem rays_rest
    {x y xcurr ycurr xlen ylen : Int} {n : Nat} (hx : x ≤ xcurr ∧ xcurr < x + xlen)
    (hy : y ≤ ycurr ∧ ycurr ≤ y + ylen) (hend : ycurr = y + ylen → xcurr = x)
    (hfits : (0 ≤ x ∧ x + xlen < 2 ^ 63) ∧ 0 ≤ y ∧ y + ylen < 2 ^ 63)
    (hn : (y + ylen - ycurr) * xlen - (xcurr - x) < n) :
  ∃ pixels, rays n ⟨x, y, xcurr, ycurr, xlen, ylen⟩ = some pixels ∧
    ∀ p, pixels.count p = if (RayJob.mk x y xcurr ycurr xlen ylen).rest p then 1 else 0
  := by
  induction n generalizing xcurr ycurr with
  | zero =>
      push_cast at hn
      by_cases hlast : ycurr = y + ylen
      · rw [hlast, hend hlast] at hn
        simp at hn
      · have hrounds : 1 * xlen ≤ (y + ylen - ycurr) * xlen :=
          mul_le_mul_of_nonneg_right (by omega) (by omega)
        omega
  | succ n ih =>
      have hnextLine : (y + ylen - (ycurr + 1)) * xlen = (y + ylen - ycurr) * xlen - xlen := by
        ring
      have hxend : wrap (x + xlen) = x + xlen := wrap_of_lt (by omega) (by omega)
      have hyend : wrap (y + ylen) = y + ylen := wrap_of_lt (by omega) (by omega)
      have hxnext : wrap (xcurr + 1) = xcurr + 1 := wrap_of_lt (by omega) (by omega)
      push_cast at hn
      rw [rays]
      by_cases hlast : y + ylen = ycurr
      · refine ⟨[], ?_, ?_⟩
        · rw [getRayJobFromBundle, hyend, if_pos hlast]
        · intro p
          rw [if_neg, List.count_nil]
          simp only [RayJob.rest]
          omega
      · have hynext : wrap (ycurr + 1) = ycurr + 1 := wrap_of_lt (by omega) (by omega)
        by_cases hline : x + xlen = xcurr + 1
        · obtain ⟨pixels, hpixels, hcount⟩ :=
            @ih x (ycurr + 1) (by omega) (by omega) (fun _ => rfl) (by omega)
          refine ⟨(xcurr, ycurr) :: pixels, ?_, ?_⟩
          · rw [getRayJobFromBundle, hyend, hxend, hxnext, hynext, if_neg hlast, if_pos hline]
            simp only [hpixels, Option.map_some]
          · apply @count_cons_pixel ⟨x, y, xcurr, ycurr, xlen, ylen⟩ _ _ hcount
            · intro p
              simp only [RayJob.rest, Prod.ext_iff]
              omega
            · simp only [RayJob.rest]
              omega
        · obtain ⟨pixels, hpixels, hcount⟩ :=
            @ih (xcurr + 1) ycurr (by omega) hy (by omega) (by omega)
          refine ⟨(xcurr, ycurr) :: pixels, ?_, ?_⟩
          · rw [getRayJobFromBundle, hyend, hxend, hxnext, if_neg hlast, if_neg hline]
            simp only [hpixels, Option.map_some]
          · apply @count_cons_pixel ⟨x, y, xcurr, ycurr, xlen, ylen⟩ _ _ hcount
            · intro p
              simp only [RayJob.rest, Prod.ext_iff]
              omega
            · simp only [RayJob.rest]
              omega

/-- A job made of an entry has the pixels of its bundle. -/
theorem rays_toRayJob
    {j : WpJob} (hj : j.Inside c) (hx : c.xres < 2 ^ 63) (hy : c.yres < 2 ^ 63) :
  ∃ pixels, rays ((j.toRayJob.xlen * j.toRayJob.ylen).toNat + 1) j.toRayJob = some pixels ∧
    ∀ p, pixels.count p = if j.covers p then 1 else 0
  := by
  rw [WpJob.Inside] at hj
  have hrounds : (j.ypix + j.ydim - j.ypix) * j.xdim - (j.xpix - j.xpix) <
      ((j.xdim * j.ydim).toNat + 1 : Nat) := by
    have hmul : (j.ypix + j.ydim - j.ypix) * j.xdim = j.xdim * j.ydim := by ring
    push_cast
    omega
  obtain ⟨pixels, hpixels, hcount⟩ := @rays_rest j.xpix j.ypix j.xpix j.ypix j.xdim j.ydim _ (by omega)
    (by omega) (by omega) (by omega) hrounds
  refine ⟨pixels, hpixels, ?_⟩
  intro p
  have hiff : (RayJob.mk j.xpix j.ypix j.xpix j.ypix j.xdim j.ydim).rest p ↔ j.covers p = true := by
    simp only [RayJob.rest, WpJob.covers, decide_eq_true_eq]
    omega
  rw [hcount p]
  simp only [hiff]

/-- The first round of a loop that is left. -/
theorem rays_eq_some
    {n : Nat} {job job' : RayJob} {pixels : List (Int × Int)}
    (hjob : getRayJobFromBundle job = some ((job.xcurr, job.ycurr), job'))
    (hpixels : rays (n + 1) job = some pixels) :
  ∃ rest, rays n job' = some rest ∧ (job.xcurr, job.ycurr) :: rest = pixels
  := by
  rw [rays, hjob] at hpixels
  simpa [Option.map_eq_some_iff] using hpixels

theorem render_singleton (job : RayJob) :
  render [job] = rays ((job.xlen * job.ylen).toNat + 1) job
  := by
  rw [render, List.mapM_cons, List.mapM_nil]
  cases rays ((job.xlen * job.ylen).toNat + 1) job with
  | none => rfl
  | some pixels => simp

/-- The pixels of all jobs of a list. -/
theorem render_map
    {js : List WpJob} (hjs : ∀ j ∈ js, j.Inside c) (hx : c.xres < 2 ^ 63) (hy : c.yres < 2 ^ 63) :
  ∃ pixels, render (js.map WpJob.toRayJob) = some pixels ∧
    ∀ p, pixels.count p = js.countP (WpJob.covers · p)
  := by
  induction js with
  | nil => exact ⟨[], rfl, fun _ => rfl⟩
  | cons j js ih =>
      obtain ⟨pixels, hpixels, hcount⟩ := ih (fun j hj => hjs j (List.mem_cons_of_mem _ hj))
      have hj := hjs j List.mem_cons_self
      obtain ⟨pixels', hpixels', hcount'⟩ := rays_toRayJob hj hx hy
      refine ⟨pixels' ++ pixels, ?_, ?_⟩
      · obtain ⟨pss, hpss, rfl⟩ : ∃ pss, (js.map WpJob.toRayJob).mapM
            (fun job => rays ((job.xlen * job.ylen).toNat + 1) job) = some pss ∧
            pss.flatten = pixels := by
          simpa [render, Option.bind_eq_some_iff] using hpixels
        rw [render, List.map_cons, List.mapM_cons, hpixels', hpss]
        rfl
      · intro p
        rw [List.count_append, hcount p, hcount' p, List.countP_cons, Nat.add_comm]

/-! ### What is left in the pools -/

/-- What is known of the pools when a processor is at a place: those it has looked at before are
empty. -/
def State.Searched (s : State) (nprocs pid : Nat) : Place → Prop
  | .tracing => True
  | .looking i =>
      ∃ d < nprocs, i = (pid + d) % nprocs ∧ ∀ k < d, s.workpool ((pid + k) % nprocs) = []
  | .taking i =>
      ∃ d < nprocs, i = (pid + d) % nprocs ∧ ∀ k < d, s.workpool ((pid + k) % nprocs) = []
  | .empty => ∀ i < nprocs, s.workpool i = []

/-- The jobs taken and those in the pools are the ones of the start. -/
structure State.Inv (c : Config) (s : State) (js : List WpJob) : Prop where
  taken : s.taken = js.map WpJob.toRayJob
  conserved : ∀ q : WpJob → Bool,
    js.countP q + ∑ i ∈ Finset.range c.nprocs, (s.workpool i).countP q =
      ∑ i ∈ Finset.range c.nprocs, (blockJobs c i).countP q
  hints : ∀ i, s.wpstat i = false → s.workpool i = []
  searched : ∀ pid < c.nprocs, s.Searched c.nprocs pid (s.place pid)

variable {s s' : State}

theorem State.Searched.mono
    {nprocs pid : Nat} {place : Place} (h : s.Searched nprocs pid place)
    (hempty : ∀ i, s.workpool i = [] → s'.workpool i = []) :
  s'.Searched nprocs pid place
  := by
  cases place with
  | tracing => trivial
  | looking i =>
      obtain ⟨d, hd, hi, hsearched⟩ := h
      exact ⟨d, hd, hi, fun k hk => hempty _ (hsearched k hk)⟩
  | taking i =>
      obtain ⟨d, hd, hi, hsearched⟩ := h
      exact ⟨d, hd, hi, fun k hk => hempty _ (hsearched k hk)⟩
  | empty => exact fun i hi => hempty i (h i hi)

/-- The pool a processor has looked at is empty too, and it goes on. -/
theorem State.Searched.next
    {nprocs pid i : Nat} (hpid : pid < nprocs) (h : s.Searched nprocs pid (.taking i))
    (hempty : s.workpool i = []) :
  s.Searched nprocs pid (.next nprocs pid i)
  := by
  obtain ⟨d, hd, rfl, hsearched⟩ := h
  have hsearched' : ∀ k < d + 1, s.workpool ((pid + k) % nprocs) = [] := by
    intro k hk
    rcases Nat.lt_succ_iff_lt_or_eq.mp hk with hk | rfl
    · exact hsearched k hk
    · exact hempty
  have hmod : ((pid + d) % nprocs + 1) % nprocs = (pid + (d + 1)) % nprocs := by
    rw [Nat.mod_add_mod, Nat.add_assoc]
  rw [Place.next, hmod]
  split
  · next hpid' =>
    have hd' : d + 1 = nprocs := by
      by_cases hlt : pid + (d + 1) < nprocs
      · rw [Nat.mod_eq_of_lt hlt] at hpid'
        omega
      · rw [Nat.mod_eq_sub_mod (by omega), Nat.mod_eq_of_lt (by omega)] at hpid'
        omega
    intro i hi
    by_cases hle : pid ≤ i
    · have := hsearched' (i - pid) (by omega)
      rwa [Nat.add_sub_of_le hle, Nat.mod_eq_of_lt hi] at this
    · have := hsearched' (i + nprocs - pid) (by omega)
      rwa [show pid + (i + nprocs - pid) = i + nprocs by omega, Nat.add_mod_right,
        Nat.mod_eq_of_lt hi] at this
  · next hne =>
    refine ⟨d + 1, ?_, rfl, hsearched'⟩
    by_contra hle
    obtain rfl : d + 1 = nprocs := by omega
    apply hne
    rw [Nat.add_mod_right, Nat.mod_eq_of_lt hpid]

theorem State.Inv.step {js : List WpJob} (h : s.Inv c js) (hstep : Step c.nprocs s s') :
  ∃ js', s'.Inv c js'
  := by
  have hplaces : ∀ {s' : State} {pid : Nat} {place : Place},
      s'.place = Function.update s.place pid place →
      (∀ i, s.workpool i = [] → s'.workpool i = []) →
      s'.Searched c.nprocs pid place →
      ∀ pid < c.nprocs, s'.Searched c.nprocs pid (s'.place pid) := by
    intro s' pid place hplace hempty hsearched pid' hpid'
    rw [hplace]
    by_cases heq : pid' = pid
    · subst heq
      rw [Function.update_self]
      exact hsearched
    · rw [Function.update_of_ne heq]
      exact (h.searched pid' hpid').mono hempty
  cases hstep with
  | getJobs pid hpid hplace =>
      refine ⟨js, h.taken, h.conserved, h.hints, hplaces rfl (fun _ => id) ?_⟩
      refine ⟨0, by omega, ?_, fun k hk => by omega⟩
      rw [Nat.add_zero, Nat.mod_eq_of_lt hpid]
  | hintEmpty pid i hpid hplace hhint =>
      have hsearched := h.searched pid hpid
      rw [hplace] at hsearched
      refine ⟨js, h.taken, h.conserved, h.hints, hplaces rfl (fun _ => id) ?_⟩
      exact State.Searched.next hpid hsearched (h.hints i hhint)
  | hintValid pid i hpid hplace =>
      have hsearched := h.searched pid hpid
      rw [hplace] at hsearched
      exact ⟨js, h.taken, h.conserved, h.hints, hplaces rfl (fun _ => id) hsearched⟩
  | func3Empty pid i hpid hplace hempty =>
      have hsearched := h.searched pid hpid
      rw [hplace] at hsearched
      refine ⟨js, h.taken, h.conserved, ?_, hplaces rfl (fun _ => id) ?_⟩
      · intro k hk
        by_cases heq : k = i
        · rw [heq]
          exact hempty
        · apply h.hints
          rw [← hk]
          exact (Function.update_of_ne heq _ _).symm
      · exact State.Searched.next hpid hsearched hempty
  | func3Job pid i hpid hplace j pool hpool =>
      have hsearched := h.searched pid hpid
      rw [hplace] at hsearched
      obtain ⟨d, -, hi, -⟩ := hsearched
      have hi : i < c.nprocs := by
        rw [hi]
        exact Nat.mod_lt _ (by omega)
      have hne : ∀ k, s.workpool k = [] → k ≠ i := by
        rintro k hk rfl
        rw [hpool] at hk
        cases hk
      have hempty : ∀ k, s.workpool k = [] → Function.update s.workpool i pool k = [] := by
        intro k hk
        rw [Function.update_of_ne (hne k hk), hk]
      refine ⟨js ++ [j], ?_, ?_, ?_, hplaces rfl hempty trivial⟩
      · rw [h.taken, List.map_append]
        rfl
      · intro q
        rw [← h.conserved q, List.countP_append, Nat.add_assoc]
        congr 1
        have hmem : i ∈ Finset.range c.nprocs := Finset.mem_range.mpr hi
        have hrest : ∑ k ∈ (Finset.range c.nprocs).erase i,
            (Function.update s.workpool i pool k).countP q =
            ∑ k ∈ (Finset.range c.nprocs).erase i, (s.workpool k).countP q := by
          apply Finset.sum_congr rfl
          intro k hk
          rw [Function.update_of_ne (Finset.ne_of_mem_erase hk)]
        show [j].countP q + ∑ k ∈ Finset.range c.nprocs,
          (Function.update s.workpool i pool k).countP q = _
        rw [← Finset.add_sum_erase _ _ hmem, ← Finset.add_sum_erase _ _ hmem, hrest, hpool,
          Function.update_self, List.countP_singleton, List.countP_cons]
        omega
      · intro k hk
        exact hempty k (h.hints k hk)

theorem State.Inv.start :
  (State.start (blockJobs c)).Inv c []
  := by
  refine ⟨rfl, ?_, nofun, fun _ _ => trivial⟩
  intro q
  exact Nat.zero_add _

theorem State.Inv.run (hrun : Relation.ReflTransGen (Step c.nprocs) (State.start (blockJobs c)) s) :
  ∃ js, s.Inv c js
  := by
  induction hrun with
  | refl => exact ⟨[], State.Inv.start⟩
  | tail _ hstep ih =>
      obtain ⟨js, h⟩ := ih
      exact h.step hstep

theorem State.Inv.inside {js : List WpJob} (h : s.Inv c js) (hc : c.Valid) :
  ∀ j ∈ js, j.Inside c
  := by
  intro j hj
  have hsum : ∑ i ∈ Finset.range c.nprocs, (blockJobs c i).countP (· = j) ≠ 0 := by
    rw [← h.conserved (· = j)]
    have hpos : 0 < js.countP (· = j) := List.countP_pos_iff.mpr ⟨j, hj, decide_eq_true rfl⟩
    omega
  obtain ⟨i, hi, hcount⟩ := Finset.exists_ne_zero_of_sum_ne_zero hsum
  obtain ⟨j', hj', heq⟩ := List.countP_pos_iff.mp (Nat.pos_of_ne_zero hcount)
  obtain rfl := of_decide_eq_true heq
  exact blockJobs_inside hc (Finset.mem_range.mp hi) hj'

/-- While the sums fit, the loops that fill the pools end. In every state behind the barrier, the
jobs taken have no pixel twice and none outside of the screen; once the pools are empty, they have
all of it; and a processor gets `WPS_EMPTY` only then. -/
theorem pixels_once (c : Config) (hc : c.Valid) (hfits : c.Fits) :
  ∃ pools : Nat → List WpJob,
    (∀ n : Nat, c.xres < n → c.yres < n → ∀ pid, initWorkPool n c pid = some (pools pid)) ∧
    ∀ s, Relation.ReflTransGen (Step c.nprocs) (State.start pools) s →
      ∃ pixels, render s.taken = some pixels ∧
        (∀ p, pixels.count p ≤ if c.screen p then 1 else 0) ∧
        ((∀ i < c.nprocs, s.workpool i = []) →
          ∀ p, pixels.count p = if c.screen p then 1 else 0) ∧
        ∀ pid < c.nprocs, s.place pid = .empty → ∀ i < c.nprocs, s.workpool i = []
  := by
  refine ⟨blockJobs c, fun n hx hy pid => initWorkPool_eq hc hfits hx hy pid, ?_⟩
  intro s hrun
  obtain ⟨js, h⟩ := State.Inv.run hrun
  have hx := hfits.blockx.bound_lt hc.xsize_pos (by have := hc.blockx; omega)
  have hy := hfits.blocky.bound_lt hc.ysize_pos (by have := hc.blocky; omega)
  obtain ⟨pixels, hpixels, hcount⟩ := render_map (h.inside hc) hx hy
  have hconserved : ∀ p, js.countP (WpJob.covers · p) +
      ∑ i ∈ Finset.range c.nprocs, (s.workpool i).countP (WpJob.covers · p) =
      if c.screen p then 1 else 0 := by
    intro p
    rw [h.conserved, sum_covers_blockJobs hc]
  refine ⟨pixels, ?_, ?_, ?_, ?_⟩
  · rw [h.taken, hpixels]
  · intro p
    rw [hcount p, ← hconserved p]
    exact Nat.le_add_right _ _
  · intro hempty p
    have hsum : ∑ i ∈ Finset.range c.nprocs, (s.workpool i).countP (WpJob.covers · p) = 0 := by
      apply Finset.sum_eq_zero
      intro i hi
      rw [hempty i (Finset.mem_range.mp hi), List.countP_nil]
    rw [hcount p, ← hconserved p, hsum, Nat.add_zero]
  · intro pid hpid hplace
    have hsearched := h.searched pid hpid
    rw [hplace] at hsearched
    exact hsearched

/-- A screen of two pixels, which are one job of the processor `0`: the processor `1` finds its
own pool empty and takes it. -/
theorem pixels_once_stolen :
  (Config.mk 2 1 1 1 2 1 2).Valid ∧ (Config.mk 2 1 1 1 2 1 2).Fits ∧
    ∃ pools, (∀ pid, initWorkPool 3 ⟨2, 1, 1, 1, 2, 1, 2⟩ pid = some (pools pid)) ∧
      ∃ s, Relation.ReflTransGen (Step 2) (State.start pools) s ∧
        s.taken = [⟨0, 0, 0, 0, 2, 1⟩] ∧ ∃ pixels, render s.taken = some pixels ∧
          pixels.count (1, 0) = 1
  := by
  have hvalid : (Config.mk 2 1 1 1 2 1 2).Valid := by
    constructor <;> decide
  have hfits : (Config.mk 2 1 1 1 2 1 2).Fits := by
    constructor <;> decide
  obtain ⟨pools, hpools, hsound⟩ := pixels_once _ hvalid hfits
  have hinit := hpools 3 (by decide) (by decide)
  have hzero : pools 0 = [⟨0, 0, 2, 1⟩] := Option.some_injective _ ((hinit 0).symm.trans (by decide))
  have hone : pools 1 = [] := Option.some_injective _ ((hinit 1).symm.trans (by decide))
  have hrun := Relation.ReflTransGen.refl (r := Step 2) (a := State.start pools)
    |>.tail (.getJobs 1 (by decide) rfl)
    |>.tail (.hintValid 1 1 (by decide) rfl)
    |>.tail (.func3Empty 1 1 (by decide) rfl hone)
    |>.tail (.hintValid 1 0 (by decide) rfl)
    |>.tail (.func3Job 1 0 (by decide) rfl ⟨0, 0, 2, 1⟩ [] hzero)
  obtain ⟨pixels, hpixels, -, hscreen, -⟩ := hsound _ hrun
  have hempty : ∀ i < 2, Function.update pools 0 [] i = [] := by
    intro i hi
    obtain rfl | rfl : i = 0 ∨ i = 1 := by omega
    · rfl
    · exact hone
  exact ⟨hvalid, hfits, pools, hinit, _, hrun, rfl, pixels, hpixels, hscreen hempty (1, 0)⟩

/-- A bundle of `2 ^ 63 - 1` pixels in a block that begins with the pixel `2`: the sum that is
compared with the end of the block is negative, and the job gets the size of the bundle. -/
theorem pixels_beyond_screen :
  (Config.mk 4 1 2 1 (2 ^ 63 - 1) 1 1).Valid ∧
    ∃ pools, initWorkPool 5 ⟨4, 1, 2, 1, 2 ^ 63 - 1, 1, 1⟩ 0 = some (pools 0) ∧
      ∃ s, Relation.ReflTransGen (Step 1) (State.start pools) s ∧
        ¬∃ pixels, render s.taken = some pixels ∧ ∀ p, pixels.count p ≤
          if (Config.mk 4 1 2 1 (2 ^ 63 - 1) 1 1).screen p then 1 else 0
  := by
  have hrun := Relation.ReflTransGen.refl (r := Step 1)
      (a := State.start (fun _ => [⟨2, 0, 2 ^ 63 - 1, 1⟩, ⟨0, 0, 2, 1⟩]))
    |>.tail (.getJobs 0 (by decide) rfl)
    |>.tail (.hintValid 0 0 (by decide) rfl)
    |>.tail (.func3Job 0 0 (by decide) rfl ⟨2, 0, 2 ^ 63 - 1, 1⟩ [⟨0, 0, 2, 1⟩] rfl)
  refine ⟨by constructor <;> decide, _, by decide, _, hrun, ?_⟩
  rintro ⟨pixels, hpixels, hscreen⟩
  have hone : render [⟨2, 0, 2, 0, 2 ^ 63 - 1, 1⟩] = some pixels := hpixels
  rw [render_singleton] at hone
  have hrounds : ((2 ^ 63 - 1 : Int) * 1).toNat + 1 = 9223372036854775804 + 4 := by decide
  rw [hrounds] at hone
  obtain ⟨p₁, h₁, rfl⟩ := @rays_eq_some _ _ ⟨2, 0, 3, 0, 2 ^ 63 - 1, 1⟩ _ (by decide) hone
  obtain ⟨p₂, h₂, rfl⟩ := @rays_eq_some _ _ ⟨2, 0, 4, 0, 2 ^ 63 - 1, 1⟩ _ (by decide) h₁
  obtain ⟨p₃, h₃, rfl⟩ := @rays_eq_some _ _ ⟨2, 0, 5, 0, 2 ^ 63 - 1, 1⟩ _ (by decide) h₂
  have hle := hscreen (4, 0)
  rw [if_neg (by decide), Nat.le_zero, List.count_eq_zero] at hle
  exact hle (by simp)

end Raytrace
