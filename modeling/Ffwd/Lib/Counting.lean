import Mathlib

/-!
# Sums over the parties of a system

Quantities of a system that are sums over its parties, each with a state of its own, when one of
the parties changes its state.
-/

namespace Counting

variable {ι α M : Type} [Fintype ι] [DecidableEq ι] [AddCommMonoid M]

/-- One summand is exchanged for another. -/
theorem sum_update (f : ι → α → M) (g : ι → α) (i : ι) (x : α) :
  ∑ j, f j (Function.update g i x j) + f i (g i) = ∑ j, f j (g j) + f i x
  := by
  have hold := Finset.add_sum_erase Finset.univ (fun j => f j (g j)) (Finset.mem_univ i)
  have hnew := Finset.add_sum_erase Finset.univ (fun j => f j (Function.update g i x j))
    (Finset.mem_univ i)
  have hrest : ∑ j ∈ Finset.univ.erase i, f j (Function.update g i x j) =
      ∑ j ∈ Finset.univ.erase i, f j (g j) := by
    apply Finset.sum_congr rfl
    intro j hj
    rw [Function.update_of_ne (Finset.ne_of_mem_erase hj)]
  rw [Function.update_self, hrest] at hnew
  rw [← hold, ← hnew]
  ac_rfl

end Counting
