import Mathlib.Algebra.BigOperators.Group.Finset.Basic
import Mathlib.Algebra.Order.BigOperators.Group.Finset
import Mathlib.Data.Fintype.BigOperators

/-!
What the threads of a system hold together. Each thread's share is a function
of its program counter, and a step that moves one thread changes the sum by the
change of its share.
-/

namespace YkUtil.Lib

variable {ι P M : Type*} [Fintype ι] [AddCommMonoid M]

/-- The shares of all threads. -/
def heldBy (share : P → M) (pc : ι → P) : M := ∑ i, share (pc i)

/-- Moving one thread exchanges its share. -/
theorem heldBy_update [DecidableEq ι] (share : P → M) (pc : ι → P) (i : ι) (p : P) :
    heldBy share (Function.update pc i p) + share (pc i) = heldBy share pc + share p := by
  have hothers : ∑ j ∈ Finset.univ.erase i, share (Function.update pc i p j) =
      ∑ j ∈ Finset.univ.erase i, share (pc j) :=
    Finset.sum_congr rfl fun j hj => by
      rw [Function.update_of_ne (Finset.ne_of_mem_erase hj)]
  have hbefore := Finset.add_sum_erase Finset.univ (fun j => share (pc j)) (Finset.mem_univ i)
  have hafter := Finset.add_sum_erase Finset.univ
    (fun j => share (Function.update pc i p j)) (Finset.mem_univ i)
  simp only [Function.update_self, hothers] at hafter
  rw [heldBy, heldBy, ← hbefore, ← hafter, add_right_comm, add_comm (share p), add_right_comm]

theorem heldBy_eq_zero {pc : ι → P} {share : P → M} (h : ∀ i, share (pc i) = 0) :
    heldBy share pc = 0 :=
  Finset.sum_eq_zero fun i _ => h i

theorem le_heldBy (share : P → Nat) (pc : ι → P) (i : ι) : share (pc i) ≤ heldBy share pc :=
  Finset.single_le_sum (f := fun j => share (pc j)) (fun _ _ => Nat.zero_le _) (Finset.mem_univ i)

/-- Where shares cannot be negative, nothing together is nothing each. -/
theorem heldBy_eq_zero_iff [PartialOrder M] [IsOrderedAddMonoid M] [CanonicallyOrderedAdd M]
    {share : P → M} {pc : ι → P} : heldBy share pc = 0 ↔ ∀ i, share (pc i) = 0 := by
  simp [heldBy]

end YkUtil.Lib
