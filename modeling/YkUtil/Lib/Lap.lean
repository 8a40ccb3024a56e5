import Mathlib.Algebra.Order.Group.Nat
import Mathlib.Data.Fin.Basic

/-!
Tickets dealt round-robin to `c` slots. Ticket `k` goes to slot `k % c` and
is that slot's ticket number `k / c`, its lap. A ticket is determined by its
slot and lap, and consecutive tickets of one slot are `c` apart.
-/

namespace YkUtil.Lib.Lap

variable {c k l : Nat}

theorem ticket_eq (hslot : k % c = l % c) (hlap : k / c = l / c) : k = l := by
  rw [← Nat.div_add_mod k c, ← Nat.div_add_mod l c, hslot, hlap]

theorem lap_ne (hslot : k % c = l % c) (hne : k ≠ l) : k / c ≠ l / c :=
  fun hlap => hne (ticket_eq hslot hlap)

theorem lap_lt (hslot : k % c = l % c) (hlt : k < l) : k / c < l / c := by
  have hle : k / c ≤ l / c := Nat.div_le_div_right (Nat.le_of_lt hlt)
  have hne : k / c ≠ l / c := lap_ne hslot (Nat.ne_of_lt hlt)
  omega

/-- A ticket of lap zero is one of the first `c`. -/
theorem lap_pos_iff (hc : 0 < c) : 0 < k / c ↔ c ≤ k := by
  rw [Nat.div_pos_iff]
  exact ⟨fun h => h.2, fun h => ⟨hc, h⟩⟩

/-- The slot's ticket of the lap before. -/
theorem slot_sub (h : c ≤ k) : (k - c) % c = k % c := by
  exact (Nat.mod_eq_sub_mod h).symm

theorem lap_sub (hc : 0 < c) (h : c ≤ k) : (k - c) / c = k / c - 1 := by
  rw [Nat.div_eq_sub_div hc h, Nat.add_sub_cancel]

theorem slot_mul_add {i j : Nat} (hi : i < c) : (j * c + i) % c = i := by
  rw [Nat.add_comm, Nat.add_mul_mod_self_right]
  exact Nat.mod_eq_of_lt hi

theorem lap_mul_add {i j : Nat} (hi : i < c) : (j * c + i) / c = j := by
  rw [Nat.add_comm, Nat.add_mul_div_right _ _ (by omega), Nat.div_eq_of_lt hi, Nat.zero_add]

theorem add_le_of_lt (hslot : k % c = l % c) (hlt : k < l) : k + c ≤ l := by
  have hlap := lap_lt hslot hlt
  have hk := Nat.div_add_mod k c
  have hl := Nat.div_add_mod l c
  have hstep : c * (k / c) + c ≤ c * (l / c) := by
    rw [← Nat.mul_succ]
    exact Nat.mul_le_mul_left c hlap
  omega

/-- Of `c` consecutive tickets no two share a slot. -/
theorem eq_of_window {base : Nat} (hk : base ≤ k) (hk' : k < base + c)
    (hl : base ≤ l) (hl' : l < base + c) (hslot : k % c = l % c) : k = l := by
  rcases Nat.lt_trichotomy k l with h | h | h
  · have := add_le_of_lt hslot h
    omega
  · exact h
  · have := add_le_of_lt hslot.symm h
    omega

/-- Every slot has a ticket among any `c` consecutive ones. -/
theorem exists_in_window (base : Nat) {i : Nat} (hi : i < c) :
    ∃ k, base ≤ k ∧ k < base + c ∧ k % c = i := by
  have hc : 0 < c := by omega
  have hmod : base % c < c := Nat.mod_lt _ hc
  have hbase := Nat.div_add_mod base c
  by_cases h : base % c ≤ i
  · refine ⟨base / c * c + i, ?_, ?_, slot_mul_add hi⟩
    · rw [Nat.mul_comm]; omega
    · rw [Nat.mul_comm]; omega
  · refine ⟨(base / c + 1) * c + i, ?_, ?_, slot_mul_add hi⟩
    · rw [Nat.add_mul, Nat.mul_comm]; omega
    · rw [Nat.add_mul, Nat.mul_comm]; omega

end YkUtil.Lib.Lap
