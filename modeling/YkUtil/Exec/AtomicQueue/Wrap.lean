import YkUtil.Exec.AtomicQueue.Sequential

/-!
The counters of the code wrap at `2 ^ w`. Slot and turn are both taken of the
wrapped counter, so after the wrap the laps of a slot line up with its stored
turn only when the capacity divides the turn arithmetic evenly, which is the
case for capacities one and two. For every larger capacity the push that takes
the first wrapped ticket meets a turn it does not expect, for good.
-/

namespace YkUtil.Exec.AtomicQueue

open YkUtil.Lib
open YkUtil.Lib.BoundedContainer (take)

variable {T : Type*} {c : Nat}

/-- The queue as `w`-bit counters see it. -/
def wrapped (w : Nat) (q : AtomicQueue T c) : AtomicQueue T c :=
  {head := q.head % 2 ^ w
   tail := q.tail % 2 ^ w
   slots := fun i => {q.slots i with turn := (q.slots i).turn % 2 ^ w}}

/-- Ticket `k` keeps its slot and, up to the wrap, its turn. -/
def Aligned (w c k : Nat) : Prop :=
  k % 2 ^ w % c = k % c ∧ (turn c (k % 2 ^ w) * 2) % 2 ^ w = (turn c k * 2) % 2 ^ w

theorem aligned_of_lt {w k : Nat} (h : k < 2 ^ w) : Aligned w c k := by
  simp [Aligned, Nat.mod_eq_of_lt h]

theorem Aligned.turn_add {w k : Nat} (h : Aligned w c k) (b : Nat) :
    (turn c (k % 2 ^ w) * 2 + b) % 2 ^ w = (turn c k * 2 + b) % 2 ^ w := by
  rw [Nat.add_mod, h.2, ← Nat.add_mod]

theorem wrapped_empty (w : Nat) : wrapped w (empty T c) = empty T c := by
  simp [wrapped, empty]

@[simp] theorem wrapped_head (w : Nat) (q : AtomicQueue T c) :
    (wrapped w q).head = q.head % 2 ^ w := rfl

@[simp] theorem wrapped_tail (w : Nat) (q : AtomicQueue T c) :
    (wrapped w q).tail = q.tail % 2 ^ w := rfl

@[simp] theorem wrapped_setHead (w n : Nat) (q : AtomicQueue T c) :
    wrapped w (q.setHead n) = (wrapped w q).setHead (n % 2 ^ w) := rfl

@[simp] theorem wrapped_setTail (w n : Nat) (q : AtomicQueue T c) :
    wrapped w (q.setTail n) = (wrapped w q).setTail (n % 2 ^ w) := rfl

variable [NeZero c]

/-- Capacities one and two divide both `2 ^ w` and the factor of the turns. -/
theorem aligned_of_le_two {w : Nat} (hc : c ≤ 2) (hw : c < 2 ^ w) (k : Nat) : Aligned w c k := by
  have hpos : 0 < c := NeZero.pos c
  have hcases : c = 1 ∨ c = 2 := by omega
  rcases hcases with rfl | rfl
  · constructor
    · simp [Nat.mod_one]
    · simp [turn, Nat.mul_mod]
  · obtain ⟨w, rfl⟩ : ∃ n, w = n + 1 := Nat.exists_eq_succ_of_ne_zero (by rintro rfl; simp at hw)
    constructor
    · exact Nat.mod_mod_of_dvd k ⟨2 ^ w, by rw [Nat.pow_succ, Nat.mul_comm]⟩
    · have hlap : k % 2 ^ (w + 1) / 2 = k / 2 % 2 ^ w := by
        rw [Nat.pow_succ]
        exact Nat.mod_mul_left_div_self k 2 (2 ^ w)
      rw [turn, turn, hlap, Nat.pow_succ, Nat.mul_mod_mul_right, Nat.mul_mod_mul_right,
        Nat.mod_mod]

theorem wrapped_slotAt {w k : Nat} (h : k % 2 ^ w % c = k % c) (q : AtomicQueue T c) :
    (wrapped w q).slotAt (k % 2 ^ w) =
      {q.slotAt k with turn := (q.slotAt k).turn % 2 ^ w} := by
  have hidx : idx c (k % 2 ^ w) = idx c k := idx_eq_iff.mpr h
  simp [slotAt, wrapped, hidx]

theorem wrapped_setSlot {w k : Nat} (h : k % 2 ^ w % c = k % c) (q : AtomicQueue T c)
    (slot : Slot T) : (wrapped w q).setSlot (k % 2 ^ w) {slot with turn := slot.turn % 2 ^ w} =
      wrapped w (q.setSlot k slot) := by
  have hidx : idx c (k % 2 ^ w) = idx c k := idx_eq_iff.mpr h
  simp only [setSlot, wrapped, hidx, mk.injEq, true_and]
  funext i
  by_cases hi : i = idx c k
  · simp [hi]
  · simp [hi]

/-- Two numbers at most one apart are equal as soon as they agree modulo `n`. -/
theorem mod_eq_iff_of_near {a b n : Nat} (hn : 1 < n) (h : a = b ∨ a = b + 1) :
    a % n = b % n ↔ a = b := by
  constructor
  · intro hmod
    rcases h with h | rfl
    · exact h
    · have hdiff := Nat.sub_mod_eq_zero_of_mod_eq hmod
      rw [Nat.add_sub_cancel_left, Nat.mod_eq_of_lt hn] at hdiff
      cases hdiff
  · rintro rfl
    rfl

section Holds

variable {w : Nat} {q : AtomicQueue T c} {l : List T} (h : Holds q l) (hw : 1 < 2 ^ w)
include h hw

/-- While the head ticket is aligned, a `w`-bit try_push does what an
unbounded one does. -/
theorem tryPush_wrapped (v : T) (ha : Aligned w c q.head) :
    tryPush (.bits w) (wrapped w q) v =
      (wrapped w (tryPush .unbounded q v).1, (tryPush .unbounded q v).2) := by
  have hslot := wrapped_slotAt ha.1 q
  have hcheck : (turn c (q.head % 2 ^ w) * 2) % 2 ^ w = (q.slotAt q.head).turn % 2 ^ w ↔
      turn c q.head * 2 = (q.slotAt q.head).turn := by
    rw [ha.2]
    apply mod_eq_iff_of_near hw
    have hturn := h.head_turn
    split at hturn <;> omega
  by_cases hturn : turn c q.head * 2 = (q.slotAt q.head).turn
  · have hturn' : (SizeT.bits w).wrap (turn c (wrapped w q).head * 2) =
        ((wrapped w q).slotAt (wrapped w q).head).turn := by
      rw [wrapped_head, hslot]
      exact hcheck.mpr hturn
    rw [tryPush_of_turn (z := .unbounded) v hturn, tryPush_of_turn (z := .bits w) v hturn',
      ← wrapped_setSlot ha.1]
    simp [hslot, SizeT.wrap, Slot.construct, Slot.storeTurn, ha.turn_add]
  · have hturn' : (SizeT.bits w).wrap (turn c (wrapped w q).head * 2) ≠
        ((wrapped w q).slotAt (wrapped w q).head).turn := by
      rw [wrapped_head, hslot]
      exact fun hne => hturn (hcheck.mp hne)
    rw [tryPush_of_ne (z := .unbounded) v hturn, tryPush_of_ne (z := .bits w) v hturn']

theorem tryPop_wrapped (ha : Aligned w c q.tail) :
    tryPop (.bits w) (wrapped w q) =
      (wrapped w (tryPop .unbounded q).1, (tryPop .unbounded q).2) := by
  have hslot := wrapped_slotAt ha.1 q
  have hcheck : (turn c (q.tail % 2 ^ w) * 2 + 1) % 2 ^ w = (q.slotAt q.tail).turn % 2 ^ w ↔
      turn c q.tail * 2 + 1 = (q.slotAt q.tail).turn := by
    rw [ha.turn_add]
    apply mod_eq_iff_of_near hw
    have hturn := h.tail_turn
    split at hturn <;> omega
  by_cases hturn : turn c q.tail * 2 + 1 = (q.slotAt q.tail).turn
  · have hturn' : (SizeT.bits w).wrap (turn c (wrapped w q).tail * 2 + 1) =
        ((wrapped w q).slotAt (wrapped w q).tail).turn := by
      rw [wrapped_tail, hslot]
      exact hcheck.mpr hturn
    rw [tryPop_of_turn (z := .unbounded) hturn, tryPop_of_turn (z := .bits w) hturn',
      ← wrapped_setSlot ha.1]
    simp [hslot, SizeT.wrap, Slot.extract, Slot.destroy, Slot.storeTurn, ha.turn_add]
  · have hturn' : (SizeT.bits w).wrap (turn c (wrapped w q).tail * 2 + 1) ≠
        ((wrapped w q).slotAt (wrapped w q).tail).turn := by
      rw [wrapped_tail, hslot]
      exact fun hne => hturn (hcheck.mp hne)
    rw [tryPop_of_ne (z := .unbounded) hturn, tryPop_of_ne (z := .bits w) hturn']

end Holds

/-- As long as the wrap keeps all tickets aligned it is not noticed. -/
theorem results_wrapped {w : Nat} {q : AtomicQueue T c} {l : List T} (h : Holds q l)
    (hw : 1 < 2 ^ w) (ha : ∀ k, Aligned w c k) (calls : List (TryCall T)) :
    results (.bits w) (wrapped w q) calls = results .unbounded q calls := by
  induction calls generalizing q l with
  | nil => rfl
  | cons call rest ih =>
      have hnext := ih (h.runCall call).2
      cases call with
      | push v => simpa [results, runCall, tryPush_wrapped h hw v (ha q.head)] using hnext
      | pop => simpa [results, runCall, tryPop_wrapped h hw (ha q.tail)] using hnext

section FirstWrappedTicket

variable {w : Nat} {q : AtomicQueue T c} {l : List T} (h : Holds q l) (hhead : q.head = 2 ^ w)
  (hc : 3 ≤ c) (hcw : c < 2 ^ w) (hw : 3 ≤ w)
include h hhead hc hcw hw

/-- When the head counter is about to wrap, the turn of slot zero is past the
one that the ticket zero asks for. -/
theorem slot_zero_turn : 2 ≤ (q.slotAt 0).turn ∧ (q.slotAt 0).turn < 2 ^ w := by
  have hpos : 0 < c := NeZero.pos c
  have height : 2 ^ 3 ≤ 2 ^ w := Nat.pow_le_pow_right (by omega) hw
  have htail := h.tail_le
  have hfits := h.head_le
  obtain ⟨k, hk, hk', hslot⟩ := Lap.exists_in_window q.tail hpos
  have hck : c ≤ k := Nat.le_of_dvd (by omega) (Nat.dvd_of_mod_eq_zero hslot)
  have hlap : 0 < turn c k := (Lap.lap_pos_iff hpos).mpr hck
  have hzero : q.slotAt 0 = q.slotAt k := slotAt_congr q (by simp [hslot])
  have hbound (j : Nat) : turn c j * 3 ≤ j :=
    (Nat.mul_le_mul_left _ hc).trans (Nat.div_mul_le_self j c)
  rw [hzero]
  by_cases hkh : k < q.head
  · have hfull := h.full (k - q.tail) (by have := h.head_eq; omega)
    rw [Nat.add_sub_cancel' hk] at hfull
    have := hbound k
    simp only [hfull]
    omega
  · have hprev : turn c (k - c) = turn c k - 1 := Lap.lap_sub hpos hck
    have := hbound (k - c)
    simp only [h.free k (by omega) hk']
    omega

theorem tryPush_at_wrap (v : T) : tryPush (.bits w) (wrapped w q) v = (wrapped w q, false) := by
  obtain ⟨hge, hlt⟩ := slot_zero_turn h hhead hc hcw hw
  have hslot := wrapped_slotAt (k := 0) (w := w) (by simp) q
  simp only [Nat.zero_mod, Nat.mod_eq_of_lt hlt] at hslot
  apply tryPush_of_ne
  rw [wrapped_head, hhead, Nat.mod_self, hslot]
  simp [SizeT.wrap, turn]
  omega

theorem tryPop_at_wrap (htail : q.tail = 2 ^ w) :
    tryPop (.bits w) (wrapped w q) = (wrapped w q, none) := by
  obtain ⟨hge, hlt⟩ := slot_zero_turn h hhead hc hcw hw
  have hslot := wrapped_slotAt (k := 0) (w := w) (by simp) q
  simp only [Nat.zero_mod, Nat.mod_eq_of_lt hlt] at hslot
  have hone : 1 % 2 ^ w = 1 := Nat.mod_eq_of_lt (by omega)
  apply tryPop_of_ne
  rw [wrapped_tail, htail, Nat.mod_self, hslot]
  simp [SizeT.wrap, turn, hone]
  omega

end FirstWrappedTicket

section UpToTheWrap

variable {w : Nat} {q : AtomicQueue T c} {l : List T} (h : Holds q l) (hhead : q.head ≤ 2 ^ w)
  (hc : 3 ≤ c) (hcw : c < 2 ^ w) (hw : 3 ≤ w)
include h hhead hc hcw hw

theorem tryPop_up_to_wrap : tryPop (.bits w) (wrapped w q) =
    (wrapped w (tryPop .unbounded q).1, (tryPop .unbounded q).2) := by
  have htail := h.tail_le
  by_cases hlt : q.tail < 2 ^ w
  · exact tryPop_wrapped h (by omega) (aligned_of_lt hlt)
  · have hlen := h.head_eq
    have hnil : l = [] := List.length_eq_zero_iff.mp (by omega)
    rw [tryPop_at_wrap h (by omega) hc hcw hw (by omega), h.tryPop_none hnil]

theorem tryPush_full_up_to_wrap (v : T) (hroom : ¬ l.length < c) :
    tryPush (.bits w) (wrapped w q) v = (wrapped w q, false) := by
  by_cases hlt : q.head < 2 ^ w
  · rw [tryPush_wrapped h (by omega) v (aligned_of_lt hlt), h.tryPush_false v hroom]
  · exact tryPush_at_wrap h (by omega) hc hcw hw v

/-- From capacity three on the wrap is noticed by the push of ticket `2 ^ w`,
and by nothing before it. -/
theorem results_wrapped_iff (calls : List (TryCall T)) :
    results (.bits w) (wrapped w q) calls = results .unbounded q calls ↔
      q.head + fifoPushes c l calls ≤ 2 ^ w := by
  induction calls generalizing q l with
  | nil => simpa [results, fifoPushes] using hhead
  | cons call rest ih =>
      cases call with
      | push v =>
          by_cases hroom : l.length < c
          · obtain ⟨hok, hholds⟩ := h.tryPush_true v hroom
            have hnext : (tryPush .unbounded q v).1.head = q.head + 1 := h.tryPush_head v hroom
            by_cases hlt : q.head < 2 ^ w
            · have hrest := ih hholds (by omega)
              rw [hnext] at hrest
              simp only [results, runCall, tryPush_wrapped h (by omega) v (aligned_of_lt hlt),
                List.cons.injEq, true_and, hrest, fifoPushes, fifoCall, hroom, if_true,
                Nat.add_assoc]
            · simp only [results, runCall, tryPush_at_wrap h (by omega) hc hcw hw v, hok,
                List.cons.injEq, Result.pushed.injEq, Bool.false_eq_true, false_and, fifoPushes,
                hroom, if_true]
              refine ⟨False.elim, fun hle => ?_⟩
              omega
          · have hrest := ih h hhead
            simpa [results, runCall, tryPush_full_up_to_wrap h hhead hc hcw hw v hroom,
              h.tryPush_false v hroom, fifoPushes, fifoCall, hroom] using hrest
      | pop =>
          have hrest := ih (h.runCall .pop).2 (by
            simpa [runCall, tryPop_head] using hhead)
          simpa [results, runCall, tryPop_up_to_wrap h hhead hc hcw hw, tryPop_head,
            fifoPushes] using hrest

end UpToTheWrap

/-- The one capacity above two that fits fewer than three bits. -/
theorem two_bits_disagree {w : Nat} (hw : w < 3) (hc : 3 ≤ c) (hcw : c < 2 ^ w) (v : T) :
    results (.bits w) (empty T c) (pairs v 6) ≠ results .unbounded (empty T c) (pairs v 6) := by
  have hpow : 2 ^ w ≤ 2 ^ 2 := Nat.pow_le_pow_right (by omega) (by omega)
  have hthree : c = 3 := by omega
  have htwo : w = 2 := by
    by_contra hne
    have : 2 ^ w ≤ 2 ^ 1 := Nat.pow_le_pow_right (by omega) (by omega)
    omega
  subst hthree htwo
  have hbits : (results (.bits 2) (empty T 3) (pairs v 6)).map Result.ok =
      List.replicate 10 true ++ [false, false] := by
    simp [pairs, results, runCall, tryPush, tryPop, SizeT.wrap, turn, slotAt, setSlot, setHead,
      setTail, empty, idx, Fin.ofNat, Result.ok, Slot.storeTurn, Slot.construct, Slot.destroy]
  have hunbounded : (results .unbounded (empty T 3) (pairs v 6)).map Result.ok =
      List.replicate 12 true := by
    simp [pairs, fifoResults, fifoCall, take, holds_empty.results_eq, Result.ok]
  intro heq
  rw [heq, hunbounded] at hbits
  cases hbits

/-- A `w`-bit queue that starts empty agrees call for call with the unbounded
one when its capacity is one or two, or when no more than `2 ^ w` values are
pushed; two-bit counters are too short for the second part. Only capacities
one and two agree on every sequence of calls. -/
theorem wrap_agrees_iff {w : Nat} (hcw : c < 2 ^ w) (v : T) :
    ((∀ calls, results (.bits w) (empty T c) calls = results .unbounded (empty T c) calls) ↔
      c ≤ 2) ∧
    (3 ≤ w → ∀ calls,
      results (.bits w) (empty T c) calls = results .unbounded (empty T c) calls ↔
        c ≤ 2 ∨ fifoPushes c [] calls ≤ 2 ^ w) := by
  have hpos : 0 < c := NeZero.pos c
  have hsmall (hc : c ≤ 2) (calls : List (TryCall T)) :
      results (.bits w) (empty T c) calls = results .unbounded (empty T c) calls := by
    have := results_wrapped (w := w) holds_empty (by omega) (aligned_of_le_two hc hcw) calls
    rwa [wrapped_empty] at this
  have hlarge (hc : 3 ≤ c) (hw : 3 ≤ w) (calls : List (TryCall T)) :
      results (.bits w) (empty T c) calls = results .unbounded (empty T c) calls ↔
        fifoPushes c [] calls ≤ 2 ^ w := by
    have := results_wrapped_iff (w := w) (holds_empty (T := T)) (Nat.zero_le _) hc hcw hw calls
    rw [wrapped_empty] at this
    simpa [empty] using this
  constructor
  · refine ⟨fun hall => ?_, hsmall⟩
    by_contra hc
    by_cases hw : 3 ≤ w
    · have := (hlarge (by omega) hw _).mp (hall (pairs v (2 ^ w + 1)))
      rw [fifoPushes_pairs] at this
      omega
    · exact two_bits_disagree (by omega) (by omega) hcw v (hall (pairs v 6))
  · intro hw calls
    by_cases hc : c ≤ 2
    · simp [hc, hsmall hc calls]
    · simp [hc, hlarge (by omega) hw calls]

/-- With three slots and eight bits, 256 pushed values go unnoticed and 257 do
not. -/
theorem wrap_agrees_iff_three_slots :
    results (.bits 8) (empty Nat 3) (pairs 7 256) =
        results .unbounded (empty Nat 3) (pairs 7 256) ∧
      results (.bits 8) (empty Nat 3) (pairs 7 257) ≠
        results .unbounded (empty Nat 3) (pairs 7 257) := by
  have hiff := (wrap_agrees_iff (T := Nat) (c := 3) (w := 8) (by decide) 7).2 (by decide)
  constructor
  · exact (hiff _).mpr (Or.inr (by rw [fifoPushes_pairs]; decide))
  · intro heq
    have := (hiff _).mp heq
    rw [fifoPushes_pairs] at this
    omega

/-- A 64-bit queue of capacity three, with one value pushed and popped at a
time, answers the push after the first `2 ^ 64` ones differently. -/
theorem wrap_noticed_three_slots : ¬ ∀ calls, results (.bits 64) (empty Nat 3) calls =
    results .unbounded (empty Nat 3) calls := by
  intro hall
  have hpushes := (results_wrapped_iff (w := 64) (holds_empty (T := Nat) (c := 3))
    (Nat.zero_le _) (by decide) (by decide) (by decide) (pairs 7 (2 ^ 64 + 1))).mp (by
      rw [wrapped_empty]
      exact hall _)
  rw [fifoPushes_pairs] at hpushes
  simp [empty] at hpushes

end YkUtil.Exec.AtomicQueue
