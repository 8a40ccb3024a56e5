import YkUtil.Exec.AtomicQueue.Lifetime
import YkUtil.Exec.AtomicQueue.SoloReturns

/-!
What is in the queue for those who have returned: the values of the tickets whose push has
stored its turn and whose pop has not.
-/

namespace YkUtil.Exec.AtomicQueue

open YkUtil.Lib

variable {Tid T : Type*} {c : Nat} {b : System Tid T c}
  {l : List T} {tid : Tid} {q : AtomicQueue T c} {pc : Pc T} {k : Nat} {v : T}

/-- The values that are in the queue for those who have returned, in some order. -/
def Stored (b : System Tid T c) (l : List T) : Prop :=
  ∃ tickets values, tickets.Nodup ∧ (∀ k, k ∈ tickets ↔ b.Pushed k ∧ ¬ b.Popped k) ∧
    List.Forall₂ b.Written tickets values ∧ values.Perm l

theorem stored_start : Stored (start Tid T c) [] := by
  refine ⟨[], [], List.nodup_nil, fun k => iff_of_false List.not_mem_nil ?_, .nil, .nil⟩
  rintro ⟨⟨_, hmem⟩, -⟩
  cases hmem

section Length

variable [NeZero c]

theorem Stored.length_le (hrec : Recorded b) (h : Stored b l) : l.length ≤ c := by
  obtain ⟨tickets, values, hnodup, hmem, hwritten, hperm⟩ := h
  have hlive : tickets.Perm (liveTickets b.queue) := by
    refine (List.perm_ext_iff_of_nodup hnodup (liveTickets_nodup _)).mpr fun k => ?_
    rw [hmem, mem_liveTickets, hrec.pushed, hrec.popped]
    omega
  rw [← hperm.length_eq, ← hwritten.length_eq, hlive.length_eq]
  exact (List.length_filterMap_le _ _).trans_eq (List.length_finRange ..)

/-- Where no thread holds a ticket, the counters count what is stored. -/
theorem Stored.length_of_quiet (hinv : Inv b) (hrec : Recorded b) (hquiet : Quiet b)
    (h : Stored b l) : b.queue.head = b.queue.tail + l.length := by
  obtain ⟨tickets, values, hnodup, hmem, hwritten, hperm⟩ := h
  have hpushed (k : Nat) : b.Pushed k ↔ k < b.queue.head := by
    rw [hrec.pushed]
    refine ⟨hinv.issuedHead k, fun hk => (hinv.heldHead k hk).resolve_right ?_⟩
    rintro ⟨holder, hheld⟩
    rw [(hquiet holder).1] at hheld
    cases hheld
  have hpopped (k : Nat) : b.Popped k ↔ k < b.queue.tail := by
    rw [hrec.popped]
    refine ⟨hinv.issuedTail k, fun hk => (hinv.heldTail k hk).resolve_right ?_⟩
    rintro ⟨holder, hheld⟩
    rw [(hquiet holder).2] at hheld
    cases hheld
  have hle : b.queue.tail ≤ b.queue.head := by
    by_contra hlt
    have hlate := (hrec.popped _).mp ((hpopped b.queue.head).mpr (by omega))
    exact (hinv.issuedHead b.queue.head (by omega)).false
  have hwindow : tickets.Perm (List.range' b.queue.tail (b.queue.head - b.queue.tail)) := by
    refine (List.perm_ext_iff_of_nodup hnodup List.nodup_range').mpr fun k => ?_
    rw [hmem, hpushed, hpopped, List.mem_range'_1]
    omega
  have hlength := hwindow.length_eq
  rw [List.length_range', hwritten.length_eq, hperm.length_eq] at hlength
  omega

end Length

variable [DecidableEq Tid]

theorem forall₂_written {tickets : List Nat} {values : List T} {event : Option (Event T)}
    (h : List.Forall₂ b.Written tickets values) :
    List.Forall₂ (b.set tid q pc event).Written tickets values :=
  h.imp fun _ _ hv => written_set b tid q pc event hv

/-- A step that does not return from a call. -/
theorem Stored.quiet {event : Option (Event T)} (h : Stored b l)
    (hevent : Event.returned event ≠ some true) : Stored (b.set tid q pc event) l := by
  obtain ⟨tickets, values, hnodup, hmem, hwritten, hperm⟩ := h
  refine ⟨tickets, values, hnodup, fun k => ?_, forall₂_written hwritten, hperm⟩
  have hpush : event ≠ some (.pushed k) := by
    rintro rfl
    exact hevent rfl
  have hpop : ¬ ∃ r, event = some (.popped k r) := by
    rintro ⟨r, rfl⟩
    exact hevent rfl
  rw [hmem, pushed_set, popped_set, or_iff_left hpush, or_iff_left hpop]

theorem Stored.pushed (h : Stored b l) (hnew : ¬ b.Pushed k) (hkept : ¬ b.Popped k)
    (hv : b.Written k v) : Stored (b.set tid q pc (some (.pushed k))) (l ++ [v]) := by
  obtain ⟨tickets, values, hnodup, hmem, hwritten, hperm⟩ := h
  have hfresh : k ∉ tickets := fun hk => hnew ((hmem k).mp hk).1
  refine ⟨tickets ++ [k], values ++ [v], ?_, fun m => ?_, ?_, hperm.append_right [v]⟩
  · exact hnodup.append (List.nodup_singleton k) (by simpa using hfresh)
  · rw [List.mem_append, List.mem_singleton, hmem, pushed_set, popped_set]
    by_cases hmk : m = k
    · subst hmk
      simp [hkept]
    · simp [hmk, Ne.symm hmk]
  · refine List.rel_append (forall₂_written hwritten) (.cons ?_ .nil)
    exact written_set b tid q pc _ hv

variable [NeZero c]

theorem Stored.popped [DecidableEq T] {r : Option T} (hrec : Recorded b) (h : Stored b l)
    (hpushed : b.Pushed k) (hkept : ¬ b.Popped k) (hv : b.Written k v) :
    v ∈ l ∧ Stored (b.set tid q pc (some (.popped k r))) (l.erase v) := by
  obtain ⟨tickets, values, hnodup, hmem, hwritten, hperm⟩ := h
  have hk : k ∈ tickets := (hmem k).mpr ⟨hpushed, hkept⟩
  -- the value of the ticket is brought to the front
  obtain ⟨values', hfirst, hperm'⟩ :=
    List.perm_comp_forall₂ (List.perm_cons_erase hk).symm hwritten
  cases hfirst with
  | @cons _ w _ rest hw hrest =>
      obtain rfl := hrec.written_unique hw hv
      have hall := hperm'.trans hperm
      have hmemv : w ∈ l := hall.mem_iff.mp List.mem_cons_self
      refine ⟨hmemv, tickets.erase k, rest, hnodup.erase k, fun m => ?_, forall₂_written hrest,
        (hall.trans (List.perm_cons_erase hmemv)).cons_inv⟩
      rw [hnodup.mem_erase_iff, hmem, pushed_set, popped_set]
      by_cases hmk : m = k
      · subst hmk
        simp
      · simp [hmk, Ne.symm hmk]

end YkUtil.Exec.AtomicQueue
