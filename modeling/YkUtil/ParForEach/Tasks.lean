import Mathlib.Algebra.Order.BigOperators.Group.Finset
import Mathlib.Data.List.Nodup
import Mathlib.Data.List.Range
import YkUtil.Lib.TransitionSystem

/-!
The tasks of `for_each(job_policy, policy, ...)`, one for each element of the
range and named by its position. A task looks at the stored exception, calls the
function and stores what the call threw; the lock is only held for the first and
the last of these, so the tasks interleave between them. What a call does is not
fixed, so every function is covered, whether it keeps state or not.
-/

namespace YkUtil.ParForEach

open YkUtil.Lib

universe u v

variable {α : Type u} {E : Type v}

inductive JobPolicy where
  | abort
  | proceed
  deriving DecidableEq

/-- Where the call of `wrapper` on one element is. -/
inductive Task (E : Type v) where
  | start
  /-- It found no exception and released the lock. -/
  | checked
  | running
  | returned
  | thrown (e : E)
  | stored (e : E)
  /-- It found an exception. -/
  | skipped (e : E)

inductive Event (E : Type v) where
  | check
  | invoke
  | returns
  | throws (e : E)
  | store

structure Action (E : Type v) where
  index : Nat
  event : Event E

structure State (E : Type v) where
  task : Nat → Task E
  exception : Option E

/-- One step of a task. The check is compiled in under `abort` only. -/
def advance (policy : JobPolicy) (exception : Option E) : Task E → Event E → Option (Task E)
  | .start, .check =>
    match policy, exception with
    | .abort, some e => some (.skipped e)
    | .abort, none => some .checked
    | .proceed, _ => none
  | .start, .invoke => if policy = .proceed then some .running else none
  | .checked, .invoke => some .running
  | .running, .returns => some .returned
  | .running, .throws e => some (.thrown e)
  | .thrown e, .store => some (.stored e)
  | _, _ => none

/-- What a task leaves in `exception`. -/
def Task.assigned : Task E → Option E → Option E
  | .stored e, _ => some e
  | _, exception => exception

def step (policy : JobPolicy) (elements : List α) (s : State E) (a : Action E) :
    Option (State E) :=
  if a.index < elements.length then
    (advance policy s.exception (s.task a.index) a.event).map fun t =>
      { task := Function.update s.task a.index t
        exception := t.assigned s.exception }
  else none

def tasks (E : Type v) (policy : JobPolicy) (elements : List α) :
    TransitionSystem (State E) (Action E) where
  init := {task := fun _ => .start, exception := none}
  step := step policy elements

namespace Task

/-- The function has been called. -/
def called : Task E → Bool
  | .running | .returned | .thrown _ | .stored _ => true
  | .start | .checked | .skipped _ => false

/-- The wrapper has returned. -/
def ended : Task E → Bool
  | .returned | .stored _ | .skipped _ => true
  | .start | .checked | .running | .thrown _ => false

/-- What the call threw. -/
def threw : Task E → Option E
  | .thrown e | .stored e => some e
  | .start | .checked | .running | .returned | .skipped _ => none

/-- The steps that are left at most. -/
def stepsLeft : Task E → Nat
  | .start => 4
  | .checked => 3
  | .running => 2
  | .thrown _ => 1
  | .returned | .stored _ | .skipped _ => 0

end Task

def Event.isInvoke : Event E → Bool
  | .invoke => true
  | .check | .returns | .throws _ | .store => false

/-- The elements that the function was called with, in the order of the calls. -/
def invoked (acts : List (Action E)) : List Nat :=
  (acts.filter (·.event.isInvoke)).map (·.index)

/-- `std::for_each` has returned. -/
def Finished (elements : List α) (s : State E) : Prop :=
  ∀ i < elements.length, (s.task i).ended = true

/-- What `for_each` throws after that. -/
def State.result (s : State E) : Option E := s.exception

/-- The tasks run one after another. -/
def inOrder (s : State E) (a : Action E) : Prop := ∀ j < a.index, (s.task j).ended = true

instance (s : State E) (a : Action E) : Decidable (inOrder s a) :=
  inferInstanceAs (Decidable (∀ j < a.index, (s.task j).ended = true))

/-- The task was started when an exception was already stored. -/
def SawStored (policy : JobPolicy) (elements : List α) (acts : List (Action E)) (i : Nat) : Prop :=
  ∃ before after s, acts = before ++ ⟨i, .check⟩ :: after ∧
    (tasks E policy elements).Reaches before s ∧ s.exception ≠ none

variable {policy : JobPolicy} {elements : List α} {acts : List (Action E)} {s s' : State E}
  {a : Action E}

/-- All that a step of a task can do. -/
inductive Advances (policy : JobPolicy) (exception : Option E) :
    Task E → Event E → Task E → Prop where
  | skip {e : E} : policy = .abort → exception = some e →
      Advances policy exception .start .check (.skipped e)
  | pass : policy = .abort → exception = none → Advances policy exception .start .check .checked
  | invokeUnchecked : policy = .proceed → Advances policy exception .start .invoke .running
  | invokeChecked : Advances policy exception .checked .invoke .running
  | returns : Advances policy exception .running .returns .returned
  | throws {e : E} : Advances policy exception .running (.throws e) (.thrown e)
  | store {e : E} : Advances policy exception (.thrown e) .store (.stored e)

theorem advance_cases {exception : Option E} {t t' : Task E} {event : Event E}
    (h : advance policy exception t event = some t') : Advances policy exception t event t' := by
  cases t <;> cases event <;> simp only [advance, reduceCtorEq, Option.some.injEq] at h
  case start.check =>
    cases policy with
    | abort =>
        cases exception with
        | none =>
            cases h
            exact .pass rfl rfl
        | some e =>
            cases h
            exact .skip rfl rfl
    | proceed => cases h
  case start.invoke =>
    split at h
    · cases h
      exact .invokeUnchecked ‹_›
    · cases h
  case checked.invoke =>
    cases h
    exact .invokeChecked
  case running.returns =>
    cases h
    exact .returns
  case running.throws =>
    cases h
    exact .throws
  case thrown.store =>
    cases h
    exact .store

/-- One task moves and the others stay. -/
theorem step_inv (h : step policy elements s a = some s') :
    ∃ t, advance policy s.exception (s.task a.index) a.event = some t ∧
      a.index < elements.length ∧ s'.task a.index = t ∧
      (∀ i, i ≠ a.index → s'.task i = s.task i) ∧ s'.exception = t.assigned s.exception := by
  unfold step at h
  split at h
  · rename_i hindex
    obtain ⟨t, ht, rfl⟩ := Option.map_eq_some_iff.mp h
    exact ⟨t, ht, hindex, Function.update_self .., fun i hne => Function.update_of_ne hne .., rfl⟩
  · cases h

theorem invoked_snoc : invoked (acts ++ [a]) =
    invoked acts ++ if a.event.isInvoke then [a.index] else [] := by
  unfold invoked
  rw [List.filter_append, List.map_append]
  cases hinvoke : a.event.isInvoke <;> simp [hinvoke]

theorem mem_invoked_snoc {i : Nat} : i ∈ invoked (acts ++ [a]) ↔
    i ∈ invoked acts ∨ a.event.isInvoke = true ∧ i = a.index := by
  rw [invoked_snoc, List.mem_append]
  cases hinvoke : a.event.isInvoke <;> simp

section Advance

variable {exception : Option E} {t t' : Task E} {event : Event E}

theorem advance_called (h : advance policy exception t event = some t') :
    t'.called = true ↔ t.called = true ∨ event.isInvoke = true := by
  cases advance_cases h <;> simp [Task.called, Event.isInvoke]

theorem advance_fresh (h : advance policy exception t event = some t')
    (hinvoke : event.isInvoke = true) : t.called = false := by
  cases advance_cases h <;> first | rfl | cases hinvoke

theorem advance_threw (h : advance policy exception t event = some t') (e : E) :
    t'.threw = some e ↔ t.threw = some e ∨ event = .throws e := by
  cases advance_cases h <;> simp [Task.threw]

theorem advance_stepsLeft (h : advance policy exception t event = some t') :
    t'.stepsLeft < t.stepsLeft := by
  cases advance_cases h <;> simp [Task.stepsLeft]

theorem advance_not_ended (h : advance policy exception t event = some t') : t.ended = false := by
  cases advance_cases h <;> rfl

/-- A step stores what it leaves in the task, and nothing else. -/
theorem advance_assigned (h : advance policy exception t event = some t') :
    (∃ e, t' = .stored e ∧ t'.assigned exception = some e) ∨
      (∀ e, t' ≠ .stored e) ∧ t'.assigned exception = exception := by
  cases advance_cases h with
  | store => exact .inl ⟨_, rfl, rfl⟩
  | skip | pass | invokeUnchecked | invokeChecked | returns | throws =>
      exact .inr ⟨nofun, rfl⟩

theorem advance_skipped {e : E} (h : advance policy exception t event = some (.skipped e)) :
    policy = .abort ∧ event = .check ∧ exception ≠ none := by
  cases advance_cases h with
  | skip hpolicy hexception => exact ⟨hpolicy, rfl, by rw [hexception]; exact nofun⟩

end Advance

/-- What holds after the actions of a run. -/
structure Inv (policy : JobPolicy) (elements : List α) (acts : List (Action E)) (s : State E) :
    Prop where
  bounded : ∀ i, elements.length ≤ i → s.task i = .start
  called : ∀ i, i ∈ invoked acts ↔ (s.task i).called = true
  once : (invoked acts).Nodup
  threw : ∀ i e, ⟨i, .throws e⟩ ∈ acts ↔ (s.task i).threw = some e
  source : ∀ e, s.exception = some e → ∃ i, s.task i = .stored e
  kept : ∀ i e, s.task i = .stored e ∨ s.task i = .skipped e → s.exception ≠ none
  skipped : ∀ i e, s.task i = .skipped e → policy = .abort ∧ SawStored policy elements acts i

theorem inv_init : Inv policy elements [] (tasks E policy elements).init where
  bounded _ _ := rfl
  called i := by simp [invoked, tasks, Task.called]
  once := List.nodup_nil
  threw i e := by simp [tasks, Task.threw]
  source e h := by cases h
  kept i e h := by
    rcases h with h | h <;> cases h
  skipped i e h := by cases h

theorem SawStored.snoc {i : Nat} (h : SawStored policy elements acts i) (a : Action E) :
    SawStored policy elements (acts ++ [a]) i := by
  obtain ⟨before, after, u, rfl, hrun, hstored⟩ := h
  exact ⟨before, after ++ [a], u, by simp, hrun, hstored⟩

theorem inv_step (hrun : (tasks E policy elements).Reaches acts s)
    (h : Inv policy elements acts s) (hstep : step policy elements s a = some s') :
    Inv policy elements (acts ++ [a]) s' := by
  obtain ⟨t, hadvance, hindex, hself, hother, hexception⟩ := step_inv hstep
  have hended := advance_not_ended hadvance
  constructor
  case bounded =>
    intro i hi
    rw [hother i (by omega)]
    exact h.bounded i hi
  case called =>
    intro i
    rw [mem_invoked_snoc]
    by_cases hi : i = a.index
    · subst hi
      rw [hself, advance_called hadvance, h.called]
      simp
    · rw [hother i hi, h.called]
      simp [hi]
  case once =>
    rw [invoked_snoc]
    cases hinvoke : a.event.isInvoke with
    | false => simpa using h.once
    | true =>
        have hfresh : a.index ∉ invoked acts := by
          rw [h.called, advance_fresh hadvance hinvoke]
          simp
        rw [if_pos rfl, List.nodup_append]
        refine ⟨h.once, List.nodup_singleton _, ?_⟩
        intro i hi j hj heq
        rw [List.mem_singleton.mp hj] at heq
        exact hfresh (heq ▸ hi)
  case threw =>
    intro i e
    rw [List.mem_append, List.mem_singleton, h.threw]
    by_cases hi : i = a.index
    · subst hi
      rw [hself, advance_threw hadvance]
      obtain ⟨index, event⟩ := a
      simp [eq_comm]
    · rw [hother i hi]
      obtain ⟨index, event⟩ := a
      simp only [Action.mk.injEq, or_iff_left_iff_imp]
      exact fun heq => absurd heq.1 hi
  case source =>
    intro e he
    rw [hexception] at he
    rcases advance_assigned hadvance with ⟨e', hstored, hassigned⟩ | ⟨-, hassigned⟩
    · rw [hassigned] at he
      cases he
      exact ⟨a.index, hself.trans hstored⟩
    · rw [hassigned] at he
      obtain ⟨i, hi⟩ := h.source e he
      have hne : i ≠ a.index := by
        rintro rfl
        rw [hi] at hended
        cases hended
      exact ⟨i, (hother i hne).trans hi⟩
  case kept =>
    intro i e hi
    rw [hexception]
    rcases advance_assigned hadvance with ⟨e', -, hassigned⟩ | ⟨hnot, hassigned⟩
    · rw [hassigned]
      simp
    · rw [hassigned]
      by_cases hne : i = a.index
      · subst hne
        rw [hself] at hi
        have hskipped := hi.resolve_left (hnot e)
        rw [hskipped] at hadvance
        exact (advance_skipped hadvance).2.2
      · rw [hother i hne] at hi
        exact h.kept i e hi
  case skipped =>
    intro i e hi
    by_cases hne : i = a.index
    · subst hne
      rw [hself] at hi
      rw [hi] at hadvance
      obtain ⟨hpolicy, hevent, hstored⟩ := advance_skipped hadvance
      refine ⟨hpolicy, acts, [], s, ?_, hrun, hstored⟩
      rw [← hevent]
    · rw [hother i hne] at hi
      obtain ⟨hpolicy, hsaw⟩ := h.skipped i e hi
      exact ⟨hpolicy, hsaw.snoc a⟩

theorem inv_run (hrun : (tasks E policy elements).Reaches acts s) : Inv policy elements acts s :=
  (tasks E policy elements).run_induction (P := Inv policy elements) inv_init
    (fun _ _ _ _ hreaches h hstep => inv_step hreaches h hstep) acts s hrun

/-- The ways a task can end. -/
theorem ended_cases {t : Task E} (h : t.ended = true) :
    t = .returned ∨ ∃ e, t = .stored e ∨ t = .skipped e := by
  cases t with
  | returned => exact .inl rfl
  | stored e => exact .inr ⟨e, .inl rfl⟩
  | skipped e => exact .inr ⟨e, .inr rfl⟩
  | start => cases h
  | checked => cases h
  | running => cases h
  | thrown e => cases h

section Complete

variable (h : Inv policy elements acts s) (hdone : Finished elements s)
include h hdone

theorem invoked_or_skipped {i : Nat} (hi : i < elements.length) :
    i ∈ invoked acts ∨ policy = .abort ∧ SawStored policy elements acts i := by
  rcases ended_cases (hdone i hi) with htask | ⟨e, htask | htask⟩
  · exact .inl ((h.called i).mpr (by rw [htask]; rfl))
  · exact .inl ((h.called i).mpr (by rw [htask]; rfl))
  · exact .inr (h.skipped i e htask)

theorem threw_stored {i : Nat} {e : E} (hthrows : ⟨i, .throws e⟩ ∈ acts) :
    s.task i = .stored e := by
  have hthrew := (h.threw i e).mp hthrows
  have hi : i < elements.length := by
    by_contra hout
    rw [h.bounded i (Nat.le_of_not_lt hout)] at hthrew
    cases hthrew
  rcases ended_cases (hdone i hi) with htask | ⟨e', htask | htask⟩
  · rw [htask] at hthrew
    cases hthrew
  · rw [htask] at hthrew
    cases hthrew
    exact htask
  · rw [htask] at hthrew
    cases hthrew

end Complete

theorem invoked_lt (h : Inv policy elements acts s) {i : Nat} (hi : i ∈ invoked acts) :
    i < elements.length := by
  by_contra hout
  have hcalled := (h.called i).mp hi
  rw [h.bounded i (Nat.le_of_not_lt hout)] at hcalled
  cases hcalled

theorem threw_of_stored (h : Inv policy elements acts s) {i : Nat} {e : E}
    (htask : s.task i = .stored e) : i ∈ invoked acts ∧ ⟨i, .throws e⟩ ∈ acts :=
  ⟨(h.called i).mpr (by rw [htask]; rfl), (h.threw i e).mpr (by rw [htask]; rfl)⟩

/-- No task waits for another one for good. -/
theorem exists_step (hnot : ¬Finished elements s) :
    ∃ a s', (tasks E policy elements).step s a = some s' := by
  simp only [Finished, not_forall] at hnot
  obtain ⟨i, hi, hended⟩ := hnot
  have hstep : ∀ event t, advance policy s.exception (s.task i) event = some t →
      ∃ a s', (tasks E policy elements).step s a = some s' := by
    intro event t ht
    refine ⟨⟨i, event⟩, ⟨Function.update s.task i t, t.assigned s.exception⟩, ?_⟩
    simp only [tasks, step, if_pos hi, ht, Option.map_some]
  cases htask : s.task i with
  | start =>
      cases hpolicy : policy with
      | abort =>
          cases hexception : s.exception with
          | none =>
              subst hpolicy
              exact hstep .check .checked (by rw [htask, hexception]; rfl)
          | some e =>
              subst hpolicy
              exact hstep .check (.skipped e) (by rw [htask, hexception]; rfl)
      | proceed =>
          subst hpolicy
          exact hstep .invoke .running (by rw [htask]; rfl)
  | checked => exact hstep .invoke .running (by rw [htask]; rfl)
  | running => exact hstep .returns .returned (by rw [htask]; rfl)
  | thrown e => exact hstep .store (.stored e) (by rw [htask]; rfl)
  | returned => exact absurd (by rw [htask]; rfl) hended
  | stored e => exact absurd (by rw [htask]; rfl) hended
  | skipped e => exact absurd (by rw [htask]; rfl) hended

theorem finished_iff :
    Finished elements s ↔ ∀ a, (tasks E policy elements).step s a = none := by
  constructor
  · intro hdone a
    apply Option.eq_none_iff_forall_not_mem.mpr
    intro s' hstep
    obtain ⟨t, hadvance, hindex, -⟩ := step_inv hstep
    exact absurd ((advance_not_ended hadvance).symm.trans (hdone a.index hindex)) Bool.noConfusion
  · intro hnone
    by_contra hnot
    have hstep : ∃ a s', (tasks E policy elements).step s a = some s' := exists_step hnot
    obtain ⟨a, s', hstep⟩ := hstep
    cases (hnone a).symm.trans hstep

/-- The steps that the tasks have left together. -/
def potential (elements : List α) (s : State E) : Nat :=
  ∑ i ∈ Finset.range elements.length, (s.task i).stepsLeft

theorem potential_step (hstep : step policy elements s a = some s') :
    potential elements s' < potential elements s := by
  obtain ⟨t, hadvance, hindex, hself, hother, -⟩ := step_inv hstep
  have hless : (s'.task a.index).stepsLeft < (s.task a.index).stepsLeft := by
    rw [hself]
    exact advance_stepsLeft hadvance
  refine Finset.sum_lt_sum ?_ ⟨a.index, Finset.mem_range.mpr hindex, hless⟩
  intro i _
  by_cases hi : i = a.index
  · rw [hi]
    exact Nat.le_of_lt hless
  · rw [hother i hi]

theorem length_le (hrun : (tasks E policy elements).Reaches acts s) :
    acts.length ≤ 4 * elements.length := by
  have hgood : (tasks E policy elements).GoodRun (fun _ _ => True) acts s :=
    .of_forall hrun fun _ _ _ => trivial
  have hcount := hgood.countP_le (fun _ => true) (potential elements) fun _ _ _ _ _ _ hstep =>
    potential_step hstep
  have hinit : potential elements (tasks E policy elements).init = 4 * elements.length := by
    simp [potential, tasks, Task.stepsLeft, Nat.mul_comm]
  rw [hinit, List.countP_true] at hcount
  omega

/-- In order and under `abort`, a task that got past the check has only tasks
that returned before it. -/
structure OrderInv (acts : List (Action E)) (s : State E) : Prop where
  prefix_invoked : ∃ k, invoked acts = List.range k
  before : ∀ i, s.task i = .checked ∨ (s.task i).called = true → ∀ j < i, s.task j = .returned

/-- The step that takes a task past the check, or that it takes behind it. -/
theorem OrderInv.returned_of_advance (h : OrderInv acts s) (hinv : Inv .abort elements acts s)
    {i : Nat} {event : Event E} {t : Task E} (hended : ∀ j < i, (s.task j).ended = true)
    (hadvance : advance .abort s.exception (s.task i) event = some t)
    (ht : t = .checked ∨ t.called = true) : ∀ j < i, s.task j = .returned := by
  generalize htask : s.task i = current at hadvance
  cases advance_cases hadvance with
  | skip => rcases ht with ht | ht <;> cases ht
  | pass _ hnone =>
      intro j hj
      rcases ended_cases (hended j hj) with hreturned | ⟨e, he⟩
      · exact hreturned
      · exact absurd hnone (hinv.kept j e he)
  | invokeUnchecked hpolicy => cases hpolicy
  | invokeChecked => exact h.before i (.inl htask)
  | returns => exact h.before i (.inr (by rw [htask]; rfl))
  | throws => exact h.before i (.inr (by rw [htask]; rfl))
  | store => exact h.before i (.inr (by rw [htask]; rfl))

theorem orderInv_step (hinv : Inv .abort elements acts s) (h : OrderInv acts s)
    (hgood : inOrder s a) (hstep : step .abort elements s a = some s') :
    OrderInv (acts ++ [a]) s' := by
  obtain ⟨t, hadvance, -, hself, hother, -⟩ := step_inv hstep
  have hended := advance_not_ended hadvance
  -- a task that has returned is not the one that takes the step
  have hreturned : ∀ j, s.task j = .returned → s'.task j = .returned := by
    intro j hj
    rw [hother j, hj]
    rintro rfl
    rw [hj] at hended
    cases hended
  have hpassed : t = .checked ∨ t.called = true → ∀ j < a.index, s.task j = .returned :=
    h.returned_of_advance hinv hgood hadvance
  constructor
  · obtain ⟨k, hk⟩ := h.prefix_invoked
    rw [invoked_snoc, hk]
    cases hinvoke : a.event.isInvoke with
    | false => exact ⟨k, List.append_nil _⟩
    | true =>
        have hmem : ∀ i, i < k ↔ (s.task i).called = true := by
          intro i
          rw [← hinv.called i, hk, List.mem_range]
        have hge : ¬a.index < k := by
          rw [hmem, advance_fresh hadvance hinvoke]
          exact Bool.false_ne_true
        have hle : ¬k < a.index := by
          intro hlt
          have hcalled := (advance_called hadvance).mpr (.inr hinvoke)
          have hlast := (hmem k).mpr (by rw [hpassed (.inr hcalled) k hlt]; rfl)
          exact absurd hlast (Nat.lt_irrefl k)
        have heq : a.index = k := by omega
        exact ⟨k + 1, by rw [if_pos rfl, heq, List.range_succ]⟩
  · intro i hi j hj
    by_cases hne : i = a.index
    · subst hne
      rw [hself] at hi
      exact hreturned j (hpassed hi j hj)
    · rw [hother i hne] at hi
      exact hreturned j (h.before i hi j hj)

theorem orderInv_run (hrun : (tasks E .abort elements).GoodRun inOrder acts s) :
    OrderInv acts s := by
  induction hrun with
  | nil =>
      refine ⟨⟨0, rfl⟩, ?_⟩
      rintro i (hi | hi) <;> cases hi
  | snoc hprev hgood hstep ih => exact orderInv_step (inv_run hprev.reaches) ih hgood hstep

/-- Exactly the elements up to the first that throws are called, and what that
one throws is the result. -/
def PrefixCalled (elements : List α) (acts : List (Action E)) (s : State E) : Prop :=
  (invoked acts = List.range elements.length ∧ (∀ i e, ⟨i, .throws e⟩ ∉ acts) ∧
    s.result = none) ∨
  ∃ k e, k < elements.length ∧ invoked acts = List.range (k + 1) ∧
    (∀ i e', ⟨i, .throws e'⟩ ∈ acts ↔ i = k ∧ e' = e) ∧ s.result = some e

theorem prefixCalled_of_stored (hinv : Inv .abort elements acts s) (horder : OrderInv acts s)
    (hdone : Finished elements s) {k : Nat} {e : E} (hk : s.task k = .stored e)
    (hexception : s.exception = some e) : PrefixCalled elements acts s := by
  obtain ⟨n, hn⟩ := horder.prefix_invoked
  -- nothing behind a task that threw was called
  have hlast : ∀ i, i ∈ invoked acts → i ≤ k := by
    intro i hi
    by_contra hlt
    have hreturned := horder.before i (.inr ((hinv.called i).mp hi)) k (Nat.lt_of_not_le hlt)
    rw [hk] at hreturned
    cases hreturned
  have hbefore : ∀ i < k, s.task i = .returned := horder.before k (.inr (by rw [hk]; rfl))
  have hmem := (threw_of_stored hinv hk).1
  have hrange : n = k + 1 := by
    rw [hn, List.mem_range] at hmem
    have hle := hlast (n - 1) (by rw [hn, List.mem_range]; omega)
    omega
  have hthrows : ∀ i e', ⟨i, .throws e'⟩ ∈ acts ↔ i = k ∧ e' = e := by
    intro i e'
    constructor
    · intro hthrows
      have htask := threw_stored hinv hdone hthrows
      have hle := hlast i (threw_of_stored hinv htask).1
      have heq : i = k := by
        by_contra hne
        rw [hbefore i (by omega)] at htask
        cases htask
      subst heq
      rw [hk] at htask
      cases htask
      exact ⟨rfl, rfl⟩
    · rintro ⟨rfl, rfl⟩
      exact (threw_of_stored hinv hk).2
  exact .inr ⟨k, e, invoked_lt hinv hmem, by rw [hn, hrange], hthrows, hexception⟩

theorem prefixCalled_of_none (hinv : Inv .abort elements acts s) (horder : OrderInv acts s)
    (hdone : Finished elements s) (hnone : s.exception = none) : PrefixCalled elements acts s := by
  obtain ⟨n, hn⟩ := horder.prefix_invoked
  have hall : ∀ i, i ∈ invoked acts ↔ i < elements.length := by
    intro i
    refine ⟨invoked_lt hinv, fun hi => ?_⟩
    rcases ended_cases (hdone i hi) with htask | ⟨e, htask⟩
    · exact (hinv.called i).mpr (by rw [htask]; rfl)
    · exact absurd hnone (hinv.kept i e htask)
  have hlength : n = elements.length := by
    have hlt := hall n
    have hle := hall elements.length
    rw [hn, List.mem_range] at hlt hle
    omega
  refine .inl ⟨by rw [hn, hlength], ?_, hnone⟩
  intro i e hthrows
  exact hinv.kept i e (.inl (threw_stored hinv hdone hthrows)) hnone

theorem prefixCalled_of_inOrder (hrun : (tasks E .abort elements).GoodRun inOrder acts s)
    (hdone : Finished elements s) : PrefixCalled elements acts s := by
  have hinv := inv_run hrun.reaches
  have horder := orderInv_run hrun
  cases hexception : s.exception with
  | none => exact prefixCalled_of_none hinv horder hdone hexception
  | some e =>
      obtain ⟨k, hk⟩ := hinv.source e hexception
      exact prefixCalled_of_stored hinv horder hdone hk hexception

/-- The guarantees of `for_each`, whatever the tasks do and in whatever order. They take a
bounded number of steps, and none is left exactly when `std::for_each` returns. -/
theorem forEach_tasks (policy : JobPolicy) (elements : List α) (acts : List (Action E))
    (s : State E) (hrun : (tasks E policy elements).Reaches acts s) :
    acts.length ≤ 4 * elements.length ∧
    (Finished elements s ↔ ∀ a, (tasks E policy elements).step s a = none) ∧
    (Finished elements s →
      (policy = .proceed → (invoked acts).Perm (List.range elements.length)) ∧
      (policy = .abort → (invoked acts).Nodup ∧ (∀ i ∈ invoked acts, i < elements.length) ∧
        ∀ i < elements.length, i ∉ invoked acts → SawStored policy elements acts i) ∧
      (s.result ≠ none ↔ ∃ i e, i ∈ invoked acts ∧ ⟨i, .throws e⟩ ∈ acts) ∧
      (∀ e, s.result = some e → ∃ i ∈ invoked acts, ⟨i, .throws e⟩ ∈ acts) ∧
      (policy = .abort → (tasks E policy elements).GoodRun inOrder acts s →
        PrefixCalled elements acts s)) := by
  have hinv := inv_run hrun
  have hsource : ∀ e, s.result = some e → ∃ i ∈ invoked acts, ⟨i, .throws e⟩ ∈ acts := by
    intro e he
    obtain ⟨i, hi⟩ := hinv.source e he
    exact ⟨i, threw_of_stored hinv hi⟩
  refine ⟨length_le hrun, finished_iff, fun hdone => ⟨?_, ?_, ?_, hsource, ?_⟩⟩
  · rintro rfl
    apply (List.perm_ext_iff_of_nodup hinv.once List.nodup_range).mpr
    intro i
    rw [List.mem_range]
    refine ⟨invoked_lt hinv, fun hi => ?_⟩
    rcases invoked_or_skipped hinv hdone hi with hinvoked | ⟨habort, -⟩
    · exact hinvoked
    · cases habort
  · intro _
    refine ⟨hinv.once, fun i => invoked_lt hinv, ?_⟩
    intro i hi hnot
    exact ((invoked_or_skipped hinv hdone hi).resolve_left hnot).2
  · constructor
    · intro hresult
      obtain ⟨e, he⟩ := Option.ne_none_iff_exists'.mp hresult
      obtain ⟨i, hi⟩ := hsource e he
      exact ⟨i, e, hi⟩
    · rintro ⟨i, e, -, hthrows⟩
      exact hinv.kept i e (.inl (threw_stored hinv hdone hthrows))
  · rintro rfl hordered
    exact prefixCalled_of_inOrder hordered hdone

/-- The call on the first of two elements throws, and the second task sees it. -/
def abortRun : List (Action Nat) :=
  [⟨0, .check⟩, ⟨0, .invoke⟩, ⟨0, .throws 7⟩, ⟨0, .store⟩, ⟨1, .check⟩]

/-- Both calls throw, and the first exception replaces the second. -/
def proceedRun : List (Action Nat) :=
  [⟨0, .invoke⟩, ⟨1, .invoke⟩, ⟨0, .throws 7⟩, ⟨1, .throws 8⟩, ⟨1, .store⟩, ⟨0, .store⟩]

/-- Where the run ends. -/
def endOf (policy : JobPolicy) (acts : List (Action Nat)) : State Nat :=
  ((tasks Nat policy [10, 20]).exec (tasks Nat policy [10, 20]).init acts).getD
    (tasks Nat policy [10, 20]).init

theorem forEach_tasks_both_policies :
    ((invoked abortRun).Nodup ∧ SawStored .abort [10, 20] abortRun 1 ∧
      (endOf .abort abortRun).result ≠ none ∧
      PrefixCalled [10, 20] abortRun (endOf .abort abortRun)) ∧
    (invoked proceedRun).Perm [0, 1] ∧ (endOf .proceed proceedRun).result ≠ none := by
  constructor
  · have hrun : (tasks Nat .abort [10, 20]).Reaches abortRun (endOf .abort abortRun) := rfl
    have hdone : Finished [10, 20] (endOf .abort abortRun) := by
      intro i hi
      match i, hi with
      | 0, _ => rfl
      | 1, _ => rfl
    have hordered : ((tasks Nat .abort [10, 20]).restrict inOrder).Reaches abortRun
        (endOf .abort abortRun) := rfl
    obtain ⟨-, habort, hthrows, -, hprefix⟩ :=
      (forEach_tasks .abort [10, 20] abortRun (endOf .abort abortRun) hrun).2.2 hdone
    obtain ⟨honce, -, hsaw⟩ := habort rfl
    exact ⟨honce, hsaw 1 (by decide) (by decide),
      hthrows.mpr ⟨0, 7, by decide, by simp [abortRun]⟩, hprefix rfl (.of_restrict hordered)⟩
  · have hrun : (tasks Nat .proceed [10, 20]).Reaches proceedRun (endOf .proceed proceedRun) := rfl
    have hdone : Finished [10, 20] (endOf .proceed proceedRun) := by
      intro i hi
      match i, hi with
      | 0, _ => rfl
      | 1, _ => rfl
    obtain ⟨hproceed, -, hthrows, -⟩ :=
      (forEach_tasks .proceed [10, 20] proceedRun (endOf .proceed proceedRun) hrun).2.2 hdone
    exact ⟨hproceed rfl, hthrows.mpr ⟨0, 7, by decide, by simp [proceedRun]⟩⟩

end YkUtil.ParForEach
