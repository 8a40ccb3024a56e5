import Mathlib.Data.List.Induction
import Mathlib.Logic.Function.Basic

/-!
Transition systems given by a partial step function. An action that is not
enabled in a state has no successor there. A run is the list of actions that
were taken, so the states it passes through are determined by it, and a
property of runs can mention both the actions so far and the state reached.
-/

namespace YkUtil.Lib

/-- An initial state and a step function; `none` means "not enabled". -/
structure TransitionSystem (σ α : Type*) where
  init : σ
  step : σ → α → Option σ

namespace TransitionSystem

variable {σ α : Type*} (ts : TransitionSystem σ α)

/-- Take the actions one after another. -/
def exec (s : σ) : List α → Option σ
  | [] => some s
  | a :: rest => (ts.step s a).bind fun t => exec t rest

/-- The actions lead from the initial state to `s`. -/
def Reaches (acts : List α) (s : σ) : Prop := ts.exec ts.init acts = some s

def Reachable (s : σ) : Prop := ∃ acts, ts.Reaches acts s

theorem exec_append (s : σ) (first second : List α) :
    ts.exec s (first ++ second) =
      (ts.exec s first).bind fun t => ts.exec t second := by
  induction first generalizing s with
  | nil => rfl
  | cons a rest ih =>
      simp only [List.cons_append, exec]
      cases ts.step s a with
      | none => rfl
      | some t => exact ih t

theorem exec_snoc {s t u : σ} {acts : List α} {a : α}
    (hrun : ts.exec s acts = some t) (hstep : ts.step t a = some u) :
    ts.exec s (acts ++ [a]) = some u := by
  rw [exec_append, hrun]
  simp [exec, hstep]

theorem exec_snoc_inv {s u : σ} {acts : List α} {a : α}
    (hrun : ts.exec s (acts ++ [a]) = some u) :
    ∃ t, ts.exec s acts = some t ∧ ts.step t a = some u := by
  rw [exec_append, Option.bind_eq_some_iff] at hrun
  obtain ⟨t, ht, hlast⟩ := hrun
  refine ⟨t, ht, ?_⟩
  simpa [exec, Option.bind_eq_some_iff] using hlast

theorem Reaches.snoc {ts : TransitionSystem σ α} {acts : List α} {s t : σ} {a : α}
    (hrun : ts.Reaches acts s) (hstep : ts.step s a = some t) :
    ts.Reaches (acts ++ [a]) t :=
  ts.exec_snoc hrun hstep

theorem Reaches.reachable {ts : TransitionSystem σ α} {acts : List α} {s : σ}
    (hrun : ts.Reaches acts s) : ts.Reachable s := ⟨acts, hrun⟩

/-- Running a list of actions and observing the state it ends in. -/
theorem exists_of_map {β : Type*} (acts : List α) (f : σ → β) {b : β}
    (h : (ts.exec ts.init acts).map f = some b) : ∃ s, ts.Reaches acts s ∧ f s = b :=
  Option.map_eq_some_iff.mp h

theorem reachable_init : ts.Reachable ts.init := ⟨[], rfl⟩

theorem Reachable.step {ts : TransitionSystem σ α} {s t : σ} {a : α}
    (hs : ts.Reachable s) (hstep : ts.step s a = some t) : ts.Reachable t := by
  obtain ⟨acts, hrun⟩ := hs
  exact ⟨acts ++ [a], hrun.snoc hstep⟩

/-- The rule for properties of whole runs: the actions so far and the state
they lead to. -/
theorem run_induction {P : List α → σ → Prop} (hinit : P [] ts.init)
    (hstep : ∀ acts s a t, ts.Reaches acts s → P acts s →
      ts.step s a = some t → P (acts ++ [a]) t) :
    ∀ acts s, ts.Reaches acts s → P acts s := by
  intro acts
  induction acts using List.reverseRecOn with
  | nil =>
      intro s hs
      cases hs
      exact hinit
  | append_singleton acts a ih =>
      intro s hs
      obtain ⟨t, ht, hlast⟩ := ts.exec_snoc_inv hs
      exact hstep acts t a s ht (ih t ht) hlast

/-- The same rule for the actions that follow a state. -/
theorem exec_induction {P : List α → σ → Prop} {u : σ} (hinit : P [] u)
    (hstep : ∀ acts s a t, P acts s → ts.step s a = some t → P (acts ++ [a]) t) :
    ∀ acts s, ts.exec u acts = some s → P acts s := by
  intro acts
  induction acts using List.reverseRecOn with
  | nil =>
      intro s hs
      cases hs
      exact hinit
  | append_singleton acts a ih =>
      intro s hs
      obtain ⟨t, ht, hlast⟩ := ts.exec_snoc_inv hs
      exact hstep acts t a s (ih t ht) hlast

/-- The rule for inductive invariants. -/
theorem invariant {P : σ → Prop} (hinit : P ts.init)
    (hstep : ∀ s a t, ts.Reachable s → P s → ts.step s a = some t → P t)
    {s : σ} (hs : ts.Reachable s) : P s := by
  obtain ⟨acts, hrun⟩ := hs
  exact ts.run_induction (P := fun _ s => P s) hinit
    (fun _ s a t hr hp ht => hstep s a t hr.reachable hp ht) acts s hrun

/-- Some state satisfying `Q` is passed after the first `n` actions of the
run, the state before the next action included. -/
def Visits (acts : List α) (n : Nat) (Q : σ → Prop) : Prop :=
  ∃ before after s, acts = before ++ after ∧ n ≤ before.length ∧
    ts.Reaches before s ∧ Q s

theorem Visits.now {ts : TransitionSystem σ α} {acts : List α} {n : Nat}
    {Q : σ → Prop} {s : σ} (hrun : ts.Reaches acts s)
    (hn : n ≤ acts.length) (hq : Q s) : ts.Visits acts n Q :=
  ⟨acts, [], s, by simp, hn, hrun, hq⟩

theorem Visits.snoc {ts : TransitionSystem σ α} {acts : List α} {n : Nat}
    {Q : σ → Prop} (h : ts.Visits acts n Q) (a : α) :
    ts.Visits (acts ++ [a]) n Q := by
  obtain ⟨before, after, s, hacts, hn, hrun, hq⟩ := h
  exact ⟨before, after ++ [a], s, by rw [hacts, List.append_assoc], hn, hrun, hq⟩

/-- A run whose steps all satisfy a side condition. -/
inductive GoodRun (good : σ → α → Prop) : List α → σ → Prop where
  | nil : GoodRun good [] ts.init
  | snoc {acts : List α} {s t : σ} {a : α} : GoodRun good acts s →
      good s a → ts.step s a = some t → GoodRun good (acts ++ [a]) t

theorem GoodRun.reaches {ts : TransitionSystem σ α} {good : σ → α → Prop}
    {acts : List α} {s : σ} (h : ts.GoodRun good acts s) : ts.Reaches acts s := by
  induction h with
  | nil => rfl
  | snoc _ _ hstep ih => exact ih.snoc hstep

/-- A run of actions that are good in every state. -/
theorem GoodRun.of_forall {ts : TransitionSystem σ α} {good : σ → α → Prop}
    {acts : List α} {s : σ} (h : ts.Reaches acts s) (hgood : ∀ a ∈ acts, ∀ s, good s a) :
    ts.GoodRun good acts s := by
  induction acts using List.reverseRecOn generalizing s with
  | nil =>
      cases h
      exact .nil
  | append_singleton acts a ih =>
      obtain ⟨t, ht, hlast⟩ := ts.exec_snoc_inv h
      exact .snoc (ih ht fun b hb => hgood b (by simp [hb])) (hgood a (by simp) t) hlast

/-- The system that takes only the steps that satisfy a side condition. -/
def restrict (good : σ → α → Prop) [∀ s a, Decidable (good s a)] : TransitionSystem σ α :=
  {init := ts.init, step := fun s a => if good s a then ts.step s a else none}

theorem GoodRun.of_restrict {ts : TransitionSystem σ α} {good : σ → α → Prop}
    [∀ s a, Decidable (good s a)] {acts : List α} {s : σ}
    (h : (ts.restrict good).Reaches acts s) : ts.GoodRun good acts s := by
  refine (ts.restrict good).run_induction (P := ts.GoodRun good) .nil ?_ acts s h
  intro acts s a t _ hs hstep
  simp only [restrict, Option.ite_none_right_eq_some] at hstep
  exact hs.snoc hstep.1 hstep.2

/-- An invariant of all steps that satisfy a side condition holds at the end
of every run whose steps all satisfy it. -/
theorem GoodRun.invariant {ts : TransitionSystem σ α} {good : σ → α → Prop}
    {P : σ → Prop} (hinit : P ts.init)
    (hstep : ∀ s a t, ts.Reachable s → good s a → P s → ts.step s a = some t → P t)
    {acts : List α} {s : σ} (h : ts.GoodRun good acts s) : P s := by
  induction h with
  | nil => exact hinit
  | snoc hprev hgood hs ih => exact hstep _ _ _ hprev.reaches.reachable hgood ih hs

/-- Where the counted actions use up a potential that no action raises, a run
has no more of them than the potential it starts with. -/
theorem GoodRun.countP_le {ts : TransitionSystem σ α} {good : σ → α → Prop} (counted : α → Bool)
    (potential : σ → Nat)
    (hstep : ∀ acts s a t, ts.GoodRun good acts s → good s a → ts.step s a = some t →
      potential t + (if counted a then 1 else 0) ≤ potential s)
    {acts : List α} {s : σ} (hrun : ts.GoodRun good acts s) :
    potential s + acts.countP counted ≤ potential ts.init := by
  induction hrun with
  | nil => exact Nat.le_refl _
  | snoc hprev hgood hst ih =>
      have hdelta := hstep _ _ _ _ hprev hgood hst
      rw [List.countP_append, List.countP_singleton]
      omega

theorem Reaches.unique {ts : TransitionSystem σ α} {acts : List α} {s t : σ}
    (hs : ts.Reaches acts s) (ht : ts.Reaches acts t) : s = t :=
  Option.some.inj (hs.symm.trans ht)

theorem GoodRun.snoc_inv {ts : TransitionSystem σ α} {good : σ → α → Prop} {acts : List α}
    {a : α} {s : σ} (h : ts.GoodRun good (acts ++ [a]) s) :
    ∃ t, ts.GoodRun good acts t ∧ good t a ∧ ts.step t a = some s := by
  generalize hacts : acts ++ [a] = run at h
  cases h with
  | nil => simp at hacts
  | snoc hprev hgood hstep =>
      obtain ⟨rfl, hlast⟩ := List.append_inj' hacts rfl
      cases hlast
      exact ⟨_, hprev, hgood, hstep⟩

theorem GoodRun.of_append {ts : TransitionSystem σ α} {good : σ → α → Prop}
    {before after : List α} {s : σ} (h : ts.GoodRun good (before ++ after) s) :
    ∃ u, ts.GoodRun good before u := by
  induction after using List.reverseRecOn generalizing s with
  | nil => exact ⟨s, by simpa using h⟩
  | append_singleton after a ih =>
      rw [← List.append_assoc] at h
      obtain ⟨t, hprev, -, -⟩ := h.snoc_inv
      exact ih hprev

/-- An invariant of all steps that satisfy a side condition, from a state on that the
run passes. -/
theorem GoodRun.invariant_from {ts : TransitionSystem σ α} {good : σ → α → Prop}
    {P : σ → Prop} {before after : List α} {u s : σ} (hu : ts.Reaches before u) (hinit : P u)
    (hstep : ∀ acts s a t, ts.GoodRun good acts s → good s a → P s → ts.step s a = some t → P t)
    (h : ts.GoodRun good (before ++ after) s) : P s := by
  induction after using List.reverseRecOn generalizing s with
  | nil =>
      rw [List.append_nil] at h
      rwa [h.reaches.unique hu]
  | append_singleton after a ih =>
      rw [← List.append_assoc] at h
      obtain ⟨t, hprev, hgood, hlast⟩ := h.snoc_inv
      exact hstep _ t a s hprev hgood (ih hprev) hlast

/-- Where a step keeps `P` exactly if it satisfies the side condition, `P`
holds all along a run exactly if all its steps satisfy it. -/
theorem along_iff_goodRun {ts : TransitionSystem σ α} {good : σ → α → Prop} {P : σ → Prop}
    (hinit : P ts.init)
    (hstep : ∀ s a t, ts.Reachable s → P s → ts.step s a = some t → (P t ↔ good s a))
    {acts : List α} {s : σ} (hrun : ts.Reaches acts s) :
    (∀ before after u, acts = before ++ after → ts.Reaches before u → P u) ↔
      ts.GoodRun good acts s := by
  constructor
  · intro hall
    induction acts using List.reverseRecOn generalizing s with
    | nil =>
        cases hrun
        exact .nil
    | append_singleton acts a ih =>
        obtain ⟨t, ht, hlast⟩ := ts.exec_snoc_inv hrun
        have hprev := ih ht fun before after u hacts =>
          hall before (after ++ [a]) u (by rw [hacts, List.append_assoc])
        have hpt := hall acts [a] t rfl ht
        have hps := hall (acts ++ [a]) [] s (List.append_nil _).symm hrun
        have hreach : ts.Reachable t := ⟨acts, ht⟩
        exact hprev.snoc ((hstep t a s hreach hpt hlast).mp hps) hlast
  · rintro hgood before after u rfl hu
    obtain ⟨u', hgood'⟩ := hgood.of_append
    rw [hu.unique hgood'.reaches]
    exact hgood'.invariant hinit fun s a t hs ha hp hst => (hstep s a t hs hp hst).mpr ha

end TransitionSystem

end YkUtil.Lib
