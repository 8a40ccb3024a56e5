import Mathlib.Data.List.Forall2
import Mathlib.Data.List.ReduceOption
import YkUtil.Lib.TransitionSystem

/-!
A transition system that does what another one does, step for step or with steps in
between that the other one does not see. Each run then has a run of the other system
behind it, and what the two runs count is compared action by action.
-/

namespace YkUtil.Lib

universe u v

variable {σ τ : Type u} {α β : Type v}

/-- Along `abs`, a step of `concrete` from a state with the invariant is a good step of
`abstract`, or none. `Matched` says which actions may stand for which. -/
structure Simulation (concrete : TransitionSystem σ α) (abstract : TransitionSystem τ β)
    (good : τ → β → Prop) (abs : σ → τ) (inv : σ → Prop) (Matched : α → Option β → Prop) :
    Prop where
  init : inv concrete.init ∧ abs concrete.init = abstract.init
  keeps : ∀ s a t, inv s → concrete.step s a = some t → inv t
  step : ∀ s a t, inv s → concrete.step s a = some t →
    (abs t = abs s ∧ Matched a none) ∨
      ∃ b, good (abs s) b ∧ abstract.step (abs s) b = some (abs t) ∧ Matched a (some b)

namespace Simulation

variable {concrete : TransitionSystem σ α} {abstract : TransitionSystem τ β}
  {good : τ → β → Prop} {abs : σ → τ} {inv : σ → Prop} {Matched : α → Option β → Prop}

theorem invariant (h : Simulation concrete abstract good abs inv Matched) {s : σ}
    (hs : concrete.Reachable s) : inv s :=
  concrete.invariant h.init.1 (fun s a t _ hinv hstep => h.keeps s a t hinv hstep) hs

/-- The run behind a run whose steps satisfy a side condition. -/
theorem goodRun (h : Simulation concrete abstract good abs inv Matched)
    {before : σ → α → Prop} {after : τ → β → Prop}
    (hafter : ∀ s a b, before s a → Matched a (some b) → good (abs s) b → after (abs s) b)
    {acts : List α} {s : σ} (hrun : concrete.GoodRun before acts s) :
    ∃ labels : List (Option β), List.Forall₂ Matched acts labels ∧
      abstract.GoodRun after labels.reduceOption (abs s) := by
  induction hrun with
  | nil =>
      refine ⟨[], .nil, ?_⟩
      rw [h.init.2]
      exact .nil
  | @snoc acts s t a hprev hbefore hstep ih =>
      obtain ⟨labels, hmatched, hgood⟩ := ih
      rcases h.step s a t (h.invariant hprev.reaches.reachable) hstep with
        ⟨hsame, hnone⟩ | ⟨b, hb, hbstep, hsome⟩
      · refine ⟨labels ++ [none], List.rel_append hmatched (.cons hnone .nil), ?_⟩
        rw [List.reduceOption_append, List.reduceOption_singleton, hsame]
        simpa using hgood
      · refine ⟨labels ++ [some b], List.rel_append hmatched (.cons hsome .nil), ?_⟩
        rw [List.reduceOption_append, List.reduceOption_singleton]
        exact hgood.snoc (hafter s a b hbefore hsome hb) hbstep

/-- The run behind a run. -/
theorem run (h : Simulation concrete abstract good abs inv Matched) {acts : List α} {s : σ}
    (hrun : concrete.Reaches acts s) :
    ∃ labels : List (Option β), List.Forall₂ Matched acts labels ∧
      abstract.GoodRun good labels.reduceOption (abs s) :=
  h.goodRun (fun _ _ _ _ _ hgood => hgood)
    (.of_forall hrun fun _ _ _ => trivial)

end Simulation

section Count

variable {Matched : α → Option β → Prop} {acts : List α} {labels : List (Option β)}
  {p : α → Bool} {q : β → Bool}

/-- Counted actions of a run that are counted in the run behind it too. -/
theorem countP_le_reduceOption (h : List.Forall₂ Matched acts labels)
    (hsome : ∀ a label, Matched a label → p a = true → ∃ b, label = some b ∧ q b = true) :
    acts.countP p ≤ labels.reduceOption.countP q := by
  induction h with
  | nil => exact Nat.le_refl 0
  | @cons a label acts labels hmatched _ ih =>
      rw [List.countP_cons]
      split
      · rename_i hp
        obtain ⟨b, rfl, hq⟩ := hsome a label hmatched hp
        rw [List.reduceOption_cons_of_some, List.countP_cons, if_pos hq]
        omega
      · cases label with
        | none => simpa using ih
        | some b =>
            rw [List.reduceOption_cons_of_some, List.countP_cons]
            omega

/-- Counted actions of the run behind that are counted in front of it too. -/
theorem reduceOption_countP_le (h : List.Forall₂ Matched acts labels)
    (hsome : ∀ a b, Matched a (some b) → q b = true → p a = true) :
    labels.reduceOption.countP q ≤ acts.countP p := by
  induction h with
  | nil => exact Nat.le_refl 0
  | @cons a label acts labels hmatched _ ih =>
      rw [List.countP_cons]
      cases label with
      | none =>
          rw [List.reduceOption_cons_of_none]
          omega
      | some b =>
          rw [List.reduceOption_cons_of_some, List.countP_cons]
          by_cases hq : q b = true
          · rw [if_pos hq, if_pos (hsome a b hmatched hq)]
            omega
          · rw [if_neg hq]
            omega

end Count

end YkUtil.Lib
