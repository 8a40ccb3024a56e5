import Mathlib.Data.Option.Basic
import Mathlib.Tactic.TypeStar

/-!
Deterministic machines that answer one input at a time. An input may get no
answer at all, and then the machine does not go on.
-/

namespace YkUtil.Lib.Machine

variable {σ τ ι ο : Type*}

/-- The answers to a list of inputs; `none` if one of them gets none. -/
def outputs (step : σ → ι → Option (σ × ο)) : σ → List ι → Option (List ο)
  | _, [] => some []
  | s, input :: rest =>
      (step s input).bind fun answer => (outputs step answer.1 rest).map (answer.2 :: ·)

/-- Related states give the same answers, and the states after them are
related again. -/
def Simulates (R : σ → τ → Prop) (step : σ → ι → Option (σ × ο))
    (step' : τ → ι → Option (τ × ο)) : Prop :=
  ∀ s t input, R s t →
    Option.Rel (fun a b => R a.1 b.1 ∧ a.2 = b.2) (step s input) (step' t input)

theorem Simulates.outputs_eq {R : σ → τ → Prop} {step : σ → ι → Option (σ × ο)}
    {step' : τ → ι → Option (τ × ο)} (h : Simulates R step step') {s : σ} {t : τ} (hst : R s t)
    (inputs : List ι) : outputs step s inputs = outputs step' t inputs := by
  induction inputs generalizing s t with
  | nil => rfl
  | cons input rest ih =>
      have hrel := h s t input hst
      rw [outputs, outputs]
      generalize step s input = answer at hrel
      generalize step' t input = answer' at hrel
      cases hrel with
      | none => rfl
      | some hsame => rw [Option.bind_some, Option.bind_some, ih hsame.1, hsame.2]

end YkUtil.Lib.Machine
