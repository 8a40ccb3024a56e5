import Mathlib.Data.List.Forall2

/-!
`yk::visit` over several variants. Variants are peeled off from the front: each
is bound into a `BoundVisitor`, which visits it when the one behind it has been
visited, and `BindBack` puts the alternative of that one behind its own. Which
calls compile, and the type of their results, is a question about types alone, so every
function has a static side that sees the types and a dynamic side that runs. What
`boost::apply_visitor` does is a parameter.
-/

namespace YkUtil.Variant

universe t u v w

variable {Ty : Type u} {El : Ty → Type v} {ResTy : Type t} {Val : ResTy → Type w}

inductive ValueCategory where
  | lvalue
  | rvalue
  deriving DecidableEq

inductive Kind where
  | std
  | boost
  deriving DecidableEq

/-- The type of an argument, with the constness of its variant in it. -/
structure ArgType (Ty : Type u) where
  type : Ty
  category : ValueCategory

structure Arg (El : Ty → Type v) where
  type : Ty
  category : ValueCategory
  value : El type

def Arg.argType (x : Arg El) : ArgType Ty := {type := x.type, category := x.category}

/-- The type of a variant that is passed to `visit`. -/
structure VariantType (Ty : Type u) where
  kind : Kind
  alternatives : List Ty
  nonempty : alternatives ≠ []
  category : ValueCategory

/-- A variant with its active alternative, or none if it is valueless, which a
`boost::variant` never is. -/
structure VariantExpr (El : Ty → Type v) extends VariantType Ty where
  active : Option (Σ i : Fin alternatives.length, El (alternatives.get i))
  neverEmpty : kind = .boost → active.isSome

inductive Fault where
  | badVariantAccess
  /-- Stands for a call that does not compile. -/
  | noOverload
  deriving DecidableEq

/-- A result, with its type. -/
abbrev Value (Val : ResTy → Type w) := Σ r, Val r

/-- The types of results. `convert` is the conversion that `std::visit<Res>` makes, if
there is one; to `void` it drops the result. -/
structure Results (Val : ResTy → Type w) where
  void : ResTy
  convert : (r res : ResTy) → Option (Val r → Val res)
  convert_self : ∀ r, convert r r = some id

/-- The calls of the visitor and what is returned or thrown. -/
structure Run (El : Ty → Type v) (Val : ResTy → Type w) where
  calls : List (List (Arg El))
  result : Except Fault (Value Val)

/-- What the templates see of a function object: how it is passed, whether it
can be moved, and the type of what it returns for arguments that it can be called
with. -/
structure Signature (Ty : Type u) (ResTy : Type t) where
  category : ValueCategory
  movable : Bool
  result : List (ArgType Ty) → Option ResTy

structure Visitor (El : Ty → Type v) (Val : ResTy → Type w) extends Signature Ty ResTy where
  invoke : List (Arg El) → Value Val
  typed : ∀ args r, result (args.map Arg.argType) = some r → (invoke args).1 = r

def Visitor.call (vis : Visitor El Val) (xs : List (Arg El)) : Run El Val :=
  ⟨[xs], .ok (vis.invoke xs)⟩

/-- A name of an object is an lvalue, whatever the object was made from. -/
def ArgType.asLvalue (t : ArgType Ty) : ArgType Ty := {t with category := .lvalue}

def Arg.asLvalue (x : Arg El) : Arg El := {x with category := .lvalue}

def VariantType.asLvalue (v : VariantType Ty) : VariantType Ty := {v with category := .lvalue}

def VariantExpr.asLvalue (v : VariantExpr El) : VariantExpr El := {v with category := .lvalue}

/-- `boost::apply_visitor`: the type of what a call returns, if it compiles, and the
call. -/
structure BoostApplyVisitor (El : Ty → Type v) (Val : ResTy → Type w) where
  type : Signature Ty ResTy → VariantType Ty → Option ResTy
  run : (List (Arg El) → Run El Val) → VariantExpr El → Run El Val

/-- What is known of it: the visitor has to take every alternative, a result type that all
of them have in common is that of the call, and the visitor is called with the content
of the variant. -/
structure BoostApplyVisitor.Documented (boost : BoostApplyVisitor El Val) : Prop where
  accepted : ∀ f v, v.kind = .boost → (boost.type f v).isSome →
    ∀ t ∈ v.alternatives, (f.result [⟨t, v.category⟩]).isSome
  common : ∀ f v r, v.kind = .boost →
    (∀ t ∈ v.alternatives, f.result [⟨t, v.category⟩] = some r) → boost.type f v = some r
  visits : ∀ call v i x, v.kind = .boost → v.active = some ⟨i, x⟩ →
    boost.run call v = call [⟨v.alternatives.get i, v.category, x⟩]

/-! The static side. An rvalue that is stored in a member is moved there. -/

section Static

variable (movable : Ty → Bool)

def Signature.passable (f : Signature Ty ResTy) : Bool :=
  decide (f.category = .lvalue) || f.movable

def ArgType.passable (t : ArgType Ty) : Bool := decide (t.category = .lvalue) || movable t.type

def VariantType.passable (v : VariantType Ty) : Bool :=
  decide (v.category = .lvalue) || v.alternatives.all movable

/-- `BindBack<Func, Ts...>` -/
def Signature.bindBack (f : Signature Ty ResTy) (ts : List (ArgType Ty)) :
    Signature Ty ResTy where
  category := .rvalue
  movable := f.passable && ts.all (·.passable movable)
  result us := f.result (us ++ ts.map .asLvalue)

variable [DecidableEq ResTy] (results : Results Val)

/-- `is_all_same_v`, and the type. -/
def commonType : List (Option ResTy) → Option ResTy
  | some r :: rest => if ∀ x ∈ rest, x = some r then some r else none
  | _ => none

/-- The type that a visit of a variant returns for a result of the visitor, with an
explicit result type or without one. The `return` of `Wrapper` drops no result. -/
def Results.returned (form : Option ResTy) (kind : Kind) (r : ResTy) : Option ResTy :=
  match form with
  | none => some r
  | some res =>
    if kind = .boost ∧ res = results.void ∧ r ≠ results.void then none
    else if (results.convert r res).isSome then some res
    else none

/-- What a function object returns for each alternative. -/
def Signature.eachResult (f : Signature Ty ResTy) (v : VariantType Ty) : List (Option ResTy) :=
  v.alternatives.map fun t => f.result [⟨t, v.category⟩]

/-- `std::visit` -/
def stdVisit (form : Option ResTy) (f : Signature Ty ResTy) (v : VariantType Ty) :
    Option ResTy :=
  commonType ((f.eachResult v).map (·.bind (results.returned form .std)))

/-- `Wrapper<Visitor, Res>`, which is passed by its name. -/
def Signature.wrapper (f : Signature Ty ResTy) (res : ResTy) : Signature Ty ResTy where
  category := .lvalue
  movable := f.passable
  result ts := (f.result ts).bind (results.returned (some res) .boost)

variable (boost : BoostApplyVisitor El Val)

/-- `apply_visit` and `apply_visit<Res>` of both kinds of variants. For a
`boost::variant` the first asks for one type of result, and the second stores the visitor in
a `Wrapper`. -/
def applyVisit (form : Option ResTy) (f : Signature Ty ResTy) (v : VariantType Ty) :
    Option ResTy :=
  match v.kind, form with
  | .std, form => stdVisit results form f v
  | .boost, none => if (commonType (f.eachResult v)).isSome then boost.type f v else none
  | .boost, some res => if f.passable then boost.type (f.wrapper results res) v else none

/-- `BoundVisitor<Visitor, Variant>` and `BoundVisitorWithRet`, which are called
with one argument. -/
def Signature.boundVisitor (form : Option ResTy) (f : Signature Ty ResTy)
    (v : VariantType Ty) : Signature Ty ResTy where
  category := .rvalue
  movable := f.passable && v.passable movable
  result
    | [t] =>
      if t.passable movable && f.passable then
        applyVisit results boost form (f.bindBack movable [t]) v.asLvalue
      else none
    | _ => none

/-- The type of `visit(vis, v, rest...)` or `visit<Res>(vis, v, rest...)`, if it compiles. -/
def visitType (form : Option ResTy) :
    Signature Ty ResTy → VariantType Ty → List (VariantType Ty) → Option ResTy
  | f, v, [] => applyVisit results boost form f v
  | f, v, v' :: rest =>
    if f.passable && v.passable movable then
      visitType form (f.boundVisitor movable results boost form v) v' rest
    else none

end Static

/-! The dynamic side. -/

section Dynamic

variable (results : Results Val) (boost : BoostApplyVisitor El Val)

/-- A result as a value of the type that is returned. -/
def Results.convertTo (form : Option ResTy) (x : Value Val) : Except Fault (Value Val) :=
  match form with
  | none => .ok x
  | some res =>
    match results.convert x.1 res with
    | some f => .ok ⟨res, f x.2⟩
    | none => .error .noOverload

def Run.returned (form : Option ResTy) (run : Run El Val) : Run El Val :=
  {run with result := run.result.bind (results.convertTo form)}

def stdRun (call : List (Arg El) → Run El Val) (v : VariantExpr El) : Run El Val :=
  match v.active with
  | none => ⟨[], .error .badVariantAccess⟩
  | some ⟨i, x⟩ => call [⟨v.alternatives.get i, v.category, x⟩]

def runVisit (form : Option ResTy) (call : List (Arg El) → Run El Val) (v : VariantExpr El) :
    Run El Val :=
  match v.kind with
  | .std => stdRun (fun xs => (call xs).returned results form) v
  | .boost => boost.run (fun xs => (call xs).returned results form) v

def bindBack (call : List (Arg El) → Run El Val) (args : List (Arg El)) (xs : List (Arg El)) :
    Run El Val :=
  call (xs ++ args.map .asLvalue)

def boundVisitor (form : Option ResTy) (call : List (Arg El) → Run El Val)
    (v : VariantExpr El) : List (Arg El) → Run El Val
  | [x] => runVisit results boost form (bindBack call [x]) v.asLvalue
  | _ => ⟨[], .error .noOverload⟩

def visit (form : Option ResTy) : (List (Arg El) → Run El Val) → VariantExpr El →
    List (VariantExpr El) → Run El Val
  | call, v, [] => runVisit results boost form call v
  | call, v, v' :: rest => visit form (boundVisitor results boost form call v) v' rest

end Dynamic

/-! What a call of `visit` has to do. -/

def Arg.content (x : Arg El) : Σ t, El t := ⟨x.type, x.value⟩

def VariantExpr.content (v : VariantExpr El) : Option (Σ t, El t) :=
  v.active.map fun ⟨i, x⟩ => ⟨v.alternatives.get i, x⟩

/-- One call with the active alternatives in order, whose result is returned as a value of
the type; no call and an exception if a variant has no active alternative. -/
def CallsOnce (results : Results Val) (form : Option ResTy) (vis : Visitor El Val)
    (vs : List (VariantExpr El)) (type : ResTy) (run : Run El Val) : Prop :=
  match vs.mapM VariantExpr.content with
  | some contents => ∃ args : List (Arg El), ∃ y : Val type, args.map Arg.content = contents ∧
      results.convertTo form (vis.invoke args) = .ok ⟨type, y⟩ ∧ run = ⟨[args], .ok ⟨type, y⟩⟩
  | none => run = ⟨[], .error .badVariantAccess⟩

section Meets

variable [DecidableEq ResTy] (results : Results Val) (boost : BoostApplyVisitor El Val)
  (movable : Ty → Bool) (form : Option ResTy) (vis : Visitor El Val) (v : VariantExpr El)

/-- The call compiles and calls the visitor once. -/
def Meets (rest : List (VariantExpr El)) : Prop :=
  ∃ type, visitType movable results boost form vis.toSignature v.toVariantType
      (rest.map VariantExpr.toVariantType) = some type ∧
    CallsOnce results form vis (v :: rest) type (visit results boost form vis.call v rest)

/-- What the code asks for: that all results can be returned as one type, and
more where objects are stored. Three variants are too many. -/
def Supported : List (VariantExpr El) → Prop
  | [] => (form.isSome → v.kind = .boost → vis.passable = true) ∧
      ∃ type, ∀ t ∈ v.alternatives,
        (vis.result [⟨t, v.category⟩]).bind (results.returned form v.kind) = some type
  | [v'] => vis.passable = true ∧ v.passable movable = true ∧ v'.passable movable = true ∧
      ∃ type, ∀ t ∈ v.alternatives, ∀ t' ∈ v'.alternatives,
        (vis.result [⟨t, .lvalue⟩, ⟨t', .lvalue⟩]).bind (results.returned form v.kind) = some type
  | _ => False

end Meets

/-- The visitor can be called with one alternative of each variant. -/
def Visitor.CallableWith (vis : Visitor El Val) (vs : List (VariantType Ty)) : Prop :=
  ∀ args : List (ArgType Ty),
    List.Forall₂ (fun a v => a.type ∈ v.alternatives ∧ a.category = v.category) args vs →
      (vis.result args).isSome

section Static

variable {movable : Ty → Bool} {f : Signature Ty ResTy} {v v' : VariantType Ty}

theorem VariantType.passable_iff :
    v.passable movable = true ↔
      ∀ t ∈ v.alternatives, ArgType.passable movable ⟨t, v.category⟩ = true := by
  simp only [VariantType.passable, ArgType.passable, Bool.or_eq_true, decide_eq_true_eq,
    List.all_eq_true]
  constructor
  · rintro (hlvalue | hmovable) t ht
    · exact .inl hlvalue
    · exact .inr (hmovable t ht)
  · intro h
    by_cases hlvalue : v.category = .lvalue
    · exact .inl hlvalue
    · exact .inr fun t ht => (h t ht).resolve_left hlvalue

theorem bindBack_passable (f : Signature Ty ResTy) (ts : List (ArgType Ty)) :
    (f.bindBack movable ts).passable = (f.passable && ts.all (·.passable movable)) := rfl

variable [DecidableEq ResTy] {results : Results Val} {boost : BoostApplyVisitor El Val}
  {form : Option ResTy} {type : ResTy}

theorem boundVisitor_passable (f : Signature Ty ResTy) (v : VariantType Ty) :
    (f.boundVisitor movable results boost form v).passable =
      (f.passable && v.passable movable) := rfl

theorem commonType_eq_some_iff {types : List (Option ResTy)} (hne : types ≠ []) :
    commonType types = some type ↔ ∀ x ∈ types, x = some type := by
  match types with
  | [] => exact absurd rfl hne
  | none :: rest => simp [commonType]
  | some r :: rest =>
      rw [commonType, Option.ite_none_right_eq_some, List.forall_mem_cons]
      constructor
      · rintro ⟨hrest, hfirst⟩
        exact ⟨hfirst, hfirst ▸ hrest⟩
      · rintro ⟨hfirst, hrest⟩
        exact ⟨hfirst ▸ hrest, hfirst⟩

theorem commonType_results_iff :
    commonType (f.eachResult v) = some type ↔
      ∀ t ∈ v.alternatives, f.result [⟨t, v.category⟩] = some type := by
  rw [commonType_eq_some_iff (by simpa [Signature.eachResult] using v.nonempty)]
  simp only [Signature.eachResult, List.forall_mem_map]

/-- With an explicit result type that one is returned. -/
theorem returned_eq {res r : ResTy} {kind : Kind}
    (h : results.returned (some res) kind r = some type) : type = res := by
  unfold Results.returned at h
  simp only at h
  split at h
  · cases h
  · split at h <;> cases h
    rfl

/-- What has been returned once is returned as it is. -/
theorem returned_returned {r : ResTy} {kind : Kind} (kind' : Kind)
    (h : results.returned form kind r = some type) :
    results.returned form kind' type = some type := by
  cases form with
  | none => rfl
  | some res =>
      cases returned_eq h
      unfold Results.returned
      simp only [results.convert_self]
      rw [if_neg (fun hno => hno.2.2 hno.2.1)]
      rfl

theorem applyVisit_eq_some_iff (hboost : boost.Documented) :
    applyVisit results boost form f v = some type ↔
      (form.isSome → v.kind = .boost → f.passable = true) ∧
        ∀ t ∈ v.alternatives,
          (f.result [⟨t, v.category⟩]).bind (results.returned form v.kind) = some type := by
  unfold applyVisit
  cases hkind : v.kind with
  | std =>
      have hne : (f.eachResult v).map (·.bind (results.returned form .std)) ≠ [] := by
        simpa [Signature.eachResult] using v.nonempty
      simp only [stdVisit, reduceCtorEq, false_implies, implies_true, true_and]
      rw [commonType_eq_some_iff hne]
      simp only [Signature.eachResult, List.forall_mem_map]
  | boost =>
      cases form with
      | none =>
          have hreturned : results.returned none Kind.boost = some := rfl
          simp only [Option.isSome_none, Bool.false_eq_true, false_implies, true_and, hreturned,
            Option.bind_fun_some]
          constructor
          · intro h
            obtain ⟨hcommon, htype⟩ := Option.ite_none_right_eq_some.mp h
            obtain ⟨r, hr⟩ := Option.isSome_iff_exists.mp hcommon
            have hall := commonType_results_iff.mp hr
            rw [hboost.common f v r hkind hall] at htype
            exact Option.some.inj htype ▸ hall
          · intro hall
            rw [commonType_results_iff.mpr hall]
            exact hboost.common f v type hkind hall
      | some res =>
          simp only [Option.isSome_some, true_implies]
          rw [Option.ite_none_right_eq_some]
          refine and_congr_right fun _ => ⟨fun htype => ?_, fun hall => ?_⟩
          · have haccepted := hboost.accepted _ v hkind (Option.isSome_of_mem htype)
            have hall : ∀ t ∈ v.alternatives,
                (f.wrapper results res).result [⟨t, v.category⟩] = some res := by
              intro t ht
              obtain ⟨r, hr⟩ := Option.isSome_iff_exists.mp (haccepted t ht)
              obtain ⟨_, -, hreturned⟩ := Option.bind_eq_some_iff.mp hr
              rw [hr, returned_eq hreturned]
            rw [hboost.common _ v res hkind hall] at htype
            exact Option.some.inj htype ▸ hall
          · exact hboost.common _ v type hkind hall

theorem boundVisitor_result_iff (hboost : boost.Documented) {t : ArgType Ty} :
    (f.boundVisitor movable results boost form v).result [t] = some type ↔
      t.passable movable = true ∧ f.passable = true ∧
        ∀ s ∈ v.alternatives, (f.result [⟨s, .lvalue⟩, t.asLvalue]).bind
          (results.returned form v.kind) = some type := by
  rw [Signature.boundVisitor]
  simp only [Option.ite_none_right_eq_some, Bool.and_eq_true, and_assoc]
  refine and_congr_right fun hpassable => and_congr_right fun hf => ?_
  rw [applyVisit_eq_some_iff hboost]
  -- what `BindBack` stores can be moved on
  have hmoved : (f.bindBack movable [t]).passable = true := by
    simp [bindBack_passable, hpassable, hf]
  exact and_iff_right fun _ _ => hmoved

/-- Nothing that takes one argument only can be bound and then visit. -/
theorem visitType_of_unary (hboost : boost.Documented)
    (hunary : ∀ t t', f.result [t, t'] = none) (v v' : VariantType Ty)
    (rest : List (VariantType Ty)) :
    visitType movable results boost form f v (v' :: rest) = none := by
  induction rest generalizing f v v' with
  | nil =>
      obtain ⟨t, ht⟩ := List.exists_mem_of_ne_nil _ v.nonempty
      obtain ⟨t', ht'⟩ := List.exists_mem_of_ne_nil _ v'.nonempty
      apply Option.eq_none_iff_forall_not_mem.mpr
      intro type h
      have hvisit := (Option.ite_none_right_eq_some.mp h).2
      have haccepts := ((applyVisit_eq_some_iff hboost).mp hvisit).2 t' ht'
      obtain ⟨r, hr, -⟩ := Option.bind_eq_some_iff.mp haccepts
      have hresult := ((boundVisitor_result_iff hboost).mp hr).2.2 t ht
      rw [hunary] at hresult
      cases hresult
  | cons v'' rest ih =>
      rw [visitType, ih (fun _ _ => rfl), ite_self]

/-- Three variants bind a `BoundVisitor`, which is called with two arguments. -/
theorem visitType_three (hboost : boost.Documented) (f : Signature Ty ResTy)
    (v v' v'' : VariantType Ty) (rest : List (VariantType Ty)) :
    visitType movable results boost form f v (v' :: v'' :: rest) = none := by
  rw [visitType, visitType_of_unary hboost (fun _ _ => rfl), ite_self]

/-- What is bound can be passed on, because its parts could be. -/
theorem visitType_two_iff (hboost : boost.Documented) :
    visitType movable results boost form f v [v'] = some type ↔
      f.passable = true ∧ v.passable movable = true ∧ v'.passable movable = true ∧
        ∀ t ∈ v.alternatives, ∀ t' ∈ v'.alternatives,
          (f.result [⟨t, .lvalue⟩, ⟨t', .lvalue⟩]).bind (results.returned form v.kind) =
            some type := by
  rw [visitType, Option.ite_none_right_eq_some, Bool.and_eq_true, visitType,
    applyVisit_eq_some_iff hboost, VariantType.passable_iff (v := v')]
  constructor
  · rintro ⟨⟨hf, hv⟩, -, hall⟩
    have hbound : ∀ t' ∈ v'.alternatives,
        (f.boundVisitor movable results boost form v).result [⟨t', v'.category⟩] = some type := by
      intro t' ht'
      obtain ⟨r, hr, hreturned⟩ := Option.bind_eq_some_iff.mp (hall t' ht')
      obtain ⟨s, hs⟩ := List.exists_mem_of_ne_nil _ v.nonempty
      have hfirst := ((boundVisitor_result_iff hboost).mp hr).2.2 s hs
      obtain ⟨_, -, hreturned'⟩ := Option.bind_eq_some_iff.mp hfirst
      rw [returned_returned v'.kind hreturned'] at hreturned
      rw [hr, hreturned]
    refine ⟨hf, hv, ?_, ?_⟩
    · intro t' ht'
      exact ((boundVisitor_result_iff hboost).mp (hbound t' ht')).1
    · intro t ht t' ht'
      exact ((boundVisitor_result_iff hboost).mp (hbound t' ht')).2.2 t ht
  · rintro ⟨hf, hv, hv', hall⟩
    refine ⟨⟨hf, hv⟩, ?_, ?_⟩
    · intro _ _
      simp [boundVisitor_passable, hf, hv]
    · intro t' ht'
      have hbound : (f.boundVisitor movable results boost form v).result [⟨t', v'.category⟩] =
          some type :=
        (boundVisitor_result_iff hboost).mpr ⟨hv' t' ht', hf, fun t ht => hall t ht t' ht'⟩
      obtain ⟨s, hs⟩ := List.exists_mem_of_ne_nil _ v.nonempty
      obtain ⟨_, -, hreturned⟩ := Option.bind_eq_some_iff.mp (hall s hs t' ht')
      rw [hbound, Option.bind_some, returned_returned v'.kind hreturned]

end Static

section Calls

variable {results : Results Val} {boost : BoostApplyVisitor El Val} {form : Option ResTy}
  {vis : Visitor El Val} {type : ResTy}

/-- Both kinds of variants are visited alike. -/
theorem runVisit_eq (hboost : boost.Documented) (call : List (Arg El) → Run El Val)
    (v : VariantExpr El) :
    runVisit results boost form call v =
      stdRun (fun xs => (call xs).returned results form) v := by
  unfold runVisit
  cases hkind : v.kind with
  | std => rfl
  | boost =>
      obtain ⟨⟨i, x⟩, hactive⟩ := Option.isSome_iff_exists.mp (v.neverEmpty hkind)
      simp only [stdRun, hactive]
      exact hboost.visits _ v i x hkind hactive

/-- What has been converted once is converted to itself. -/
theorem convertTo_convertTo {x : Value Val} {y : Val type}
    (h : results.convertTo form x = .ok ⟨type, y⟩) :
    results.convertTo form ⟨type, y⟩ = .ok ⟨type, y⟩ := by
  cases form with
  | none => rfl
  | some res =>
      have htype : type = res := by
        unfold Results.convertTo at h
        simp only at h
        split at h <;> cases h
        rfl
      cases htype
      simp only [Results.convertTo, results.convert_self]
      rfl

theorem returned_call {args : List (Arg El)} {y : Val type}
    (h : results.convertTo form (vis.invoke args) = .ok ⟨type, y⟩) :
    (vis.call args).returned results form = ⟨[args], .ok ⟨type, y⟩⟩ := by
  simp only [Run.returned, Visitor.call, Except.bind, h]

variable [DecidableEq ResTy]

/-- A value whose type can be returned is converted. -/
theorem convertTo_of_returned {kind : Kind} (x : Value Val)
    (h : results.returned form kind x.1 = some type) :
    ∃ y : Val type, results.convertTo form x = .ok ⟨type, y⟩ := by
  obtain ⟨r, x⟩ := x
  cases form with
  | none =>
      cases h
      exact ⟨x, rfl⟩
  | some res =>
      cases returned_eq h
      simp only [Results.returned] at h
      split at h
      · cases h
      · obtain ⟨hconvert, -⟩ := Option.ite_none_right_eq_some.mp h
        obtain ⟨g, hg⟩ := Option.isSome_iff_exists.mp hconvert
        refine ⟨g x, ?_⟩
        simp only [Results.convertTo, hg]

theorem convertTo_invoke {kind : Kind} {args : List (Arg El)}
    (h : (vis.result (args.map Arg.argType)).bind (results.returned form kind) = some type) :
    ∃ y : Val type, results.convertTo form (vis.invoke args) = .ok ⟨type, y⟩ := by
  obtain ⟨r, hr, hreturned⟩ := Option.bind_eq_some_iff.mp h
  exact convertTo_of_returned _ (vis.typed args r hr ▸ hreturned)

theorem callsOnce_one (hboost : boost.Documented) (v : VariantExpr El)
    (h : ∀ t ∈ v.alternatives,
      (vis.result [⟨t, v.category⟩]).bind (results.returned form v.kind) = some type) :
    CallsOnce results form vis [v] type (visit results boost form vis.call v []) := by
  rw [visit, runVisit_eq hboost]
  obtain ⟨vt, active, neverEmpty⟩ := v
  cases active with
  | none => rfl
  | some content =>
      have hmem : vt.alternatives.get content.1 ∈ vt.alternatives := List.get_mem _ _
      have hargs : (vis.result (List.map Arg.argType
          [⟨vt.alternatives.get content.1, vt.category, content.2⟩])).bind
          (results.returned form vt.kind) = some type := h _ hmem
      obtain ⟨y, hy⟩ := convertTo_invoke hargs
      exact ⟨_, y, rfl, hy, returned_call hy⟩

theorem callsOnce_two (hboost : boost.Documented) (v v' : VariantExpr El)
    (h : ∀ t ∈ v.alternatives, ∀ t' ∈ v'.alternatives,
      (vis.result [⟨t, .lvalue⟩, ⟨t', .lvalue⟩]).bind (results.returned form v.kind) =
        some type) :
    CallsOnce results form vis [v, v'] type (visit results boost form vis.call v [v']) := by
  rw [visit, visit, runVisit_eq hboost]
  have hbound (x : Arg El) : boundVisitor results boost form vis.call v [x] =
      stdRun (fun xs => (bindBack vis.call [x] xs).returned results form) v.asLvalue :=
    runVisit_eq hboost _ _
  simp only [stdRun, hbound]
  obtain ⟨vt, active, neverEmpty⟩ := v
  obtain ⟨vt', active', neverEmpty'⟩ := v'
  cases active' with
  | none => cases active <;> rfl
  | some content' =>
      cases active with
      | none => rfl
      | some content =>
          have hmem : vt.alternatives.get content.1 ∈ vt.alternatives := List.get_mem _ _
          have hmem' : vt'.alternatives.get content'.1 ∈ vt'.alternatives := List.get_mem _ _
          have hargs : (vis.result (List.map Arg.argType
              [⟨vt.alternatives.get content.1, .lvalue, content.2⟩,
                ⟨vt'.alternatives.get content'.1, .lvalue, content'.2⟩])).bind
              (results.returned form vt.kind) = some type := h _ hmem _ hmem'
          obtain ⟨y, hy⟩ := convertTo_invoke hargs
          refine ⟨_, y, rfl, hy, ?_⟩
          have hinner := returned_call hy
          have houter := convertTo_convertTo hy
          simp only [VariantExpr.asLvalue, bindBack, List.map_cons, List.map_nil,
            List.singleton_append, Arg.asLvalue]
          rw [hinner]
          simp only [Run.returned, Except.bind, houter]

end Calls

section

variable [DecidableEq ResTy] {results : Results Val} {boost : BoostApplyVisitor El Val}

/-- Both forms of `visit` do what they should for one variant if all results can be
returned as one type, unless the visitor is an rvalue that cannot be moved into a
`Wrapper`; for two variants, if what is bound can be and the visitor takes both
alternatives as lvalues; and for more than two never. -/
theorem visit_iff (hboost : boost.Documented) (movable : Ty → Bool) (vis : Visitor El Val)
    (form : Option ResTy) (v : VariantExpr El) (rest : List (VariantExpr El)) :
    Meets results boost movable form vis v rest ↔ Supported results movable form vis v rest := by
  unfold Meets
  match rest with
  | [] =>
      simp only [List.map_nil, visitType, applyVisit_eq_some_iff hboost]
      constructor
      · rintro ⟨type, ⟨hpassable, hall⟩, -⟩
        exact ⟨hpassable, type, hall⟩
      · rintro ⟨hpassable, type, hall⟩
        exact ⟨type, ⟨hpassable, hall⟩, callsOnce_one hboost v hall⟩
  | [v'] =>
      simp only [List.map_cons, List.map_nil, visitType_two_iff hboost]
      constructor
      · rintro ⟨type, ⟨hvis, hv, hv', hall⟩, -⟩
        exact ⟨hvis, hv, hv', type, hall⟩
      · rintro ⟨hvis, hv, hv', type, hall⟩
        exact ⟨type, ⟨hvis, hv, hv', hall⟩, callsOnce_two hboost v v' hall⟩
  | v' :: v'' :: rest =>
      simp only [List.map_cons, visitType_three hboost, reduceCtorEq, false_and, exists_false]
      exact Iff.rfl

/-- A visitor of boost variants that asks for one type of result. -/
def boostApplyVisitor : BoostApplyVisitor El Val where
  type f v := commonType (f.eachResult v)
  run := stdRun

theorem boostApplyVisitor_documented :
    (boostApplyVisitor : BoostApplyVisitor El Val).Documented where
  accepted f v _ hsome t ht := by
    obtain ⟨type, htype⟩ := Option.isSome_iff_exists.mp hsome
    rw [commonType_results_iff.mp htype t ht]
    rfl
  common f v r _ hall := commonType_results_iff.mpr hall
  visits call v i x _ hactive := by
    simp only [boostApplyVisitor, stdRun, hactive]

end

inductive NumberOrVoid where
  | number
  | void
  deriving DecidableEq

def NumberOrVoid.Carrier : NumberOrVoid → Type
  | .number => Nat
  | .void => Unit

def numbers : Results NumberOrVoid.Carrier where
  void := .void
  convert
    | .number, .number => some id
    | _, .void => some fun _ => ()
    | .void, .number => none
  convert_self r := by cases r <;> rfl

/-- A variable that holds a number, its only alternative. -/
def number (kind : Kind) (value : Nat) : VariantExpr fun _ : Unit => Nat where
  kind := kind
  alternatives := [()]
  nonempty := by decide
  category := .lvalue
  active := some ⟨0, value⟩
  neverEmpty _ := rfl

/-- A visitor of any arguments, as many as it says. -/
def arity (n : Nat) : Visitor (fun _ : Unit => Nat) NumberOrVoid.Carrier where
  category := .lvalue
  movable := true
  result ts := if ts.length = n then some .number else none
  invoke args := ⟨.number, args.length⟩
  typed _ _ h := Option.some.inj (Option.ite_none_right_eq_some.mp h).2

theorem arity_callableWith (vs : List (VariantType Unit)) : (arity vs.length).CallableWith vs := by
  intro args hargs
  have hlength : args.length = vs.length := hargs.length_eq
  simp only [arity, hlength]
  rfl

theorem visit_two_numbers :
    Meets numbers boostApplyVisitor (fun _ => true) none (arity 2) (number .std 1)
        [number .boost 2] ∧
      Meets numbers boostApplyVisitor (fun _ => true) (some .void) (arity 2) (number .std 1)
        [number .boost 2] := by
  constructor
  · apply (visit_iff boostApplyVisitor_documented (fun _ => true) (arity 2) none
      (number .std 1) [number .boost 2]).mpr
    exact ⟨rfl, rfl, rfl, .number, fun _ _ _ _ => rfl⟩
  · apply (visit_iff boostApplyVisitor_documented (fun _ => true) (arity 2) (some .void)
      (number .std 1) [number .boost 2]).mpr
    exact ⟨rfl, rfl, rfl, .void, fun _ _ _ _ => rfl⟩

/-- A visitor of three arguments and three variables do not compile. -/
theorem visit_three_numbers_fails :
    (arity 3).CallableWith
        ([number .std 1, number .std 2, number .std 3].map VariantExpr.toVariantType) ∧
      ¬Meets numbers boostApplyVisitor (fun _ => true) none (arity 3) (number .std 1)
        [number .std 2, number .std 3] := by
  refine ⟨arity_callableWith _, ?_⟩
  rintro ⟨type, htype, -⟩
  rw [List.map_cons, List.map_cons, visitType_three boostApplyVisitor_documented] at htype
  cases htype

end YkUtil.Variant
