import YkUtil.Compare.Then

/-!
The expressions that combine comparators: `then(c1, c2)`, `c | then(c2)`,
`closure | closure` and `c | projection`. The value of an expression depends on
how its parts are passed on, because a function object that is no comparator is
wrapped by value or by reference.
-/

namespace YkUtil.Compare

open Lib.ThreeWay

universe u

variable {cat cat1 cat2 : Category} {α : Type u}

/-- Where the function of a `wrapper_comparator` is: in the wrapper itself, in a
variable of the caller, or in the closure it was read from. -/
inductive Storage where
  | owned
  | named
  | closure
  deriving DecidableEq

/-- The comparators that the expressions build. -/
inductive Object (α : Type u) : Category → Type u where
  | comparator {cat : Category} (comp : Comparator cat α) : Object α cat
  | wrapper {cat : Category} (storage : Storage) (comp : Comparator cat α) : Object α cat
  | thenComparator {cat1 cat2 : Category} (comp1 : Object α cat1) (comp2 : Object α cat2) :
      Object α (commonComparisonCategory cat1 cat2)

/-- What a forwarding reference is bound to. -/
inductive Argument (α : Type u) (cat : Category) where
  | object (comp : Object α cat)
  | function (storage : Storage) (comp : Comparator cat α)

/-- Comparators are returned by value, any other function is wrapped as it was
passed. -/
def wrap : Argument α cat → Object α cat
  | .object comp => comp
  | .function storage comp => .wrapper storage comp

/-- The deduction guide of `then_comparator` wraps both arguments. -/
def thenObject (comp1 : Argument α cat1) (comp2 : Argument α cat2) :
    Object α (commonComparisonCategory cat1 cat2) :=
  .thenComparator (wrap comp1) (wrap comp2)

/-- The member of a closure that is a const lvalue. -/
def Argument.constMember : Argument α cat → Argument α cat
  | .object comp => .object comp
  | .function .owned comp => .function .closure comp
  | .function storage comp => .function storage comp

inductive Closure (α : Type u) where
  | compThen {cat : Category} (comp2 : Argument α cat)
  | pipe (lhs rhs : Closure α)

/-- How a closure is called. -/
inductive ValueCategory where
  | constLvalue
  | rvalue
  deriving DecidableEq

/-- `comp_then_closure` forwards its comparator when it is an rvalue.
`pipe_closure` has a const call operator only, so its members are lvalues. -/
def Closure.invoke :
    Closure α → ValueCategory → (Σ cat, Argument α cat) → Σ cat, Object α cat
  | .compThen comp2, .rvalue, ⟨_, comp⟩ => ⟨_, thenObject comp comp2⟩
  | .compThen comp2, .constLvalue, ⟨_, comp⟩ => ⟨_, thenObject comp comp2.constMember⟩
  | .pipe lhs rhs, _, comp =>
    rhs.invoke .constLvalue ⟨_, .object (lhs.invoke .constLvalue comp).2⟩

/-- The base comparators of an expression, as they are written in it. -/
inductive Base (α : Type u) (cat : Category) where
  /-- derived from `comparator_interface` -/
  | comparator (comp : Comparator cat α)
  /-- any other function object, made for the expression -/
  | temporary (comp : Comparator cat α)
  /-- any other function that has a name -/
  | named (comp : Comparator cat α)

def Base.argument : Base α cat → Argument α cat
  | .comparator comp => .object (.comparator comp)
  | .temporary comp => .function .owned comp
  | .named comp => .function .named comp

mutual

inductive Expr (α : Type u) : Type (u + 1) where
  | base {cat : Category} (comp : Base α cat)
  | andThen (comp1 comp2 : Expr α)
  | pipe (comp : Expr α) (closure : ClosureExpr α)
  /-- Only compiles for a `comp` that is a comparator. -/
  | project (comp : Expr α) {cat : Category} {β : Type u} (threeWay : Comparator cat β)
      (func : α → β)

inductive ClosureExpr (α : Type u) : Type (u + 1) where
  | andThen (comp2 : Expr α)
  | pipe (lhs rhs : ClosureExpr α)

end

mutual

def Expr.value : Expr α → Σ cat, Argument α cat
  | .base comp => ⟨_, comp.argument⟩
  | .andThen comp1 comp2 => ⟨_, .object (thenObject comp1.value.2 comp2.value.2)⟩
  | .pipe comp closure => ⟨_, .object (closure.value.invoke .rvalue comp.value).2⟩
  | .project comp threeWay func =>
    ⟨_, .object (thenObject comp.value.2 (.object (.comparator (extractComparator threeWay func))))⟩

def ClosureExpr.value : ClosureExpr α → Closure α
  | .andThen comp2 => .compThen comp2.value.2
  | .pipe lhs rhs => .pipe lhs.value rhs.value

end

/-- A call while the temporaries of the expression are `alive` or after. No
value is read from a function that is gone. -/
def Object.call (alive : Bool) : {cat : Category} → Object α cat → α → α → Option (Result cat)
  | _, .comparator comp, x, y => some (comp x y)
  | _, .wrapper storage comp, x, y =>
    if storage = .closure ∧ alive = false then none else some (comp x y)
  | _, @Object.thenComparator _ cat1 cat2 comp1 comp2, x, y =>
    (comp1.call alive x y).bind fun res =>
      if res.verdict = .equivalent then
        (comp2.call alive x y).map (·.convert (convertsTo_common_right cat1 cat2))
      else some (res.convert (convertsTo_common_left cat1 cat2))

def Expr.call (e : Expr α) (alive : Bool) : α → α → Option (Result e.value.1) :=
  (wrap e.value.2).call alive

/-- A base comparator as a call of the expression finds it: `borrowed` when it
is read through a reference into a closure. -/
structure Leaf (α : Type u) where
  category : Category
  comp : Comparator category α
  borrowed : Bool

def Leaf.base (leaf : Leaf α) : Σ cat, Comparator cat α := ⟨leaf.category, leaf.comp⟩

def Leaf.verdict (leaf : Leaf α) : α → α → Verdict := leaf.comp.verdicts

/-- The first result that is not equivalent, or equivalent if there is none. -/
def firstVerdict (leaves : List (Leaf α)) (x y : α) : Verdict :=
  ((leaves.map (·.verdict x y)).find? (· ≠ .equivalent)).getD .equivalent

/-- Only a temporary is moved into the closure that `then` makes of it. -/
def Base.leaf (inPipe : Bool) : {cat : Category} → Base α cat → Leaf α
  | cat, .comparator comp => ⟨cat, comp, false⟩
  | cat, .temporary comp => ⟨cat, comp, inPipe⟩
  | cat, .named comp => ⟨cat, comp, false⟩

mutual

/-- The base comparators from left to right, with those borrowed that are given
to `then` as temporaries inside a `closure | closure`. -/
def Expr.leaves (inPipe : Bool) : Expr α → List (Leaf α)
  | .base comp => [comp.leaf inPipe]
  | .andThen comp1 comp2 => comp1.leaves false ++ comp2.leaves false
  | .pipe comp closure => comp.leaves false ++ closure.leaves false
  | .project comp threeWay func =>
    comp.leaves false ++ [⟨_, extractComparator threeWay func, false⟩]

def ClosureExpr.leaves (inPipe : Bool) : ClosureExpr α → List (Leaf α)
  | .andThen comp2 => comp2.leaves inPipe
  | .pipe lhs rhs => lhs.leaves true ++ rhs.leaves true

end

def Expr.bases (e : Expr α) : List (Leaf α) := e.leaves false

def Object.leaves : {cat : Category} → Object α cat → List (Leaf α)
  | cat, .comparator comp => [⟨cat, comp, false⟩]
  | cat, .wrapper storage comp => [⟨cat, comp, decide (storage = .closure)⟩]
  | _, .thenComparator comp1 comp2 => comp1.leaves ++ comp2.leaves

theorem Object.commonCategory_leaves (comp : Object α cat) :
    commonCategory (comp.leaves.map Leaf.base) = cat := by
  induction comp with
  | comparator comp => exact commonComparisonCategory_strong_right _
  | wrapper storage comp => exact commonComparisonCategory_strong_right _
  | thenComparator comp1 comp2 ih1 ih2 =>
      rw [Object.leaves, List.map_append, commonCategory_append, ih1, ih2]

/-! What an expression evaluates to has the leaves that the expression has. -/

theorem Base.leaves_argument (comp : Base α cat) :
    (wrap comp.argument).leaves = [comp.leaf false] ∧
      (wrap comp.argument.constMember).leaves = [comp.leaf true] := by
  cases comp with
  | comparator comp => exact ⟨rfl, rfl⟩
  | temporary comp => exact ⟨rfl, rfl⟩
  | named comp => exact ⟨rfl, rfl⟩

mutual

theorem Expr.leaves_value (e : Expr α) :
    (wrap e.value.2).leaves = e.leaves false ∧
      (wrap e.value.2.constMember).leaves = e.leaves true := by
  cases e with
  | base comp => exact comp.leaves_argument
  | andThen comp1 comp2 =>
      have hleaves : (thenObject comp1.value.2 comp2.value.2).leaves =
          comp1.leaves false ++ comp2.leaves false := by
        rw [thenObject, Object.leaves, comp1.leaves_value.1, comp2.leaves_value.1]
      exact ⟨hleaves, hleaves⟩
  | pipe comp closure =>
      have hleaves := closure.leaves_value .rvalue comp.value
      rw [comp.leaves_value.1] at hleaves
      exact ⟨hleaves, hleaves⟩
  | project comp threeWay func =>
      have hleaves : (thenObject comp.value.2
          (.object (.comparator (extractComparator threeWay func)))).leaves =
          comp.leaves false ++ [⟨_, extractComparator threeWay func, false⟩] := by
        rw [thenObject, Object.leaves, comp.leaves_value.1]
        rfl
      exact ⟨hleaves, hleaves⟩

theorem ClosureExpr.leaves_value (closure : ClosureExpr α) (category : ValueCategory)
    (comp : Σ cat, Argument α cat) :
    (closure.value.invoke category comp).2.leaves =
      (wrap comp.2).leaves ++ closure.leaves (decide (category = .constLvalue)) := by
  cases closure with
  | andThen comp2 =>
      cases category with
      | constLvalue =>
          change (wrap comp.2).leaves ++ (wrap comp2.value.2.constMember).leaves = _
          rw [comp2.leaves_value.2]
          rfl
      | rvalue =>
          change (wrap comp.2).leaves ++ (wrap comp2.value.2).leaves = _
          rw [comp2.leaves_value.1]
          rfl
  | pipe lhs rhs =>
      have hlhs := lhs.leaves_value .constLvalue comp
      have hrhs := rhs.leaves_value .constLvalue
        ⟨_, .object (lhs.value.invoke .constLvalue comp).2⟩
      change (rhs.value.invoke .constLvalue
        ⟨_, .object (lhs.value.invoke .constLvalue comp).2⟩).2.leaves = _
      rw [hrhs]
      change (lhs.value.invoke .constLvalue comp).2.leaves ++ rhs.leaves true =
        (wrap comp.2).leaves ++ (lhs.leaves true ++ rhs.leaves true)
      rw [hlhs, List.append_assoc]
      rfl

end

/-- The leaves called one after another until one of them decides. -/
def readLeaves (alive : Bool) : List (Leaf α) → α → α → Option Verdict
  | [], _, _ => some .equivalent
  | leaf :: rest, x, y =>
    if leaf.borrowed = true ∧ alive = false then none
    else if leaf.verdict x y = .equivalent then readLeaves alive rest x y
    else some (leaf.verdict x y)

theorem readLeaves_append (alive : Bool) (leaves rest : List (Leaf α)) (x y : α) :
    readLeaves alive (leaves ++ rest) x y =
      (readLeaves alive leaves x y).bind fun verdict =>
        if verdict = .equivalent then readLeaves alive rest x y else some verdict := by
  induction leaves with
  | nil => rfl
  | cons leaf leaves ih =>
      simp only [List.cons_append, readLeaves, ih]
      by_cases hgone : leaf.borrowed = true ∧ alive = false
      · simp only [hgone, and_self, if_true, Option.bind_none]
      · by_cases hverdict : leaf.verdict x y = .equivalent
        · simp only [if_neg hgone, if_pos hverdict]
        · simp only [if_neg hgone, if_neg hverdict, Option.bind_some]

theorem readLeaves_singleton (alive : Bool) (leaf : Leaf α) (x y : α) :
    readLeaves alive [leaf] x y =
      if leaf.borrowed = true ∧ alive = false then none else some (leaf.verdict x y) := by
  simp only [readLeaves]
  by_cases hgone : leaf.borrowed = true ∧ alive = false
  · simp only [if_pos hgone]
  · simp only [if_neg hgone]
    by_cases hverdict : leaf.verdict x y = .equivalent
    · rw [if_pos hverdict, hverdict]
    · rw [if_neg hverdict]

/-- However the comparators are nested, a call goes through the leaves in order. -/
theorem Object.call_eq (alive : Bool) (comp : Object α cat) (x y : α) :
    (comp.call alive x y).map (·.verdict) = readLeaves alive comp.leaves x y := by
  induction comp with
  | comparator comp =>
      rw [Object.leaves, readLeaves_singleton]
      rfl
  | wrapper storage comp =>
      rw [Object.leaves, readLeaves_singleton, Object.call]
      by_cases hgone : storage = .closure ∧ alive = false
      · simp only [hgone, and_self, if_true, decide_true, Option.map_none]
      · simp only [if_neg hgone, decide_eq_true_eq, Option.map_some]
        rfl
  | thenComparator comp1 comp2 ih1 ih2 =>
      rw [Object.leaves, readLeaves_append, ← ih1, ← ih2, Object.call]
      cases hres : comp1.call alive x y with
      | none => rfl
      | some res =>
          simp only [Option.bind_some, Option.map_some]
          by_cases hverdict : res.verdict = .equivalent
          · rw [if_pos hverdict, if_pos hverdict, Option.map_map]
            rfl
          · rw [if_neg hverdict, if_neg hverdict]
            rfl

/-- While the temporaries live, the object is the comparator that `then` builds
of its parts. -/
def Object.value : {cat : Category} → Object α cat → Comparator cat α
  | _, .comparator comp => comp
  | _, .wrapper _ comp => comp
  | _, .thenComparator comp1 comp2 => YkUtil.Compare.thenComparator comp1.value comp2.value

/-- All the leaves before this one find the arguments equivalent. -/
def Reached (leaves : List (Leaf α)) (x y : α) (leaf : Leaf α) : Prop :=
  ∃ earlier later, leaves = earlier ++ leaf :: later ∧
    ∀ prior ∈ earlier, prior.verdict x y = .equivalent

theorem reached_cons_iff {leaf head : Leaf α} {leaves : List (Leaf α)} {x y : α} :
    Reached (head :: leaves) x y leaf ↔
      leaf = head ∨ head.verdict x y = .equivalent ∧ Reached leaves x y leaf := by
  constructor
  · rintro ⟨earlier, later, heq, hequivalent⟩
    cases earlier with
    | nil =>
        cases heq
        exact .inl rfl
    | cons prior earlier =>
        cases heq
        refine .inr ⟨hequivalent head (List.mem_cons_self ..), earlier, later, rfl, ?_⟩
        intro prior hmem
        exact hequivalent prior (List.mem_cons_of_mem _ hmem)
  · rintro (rfl | ⟨hhead, earlier, later, rfl, hequivalent⟩)
    · exact ⟨[], leaves, rfl, fun _ hmem => absurd hmem List.not_mem_nil⟩
    · refine ⟨head :: earlier, later, rfl, ?_⟩
      intro prior hmem
      rcases List.mem_cons.mp hmem with rfl | hmem
      · exact hhead
      · exact hequivalent prior hmem

/-- No call reads a borrowed function after the closures are gone. -/
def Readable (alive : Bool) (leaves : List (Leaf α)) (x y : α) : Prop :=
  alive = true ∨ ∀ leaf, Reached leaves x y leaf → leaf.borrowed = false

theorem firstVerdict_cons (leaf : Leaf α) (leaves : List (Leaf α)) (x y : α) :
    firstVerdict (leaf :: leaves) x y =
      if leaf.verdict x y = .equivalent then firstVerdict leaves x y else leaf.verdict x y := by
  unfold firstVerdict
  rw [List.map_cons, List.find?_cons]
  by_cases hverdict : leaf.verdict x y = .equivalent
  · simp [hverdict]
  · simp [hverdict]

theorem readLeaves_eq_iff (alive : Bool) (leaves : List (Leaf α)) (x y : α) :
    readLeaves alive leaves x y = some (firstVerdict leaves x y) ↔ Readable alive leaves x y := by
  induction leaves with
  | nil =>
      refine iff_of_true rfl (.inr ?_)
      rintro leaf ⟨earlier, later, heq, -⟩
      cases earlier <;> cases heq
  | cons leaf leaves ih =>
      rw [readLeaves, firstVerdict_cons]
      unfold Readable at ih ⊢
      simp only [reached_cons_iff]
      by_cases hgone : leaf.borrowed = true ∧ alive = false
      · rw [if_pos hgone]
        refine iff_of_false (by simp) ?_
        rintro (halive | hnone)
        · rw [hgone.2] at halive
          cases halive
        · have hborrowed := hnone leaf (.inl rfl)
          rw [hgone.1] at hborrowed
          cases hborrowed
      · rw [if_neg hgone]
        by_cases hverdict : leaf.verdict x y = .equivalent
        · rw [if_pos hverdict, if_pos hverdict, ih]
          cases alive with
          | true => simp
          | false =>
              have hkept : leaf.borrowed = false := by simpa using hgone
              simp [hverdict, hkept]
        · rw [if_neg hverdict, if_neg hverdict]
          refine iff_of_true rfl ?_
          cases alive with
          | true => exact .inl rfl
          | false =>
              right
              rintro other (rfl | ⟨hequivalent, -⟩)
              · simpa using hgone
              · exact absurd hequivalent hverdict

/-- The call gives the first result that decides. -/
def Expr.Evaluates (e : Expr α) (alive : Bool) (x y : α) : Prop :=
  (e.call alive x y).map (·.verdict) = some (firstVerdict e.bases x y)

theorem Expr.call_verdict (e : Expr α) (alive : Bool) (x y : α) :
    (e.call alive x y).map (·.verdict) = readLeaves alive e.bases x y := by
  rw [Expr.call, Object.call_eq, e.leaves_value.1]
  rfl

theorem Expr.category (e : Expr α) : e.value.1 = commonCategory (e.bases.map Leaf.base) := by
  rw [Expr.bases, ← e.leaves_value.1, Object.commonCategory_leaves]

theorem firstVerdict_congr {leaves leaves' : List (Leaf α)}
    (h : leaves.map Leaf.base = leaves'.map Leaf.base) (x y : α) :
    firstVerdict leaves x y = firstVerdict leaves' x y := by
  have hverdicts : ∀ list : List (Leaf α), list.map (·.verdict x y) =
      (list.map Leaf.base).map fun base => base.2.verdicts x y := by
    intro list
    rw [List.map_map]
    rfl
  rw [firstVerdict, firstVerdict, hverdicts, hverdicts, h]

/-- An expression evaluates to the first result that decides exactly when no
function that it has to call was lost with a temporary closure, so bracketings
of one list that lose none agree in category and value. -/
theorem expression_evaluates_iff :
    (∀ (e : Expr α) (alive : Bool) (x y : α),
      e.Evaluates alive x y ↔ Readable alive e.bases x y) ∧
    ∀ (e e' : Expr α) (alive alive' : Bool) (x y : α),
      e.bases.map Leaf.base = e'.bases.map Leaf.base →
      Readable alive e.bases x y → Readable alive' e'.bases x y →
      e.value.1 = e'.value.1 ∧
        (e.call alive x y).map (·.verdict) = (e'.call alive' x y).map (·.verdict) := by
  have hiff : ∀ (e : Expr α) (alive : Bool) (x y : α),
      e.Evaluates alive x y ↔ Readable alive e.bases x y := by
    intro e alive x y
    rw [Expr.Evaluates, e.call_verdict, readLeaves_eq_iff]
  refine ⟨hiff, ?_⟩
  intro e e' alive alive' x y hbases hreadable hreadable'
  have hvalue := (hiff e alive x y).mpr hreadable
  have hvalue' := (hiff e' alive' x y).mpr hreadable'
  rw [Expr.Evaluates] at hvalue hvalue'
  constructor
  · rw [e.category, e'.category, hbases]
  · rw [hvalue, hvalue', firstVerdict_congr hbases]

/-- Plain function objects, made where they are used. -/
def temporaryBase (func : Int × Int → Int) : Expr (Int × Int) :=
  .base (.temporary (extractComparator compareThreeWay func))

def firstBase : Expr (Int × Int) := .base (.comparator (extractComparator compareThreeWay Prod.fst))

/-- `extract(first) | (then(F{}) | then(G{}))` -/
def closuresFirst : Expr (Int × Int) :=
  .pipe firstBase (.pipe (.andThen (temporaryBase Prod.snd)) (.andThen (temporaryBase Prod.fst)))

/-- `extract(first) | then(F{}) | then(G{})` -/
def closuresLast : Expr (Int × Int) :=
  .pipe (.pipe firstBase (.andThen (temporaryBase Prod.snd))) (.andThen (temporaryBase Prod.fst))

/-- A stored comparator lost the functions that the other bracketing keeps. -/
theorem closuresFirst_stored_fails :
    closuresFirst.bases.map Leaf.base = closuresLast.bases.map Leaf.base ∧
      closuresFirst.Evaluates true (0, 1) (0, 2) ∧ closuresLast.Evaluates false (0, 1) (0, 2) ∧
      ¬closuresFirst.Evaluates false (0, 1) (0, 2) := by
  refine ⟨rfl, rfl, rfl, ?_⟩
  intro h
  have hlost : closuresFirst.call false (0, 1) (0, 2) = none := rfl
  rw [Expr.Evaluates, hlost] at h
  cases h

/-- Called while the closures are there, it agrees with the other one. -/
theorem expression_evaluates_iff_bracketings :
    closuresFirst.value.1 = closuresLast.value.1 ∧
      (closuresFirst.call true (0, 1) (0, 2)).map (·.verdict) =
        (closuresLast.call false (0, 1) (0, 2)).map (·.verdict) := by
  have hkept : Readable false closuresLast.bases (0, 1) (0, 2) :=
    (expression_evaluates_iff.1 closuresLast false (0, 1) (0, 2)).mp rfl
  exact expression_evaluates_iff.2 closuresFirst closuresLast true false (0, 1) (0, 2) rfl
    (.inl rfl) hkept

end YkUtil.Compare
