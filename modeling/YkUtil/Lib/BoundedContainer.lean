import Mathlib.Data.List.Infix
import Mathlib.Data.List.Perm.Basic

/-!
A container of bounded size that can be closed and reopened. Values are added
at the end; the order says which one is taken. A history is a list of
operations, and it is legal when each of them was possible where it stands.
-/

namespace YkUtil.Lib.BoundedContainer

variable {α : Type*}

/-- `fifo` takes the oldest value, `lifo` the newest. -/
inductive Order where
  | fifo
  | lifo
  deriving DecidableEq

def take : Order → List α → Option (α × List α)
  | .fifo, [] => none
  | .fifo, v :: rest => some (v, rest)
  | .lifo, l => l.getLast?.map fun v => (v, l.dropLast)

structure Container (α : Type*) where
  contents : List α
  capacity : Int
  opened : Bool

/-- A successful operation, with the values it moved. -/
inductive Op (α : Type*) where
  | push (v : α)
  | pop (v : α)
  | clear (dropped : List α)
  | close
  | reopen
  | resize (capacity : Int)

/-- When an operation can succeed, and what it does. -/
inductive Step (order : Order) : Container α → Op α → Container α → Prop where
  | push {s : Container α} (v : α) (hopen : s.opened = true)
      (hroom : (s.contents.length : Int) < s.capacity) :
      Step order s (.push v) {s with contents := s.contents ++ [v]}
  | pop {s : Container α} (v : α) (rest : List α) (hopen : s.opened = true)
      (htake : take order s.contents = some (v, rest)) :
      Step order s (.pop v) {s with contents := rest}
  | clear (s : Container α) : Step order s (.clear s.contents) {s with contents := []}
  | close (s : Container α) : Step order s .close {s with opened := false}
  | reopen (s : Container α) : Step order s .reopen {s with opened := true}
  | resize (s : Container α) (capacity : Int) :
      Step order s (.resize capacity) {s with capacity := capacity}

inductive Legal (order : Order) : Container α → List (Op α) → Container α → Prop where
  | nil (s : Container α) : Legal order s [] s
  | cons {s t u : Container α} {op : Op α} {ops : List (Op α)} :
      Step order s op t → Legal order t ops u → Legal order s (op :: ops) u

def pushedValues (ops : List (Op α)) : List α :=
  ops.filterMap fun | .push v => some v | _ => none

def poppedValues (ops : List (Op α)) : List α :=
  ops.filterMap fun | .pop v => some v | _ => none

def clearedValues (ops : List (Op α)) : List α :=
  ops.flatMap fun | .clear dropped => dropped | _ => []

theorem take_perm {order : Order} {l rest : List α} {v : α}
    (h : take order l = some (v, rest)) : l.Perm (v :: rest) := by
  cases order with
  | fifo =>
      cases l with
      | nil => cases h
      | cons first others =>
          cases h
          exact List.Perm.refl _
  | lifo =>
      simp only [take, Option.map_eq_some_iff, Prod.mk.injEq] at h
      obtain ⟨last, hlast, rfl, rfl⟩ := h
      have heq := List.dropLast_append_getLast? _ hlast
      calc l = l.dropLast ++ [last] := heq.symm
        _ |>.Perm (last :: l.dropLast) := List.perm_append_singleton _ _

theorem take_isSome {order : Order} {l : List α} : (take order l).isSome ↔ l ≠ [] := by
  cases order with
  | fifo => cases l <;> simp [take]
  | lifo => simp [take]

variable {order : Order} {s t u : Container α} {op : Op α} {ops more : List (Op α)}

theorem Legal.append (h : Legal order s ops t) (h' : Legal order t more u) :
    Legal order s (ops ++ more) u := by
  induction h with
  | nil => exact h'
  | cons hstep _ ih => exact .cons hstep (ih h')

theorem Legal.snoc (h : Legal order s ops t) (hstep : Step order t op u) :
    Legal order s (ops ++ [op]) u :=
  h.append (.cons hstep (.nil u))

theorem Legal.split (h : Legal order s (ops ++ more) u) :
    ∃ t, Legal order s ops t ∧ Legal order t more u := by
  induction ops generalizing s with
  | nil => exact ⟨s, .nil s, h⟩
  | cons op ops ih =>
      cases h with
      | cons hstep hrest =>
          obtain ⟨t, hfirst, hmore⟩ := ih hrest
          exact ⟨t, .cons hstep hfirst, hmore⟩

theorem pushedValues_append (ops more : List (Op α)) :
    pushedValues (ops ++ more) = pushedValues ops ++ pushedValues more :=
  List.filterMap_append

theorem poppedValues_append (ops more : List (Op α)) :
    poppedValues (ops ++ more) = poppedValues ops ++ poppedValues more :=
  List.filterMap_append

theorem clearedValues_append (ops more : List (Op α)) :
    clearedValues (ops ++ more) = clearedValues ops ++ clearedValues more :=
  List.flatMap_append

theorem step_conserves (h : Step order s op t) :
    (s.contents ++ pushedValues [op]).Perm
      (poppedValues [op] ++ clearedValues [op] ++ t.contents) := by
  cases h with
  | push v => simp [pushedValues, poppedValues, clearedValues]
  | pop v rest _ htake => simpa [pushedValues, poppedValues, clearedValues] using take_perm htake
  | clear | close | reopen | resize => simp [pushedValues, poppedValues, clearedValues]

/-- What was there or was pushed has been popped or cleared, or is still there. -/
theorem Legal.conserves (h : Legal order s ops t) :
    (s.contents ++ pushedValues ops).Perm
      (poppedValues ops ++ clearedValues ops ++ t.contents) := by
  classical
  induction h with
  | nil => simp [pushedValues, poppedValues, clearedValues]
  | @cons s m u op ops hstep _ ih =>
      have hfirst := step_conserves hstep
      rw [List.perm_iff_count] at hfirst ih ⊢
      intro v
      have hone := hfirst v
      have hrest := ih v
      have happend : [op] ++ ops = op :: ops := rfl
      rw [← happend, pushedValues_append, poppedValues_append, clearedValues_append]
      simp only [List.count_append] at hone hrest ⊢
      omega

/-- A closed container stays closed until it is reopened. -/
theorem Legal.closed (h : Legal order s ops t) (hclosed : s.opened = false)
    (hno : Op.reopen ∉ ops) : t.opened = false := by
  induction h with
  | nil => exact hclosed
  | @cons s m u op ops hstep _ ih =>
      apply ih
      · cases hstep with
        | push | pop | clear | resize => exact hclosed
        | close => rfl
        | reopen => exact absurd List.mem_cons_self hno
      · exact fun hop => hno (List.mem_cons_of_mem _ hop)

/-- The container in which an operation of the history took place. -/
theorem Legal.at (h : Legal order s (ops ++ op :: more) u) :
    ∃ m n, Legal order s ops m ∧ Step order m op n ∧ Legal order n more u := by
  obtain ⟨m, hbefore, hrest⟩ := h.split
  cases hrest with
  | cons hstep hafter => exact ⟨m, _, hbefore, hstep, hafter⟩

/-- While it is closed no push and no pop succeeds. -/
theorem Legal.closed_quiet (h : Legal order s ops t) (hclosed : s.opened = false)
    (hno : Op.reopen ∉ ops) : pushedValues ops = [] ∧ poppedValues ops = [] := by
  have hnone : ∀ op ∈ ops, (∀ v, op ≠ .push v) ∧ ∀ v, op ≠ .pop v := by
    intro op hop
    obtain ⟨before, after, rfl⟩ := List.append_of_mem hop
    obtain ⟨m, n, hbefore, hstep, _⟩ := h.at
    have hm : m.opened = false := by
      apply hbefore.closed hclosed
      exact fun hmem => hno (List.mem_append_left _ hmem)
    cases hstep with
    | push v hopen => simp [hm] at hopen
    | pop v rest hopen => simp [hm] at hopen
    | clear | close | reopen | resize => exact ⟨nofun, nofun⟩
  constructor
  · rw [pushedValues, List.filterMap_eq_nil_iff]
    intro op hop
    cases op with
    | push v => exact absurd rfl ((hnone _ hop).1 v)
    | _ => rfl
  · rw [poppedValues, List.filterMap_eq_nil_iff]
    intro op hop
    cases op with
    | pop v => exact absurd rfl ((hnone _ hop).2 v)
    | _ => rfl

/-- While it is closed the contents change only by clearing. -/
theorem Legal.closed_contents (h : Legal order s ops t) (hclosed : s.opened = false)
    (hno : Op.reopen ∉ ops) (hclear : ∀ dropped, Op.clear dropped ∉ ops) :
    t.contents = s.contents := by
  induction h with
  | nil => rfl
  | @cons s m u op ops hstep _ ih =>
      have hm := ih (Legal.closed (.cons hstep (.nil _)) hclosed (by
        intro hop
        simp only [List.mem_singleton] at hop
        exact hno (hop ▸ List.mem_cons_self)))
        (fun hop => hno (List.mem_cons_of_mem _ hop))
        (fun dropped hop => hclear dropped (List.mem_cons_of_mem _ hop))
      rw [hm]
      cases hstep with
      | push v hopen => simp [hclosed] at hopen
      | pop v rest hopen => simp [hclosed] at hopen
      | clear => exact absurd List.mem_cons_self (hclear _)
      | close | reopen | resize => rfl

end YkUtil.Lib.BoundedContainer
