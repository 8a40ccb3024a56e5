import Mathlib.Data.List.TakeDrop
import YkUtil.Lib.BoundedContainer

/-!
Pushes and pops that are issued in order, before a bounded queue allows them. The
`k`-th pop takes the value of the `k`-th push, and each of them takes effect as
soon as there is room for the value, or a value to take.
-/

namespace YkUtil.Lib.Tickets

open BoundedContainer

variable {α : Type*}

inductive Issue (α : Type*) where
  | push (v : α)
  | pop

/-- An operation that has taken effect, with its number. -/
inductive Numbered (α : Type*) where
  | push (k : Nat) (v : α)
  | pop (k : Nat) (v : α)
  deriving DecidableEq

def Numbered.op : Numbered α → Op α
  | .push _ v => .push v
  | .pop _ v => .pop v

/-- What has been issued: the values of the pushes, and how many pops. -/
structure Issued (α : Type*) where
  values : List α
  pops : Nat

/-- The elements from place `a` up to place `b`. -/
def window (l : List α) (a b : Nat) : List α := (l.take b).drop a

theorem window_self (l : List α) (a : Nat) : window l a a = [] := by
  rw [window, List.drop_eq_nil_iff, List.length_take]
  exact Nat.min_le_left _ _

theorem length_window {l : List α} {a b : Nat} (hb : b ≤ l.length) :
    (window l a b).length = b - a := by
  rw [window, List.length_drop, List.length_take, Nat.min_eq_left hb]

theorem window_first {l : List α} {a b : Nat} {v : α} (hv : l[a]? = some v) (hab : a < b) :
    window l a b = v :: window l (a + 1) b := by
  obtain ⟨hlt, rfl⟩ := List.getElem?_eq_some_iff.mp hv
  have hlen : a < (l.take b).length := by
    rw [List.length_take]
    omega
  rw [window, List.drop_eq_getElem_cons hlen, List.getElem_take]
  rfl

theorem window_last {l : List α} {a b : Nat} {v : α} (hv : l[b]? = some v) (hab : a ≤ b) :
    window l a (b + 1) = window l a b ++ [v] := by
  obtain ⟨hlt, rfl⟩ := List.getElem?_eq_some_iff.mp hv
  have hlen : a ≤ (l.take b).length := by
    rw [List.length_take]
    omega
  rw [window, List.take_succ_eq_append_getElem hlt, List.drop_append_of_le_length hlen]
  rfl

theorem window_append {l more : List α} {a b : Nat} (hb : b ≤ l.length) :
    window (l ++ more) a b = window l a b := by
  rw [window, List.take_append_of_le_length hb]
  rfl

namespace Issued

def start : Issued α := ⟨[], 0⟩

def issue (s : Issued α) : Issue α → Issued α
  | .push v => {s with values := s.values ++ [v]}
  | .pop => {s with pops := s.pops + 1}

/-- How many pushes have taken effect in a queue of capacity `c`. -/
def entered (c : Nat) (s : Issued α) : Nat := min s.values.length (s.pops + c)

/-- How many pops have taken effect. -/
def taken (s : Issued α) : Nat := min s.pops s.values.length

def container (c : Nat) (s : Issued α) : Container α :=
  {contents := window s.values s.taken (s.entered c), capacity := c, opened := true}

/-- What takes effect when an operation is issued. A push may enter at once, and
may have a pop waiting for it; a pop may find its value, and may make room for a
push that waits. -/
def effects (c : Nat) (s : Issued α) : Issue α → List (Numbered α)
  | .push v =>
      (if s.values.length < s.pops + c then [.push s.values.length v] else []) ++
        if s.values.length < s.pops then [.pop s.values.length v] else []
  | .pop =>
      s.values[s.pops]?.toList.map (.pop s.pops) ++
        s.values[s.pops + c]?.toList.map (.push (s.pops + c))

/-- All that takes effect while operations are issued one after another. -/
def log (c : Nat) (s : Issued α) : List (Issue α) → List (Numbered α)
  | [] => []
  | i :: rest => s.effects c i ++ (s.issue i).log c rest

theorem log_append (c : Nat) (s : Issued α) (first second : List (Issue α)) :
    s.log c (first ++ second) = s.log c first ++ (first.foldl issue s).log c second := by
  induction first generalizing s with
  | nil => rfl
  | cons i rest ih => simp only [List.cons_append, log, ih, List.foldl_cons, List.append_assoc]

/-- What took effect stays at its place when more is issued. -/
theorem log_grows (c : Nat) (s : Issued α) (first second : List (Issue α)) :
    s.log c first <+: s.log c (first ++ second) := by
  rw [log_append]
  exact List.prefix_append _ _

variable {c : Nat} {s : Issued α}

theorem container_start (c : Nat) : (start : Issued α).container c = ⟨[], c, true⟩ := by
  simp [container, start, window]

theorem container_eq {a b : Nat} (ha : s.taken = a) (hb : s.entered c = b) :
    s.container c = ⟨window s.values a b, c, true⟩ := by
  rw [container, ha, hb]

theorem push_step {l : List α} {v : α} (hroom : l.length < c) :
    Step .fifo ⟨l, c, true⟩ (.push v) ⟨l ++ [v], c, true⟩ :=
  .push v rfl (by simpa using hroom)

theorem pop_step {l : List α} {v : α} : Step .fifo ⟨v :: l, c, true⟩ (.pop v) ⟨l, c, true⟩ :=
  .pop v l rfl rfl

theorem effects_push_legal (hc : 0 < c) (v : α) :
    Legal .fifo (s.container c) ((s.effects c (.push v)).map Numbered.op)
      ((s.issue (.push v)).container c) := by
  have hlength : (s.issue (.push v)).values.length = s.values.length + 1 := List.length_append
  have hlast : (s.issue (.push v)).values[s.values.length]? = some v := List.getElem?_concat_length
  have hsame {a b : Nat} (hb : b ≤ s.values.length) :
      window (s.issue (.push v)).values a b = window s.values a b := window_append hb
  have hpops : (s.issue (.push v)).pops = s.pops := rfl
  by_cases hwaiting : s.values.length < s.pops
  · rw [container_eq (a := s.values.length) (b := s.values.length) (by rw [taken]; omega)
        (by rw [entered]; omega),
      container_eq (a := s.values.length + 1) (b := s.values.length + 1)
        (by rw [taken, hlength, hpops]; omega) (by rw [entered, hlength, hpops]; omega),
      effects, if_pos (by omega), if_pos hwaiting, window_self, window_self]
    exact .cons (push_step hc) (.cons pop_step (.nil _))
  · by_cases hroom : s.values.length < s.pops + c
    · rw [container_eq (a := s.pops) (b := s.values.length) (by rw [taken]; omega)
          (by rw [entered]; omega),
        container_eq (a := s.pops) (b := s.values.length + 1)
          (by rw [taken, hlength, hpops]; omega) (by rw [entered, hlength, hpops]; omega),
        effects, if_pos hroom, if_neg hwaiting, window_last hlast (by omega),
        hsame (Nat.le_refl _)]
      refine .cons (push_step ?_) (.nil _)
      rw [length_window (Nat.le_refl _)]
      omega
    · rw [container_eq (a := s.pops) (b := s.pops + c) (by rw [taken]; omega)
          (by rw [entered]; omega),
        container_eq (a := s.pops) (b := s.pops + c)
          (by rw [taken, hlength, hpops]; omega) (by rw [entered, hlength, hpops]; omega),
        effects, if_neg hroom, if_neg hwaiting, hsame (by omega)]
      exact .nil _

theorem effects_pop_legal (hc : 0 < c) :
    Legal .fifo (s.container c) ((s.effects c .pop).map Numbered.op)
      ((s.issue .pop).container c) := by
  have hpops : (s.issue .pop).pops = s.pops + 1 := rfl
  have hvalues : (s.issue .pop).values = s.values := rfl
  cases hv : s.values[s.pops]? with
  | none =>
      have hle := List.getElem?_eq_none_iff.mp hv
      rw [container_eq (a := s.values.length) (b := s.values.length) (by rw [taken]; omega)
          (by rw [entered]; omega),
        container_eq (a := s.values.length) (b := s.values.length)
          (by rw [taken, hpops, hvalues]; omega) (by rw [entered, hpops, hvalues]; omega),
        effects, hv, List.getElem?_eq_none (by omega), hvalues]
      exact .nil _
  | some v =>
      have hlt : s.pops < s.values.length := (List.getElem?_eq_some_iff.mp hv).1
      cases hw : s.values[s.pops + c]? with
      | none =>
          have hle := List.getElem?_eq_none_iff.mp hw
          rw [container_eq (a := s.pops) (b := s.values.length) (by rw [taken]; omega)
              (by rw [entered]; omega),
            container_eq (a := s.pops + 1) (b := s.values.length)
              (by rw [taken, hpops, hvalues]; omega) (by rw [entered, hpops, hvalues]; omega),
            effects, hv, hw, hvalues, window_first hv hlt]
          exact .cons pop_step (.nil _)
      | some w =>
          have hmore : s.pops + c < s.values.length := (List.getElem?_eq_some_iff.mp hw).1
          rw [container_eq (a := s.pops) (b := s.pops + c) (by rw [taken]; omega)
              (by rw [entered]; omega),
            container_eq (a := s.pops + 1) (b := s.pops + c + 1)
              (by rw [taken, hpops, hvalues]; omega) (by rw [entered, hpops, hvalues]; omega),
            effects, hv, hw, hvalues, window_first hv (by omega), window_last hw (by omega)]
          refine .cons pop_step (.cons (push_step ?_) (.nil _))
          rw [length_window (by omega)]
          omega

theorem effects_legal (hc : 0 < c) (i : Issue α) :
    Legal .fifo (s.container c) ((s.effects c i).map Numbered.op) ((s.issue i).container c) := by
  cases i with
  | push v => exact effects_push_legal hc v
  | pop => exact effects_pop_legal hc

/-- What takes effect is a history of a queue of capacity `c`. -/
theorem log_legal (hc : 0 < c) (issues : List (Issue α)) :
    Legal .fifo (s.container c) ((s.log c issues).map Numbered.op)
      ((issues.foldl issue s).container c) := by
  induction issues generalizing s with
  | nil => exact .nil _
  | cons i rest ih =>
      rw [log, List.map_append]
      exact (effects_legal hc i).append ih

/-- The pushes and the pops of `s` that have taken effect. -/
def Done (c : Nat) (s : Issued α) : Numbered α → Prop
  | .push k v => k < s.entered c ∧ s.values[k]? = some v
  | .pop k v => k < s.taken ∧ s.values[k]? = some v

theorem getElem?_concat_iff {l : List α} {v w : α} {k : Nat} :
    (l ++ [v])[k]? = some w ↔ l[k]? = some w ∨ k = l.length ∧ w = v := by
  rcases Nat.lt_trichotomy k l.length with hlt | heq | hgt
  · rw [List.getElem?_append_left hlt]
    simp [Nat.ne_of_lt hlt]
  · subst heq
    rw [List.getElem?_concat_length, List.getElem?_eq_none (Nat.le_refl _)]
    simp [eq_comm]
  · rw [List.getElem?_eq_none (by simp; omega), List.getElem?_eq_none (by omega)]
    simp [Nat.ne_of_gt hgt]

theorem lt_of_getElem? {l : List α} {v : α} {k : Nat} (h : l[k]? = some v) : k < l.length :=
  (List.getElem?_eq_some_iff.mp h).1

theorem mem_effects_push {v : α} {e : Numbered α} : e ∈ s.effects c (.push v) ↔
    (s.values.length < s.pops + c ∧ e = .push s.values.length v) ∨
      s.values.length < s.pops ∧ e = .pop s.values.length v := by
  rw [effects, List.mem_append]
  apply or_congr
  · split <;> rename_i hroom <;> simp [hroom]
  · split <;> rename_i hwaiting <;> simp [hwaiting]

theorem mem_effects_pop {e : Numbered α} : e ∈ s.effects c .pop ↔
    (∃ v, s.values[s.pops]? = some v ∧ e = .pop s.pops v) ∨
      ∃ v, s.values[s.pops + c]? = some v ∧ e = .push (s.pops + c) v := by
  simp [effects, eq_comm]

/-- What takes effect when an operation is issued is all that is new. -/
theorem done_issue (i : Issue α) (e : Numbered α) :
    (s.issue i).Done c e ↔ s.Done c e ∨ e ∈ s.effects c i := by
  cases i with
  | push v =>
      rw [mem_effects_push]
      cases e with
      | push k w =>
          simp only [Done, issue, entered, getElem?_concat_iff, List.length_append,
            List.length_singleton, Numbered.push.injEq, reduceCtorEq, and_false, or_false]
          constructor
          · rintro ⟨hk, hw | hnew⟩
            · have := lt_of_getElem? hw
              exact .inl ⟨by omega, hw⟩
            · exact .inr ⟨by omega, hnew⟩
          · rintro (⟨hk, hw⟩ | ⟨hroom, hnew⟩)
            · exact ⟨by omega, .inl hw⟩
            · exact ⟨by omega, .inr hnew⟩
      | pop k w =>
          simp only [Done, issue, taken, getElem?_concat_iff, List.length_append,
            List.length_singleton, Numbered.pop.injEq, reduceCtorEq, and_false, false_or]
          constructor
          · rintro ⟨hk, hw | hnew⟩
            · have := lt_of_getElem? hw
              exact .inl ⟨by omega, hw⟩
            · exact .inr ⟨by omega, hnew⟩
          · rintro (⟨hk, hw⟩ | ⟨hroom, hnew⟩)
            · exact ⟨by omega, .inl hw⟩
            · exact ⟨by omega, .inr hnew⟩
  | pop =>
      rw [mem_effects_pop]
      cases e with
      | push k w =>
          simp only [Done, issue, entered, reduceCtorEq, and_false, exists_false, false_or,
            Numbered.push.injEq]
          constructor
          · rintro ⟨hk, hw⟩
            by_cases hnew : k = s.pops + c
            · exact .inr ⟨w, hnew ▸ hw, hnew, rfl⟩
            · exact .inl ⟨by omega, hw⟩
          · rintro (⟨hk, hw⟩ | ⟨v, hv, rfl, rfl⟩)
            · exact ⟨by omega, hw⟩
            · have := lt_of_getElem? hv
              exact ⟨by omega, hv⟩
      | pop k w =>
          simp only [Done, issue, taken, reduceCtorEq, and_false, exists_false, or_false,
            Numbered.pop.injEq]
          constructor
          · rintro ⟨hk, hw⟩
            by_cases hnew : k = s.pops
            · exact .inr ⟨w, hnew ▸ hw, hnew, rfl⟩
            · exact .inl ⟨by omega, hw⟩
          · rintro (⟨hk, hw⟩ | ⟨v, hv, rfl, rfl⟩)
            · exact ⟨by omega, hw⟩
            · have := lt_of_getElem? hv
              exact ⟨by omega, hv⟩

theorem not_done_of_mem {i : Issue α} {e : Numbered α} (h : e ∈ s.effects c i) : ¬ s.Done c e := by
  cases i with
  | push v =>
      rcases mem_effects_push.mp h with ⟨_, rfl⟩ | ⟨_, rfl⟩ <;> rintro ⟨hk, _⟩ <;>
        simp only [entered, taken] at hk <;> omega
  | pop =>
      rcases mem_effects_pop.mp h with ⟨v, _, rfl⟩ | ⟨v, _, rfl⟩ <;> rintro ⟨hk, _⟩ <;>
        simp only [entered, taken] at hk <;> omega

theorem effects_nodup (i : Issue α) : (s.effects c i).Nodup := by
  cases i with
  | push v => simp only [effects]; split <;> split <;> simp
  | pop =>
      simp only [effects]
      cases s.values[s.pops]? <;> cases s.values[s.pops + c]? <;> simp

/-- The log holds what has taken effect since its start, each once. -/
theorem mem_log (issues : List (Issue α)) (e : Numbered α) :
    (issues.foldl issue s).Done c e ↔ s.Done c e ∨ e ∈ s.log c issues := by
  induction issues generalizing s with
  | nil => simp [log]
  | cons i rest ih => rw [List.foldl_cons, ih, done_issue, log, List.mem_append, or_assoc]

theorem not_done_of_mem_log {issues : List (Issue α)} {e : Numbered α} (h : e ∈ s.log c issues) :
    ¬ s.Done c e := by
  induction issues generalizing s with
  | nil => cases h
  | cons i rest ih =>
      rcases List.mem_append.mp h with hfirst | hrest
      · exact not_done_of_mem hfirst
      · exact fun hdone => ih hrest ((done_issue i e).mpr (.inl hdone))

theorem log_nodup (issues : List (Issue α)) : (s.log c issues).Nodup := by
  induction issues generalizing s with
  | nil => exact List.nodup_nil
  | cons i rest ih =>
      refine List.nodup_append.mpr ⟨effects_nodup i, ih, ?_⟩
      rintro e hfirst f hrest rfl
      exact not_done_of_mem_log hrest ((done_issue i e).mpr (.inr hfirst))

end Issued

end YkUtil.Lib.Tickets
