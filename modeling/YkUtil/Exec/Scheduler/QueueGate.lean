import YkUtil.Lib.Outcome

/-!
The gate of a `single_push` producer on its own. Its pointer to the queue says
whether it was discarded; a flag that only a debug build has says whether it was
accessed. `discard` looks at the pointer and `push_wait` at the flag.
-/

namespace YkUtil.Exec

open YkUtil.Lib

/-- What ends a worker that uses its gate a second time: two `std::logic_error`s
and the access through a null pointer. -/
inductive GateFailure where
  | accessedTwice
  | discardedTwice
  | nullQueue

/-- `attached` is `queue_ != nullptr`. A release build does not write
`alreadyAccessed`. -/
structure QueueGate where
  attached : Bool
  alreadyAccessed : Bool
  deriving DecidableEq

/-- What `cancelable_bounded_push` does with a value. -/
inductive PushAnswer where
  | pushed
  | cancelled
  | throws
  deriving DecidableEq

inductive GateCall (T : Type*) where
  | pushWait (v : T) (answer : PushAnswer)
  | discard

/-- Why the calls do not go on. -/
inductive GateStop where
  | gate (failure : GateFailure)
  | queueThrew

namespace QueueGate

def make : QueueGate := {attached := true, alreadyAccessed := false}

def markAccess (debug : Bool) (gate : QueueGate) : Except GateFailure QueueGate :=
  if debug then
    if gate.alreadyAccessed then .error .accessedTwice
    else .ok {gate with alreadyAccessed := true}
  else .ok gate

/-- `push_wait` up to the operation of the queue. -/
def enterQueue (debug : Bool) (gate : QueueGate) : Except GateFailure QueueGate := do
  let gate ← gate.markAccess debug
  if gate.attached then .ok gate else .error .nullQueue

def discard (gate : QueueGate) : Except GateFailure QueueGate :=
  if gate.attached then .ok {gate with attached := false} else .error .discardedTwice

/-- `none` where a debug build stops at the assertion. -/
def isDiscarded (debug : Bool) (gate : QueueGate) : Option Bool :=
  let discarded := !gate.attached
  if debug && !(discarded || gate.alreadyAccessed) then none else some discarded

/-- `if (!gate.is_discarded()) ++stats_.producer_output`. -/
def output (debug : Bool) (gate : QueueGate) : Option Nat :=
  (gate.isDiscarded debug).map fun discarded => if discarded then 0 else 1

variable {debug : Bool} {gate gate' : QueueGate}

theorem enterQueue_cases (h : gate.enterQueue debug = .ok gate') :
    gate.attached = true ∧ gate'.attached = true ∧
      (debug = true → gate'.alreadyAccessed = true) := by
  obtain ⟨marked, hmark, h⟩ := Outcome.bind_eq_ok.mp h
  split at h
  · rename_i hattached
    cases h
    unfold markAccess at hmark
    split at hmark
    · split at hmark
      · cases hmark
      · cases hmark
        exact ⟨hattached, hattached, fun _ => rfl⟩
    · rename_i hrelease
      cases hmark
      exact ⟨hattached, hattached, fun hdebug => absurd hdebug hrelease⟩
  · cases h

theorem discard_cases (h : gate.discard = .ok gate') :
    gate.attached = true ∧ gate' = {gate with attached := false} := by
  unfold discard at h
  split at h
  · rename_i hattached
    exact ⟨hattached, (Except.ok.inj h).symm⟩
  · cases h

/-- Only a gate that was used fails. -/
theorem enterQueue_error {failure : GateFailure} (h : gate.enterQueue debug = .error failure) :
    gate.alreadyAccessed = true ∨ gate.attached = false := by
  rcases Outcome.bind_eq_error.mp h with hmark | ⟨marked, hmark, h⟩
  · unfold markAccess at hmark
    split at hmark
    · split at hmark
      · exact .inl (by assumption)
      · cases hmark
    · cases hmark
  · right
    have hsame : marked.attached = gate.attached := by
      unfold markAccess at hmark
      split at hmark
      · split at hmark
        · cases hmark
        · cases hmark
          rfl
      · cases hmark
        rfl
    split at h
    · cases h
    · rename_i hdetached
      rw [← hsame]
      simpa using hdetached

theorem discard_error {failure : GateFailure} (h : gate.discard = .error failure) :
    gate.attached = false := by
  unfold discard at h
  split at h
  · cases h
  · rename_i hdetached
    simpa using hdetached

theorem output_eq {n : Nat} (h : gate.output debug = some n) : n = gate.attached.toNat := by
  simp only [output, isDiscarded, Option.map_eq_some_iff, Option.ite_none_left_eq_some,
    Option.some.injEq] at h
  obtain ⟨discarded, ⟨-, rfl⟩, rfl⟩ := h
  cases gate.attached <;> rfl

theorem isDiscarded_of_discarded (h : gate.attached = false) :
    gate.isDiscarded debug = some true := by
  simp [isDiscarded, h]

theorem isDiscarded_ne_true (h : gate.attached = true) : gate.isDiscarded debug ≠ some true := by
  simp [isDiscarded, h]

theorem isDiscarded_of_accessed (h : gate.attached = true)
    (haccessed : debug = true → gate.alreadyAccessed = true) :
    gate.isDiscarded debug = some false := by
  cases debug with
  | false => simp [isDiscarded, h]
  | true => simp [isDiscarded, h, haccessed rfl]

end QueueGate

/-- A gate and the values that went through it. -/
structure GateRun (T : Type*) where
  gate : QueueGate
  values : List T

namespace GateRun

variable {T : Type*} {debug : Bool}

def start : GateRun T := {gate := .make, values := []}

def call (debug : Bool) (s : GateRun T) : GateCall T → Except GateStop (GateRun T)
  | .pushWait v answer =>
      match s.gate.enterQueue debug, answer with
      | .error failure, _ => .error (.gate failure)
      | .ok gate, .pushed => .ok {gate := gate, values := s.values ++ [v]}
      | .ok gate, .cancelled => .ok {s with gate := gate}
      | .ok _, .throws => .error .queueThrew
  | .discard =>
      match s.gate.discard with
      | .error failure => .error (.gate failure)
      | .ok gate => .ok {s with gate := gate}

def calls (debug : Bool) (s : GateRun T) : List (GateCall T) → Except GateStop (GateRun T)
  | [] => .ok s
  | c :: rest => s.call debug c >>= fun t => t.calls debug rest

/-- No call throws, and every `push_wait` returns true. What is left is to
return, or to go through a null pointer. -/
structure Quiet (debug : Bool) (cs : List (GateCall T)) : Prop where
  noThrow : ∀ stop, (start : GateRun T).calls debug cs = .error stop → stop = .gate .nullQueue
  pushed : ∀ v answer, .pushWait v answer ∈ cs → answer = .pushed

/-- The calls stay off the null pointer, and the gate says afterwards how many
values went through it. -/
structure Settles (debug : Bool) (cs : List (GateCall T)) (s : GateRun T) : Prop where
  returns : (start : GateRun T).calls debug cs = .ok s
  kept_iff : s.gate.isDiscarded debug = some false ↔ s.values.length = 1
  discarded_iff : s.gate.isDiscarded debug = some true ↔ s.values.length = 0
  output_eq : s.gate.output debug = some s.values.length

/-- Of `n` calls, those that did not push have discarded. -/
structure Counted (debug : Bool) (s : GateRun T) (n : Nat) : Prop where
  count : s.values.length + (!s.gate.attached).toNat = n
  accessed : debug = true → s.gate.attached = true → s.values ≠ [] → s.gate.alreadyAccessed = true

theorem counted_start : Counted debug (start : GateRun T) 0 :=
  ⟨rfl, fun _ _ h => absurd rfl h⟩

/-- What a call that pushes or discards leaves. -/
theorem Counted.call {s t : GateRun T} {n : Nat} {c : GateCall T} (h : Counted debug s n)
    (hpush : ∀ v answer, c = .pushWait v answer → answer = .pushed)
    (hcall : s.call debug c = .ok t) : Counted debug t (n + 1) := by
  have hcount := h.count
  cases c with
  | pushWait v answer =>
      obtain rfl := hpush v answer rfl
      simp only [GateRun.call] at hcall
      cases henter : s.gate.enterQueue debug with
      | error failure =>
          rw [henter] at hcall
          cases hcall
      | ok gate =>
          rw [henter] at hcall
          cases hcall
          obtain ⟨hattached, hattached', haccessed⟩ := QueueGate.enterQueue_cases henter
          rw [hattached] at hcount
          refine ⟨?_, fun hdebug _ _ => haccessed hdebug⟩
          rw [hattached', List.length_append, List.length_singleton]
          simp only [Bool.not_true, Bool.toNat_false] at hcount ⊢
          omega
  | discard =>
      simp only [GateRun.call, QueueGate.discard] at hcall
      cases hattached : s.gate.attached with
      | false =>
          rw [hattached] at hcall
          cases hcall
      | true =>
          rw [hattached] at hcall hcount
          cases hcall
          refine ⟨?_, fun _ hfalse => by cases hfalse⟩
          simp only [Bool.not_true, Bool.toNat_false, Bool.not_false, Bool.toNat_true] at hcount ⊢
          omega

theorem Counted.calls {s t : GateRun T} {n : Nat} {cs : List (GateCall T)}
    (h : Counted debug s n) (hpush : ∀ v answer, .pushWait v answer ∈ cs → answer = .pushed)
    (hcalls : s.calls debug cs = .ok t) : Counted debug t (n + cs.length) := by
  induction cs generalizing s n with
  | nil =>
      cases hcalls
      exact h
  | cons c rest ih =>
      obtain ⟨u, hcall, hrest⟩ := Outcome.bind_eq_ok.mp hcalls
      have hu := h.call (fun v answer hc => hpush v answer (hc ▸ List.mem_cons_self)) hcall
      have ht := ih hu (fun v answer hmem => hpush v answer (List.mem_cons_of_mem _ hmem)) hrest
      rw [List.length_cons, Nat.add_comm rest.length, ← Nat.add_assoc]
      exact ht

/-- A gate that tells whether its only value went through. -/
theorem settles_of_gate {s : GateRun T} {cs : List (GateCall T)} {discarded : Bool}
    (hcalls : (start : GateRun T).calls debug cs = .ok s)
    (hgate : s.gate.isDiscarded debug = some discarded)
    (hlength : s.values.length = (!discarded).toNat) : Settles debug cs s := by
  refine ⟨hcalls, ?_, ?_, ?_⟩
  · rw [hgate, hlength]
    cases discarded <;> simp
  · rw [hgate, hlength]
    cases discarded <;> simp
  · rw [QueueGate.output, hgate, hlength]
    cases discarded <;> rfl

/-- The gate tells one call from none and from more. -/
theorem Counted.settles_iff {s : GateRun T} {cs : List (GateCall T)}
    (h : Counted debug s cs.length) (hcalls : (start : GateRun T).calls debug cs = .ok s) :
    Settles debug cs s ↔ cs.length = 1 := by
  have hcount := h.count
  cases hattached : s.gate.attached with
  | false =>
      rw [hattached, Bool.not_false, Bool.toNat_true] at hcount
      have hgate : s.gate.isDiscarded debug = some true :=
        QueueGate.isDiscarded_of_discarded hattached
      constructor
      · intro hsettles
        have hnone := hsettles.discarded_iff.mp hgate
        omega
      · intro hone
        have hnone : s.values.length = 0 := by omega
        exact settles_of_gate hcalls hgate hnone
  | true =>
      rw [hattached, Bool.not_true, Bool.toNat_false, Nat.add_zero] at hcount
      have haccessed (hsome : s.values ≠ []) : s.gate.isDiscarded debug = some false :=
        QueueGate.isDiscarded_of_accessed hattached fun hdebug =>
          h.accessed hdebug hattached hsome
      constructor
      · intro hsettles
        have hsome : s.values ≠ [] := by
          intro hempty
          exact QueueGate.isDiscarded_ne_true hattached
            (hsettles.discarded_iff.mpr (congrArg List.length hempty))
        rw [← hcount]
        exact hsettles.kept_iff.mp (haccessed hsome)
      · intro hone
        have hlength : s.values.length = 1 := hcount.trans hone
        have hgate := haccessed (List.ne_nil_of_length_eq_add_one hlength)
        exact settles_of_gate hcalls hgate hlength

/-- The first call of a gate goes through. -/
theorem calls_singleton {c : GateCall T}
    (hpush : ∀ v answer, c = .pushWait v answer → answer = .pushed) :
    ∃ s, (start : GateRun T).calls debug [c] = .ok s := by
  cases c with
  | pushWait v answer =>
      obtain rfl := hpush v answer rfl
      cases debug <;> exact ⟨_, rfl⟩
  | discard => exact ⟨_, rfl⟩

/-- For either build and every finite sequence of calls of which none throws and
whose pushes succeed, the calls stay off the null pointer and the gate counts
what went through it if and only if there is exactly one call. -/
theorem gate_settles_iff_one_call (debug : Bool) (cs : List (GateCall T))
    (hquiet : Quiet debug cs) : (∃ s, Settles debug cs s) ↔ cs.length = 1 := by
  cases hcalls : (start : GateRun T).calls debug cs with
  | error stop =>
      constructor
      · rintro ⟨s, hsettles⟩
        rw [hsettles.returns] at hcalls
        cases hcalls
      · intro hone
        obtain ⟨c, rfl⟩ := List.length_eq_one_iff.mp hone
        obtain ⟨s, hs⟩ := calls_singleton fun v answer hc =>
          hquiet.pushed v answer (hc ▸ List.mem_singleton_self _)
        rw [hs] at hcalls
        cases hcalls
  | ok s =>
      have hcounted : Counted debug s cs.length := by
        have h := counted_start.calls hquiet.pushed hcalls
        rwa [Nat.zero_add] at h
      constructor
      · rintro ⟨t, hsettles⟩
        obtain rfl : s = t := Except.ok.inj (hcalls.symm.trans hsettles.returns)
        exact (hcounted.settles_iff hcalls).mp hsettles
      · intro hone
        exact ⟨s, (hcounted.settles_iff hcalls).mpr hone⟩

theorem gate_settles_iff_one_call_push :
    ∃ s, Settles true [.pushWait (5 : Nat) .pushed] s := by
  refine (gate_settles_iff_one_call true _ ⟨?_, ?_⟩).mpr rfl
  · intro stop hstop
    cases hstop
  · intro v answer hmem
    cases List.mem_singleton.mp hmem
    rfl

/-- `discard` and then `push_wait`: nothing throws, in either build, and the push
goes through the null pointer. -/
theorem push_after_discard_null :
    ¬ ∀ (debug : Bool) (cs : List (GateCall Nat)), Quiet debug cs → ∃ s, Settles debug cs s := by
  intro hall
  obtain ⟨s, hsettles⟩ := hall true [.discard, .pushWait 5 .pushed] (by
    refine ⟨fun stop hstop => ?_, fun v answer hmem => ?_⟩
    · cases hstop
      rfl
    · rcases List.mem_cons.mp hmem with heq | hmem
      · cases heq
      · cases List.mem_singleton.mp hmem
        rfl)
  cases hsettles.returns

end GateRun

end YkUtil.Exec
