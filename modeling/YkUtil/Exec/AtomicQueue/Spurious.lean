import YkUtil.Exec.AtomicQueue.History

/-!
`try_push` and `try_pop` do not fail spuriously. The failure verdict combines
three reads: the counter, the slot's turn, the counter again. Counters only
grow, so an unchanged counter was unchanged when the turn was read, and that
instant is the witness.
-/

namespace YkUtil.Exec.AtomicQueue

open YkUtil.Lib

variable {Tid T : Type*} {c : Nat} {s t : System Tid T c}

/-- Action number `n` starts the call, and no later action starts another one
of the same thread. -/
def CallFrom (acts : List (Action Tid T)) (tid : Tid) (call : Call T) (n : Nat) : Prop :=
  acts[n]? = some (.invoke tid call) ∧
    ∀ m call', n < m → acts[m]? ≠ some (.invoke tid call')

/-- The try_push or try_pop a thread is in while it has no ticket yet. -/
def Pc.trying : Pc T → Option (Call T)
  | .tryPushLoad v | .tryPushCheck v _ | .tryPushCas v _ | .tryPushReload v _ =>
      some (.tryPush v)
  | .tryPopLoad | .tryPopCheck _ | .tryPopCas _ | .tryPopReload _ => some .tryPop
  | _ => none

/-- The queue is full at this instant: the slot of the next head ticket still
waits for the pop of the lap before. -/
def Full (s : System Tid T c) : Prop :=
  c ≤ s.queue.head ∧ ¬ s.Popped (s.queue.head - c)

/-- The next tail ticket's push is not complete at this instant. -/
def Empty (s : System Tid T c) : Prop := ¬ s.Pushed s.queue.tail

/-- What a thread about to re-read its counter has found when the counter has
not moved since. -/
def Refuted (s : System Tid T c) : Pc T → Prop
  | .tryPushReload _ h => s.queue.head = h ∧ Full s
  | .tryPopReload k => s.queue.tail = k ∧ Empty s
  | _ => False

/-- The counter a thread is about to re-read has moved already. -/
def Moved (s : System Tid T c) : Pc T → Prop
  | .tryPushReload _ h => h < s.queue.head
  | .tryPopReload k => k < s.queue.tail
  | _ => True

theorem CallFrom.lt {acts : List (Action Tid T)} {tid : Tid} {call : Call T} {n : Nat}
    (h : CallFrom acts tid call n) : n < acts.length :=
  (List.getElem?_eq_some_iff.mp h.1).1

theorem CallFrom.start (acts : List (Action Tid T)) (tid : Tid) (call : Call T) :
    CallFrom (acts ++ [.invoke tid call]) tid call acts.length := by
  refine ⟨by simp, fun m call' hm => ?_⟩
  rw [List.getElem?_eq_none (by simp; omega)]
  exact (Option.some_ne_none _).symm

theorem Moved.mono {pc : Pc T} (h : Moved s pc) (hhead : s.queue.head ≤ t.queue.head)
    (htail : s.queue.tail ≤ t.queue.tail) : Moved t pc := by
  cases pc with
  | tryPushReload v k => exact Nat.lt_of_lt_of_le h hhead
  | tryPopReload k => exact Nat.lt_of_lt_of_le h htail
  | _ => trivial

theorem CallFrom.snoc {acts : List (Action Tid T)} {tid : Tid} {call : Call T} {n : Nat}
    {a : Action Tid T} (h : CallFrom acts tid call n) (ha : ∀ call', a ≠ .invoke tid call') :
    CallFrom (acts ++ [a]) tid call n := by
  have hn := h.lt
  refine ⟨by rw [List.getElem?_append_left hn]; exact h.1, fun m call' hm => ?_⟩
  rcases Nat.lt_trichotomy m acts.length with hlt | heq | hgt
  · rw [List.getElem?_append_left hlt]
    exact h.2 m call' hm
  · subst heq
    simpa using ha call'
  · rw [List.getElem?_eq_none (by simp; omega)]
    exact (Option.some_ne_none _).symm

theorem CallFrom.of_snoc {acts : List (Action Tid T)} {tid : Tid} {call : Call T} {n : Nat}
    {a : Action Tid T} (h : CallFrom (acts ++ [a]) tid call n) (hn : n < acts.length) :
    CallFrom acts tid call n ∧ ∀ call', a ≠ .invoke tid call' := by
  refine ⟨⟨?_, fun m call' hm hacts => ?_⟩, ?_⟩
  · rw [← h.1, List.getElem?_append_left hn]
  · have hlt := (List.getElem?_eq_some_iff.mp hacts).1
    exact h.2 m call' hm (by rw [List.getElem?_append_left hlt, hacts])
  · rintro call' rfl
    exact h.2 acts.length call' hn List.getElem?_concat_length

variable [NeZero c]

/-- The slot's turn rules out the next head ticket only while its predecessor
of one lap is unpopped. -/
theorem full_of_turn (hinv : Inv s) (hrec : Recorded s)
    (hturn : turn c s.queue.head * 2 ≠ (s.queue.slotAt s.queue.head).turn) : Full s := by
  have hc : 0 < c := NeZero.pos c
  have hle := hinv.turn_le_of_head_le (Nat.le_refl s.queue.head)
  have hck : c ≤ s.queue.head := (Lap.lap_pos_iff hc).mp (by
    change 0 < turn c s.queue.head
    omega)
  refine ⟨hck, ?_⟩
  have hlap : turn c (s.queue.head - c) = turn c s.queue.head - 1 := Lap.lap_sub hc hck
  rw [hrec.popped, slotAt_congr _ (Lap.slot_sub hck), hlap]
  omega

theorem empty_of_turn (hinv : Inv s) (hrec : Recorded s)
    (hturn : turn c s.queue.tail * 2 + 1 ≠ (s.queue.slotAt s.queue.tail).turn) : Empty s := by
  have hle := hinv.turn_le_of_tail_le (Nat.le_refl s.queue.tail)
  unfold Empty
  rw [hrec.pushed]
  omega

/-- When a check fails, either the counter has moved on already or the queue
is full, respectively empty, right now. -/
theorem refuted_of_check (hinv : Inv s) (hrec : Recorded s) (tid : Tid)
    (hpc : Local s (s.pc tid)) :
    Moved s (advance .unbounded s.queue (s.pc tid)).2.1 ∨
      Refuted s (advance .unbounded s.queue (s.pc tid)).2.1 := by
  generalize s.pc tid = pc at hpc
  cases pc with
  | tryPushCheck v k =>
      simp only [advance]
      split
      · exact Or.inl trivial
      · rename_i hturn
        rcases Nat.eq_or_lt_of_le hpc with heq | hlt
        · subst heq
          exact Or.inr ⟨rfl, full_of_turn hinv hrec hturn⟩
        · exact Or.inl hlt
  | tryPopCheck k =>
      simp only [advance]
      split
      · exact Or.inl trivial
      · rename_i hturn
        rcases Nat.eq_or_lt_of_le hpc with heq | hlt
        · subst heq
          exact Or.inr ⟨rfl, empty_of_turn hinv hrec hturn⟩
        · exact Or.inl hlt
  | pushSpin | popSpin | tryPushCas | tryPushReload | tryPopCas | tryPopReload =>
      simp only [advance]
      split <;> exact Or.inl trivial
  | idle | pushFetchAdd | tryPushLoad | construct | storePush | popFetchAdd | tryPopLoad
  | extract | destroy | storePop => exact Or.inl trivial

variable [DecidableEq Tid]

theorem counters_mono {a : Action Tid T} (hstep : step .unbounded s a = some t) :
    s.queue.head ≤ t.queue.head ∧ s.queue.tail ≤ t.queue.tail := by
  rcases step_inv hstep with ⟨tid, call, _, _, rfl⟩ | ⟨tid, _, _, rfl⟩
  · exact ⟨Nat.le_refl _, Nat.le_refl _⟩
  · have heffect := advance_effect s.queue (s.pc tid)
    generalize advance .unbounded s.queue (s.pc tid) = outcome at heffect ⊢
    obtain ⟨q, pc, event⟩ := outcome
    have hsame (h : q.head = s.queue.head ∧ q.tail = s.queue.tail) :
        s.queue.head ≤ q.head ∧ s.queue.tail ≤ q.tail :=
      ⟨Nat.le_of_eq h.1.symm, Nat.le_of_eq h.2.symm⟩
    cases event with
    | none => exact hsame ⟨heffect.1, heffect.2.1⟩
    | some e =>
        cases e with
        | headTicket k v =>
            obtain ⟨_, rfl, _⟩ := heffect
            exact ⟨Nat.le_succ _, Nat.le_refl _⟩
        | tailTicket k =>
            obtain ⟨_, rfl, _⟩ := heffect
            exact ⟨Nat.le_refl _, Nat.le_succ _⟩
        | pushed k | popped k r =>
            obtain ⟨_, _, rfl⟩ := heffect
            exact ⟨Nat.le_refl _, Nat.le_refl _⟩
        | tryPushFalse | tryPopFalse => exact hsame ⟨heffect.1, heffect.2.1⟩

/-- A thread is trying only after it was before the step. -/
theorem trying_advance (q : AtomicQueue T c) (pc : Pc T) {call : Call T}
    (h : Pc.trying (advance .unbounded q pc).2.1 = some call) : Pc.trying pc = some call := by
  cases pc with
  | idle | pushFetchAdd | construct | storePush | popFetchAdd | extract | destroy | storePop =>
      cases h
  | pushSpin | popSpin =>
      simp only [advance] at h
      split at h <;> cases h
  | tryPushLoad | tryPopLoad => exact h
  | tryPushCheck | tryPushCas | tryPushReload | tryPopCheck | tryPopCas | tryPopReload =>
      simp only [advance] at h
      split at h
      all_goals first
        | exact h
        | cases h

/-- Along every run: a thread that tries is in a call started by a known
action, and one about to re-read its counter will find it moved unless it has
passed a refuting instant in that call. -/
theorem trying_run (acts : List (Action Tid T)) (s : System Tid T c)
    (h : (system Tid T c).Reaches acts s) :
    ∀ tid call, Pc.trying (s.pc tid) = some call → ∃ n, CallFrom acts tid call n ∧
      (Moved s (s.pc tid) ∨
        (system Tid T c).Visits acts (n + 1) fun u => Refuted u (s.pc tid)) := by
  refine (system Tid T c).run_induction (P := fun acts s => ∀ tid call,
    Pc.trying (s.pc tid) = some call → ∃ n, CallFrom acts tid call n ∧
      (Moved s (s.pc tid) ∨
        (system Tid T c).Visits acts (n + 1) fun u => Refuted u (s.pc tid))) ?_ ?_ acts s h
  · exact fun tid call htry => by cases htry
  intro acts s a t hrun ih hstep tid call htry
  obtain ⟨hhead, htail⟩ := counters_mono hstep
  have hold (hpc : t.pc tid = s.pc tid) (ha : ∀ call', a ≠ .invoke tid call') :
      ∃ n, CallFrom (acts ++ [a]) tid call n ∧ (Moved t (t.pc tid) ∨
        (system Tid T c).Visits (acts ++ [a]) (n + 1) fun u => Refuted u (t.pc tid)) := by
    rw [hpc] at htry ⊢
    obtain ⟨n, hcall, hseen⟩ := ih tid call htry
    refine ⟨n, hcall.snoc ha, ?_⟩
    rcases hseen with hmoved | hvisits
    · exact Or.inl (hmoved.mono hhead htail)
    · exact Or.inr (hvisits.snoc a)
  rcases step_inv hstep with ⟨actor, call', rfl, _, rfl⟩ | ⟨actor, rfl, _, rfl⟩
  · by_cases heq : tid = actor
    · subst heq
      have hstarted : call' = call := by
        rw [set_pc_self] at htry
        cases call' <;> simp only [Call.start, Pc.trying, reduceCtorEq,
          Option.some.injEq] at htry
        all_goals exact htry
      subst hstarted
      refine ⟨acts.length, CallFrom.start acts tid call', Or.inl ?_⟩
      rw [set_pc_self]
      cases call' <;> trivial
    · apply hold (set_pc_other _ _ _ _ _ heq)
      intro call'' hcall
      cases hcall
      exact heq rfl
  · by_cases heq : tid = actor
    · subst heq
      have hpc : (s.apply tid (advance .unbounded s.queue (s.pc tid))).pc tid =
          (advance .unbounded s.queue (s.pc tid)).2.1 := set_pc_self _ _ _ _ _
      rw [hpc] at htry ⊢
      obtain ⟨n, hcall, _⟩ := ih tid call (trying_advance _ _ htry)
      refine ⟨n, hcall.snoc nofun, ?_⟩
      have hinv := reachable_inv hrun.reachable
      have hrec := reachable_recorded hrun.reachable
      rcases refuted_of_check hinv hrec tid (hinv.atPc tid) with hmoved | hrefuted
      · exact Or.inl (hmoved.mono hhead htail)
      · exact Or.inr ((TransitionSystem.Visits.now hrun hcall.lt hrefuted).snoc _)
    · exact hold (set_pc_other _ _ _ _ _ heq) nofun

/-- A call returns false only by re-reading an unchanged counter. -/
theorem false_event (q : AtomicQueue T c) (pc : Pc T) :
    ((advance .unbounded q pc).2.2 = some .tryPushFalse → ∃ v, pc = .tryPushReload v q.head) ∧
    ((advance .unbounded q pc).2.2 = some .tryPopFalse → pc = .tryPopReload q.tail) := by
  cases pc with
  | tryPushReload v k =>
      simp only [advance]
      split
      · rename_i hsame
        exact ⟨fun _ => ⟨v, by rw [hsame]⟩, by simp⟩
      · simp
  | tryPopReload k =>
      simp only [advance]
      split
      · rename_i hsame
        exact ⟨by simp, fun _ => by rw [hsame]⟩
      · simp
  | pushSpin | popSpin | tryPushCheck | tryPopCheck | tryPushCas | tryPopCas =>
      simp only [advance]
      split <;> simp
  | idle | pushFetchAdd | tryPushLoad | construct | storePush | popFetchAdd | tryPopLoad
  | extract | destroy | storePop => simp [advance]

theorem event_of_history {tid : Tid} {e : Event T} (hstep : step .unbounded s (.tick tid) = some t)
    (hhistory : t.history = s.history ++ [(tid, e)]) :
    (advance .unbounded s.queue (s.pc tid)).2.2 = some e := by
  rcases step_inv hstep with ⟨_, _, hact, _⟩ | ⟨actor, hact, _, rfl⟩
  · cases hact
  · cases hact
    have happend := List.append_cancel_left ((set_history _ _ _ _ _).symm.trans hhistory)
    cases hevent : (advance .unbounded s.queue (s.pc tid)).2.2 with
    | none =>
        rw [hevent] at happend
        simp at happend
    | some e' =>
        rw [hevent] at happend
        simpa using happend

/-- For every capacity, any number of threads and any interleaving: when
try_push returns false, the queue was full at an instant of that very call, the
pop of ticket `head - capacity` not having completed its turn store; when
try_pop returns false, at an instant of that call the push of ticket `tail` had
not completed its turn store. -/
theorem try_false_not_spurious {acts : List (Action Tid T)} {tid : Tid}
    (hrun : (system Tid T c).Reaches acts s)
    (hstep : (system Tid T c).step s (.tick tid) = some t) :
    (t.history = s.history ++ [(tid, .tryPushFalse)] →
      ∃ v n, CallFrom acts tid (.tryPush v) n ∧
        (system Tid T c).Visits acts (n + 1) fun u => ∃ h, u.queue.head = h ∧ c ≤ h ∧
          ¬ u.Popped (h - c)) ∧
    (t.history = s.history ++ [(tid, .tryPopFalse)] →
      ∃ n, CallFrom acts tid .tryPop n ∧
        (system Tid T c).Visits acts (n + 1) fun u => ∃ k, u.queue.tail = k ∧
          ¬ u.Pushed k) := by
  constructor
  · intro hhistory
    obtain ⟨v, hpc⟩ := (false_event _ _).1 (event_of_history hstep hhistory)
    obtain ⟨n, hcall, hseen⟩ := trying_run acts s hrun tid (.tryPush v) (by rw [hpc]; rfl)
    rw [hpc] at hseen
    rcases hseen with hmoved | ⟨before, after, u, hacts, hn, hreach, hrefuted⟩
    · exact absurd hmoved (Nat.lt_irrefl _)
    · obtain ⟨_, hfull, hunpopped⟩ := hrefuted
      exact ⟨v, n, hcall, before, after, u, hacts, hn, hreach, _, rfl, hfull, hunpopped⟩
  · intro hhistory
    have hpc := (false_event _ _).2 (event_of_history hstep hhistory)
    obtain ⟨n, hcall, hseen⟩ := trying_run acts s hrun tid .tryPop (by rw [hpc]; rfl)
    rw [hpc] at hseen
    rcases hseen with hmoved | ⟨before, after, u, hacts, hn, hreach, hrefuted⟩
    · exact absurd hmoved (Nat.lt_irrefl _)
    · exact ⟨n, hcall, before, after, u, hacts, hn, hreach, _, rfl, hrefuted.2⟩

/-- On a queue of capacity one, a try_push that meets a push which has its
ticket but no turn store yet returns false: at an instant of the call the pop
of ticket zero is not complete. -/
theorem try_false_not_spurious_stalled_push :
    ∃ v n, CallFrom [.invoke 0 (.push 7), .tick 0, .invoke 1 (.tryPush 8), .tick 1, .tick 1]
        (1 : Fin 2) (.tryPush v) n ∧
      (system (Fin 2) Nat 1).Visits [.invoke 0 (.push 7), .tick 0, .invoke 1 (.tryPush 8),
        .tick 1, .tick 1] (n + 1) fun u => ∃ h, u.queue.head = h ∧ 1 ≤ h ∧
          ¬ u.Popped (h - 1) := by
  obtain ⟨t, ht, hthistory⟩ := (system (Fin 2) Nat 1).exists_of_map
    ([.invoke 0 (.push 7), .tick 0, .invoke 1 (.tryPush 8), .tick 1, .tick 1] ++ [.tick 1])
    System.history rfl
  obtain ⟨s, hs, hstep⟩ := (system (Fin 2) Nat 1).exec_snoc_inv ht
  obtain ⟨s', hs', hshistory⟩ := (system (Fin 2) Nat 1).exists_of_map
    [.invoke 0 (.push 7), .tick 0, .invoke 1 (.tryPush 8), .tick 1, .tick 1] System.history rfl
  have hsame : s' = s := Option.some.inj (hs'.symm.trans hs)
  subst hsame
  exact (try_false_not_spurious hs hstep).1 (by rw [hthistory, hshistory]; rfl)

end YkUtil.Exec.AtomicQueue
