import YkUtil.Exec.AtomicQueue.Spurious

/-!
Progress of the queue. A push or a pop that spins waits for one certain turn store
of another thread, and following these waits down the tickets ends at a thread that
can go on, or at a queue that is full or empty. `try_push` and `try_pop` do not wait
at all: they go round again only when another thread has obtained a ticket.
-/

namespace YkUtil.Exec.AtomicQueue

open YkUtil.Lib

variable {Tid T : Type*} {c : Nat} [NeZero c] {s t : System Tid T c}

section Deadlock

/-- The turn that the thread waits for is not there yet. -/
inductive Spins (s : System Tid T c) : Pc T → Prop where
  | push (v : T) (k : Nat) (h : (s.queue.slotAt k).turn ≠ turn c k * 2) : Spins s (.pushSpin v k)
  | pop (k : Nat) (h : (s.queue.slotAt k).turn ≠ turn c k * 2 + 1) : Spins s (.popSpin k)

/-- No thread that is in a call can do anything but spin. -/
def Stuck (s : System Tid T c) : Prop := ∀ tid, s.pc tid = .idle ∨ Spins s (s.pc tid)

/-- The pushes and the pops that a bounded queue could have served by now. -/
structure Served (s : System Tid T c) (k : Nat) : Prop where
  pushed : k < s.queue.head → k < s.queue.tail + c → turn c k * 2 + 1 ≤ (s.queue.slotAt k).turn
  popped : k < s.queue.tail → k < s.queue.head → turn c k * 2 + 2 ≤ (s.queue.slotAt k).turn

/-- A push waits for the pop of the ticket one lap before. -/
theorem Inv.pushed_of_stuck (h : Inv s) (hstuck : Stuck s) {k : Nat} (hhead : k < s.queue.head)
    (hroom : k < s.queue.tail + c) (hbefore : ∀ l < k, Served s l) :
    turn c k * 2 + 1 ≤ (s.queue.slotAt k).turn := by
  have hc : 0 < c := NeZero.pos c
  rcases h.heldHead k hhead with hdone | ⟨tid, hheld⟩
  · exact hdone
  · have hlocal := h.atPc tid
    rcases hstuck tid with hidle | hspins
    · rw [hidle] at hheld
      cases hheld
    · generalize s.pc tid = pc at hheld hlocal hspins
      cases hspins with
      | pop l hturn => cases hheld
      | push v l hturn =>
          obtain rfl : l = k := Option.some.inj hheld
          have hle := hlocal.2.2
          have hpos : 0 < turn c l := by omega
          have hcl : c ≤ l := (Lap.lap_pos_iff hc).mp hpos
          have hlap : turn c (l - c) = turn c l - 1 := Lap.lap_sub hc hcl
          have hpopped := (hbefore (l - c) (by omega)).popped (by omega) (by omega)
          rw [slotAt_congr _ (Lap.slot_sub hcl)] at hpopped
          omega

/-- A pop waits for the push of its own ticket. -/
theorem Inv.popped_of_stuck (h : Inv s) (hstuck : Stuck s) {k : Nat} (htail : k < s.queue.tail)
    (hpushed : turn c k * 2 + 1 ≤ (s.queue.slotAt k).turn) :
    turn c k * 2 + 2 ≤ (s.queue.slotAt k).turn := by
  rcases h.heldTail k htail with hdone | ⟨tid, hheld⟩
  · exact hdone
  · have hlocal := h.atPc tid
    rcases hstuck tid with hidle | hspins
    · rw [hidle] at hheld
      cases hheld
    · generalize s.pc tid = pc at hheld hlocal hspins
      cases hspins with
      | push v l hturn => cases hheld
      | pop l hturn =>
          obtain rfl : l = k := Option.some.inj hheld
          have hle := hlocal.2
          omega

theorem Inv.served_of_stuck (h : Inv s) (hstuck : Stuck s) (k : Nat) : Served s k := by
  induction k using Nat.strong_induction_on with
  | h k ih =>
      have hpushed (hhead : k < s.queue.head) (hroom : k < s.queue.tail + c) :=
        h.pushed_of_stuck hstuck hhead hroom ih
      exact ⟨hpushed, fun htail hhead => h.popped_of_stuck hstuck htail (hpushed hhead (by omega))⟩

/-- A thread that is left spinning has a ticket beyond what could be served. -/
theorem Inv.spins_beyond (h : Inv s) (hstuck : Stuck s) {tid : Tid} (hbusy : s.pc tid ≠ .idle) :
    (∃ v k, s.pc tid = .pushSpin v k ∧ s.queue.tail + c ≤ k ∧ k < s.queue.head) ∨
      ∃ k, s.pc tid = .popSpin k ∧ s.queue.head ≤ k ∧ k < s.queue.tail := by
  have hlocal := h.atPc tid
  rcases hstuck tid with hidle | hspins
  · exact absurd hidle hbusy
  · generalize hpc : s.pc tid = pc at hlocal hspins
    cases hspins with
    | push v k hturn =>
        refine .inl ⟨v, k, rfl, ?_, hlocal.1⟩
        by_contra hroom
        have hpushed := (h.served_of_stuck hstuck k).pushed hlocal.1 (by omega)
        have hle := hlocal.2.2
        omega
    | pop k hturn =>
        refine .inr ⟨k, rfl, ?_, hlocal.1⟩
        by_contra hhead
        have hpopped := (h.served_of_stuck hstuck k).popped hlocal.1 (by omega)
        have hle := hlocal.2
        omega

variable [DecidableEq Tid]

/-- For every capacity, any number of threads and any interleaving: when no thread
can do anything but spin, every push for which there was room and every pop for
which there was a value has been completed, and what is left is nothing, pushes on a
full queue only, or pops on an empty queue only. -/
theorem stuck_only_full_or_empty (h : (system Tid T c).Reachable s) (hstuck : Stuck s) :
    (∀ k < min s.queue.head (s.queue.tail + c), s.Pushed k) ∧
    (∀ k < min s.queue.tail s.queue.head, s.Popped k) ∧
    (s.Quiescent ∨
      (s.queue.tail + c < s.queue.head ∧ ∀ tid, s.pc tid = .idle ∨
        ∃ v k, s.pc tid = .pushSpin v k ∧ s.queue.tail + c ≤ k) ∨
      (s.queue.head < s.queue.tail ∧ ∀ tid, s.pc tid = .idle ∨
        ∃ k, s.pc tid = .popSpin k ∧ s.queue.head ≤ k)) := by
  have hinv := reachable_inv h
  have hrec := reachable_recorded h
  refine ⟨fun k hk => ?_, fun k hk => ?_, ?_⟩
  · rw [hrec.pushed]
    exact (hinv.served_of_stuck hstuck k).pushed (by omega) (by omega)
  · rw [hrec.popped]
    exact (hinv.served_of_stuck hstuck k).popped (by omega) (by omega)
  · by_cases hquiet : s.Quiescent
    · exact .inl hquiet
    · right
      have hbeyond {tid : Tid} (hbusy : s.pc tid ≠ .idle) := hinv.spins_beyond hstuck hbusy
      by_cases hfull : s.queue.tail + c < s.queue.head
      · refine .inl ⟨hfull, fun tid => ?_⟩
        by_cases hidle : s.pc tid = .idle
        · exact .inl hidle
        · rcases hbeyond hidle with ⟨v, k, hpc, hk, -⟩ | ⟨k, -, hk, hk'⟩
          · exact .inr ⟨v, k, hpc, hk⟩
          · omega
      · refine .inr ⟨?_, fun tid => ?_⟩
        · by_contra hempty
          apply hquiet
          intro tid
          by_contra hbusy
          rcases hbeyond hbusy with ⟨v, k, -, hk, hk'⟩ | ⟨k, -, hk, hk'⟩ <;> omega
        · by_cases hidle : s.pc tid = .idle
          · exact .inl hidle
          · rcases hbeyond hidle with ⟨v, k, -, hk, hk'⟩ | ⟨k, hpc, hk, -⟩
            · omega
            · exact .inr ⟨k, hpc, hk⟩

/-- On a queue of capacity one that holds a value, a second push spins. -/
theorem stuck_only_full_or_empty_push :
    ∃ s, (system (Fin 2) Nat 1).Reachable s ∧ Stuck s ∧ ¬ s.Quiescent ∧
      (∀ k < min s.queue.head (s.queue.tail + 1), s.Pushed k) ∧
      ∀ tid, s.pc tid = .idle ∨ ∃ v k, s.pc tid = .pushSpin v k ∧ s.queue.tail + 1 ≤ k := by
  obtain ⟨s, hrun, hs⟩ := (system (Fin 2) Nat 1).exists_of_map
    [.invoke 0 (.push 7), .tick 0, .tick 0, .tick 0, .tick 0, .invoke 0 (.push 8), .tick 0]
    (b := (.pushSpin 8 1, .idle, 1, 2, 0))
    (fun s => (s.pc 0, s.pc 1, (s.queue.slotAt 1).turn, s.queue.head, s.queue.tail)) rfl
  simp only [Prod.mk.injEq] at hs
  obtain ⟨hpush, hidle, hturn, hhead, htail⟩ := hs
  have hstuck : Stuck s := Fin.forall_fin_two.mpr
    ⟨.inr (hpush ▸ .push 8 1 (by rw [hturn]; decide)), .inl hidle⟩
  have hbusy : ¬ s.Quiescent := fun hquiet => by cases hpush.symm.trans (hquiet 0)
  obtain ⟨hpushed, -, hleft⟩ := stuck_only_full_or_empty hrun.reachable hstuck
  rw [hhead, htail] at hleft
  rcases hleft with hquiet | ⟨-, hfull⟩ | ⟨hempty, -⟩
  · exact absurd hquiet hbusy
  · exact ⟨s, hrun.reachable, hstuck, hbusy, hpushed, htail ▸ hfull⟩
  · omega

end Deadlock

section Retries

/-- The counter that the call raises. -/
def counter (q : AtomicQueue T c) : Call T → Nat
  | .push _ | .tryPush _ => q.head
  | .pop | .tryPop => q.tail

def Tries : Call T → Prop
  | .tryPush _ | .tryPop => True
  | .push _ | .pop => False

variable [DecidableEq Tid]

def Action.isTick (tid : Tid) : Action Tid T → Bool
  | .tick actor => actor = tid
  | .invoke _ _ => false

/-- The number of steps that the thread takes. -/
def ticksOf (tid : Tid) (acts : List (Action Tid T)) : Nat :=
  acts.countP (Action.isTick tid)

/-- How many steps a call has taken, by where it is. It started when its counter
was at `start`; the counter is at `now`, and has passed the ticket of each round
before the next one. -/
inductive Attempt (start now ticks : Nat) : Call T → Pc T → Prop where
  | pushLoad (v : T) (hstart : start ≤ now) (hticks : ticks = 0) :
      Attempt start now ticks (.tryPush v) (.tryPushLoad v)
  | pushCheck (v : T) {k : Nat} (hk : start ≤ k) (hnow : k ≤ now)
      (hticks : ticks ≤ 2 * (k - start) + 1) :
      Attempt start now ticks (.tryPush v) (.tryPushCheck v k)
  | pushCas (v : T) {k : Nat} (hk : start ≤ k) (hnow : k ≤ now)
      (hticks : ticks ≤ 2 * (k - start) + 2) :
      Attempt start now ticks (.tryPush v) (.tryPushCas v k)
  | pushReload (v : T) {k : Nat} (hk : start ≤ k) (hnow : k ≤ now)
      (hticks : ticks ≤ 2 * (k - start) + 2) :
      Attempt start now ticks (.tryPush v) (.tryPushReload v k)
  | construct (v : T) {k : Nat} (hticks : ticks ≤ 2 * (now - start) + 1) :
      Attempt start now ticks (.tryPush v) (.construct .nonBlocking v k)
  | storePush (v : T) {k : Nat} (hticks : ticks ≤ 2 * (now - start) + 2) :
      Attempt start now ticks (.tryPush v) (.storePush .nonBlocking k)
  | popLoad (hstart : start ≤ now) (hticks : ticks = 0) :
      Attempt start now ticks .tryPop .tryPopLoad
  | popCheck {k : Nat} (hk : start ≤ k) (hnow : k ≤ now) (hticks : ticks ≤ 2 * (k - start) + 1) :
      Attempt start now ticks .tryPop (.tryPopCheck k)
  | popCas {k : Nat} (hk : start ≤ k) (hnow : k ≤ now) (hticks : ticks ≤ 2 * (k - start) + 2) :
      Attempt start now ticks .tryPop (.tryPopCas k)
  | popReload {k : Nat} (hk : start ≤ k) (hnow : k ≤ now) (hticks : ticks ≤ 2 * (k - start) + 2) :
      Attempt start now ticks .tryPop (.tryPopReload k)
  | extract {k : Nat} (hticks : ticks ≤ 2 * (now - start) + 1) :
      Attempt start now ticks .tryPop (.extract .nonBlocking k)
  | destroy {k : Nat} {r : Option T} (hticks : ticks ≤ 2 * (now - start) + 2) :
      Attempt start now ticks .tryPop (.destroy .nonBlocking k r)
  | storePop {k : Nat} {r : Option T} (hticks : ticks ≤ 2 * (now - start) + 3) :
      Attempt start now ticks .tryPop (.storePop .nonBlocking k r)
  | returned {call : Call T} (hticks : ticks ≤ 2 * (now - start) + 4) :
      Attempt start now ticks call .idle

variable {start now ticks : Nat} {call : Call T} {pc : Pc T}

theorem Attempt.start_call (htries : Tries call) : Attempt now now 0 call call.start := by
  cases call with
  | push | pop => cases htries
  | tryPush v => exact .pushLoad v (Nat.le_refl _) rfl
  | tryPop => exact .popLoad (Nat.le_refl _) rfl

/-- The other threads only raise the counter. -/
theorem Attempt.mono {later : Nat} (h : Attempt start now ticks call pc) (hle : now ≤ later) :
    Attempt start later ticks call pc := by
  cases h with
  | pushLoad v hstart hticks => exact .pushLoad v (by omega) hticks
  | pushCheck v hk hnow hticks => exact .pushCheck v hk (by omega) hticks
  | pushCas v hk hnow hticks => exact .pushCas v hk (by omega) hticks
  | pushReload v hk hnow hticks => exact .pushReload v hk (by omega) hticks
  | construct v hticks => exact .construct v (by omega)
  | storePush v hticks => exact .storePush v (by omega)
  | popLoad hstart hticks => exact .popLoad (by omega) hticks
  | popCheck hk hnow hticks => exact .popCheck hk (by omega) hticks
  | popCas hk hnow hticks => exact .popCas hk (by omega) hticks
  | popReload hk hnow hticks => exact .popReload hk (by omega) hticks
  | extract hticks => exact .extract (by omega)
  | destroy hticks => exact .destroy (by omega)
  | storePop hticks => exact .storePop (by omega)
  | returned hticks => exact .returned (by omega)

/-- A step of the call itself. A round that ends without a verdict has found the
counter past its ticket. -/
theorem Attempt.advance {q : AtomicQueue T c} (h : Attempt start (counter q call) ticks call pc)
    (hbusy : pc ≠ .idle) :
    Attempt start (counter (AtomicQueue.advance .unbounded q pc).1 call) (ticks + 1) call
      (AtomicQueue.advance .unbounded q pc).2.1 := by
  cases h with
  | pushLoad v hstart hticks => exact .pushCheck v hstart (Nat.le_refl _) (by omega)
  | pushCheck v hk hnow hticks =>
      simp only [AtomicQueue.advance]
      split
      · exact .pushCas v hk hnow (by omega)
      · exact .pushReload v hk hnow (by omega)
  | @pushCas v k hk hnow hticks =>
      simp only [AtomicQueue.advance, counter] at hnow ⊢
      split
      · rw [setHead_head, SizeT.wrap_unbounded]
        exact .construct v (by omega)
      · exact .pushCheck v (by omega) (Nat.le_refl _) (by omega)
  | @pushReload v k hk hnow hticks =>
      simp only [AtomicQueue.advance, counter] at hnow ⊢
      split
      · exact .returned (by dsimp only; omega)
      · exact .pushCheck v (by omega) (Nat.le_refl _) (by omega)
  | construct v hticks => exact .storePush v (Nat.succ_le_succ hticks)
  | storePush v hticks => exact .returned (Nat.le_succ_of_le (Nat.succ_le_succ hticks))
  | popLoad hstart hticks => exact .popCheck hstart (Nat.le_refl _) (by omega)
  | popCheck hk hnow hticks =>
      simp only [AtomicQueue.advance]
      split
      · exact .popCas hk hnow (by omega)
      · exact .popReload hk hnow (by omega)
  | @popCas k hk hnow hticks =>
      simp only [AtomicQueue.advance, counter] at hnow ⊢
      split
      · rw [setTail_tail, SizeT.wrap_unbounded]
        exact .extract (by omega)
      · exact .popCheck (by omega) (Nat.le_refl _) (by omega)
  | @popReload k hk hnow hticks =>
      simp only [AtomicQueue.advance, counter] at hnow ⊢
      split
      · exact .returned (by dsimp only; omega)
      · exact .popCheck (by omega) (Nat.le_refl _) (by omega)
  | extract hticks => exact .destroy (Nat.succ_le_succ hticks)
  | destroy hticks => exact .storePop (Nat.succ_le_succ hticks)
  | storePop hticks => exact .returned (Nat.succ_le_succ hticks)
  | returned hticks => exact absurd rfl hbusy

theorem Attempt.ticks_le (h : Attempt start now ticks call pc) : ticks ≤ 2 * (now - start) + 4 := by
  cases h <;> omega

theorem counter_mono {a : Action Tid T} (call : Call T) (hstep : step .unbounded s a = some t) :
    counter s.queue call ≤ counter t.queue call := by
  obtain ⟨hhead, htail⟩ := counters_mono hstep
  cases call with
  | push | tryPush => exact hhead
  | pop | tryPop => exact htail

/-- Where every try call is, after any run. -/
theorem attempt_run (acts : List (Action Tid T)) (s : System Tid T c)
    (h : (system Tid T c).Reaches acts s) : ∀ tid call n, CallFrom acts tid call n → Tries call →
      ∃ u, (system Tid T c).Reaches (acts.take n) u ∧ Attempt (counter u.queue call)
        (counter s.queue call) (ticksOf tid (acts.drop n)) call (s.pc tid) := by
  refine (system Tid T c).run_induction (P := fun acts s => ∀ tid call n,
    CallFrom acts tid call n → Tries call → ∃ u, (system Tid T c).Reaches (acts.take n) u ∧
      Attempt (counter u.queue call) (counter s.queue call) (ticksOf tid (acts.drop n)) call
        (s.pc tid)) ?_ ?_ acts s h
  · exact fun tid call n hcall => absurd hcall.lt (Nat.not_lt_zero _)
  intro acts s a t hrun ih hstep tid call n hcall htries
  have hlt := hcall.lt
  rw [List.length_append, List.length_singleton] at hlt
  rcases Nat.lt_succ_iff_lt_or_eq.mp hlt with hold | rfl
  · obtain ⟨hprev, hother⟩ := hcall.of_snoc hold
    obtain ⟨u, hu, hattempt⟩ := ih tid call n hprev htries
    refine ⟨u, by rwa [List.take_append_of_le_length (Nat.le_of_lt hold)], ?_⟩
    rw [List.drop_append_of_le_length (Nat.le_of_lt hold), ticksOf, List.countP_append]
    have hmono := hattempt.mono (counter_mono call hstep)
    rcases step_inv hstep with ⟨actor, call', rfl, -, rfl⟩ | ⟨actor, rfl, hbusy, rfl⟩
    · have hne : tid ≠ actor := fun heq => hother call' (heq ▸ rfl)
      rw [set_pc_other _ _ _ _ _ hne]
      exact hmono
    · by_cases heq : tid = actor
      · subst heq
        simp only [List.countP_singleton, Action.isTick, decide_true, if_true]
        rw [System.apply, set_pc_self]
        exact hattempt.advance hbusy
      · simp only [List.countP_singleton, Action.isTick, Ne.symm heq, decide_false]
        rw [System.apply, set_pc_other _ _ _ _ _ heq]
        exact hmono
  · have hstart : a = .invoke tid call := by
      simpa using hcall.1
    have hmoved : step .unbounded s (.invoke tid call) = some t := hstart ▸ hstep
    refine ⟨s, by rwa [List.take_left], ?_⟩
    rcases step_inv hmoved with ⟨actor, call', hact, -, rfl⟩ | ⟨actor, hact, -⟩ <;> cases hact
    rw [List.drop_left, set_pc_self, hstart]
    exact .start_call htries

/-- For every capacity, any number of threads and any interleaving: a thread takes at
most two steps in a `try_push` or a `try_pop` for every ticket that is obtained
meanwhile, and four more. While it goes round again, some other thread gets on. -/
theorem try_steps_bounded {acts : List (Action Tid T)} (h : (system Tid T c).Reaches acts s)
    {tid : Tid} {n : Nat} (hcall : CallFrom acts tid call n) (htries : Tries call) :
    ∃ u, (system Tid T c).Reaches (acts.take n) u ∧ ticksOf tid (acts.drop n) ≤
      2 * (counter s.queue call - counter u.queue call) + 4 := by
  obtain ⟨u, hu, hattempt⟩ := attempt_run acts s h tid call n hcall htries
  exact ⟨u, hu, hattempt.ticks_le⟩

/-- A `try_push` that loses its first ticket to another thread. -/
theorem try_steps_bounded_lost_ticket :
    ∃ (s u : System (Fin 2) Nat 2) (acts : List (Action (Fin 2) Nat)),
      (system (Fin 2) Nat 2).Reaches acts s ∧ s.queue.head = 2 ∧
      (system (Fin 2) Nat 2).Reaches (acts.take 0) u ∧ ticksOf 0 (acts.drop 0) = 7 ∧
      ticksOf 0 (acts.drop 0) ≤ 2 * (s.queue.head - u.queue.head) + 4 := by
  obtain ⟨s, hrun, hhead⟩ := (system (Fin 2) Nat 2).exists_of_map
    [.invoke 0 (.tryPush 7), .tick 0, .tick 0, .invoke 1 (.push 8), .tick 1, .tick 0, .tick 0,
      .tick 0, .tick 0, .tick 0] (b := 2) (fun s => s.queue.head) rfl
  have hcall : CallFrom [.invoke 0 (.tryPush 7), .tick 0, .tick 0, .invoke 1 (.push 8), .tick 1,
      .tick 0, .tick 0, .tick 0, .tick 0, .tick 0] (0 : Fin 2) (.tryPush 7) 0 :=
    ⟨rfl, fun m call' hm => by
      rcases m with _ | _ | _ | _ | _ | _ | _ | _ | _ | _ | m <;> simp at hm ⊢⟩
  obtain ⟨u, hu, hticks⟩ := try_steps_bounded hrun hcall trivial
  exact ⟨s, u, _, hrun, hhead, hu, by decide, hticks⟩

end Retries

end YkUtil.Exec.AtomicQueue
