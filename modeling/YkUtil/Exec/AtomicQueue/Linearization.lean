import YkUtil.Lib.Tickets
import YkUtil.Exec.AtomicQueue.Safety

/-!
The queue is linearizable. Every interleaving has one order of the operations that
took effect, an order in which a bounded queue could have run them one at a time.
An operation may take effect before its own turn store and after its ticket: a pop
that waits lets its push enter and leave at once, and a push that waits enters when
a pop makes room for it.
-/

namespace YkUtil.Exec.AtomicQueue

open YkUtil.Lib YkUtil.Lib.BoundedContainer YkUtil.Lib.Tickets

variable {Tid T : Type*} {c : Nat}

/-- The tickets issue the operations. -/
def Event.issue? : Event T → Option (Issue T)
  | .headTicket _ v => some (.push v)
  | .tailTicket _ => some .pop
  | _ => none

def issues (history : List (Tid × Event T)) : List (Issue T) :=
  history.filterMap fun entry => Event.issue? entry.2

def issued (history : List (Tid × Event T)) : Issued T :=
  (issues history).foldl Issued.issue .start

/-- The operations that have taken effect, in order. -/
def System.linearization (s : System Tid T c) : List (Numbered T) :=
  Issued.start.log c (issues s.history)

/-- The call has obtained its ticket. -/
def System.Issued (s : System Tid T c) : Numbered T → Prop
  | .push k v => s.Written k v
  | .pop k _ => ∃ tid, (tid, .tailTicket k) ∈ s.history

/-- The call has returned. -/
def System.Returned (s : System Tid T c) : Numbered T → Prop
  | .push k v => s.Pushed k ∧ s.Written k v
  | .pop k v => ∃ tid, (tid, .popped k (some v)) ∈ s.history

/-- The operations `ops` are a run of a queue of capacity `c`, each of them was
issued, and no operation that has returned is missing. -/
structure Linearizes (s : System Tid T c) (ops : List (Numbered T)) : Prop where
  legal : ∃ stored, Legal .fifo ⟨[], c, true⟩ (ops.map Numbered.op) ⟨stored, c, true⟩
  once : ops.Nodup
  issued : ∀ e ∈ ops, s.Issued e
  returned : ∀ e, s.Returned e → e ∈ ops

theorem issues_append (first second : List (Tid × Event T)) :
    issues (first ++ second) = issues first ++ issues second :=
  List.filterMap_append

theorem issued_concat (history : List (Tid × Event T)) (entry : Tid × Event T) :
    issued (history ++ [entry]) =
      (Event.issue? entry.2).toList.foldl Issued.issue (issued history) := by
  rw [issued, issues_append, List.foldl_append]
  cases h : Event.issue? entry.2 <;> simp [issues, issued, h]

theorem ticketsOf_concat (f : Event T → Option Nat) (history : List (Tid × Event T))
    (entry : Tid × Event T) :
    ticketsOf f (history ++ [entry]) = ticketsOf f history ++ (f entry.2).toList := by
  rw [ticketsOf, List.filterMap_append]
  cases h : f entry.2 <;> simp [ticketsOf, h]

/-- Tickets dealt in order number the values of the pushes. -/
theorem issued_values {history : List (Tid × Event T)} {n : Nat}
    (h : ticketsOf Event.headTicket? history = List.range n) :
    (issued history).values.length = n ∧ ∀ k v, (issued history).values[k]? = some v ↔
      ∃ tid, (tid, Event.headTicket k v) ∈ history := by
  induction history using List.reverseRecOn generalizing n with
  | nil =>
      cases n with
      | zero => exact ⟨rfl, fun k v => by simp [issued, issues, Issued.start]⟩
      | succ n => simp [ticketsOf, List.range_succ] at h
  | append_singleton history entry ih =>
      obtain ⟨tid, event⟩ := entry
      rw [ticketsOf_concat] at h
      by_cases hevent : ∃ k v, event = .headTicket k v
      · obtain ⟨k, v, rfl⟩ := hevent
        cases n with
        | zero => simp [Event.headTicket?] at h
        | succ n =>
            rw [List.range_succ] at h
            obtain ⟨hbefore, hk⟩ := List.append_inj' h rfl
            obtain ⟨hlength, hvalues⟩ := ih hbefore
            obtain rfl : k = n := by simpa [Event.headTicket?] using hk
            refine ⟨by simp [issued_concat, Event.issue?, Issued.issue, hlength], fun l w => ?_⟩
            simp only [issued_concat, Event.issue?, Option.toList_some, List.foldl_cons,
              List.foldl_nil, Issued.issue, Issued.getElem?_concat_iff, hlength, hvalues,
              List.mem_append, List.mem_singleton, Prod.mk.injEq, Event.headTicket.injEq]
            constructor
            · rintro (⟨writer, hw⟩ | ⟨rfl, rfl⟩)
              · exact ⟨writer, .inl hw⟩
              · exact ⟨tid, .inr ⟨rfl, rfl, rfl⟩⟩
            · rintro ⟨writer, hw | ⟨-, rfl, rfl⟩⟩
              · exact .inl ⟨writer, hw⟩
              · exact .inr ⟨rfl, rfl⟩
      · have hticket : Event.headTicket? event = none := by
          cases event with
          | headTicket k v => exact absurd ⟨k, v, rfl⟩ hevent
          | _ => rfl
        have hsame : (issued (history ++ [(tid, event)])).values = (issued history).values := by
          rw [issued_concat]
          cases event with
          | headTicket k v => exact absurd ⟨k, v, rfl⟩ hevent
          | _ => rfl
        rw [hticket, Option.toList_none, List.append_nil] at h
        obtain ⟨hlength, hvalues⟩ := ih h
        refine ⟨hsame ▸ hlength, fun k v => ?_⟩
        rw [hsame, hvalues]
        simp only [List.mem_append, List.mem_singleton, Prod.mk.injEq]
        constructor
        · rintro ⟨writer, hw⟩
          exact ⟨writer, .inl hw⟩
        · rintro ⟨writer, hw | ⟨-, rfl⟩⟩
          · exact ⟨writer, hw⟩
          · exact absurd ⟨k, v, rfl⟩ hevent

theorem issued_pops (history : List (Tid × Event T)) :
    (issued history).pops = (ticketsOf Event.tailTicket? history).length := by
  induction history using List.reverseRecOn with
  | nil => rfl
  | append_singleton history entry ih =>
      rw [issued_concat, ticketsOf_concat, List.length_append, ← ih]
      cases entry.2 <;> rfl

variable {s t : System Tid T c}

theorem linearization_grows {u : System Tid T c} (h : u.history <+: s.history) :
    u.linearization <+: s.linearization := by
  obtain ⟨more, hmore⟩ := h
  rw [System.linearization, System.linearization, ← hmore, issues_append]
  exact Issued.log_grows c _ _ _

variable [NeZero c]

/-- What has taken effect, by the counters. -/
theorem Recorded.mem_linearization (h : Recorded s) (e : Numbered T) :
    e ∈ s.linearization ↔ match e with
      | .push k v => k < min s.queue.head (s.queue.tail + c) ∧ s.Written k v
      | .pop k v => k < min s.queue.tail s.queue.head ∧ s.Written k v := by
  obtain ⟨hlength, hvalues⟩ := issued_values h.heads
  have hpops : (issued s.history).pops = s.queue.tail := by
    rw [issued_pops, h.tails, List.length_range]
  have hmem := Issued.mem_log (c := c) (s := .start) (issues s.history) e
  have hstart : ¬ Issued.start.Done c e := by
    cases e <;> simp [Issued.Done, Issued.start]
  rw [or_iff_right hstart] at hmem
  rw [System.linearization, ← hmem]
  change (issued s.history).Done c e ↔ _
  cases e with
  | push k v => simp only [Issued.Done, Issued.entered, hlength, hpops, hvalues, System.Written]
  | pop k v => simp only [Issued.Done, Issued.taken, hlength, hpops, hvalues, System.Written]

/-- A push that has returned had room, because the pop of the ticket one lap
before has returned. -/
theorem Inv.pushed_lt (hinv : Inv s) (hrec : Recorded s) {k : Nat} (hk : s.Pushed k) :
    k < min s.queue.head (s.queue.tail + c) := by
  have hc : 0 < c := NeZero.pos c
  rw [hrec.pushed k] at hk
  have hhead := hinv.issuedHead k hk
  by_cases hck : c ≤ k
  · have hpos : 0 < turn c k := (Lap.lap_pos_iff hc).mpr hck
    have hlap : turn c (k - c) = turn c k - 1 := Lap.lap_sub hc hck
    have htail := hinv.issuedTail (k - c) (by
      rw [slotAt_congr _ (Lap.slot_sub hck)]
      omega)
    omega
  · omega

theorem Inv.popped_lt (hinv : Inv s) (hrec : Recorded s) {k : Nat} (hk : s.Popped k) :
    k < min s.queue.tail s.queue.head := by
  rw [hrec.popped k] at hk
  have htail := hinv.issuedTail k hk
  have hhead := hinv.issuedHead k (by omega)
  omega

theorem linearizes (hinv : Inv s) (hrec : Recorded s) : Linearizes s s.linearization := by
  refine ⟨?_, Issued.log_nodup _, fun e he => ?_, fun e he => ?_⟩
  · have hlegal := Issued.log_legal (s := .start) (NeZero.pos c) (issues s.history)
    rw [Issued.container_start] at hlegal
    exact ⟨_, hlegal⟩
  · rw [hrec.mem_linearization] at he
    cases e with
    | push k v => exact he.2
    | pop k v =>
        have hk : k ∈ ticketsOf Event.tailTicket? s.history := by
          rw [hrec.tails, List.mem_range]
          omega
        obtain ⟨⟨tid, event⟩, hmem, hticket⟩ := List.mem_filterMap.mp hk
        cases event with
        | tailTicket l =>
            obtain rfl : l = k := Option.some.inj hticket
            exact ⟨tid, hmem⟩
        | _ => cases hticket
  · rw [hrec.mem_linearization]
    cases e with
    | push k v => exact ⟨hinv.pushed_lt hrec he.1, he.2⟩
    | pop k v =>
        obtain ⟨tid, hpopped⟩ := he
        obtain ⟨-, w, hw, hwritten⟩ := hrec.returned tid k (some v) hpopped
        obtain rfl : v = w := Option.some.inj hw
        exact ⟨hinv.popped_lt hrec ⟨tid, _, hpopped⟩, hwritten⟩

variable [DecidableEq Tid]

/-- A step only adds to the history. -/
theorem history_grows {acts : List (Action Tid T)} {u : System Tid T c}
    (h : (system Tid T c).exec u acts = some s) : u.history <+: s.history := by
  induction acts generalizing u with
  | nil =>
      cases h
      exact List.prefix_rfl
  | cons a rest ih =>
      obtain ⟨m, hstep, hrest⟩ := Option.bind_eq_some_iff.mp h
      have hfirst : u.history <+: m.history := by
        rcases step_inv hstep with ⟨tid, call, -, -, rfl⟩ | ⟨tid, -, -, rfl⟩ <;>
          exact List.prefix_append _ _
      exact hfirst.trans (ih hrest)

/-- In every interleaving, of any number of threads and for every capacity: the
operations that took effect are a legal run of a bounded queue; each of them has
been issued, and all that have returned are among them. The order never changes
later on, so an operation that returned before another one was issued comes before
it. -/
theorem linearizable {acts : List (Action Tid T)} (h : (system Tid T c).Reaches acts s) :
    Linearizes s s.linearization ∧
    ∀ before after u, acts = before ++ after → (system Tid T c).Reaches before u →
      Linearizes u u.linearization ∧ u.linearization <+: s.linearization ∧
      ∀ e f, u.Returned e → ¬ u.Issued f → f ∈ s.linearization →
        [e, f].Sublist s.linearization := by
  have hall {u : System Tid T c} (hu : (system Tid T c).Reachable u) :
      Linearizes u u.linearization := linearizes (reachable_inv hu) (reachable_recorded hu)
  refine ⟨hall h.reachable, fun before after u hacts hu => ?_⟩
  have hlin := hall hu.reachable
  have hrest : (system Tid T c).exec u after = some s := by
    have hrun := h
    rw [hacts, TransitionSystem.Reaches, TransitionSystem.exec_append, hu] at hrun
    exact hrun
  have hprefix := linearization_grows (history_grows hrest)
  refine ⟨hlin, hprefix, fun e f he hf hmem => ?_⟩
  obtain ⟨later, hlater⟩ := hprefix
  rw [← hlater] at hmem ⊢
  have hnew : f ∈ later := by
    rcases List.mem_append.mp hmem with hold | hnew
    · exact absurd (hlin.issued f hold) hf
    · exact hnew
  exact (List.singleton_sublist.mpr (hlin.returned e he)).append (List.singleton_sublist.mpr hnew)

/-- On a queue of capacity one, a pop waits for the first push, and a push waits
for a second pop. -/
theorem linearizable_waiting :
    ∃ s : System (Fin 2) Nat 1, s.linearization =
        [.push 0 7, .pop 0 7, .push 1 8, .pop 1 8, .push 2 9] ∧ Linearizes s s.linearization := by
  obtain ⟨s, hrun, hhistory⟩ := (system (Fin 2) Nat 1).exists_of_map
    [.invoke 1 .pop, .tick 1, .invoke 0 (.push 7), .tick 0, .tick 0, .tick 0, .tick 0,
      .tick 1, .tick 1, .tick 1, .tick 1, .invoke 0 (.push 8), .tick 0, .tick 0, .tick 0, .tick 0,
      .invoke 0 (.push 9), .tick 0, .invoke 1 .pop, .tick 1] System.history rfl
  refine ⟨s, ?_, (linearizable hrun).1⟩
  rw [System.linearization, hhistory]
  decide

end YkUtil.Exec.AtomicQueue
