import PoolMachine.Proofs.Effects
import PoolMachine.Proofs.Turns

/-!
# What is told of a run

A tracer is shown the state before every attempt to fetch an instruction, and once more when the
program counter has left the code. The log gets a record of every instruction that has been decoded.

**Theorem (`Machine.advance_faithful`).** A run does not depend on who watches it, and what is told
of it is faithful (`Faithful`): the `j`-th event of the trace shows the machine that `j`
instructions lead to; the trace records of the log name the opcodes at the addresses of the steps,
in their order; and a run that fails does so at the address of the last event. Only the limit on
steps fails a run before its step is shown, so there the address is the one that the last
instruction led to.

The events of a run are those of its turns, one after the other. A turn shows one event at most
(`shown_turn`), and none or one record goes with it, so the trace is aligned with the machines that
the run reaches (`getElem?_shown`).
-/

namespace PoolMachine

/-- The opcode at an address, if the slot there holds one. -/
def Code.opcodeAt? (code : Code) (a : Nat) : Option Opcode := code.slots[a]?.bind Opcode.ofCode?

/-- Carrying out the instruction at the program counter of a state produces another state. -/
def Code.Produces (code : Code) (limits : Limits) (s s' : State) : Prop :=
  ∃ (op : Opcode) (effect : Effect), code.slots[s.pc]? = some op.code ∧
    op.perform code limits.depth s = .ok effect ∧ effect.state = s'

namespace Event

/-- Whether an event goes to the tracer. -/
def isShown (e : Event) : Bool := e.snapshot?.isSome

/-- The trace record that belongs to an event: where a step finds an opcode, its address and its
mnemonic. -/
def record? (code : Code) : Event → Option Log.Record
  | step s => (code.opcodeAt? s.state.pc).map fun op =>
      ⟨.trace, "cspc_vm::execute", Log.alignRight 4 s.state.pc.repr ++ ": " ++ op.mnemonic⟩
  | fetched _ _ | halt _ => none

end Event

/-- The events of a run that go to the tracer. -/
def shown (es : List Event) : List Event := es.filter Event.isShown

theorem shown_append (es es' : List Event) : shown (es ++ es') = shown es ++ shown es' :=
  List.filter_append ..

@[simp] theorem shown_nil : shown [] = [] := rfl

@[simp] theorem shown_step (s : Snapshot) (es : List Event) :
    shown (.step s :: es) = .step s :: shown es := rfl

@[simp] theorem shown_fetched (pc : Nat) (op : Opcode) (es : List Event) :
    shown (.fetched pc op :: es) = shown es := rfl

@[simp] theorem shown_halt (s : Snapshot) (es : List Event) :
    shown (.halt s :: es) = .halt s :: shown es := rfl

/-- The trace records of events. A tracer that writes to the log adds records of another level. -/
def traceRecords (traced : Bool) (es : List Event) : List Log.Record :=
  (es.flatMap (Event.records traced)).filter (·.level = .trace)

theorem traceRecords_append (traced : Bool) (es es' : List Event) :
    traceRecords traced (es ++ es') = traceRecords traced es ++ traceRecords traced es' := by
  simp only [traceRecords, List.flatMap_append, List.filter_append]

namespace Machine

variable {σ : Type} {code : Code} {limits : Limits}

/-- What the tracer is to be shown of a machine. -/
def Shows (code : Code) (limits : Limits) (m : Machine σ) (e : Event) : Prop :=
  m.Fetches code limits ∧ e = .step ⟨code.length, m.state⟩ ∨
    code.length ≤ m.state.pc ∧ e = .halt ⟨code.length, m.state⟩

theorem Shows.snapshot? {m : Machine σ} {e : Event} (h : m.Shows code limits e) :
    e.snapshot? = some ⟨code.length, m.state⟩ := by
  rcases h with ⟨-, rfl⟩ | ⟨-, rfl⟩ <;> rfl

theorem Shows.unique {m : Machine σ} {e e' : Event} (h : m.Shows code limits e)
    (h' : m.Shows code limits e') : e = e' := by
  rcases h with ⟨hfetches, rfl⟩ | ⟨hle, rfl⟩ <;> rcases h' with ⟨hfetches', rfl⟩ | ⟨hle', rfl⟩
  · rfl
  · exact absurd hle' (Nat.not_le.mpr hfetches.1)
  · exact absurd hle (Nat.not_le.mpr hfetches'.1)
  · rfl

variable [Sink σ]

/-! ## One turn -/

theorem turn_events_of_fetches {m : Machine σ} (h : m.Fetches code limits) :
    (m.turn code limits).1 = .step ⟨code.length, m.state⟩ ::
      ((code.opcodeAt? m.state.pc).map (Event.fetched m.state.pc)).toList := by
  obtain ⟨hlt, hn⟩ := h
  rcases turn_cases code limits m with
    hle | ⟨-, n, hn'⟩ | ⟨-, slot, hslot, hop⟩ | ⟨-, op, hop⟩
  · exact absurd hle (Nat.not_le.mpr hlt)
  · rw [hn] at hn'
    cases hn'
  · rw [turn_of_unknown hslot hn hop, Code.opcodeAt?, hslot, Option.bind_some, hop]
    rfl
  · rw [turn_of_opcode hop hn, Code.opcodeAt?, hop, Option.bind_some, Opcode.ofCode?_code]
    rfl

/-- A turn that neither fetches nor leaves the code has met the limit on steps. -/
theorem turn_events_of_exhausted {m : Machine σ} (hlt : m.state.pc < code.length)
    (h : ¬ m.Fetches code limits) : (m.turn code limits).1 = [] := by
  rcases hn : limits.exhausted? m.steps with _ | n
  · exact absurd ⟨hlt, hn⟩ h
  · rw [turn_of_exhausted hlt hn]

/-- **A turn shows what there is to show**, and nothing else. -/
theorem shown_turn (code : Code) (limits : Limits) (m : Machine σ) :
    (∃ e, m.Shows code limits e ∧ shown (m.turn code limits).1 = [e]) ∨
      (∀ e, ¬ m.Shows code limits e) ∧ shown (m.turn code limits).1 = [] := by
  by_cases hfetches : m.Fetches code limits
  · refine .inl ⟨_, .inl ⟨hfetches, rfl⟩, ?_⟩
    rw [turn_events_of_fetches hfetches]
    cases code.opcodeAt? m.state.pc <;> rfl
  · by_cases hle : code.length ≤ m.state.pc
    · refine .inl ⟨_, .inr ⟨hle, rfl⟩, ?_⟩
      rw [turn_of_length_le hle]
      rfl
    · refine .inr ⟨?_, ?_⟩
      · rintro e (⟨h, -⟩ | ⟨h, -⟩)
        · exact hfetches h
        · exact hle h
      · rw [turn_events_of_exhausted (Nat.not_le.mp hle) hfetches]
        rfl

/-- The records of a turn belong to what it shows. -/
theorem traceRecords_turn (traced : Bool) (m : Machine σ) :
    traceRecords traced (m.turn code limits).1 =
      (shown (m.turn code limits).1).filterMap (Event.record? code) := by
  by_cases hfetches : m.Fetches code limits
  · rw [turn_events_of_fetches hfetches]
    rcases hop : code.opcodeAt? m.state.pc with _ | op <;> cases traced <;>
      simp [traceRecords, Event.records, Event.record?, hop]
  · by_cases hle : code.length ≤ m.state.pc
    · rw [turn_of_length_le hle]
      cases traced <;> rfl
    · rw [turn_events_of_exhausted (Nat.not_le.mp hle) hfetches]
      rfl

/-! ## Whole runs -/

/-- The events of a run are those of its turns. -/
theorem of_events {P : List Event → Prop} (hnil : P [])
    (happend : ∀ es es', P es → P es' → P (es ++ es'))
    (hturn : ∀ m : Machine σ, P (m.turn code limits).1) (k : Nat) (m : Machine σ) :
    P (m.turns code limits k).1 := by
  induction k generalizing m with
  | zero => exact hnil
  | succ k ih =>
    have hm := hturn m
    rw [turns_succ]
    rcases ht : m.turn code limits with ⟨es, m' | e⟩ <;> rw [ht] at hm
    · exact happend _ _ hm (ih m')
    · exact hm

theorem traceRecords_turns (traced : Bool) (k : Nat) (m : Machine σ) :
    traceRecords traced (m.turns code limits k).1 =
      (shown (m.turns code limits k).1).filterMap (Event.record? code) := by
  apply of_events
    (P := fun es => traceRecords traced es = (shown es).filterMap (Event.record? code))
  · rfl
  · intro es es' h h'
    rw [traceRecords_append, shown_append, List.filterMap_append, h, h']
  · exact traceRecords_turn traced

theorem shown_of_carries {m m' : Machine σ} {es : List Event}
    (h : m.turn code limits = (es, .running m')) : shown es = [.step ⟨code.length, m.state⟩] := by
  obtain ⟨op, -, -, -, -, -, -, -, rfl⟩ := turn_eq_running_iff.mp h
  rfl

/-- **The trace shows the machines that the run reaches**, in order. -/
theorem getElem?_shown (k : Nat) (m : Machine σ) (j : Nat) (e : Event) :
    (shown (m.turns code limits k).1)[j]? = some e ↔
      j < k ∧ ∃ m', Reaches code limits j m m' ∧ m'.Shows code limits e := by
  induction k generalizing m j with
  | zero => simp
  | succ k ih =>
    rw [turns_succ]
    rcases ht : m.turn code limits with ⟨es, m₁ | ending⟩
    · -- The run goes on from `m₁`: the first event shows `m`, the others are those from `m₁`.
      have hcarries : m.Carries code limits m₁ := carries_iff_turn.mpr ⟨es, ht⟩
      have hself : m.Shows code limits (.step ⟨code.length, m.state⟩) := .inl ⟨hcarries.1, rfl⟩
      rw [andThen_running, shown_append, shown_of_carries ht, List.singleton_append]
      cases j with
      | zero =>
        rw [List.getElem?_cons_zero, Option.some.injEq]
        constructor
        · rintro rfl
          exact ⟨Nat.succ_pos k, m, .refl m, hself⟩
        · rintro ⟨-, m', ⟨⟩, hshows⟩
          exact hself.unique hshows
      | succ j =>
        rw [List.getElem?_cons_succ, ih]
        constructor
        · rintro ⟨hj, m', hreaches, hshows⟩
          exact ⟨Nat.succ_lt_succ hj, m', .head hcarries hreaches, hshows⟩
        · rintro ⟨hj, m', _ | ⟨hcarries', hreaches⟩, hshows⟩
          obtain ⟨es', ht'⟩ := carries_iff_turn.mp hcarries'
          cases ht.symm.trans ht'
          exact ⟨Nat.lt_of_succ_lt_succ hj, m', hreaches, hshows⟩
    · -- The run ends with this turn, so no instruction leads on from `m`.
      have hstays {j : Nat} {m' : Machine σ} (h : Reaches code limits j m m') : j = 0 ∧ m' = m := by
        rcases h with _ | ⟨hcarries, -⟩
        · exact ⟨rfl, rfl⟩
        · obtain ⟨es', ht'⟩ := carries_iff_turn.mp hcarries
          cases ht.symm.trans ht'
      rw [andThen_ended]
      rcases shown_turn code limits m with ⟨e', hshows', hes⟩ | ⟨hno, hes⟩ <;> rw [ht] at hes <;>
        rw [hes]
      · constructor
        · intro h
          obtain ⟨hj, rfl⟩ := List.getElem?_eq_some_iff.mp h
          obtain rfl : j = 0 := by simpa using hj
          exact ⟨Nat.succ_pos k, m, .refl m, hshows'⟩
        · rintro ⟨-, m', hreaches, hshows⟩
          obtain ⟨rfl, rfl⟩ := hstays hreaches
          rw [hshows.unique hshows']
          rfl
      · constructor
        · nofun
        · rintro ⟨-, m', hreaches, hshows⟩
          obtain ⟨rfl, rfl⟩ := hstays hreaches
          exact absurd hshows (hno e)

/-! ## Failures -/

theorem perform_ne_stepLimit (limit : Option Nat) (op : Opcode) (s : State) (n : Nat) :
    op.perform code limit s ≠ .error (.stepLimit n) := by
  intro h
  rcases Opcode.perform_limit code limit op s with heq | ⟨d, hover⟩
  · exact Opcode.perform_none_faultsIn code op s _ (heq.symm.trans h)
  · cases hover.symm.trans h

/-- **What a turn that fails has shown** depends on whether the limit on steps, an instruction or
the flush failed it. -/
theorem turn_fail_cases {m : Machine σ} {es : List Event} {a : Nat} {f : Fault} {sink : σ}
    (h : m.turn code limits = (es, .fail a f sink)) :
    a = m.state.pc ∧
      ((∃ n, f = .stepLimit n) ∧ a < code.length ∧ shown es = [] ∨
        (∀ n, f ≠ .stepLimit n) ∧ a < code.length ∧
          shown es = [.step ⟨code.length, m.state⟩] ∨
        (∃ reason, f = .output reason ∧ Sink.flush m.sink = (sink, some reason)) ∧
          code.length ≤ a ∧ shown es = [.halt ⟨code.length, m.state⟩]) := by
  rcases turn_cases code limits m with
    hle | ⟨hlt, n, hn⟩ | ⟨hn, slot, hslot, hop⟩ | ⟨hn, op, hop⟩
  · rw [turn_of_length_le hle] at h
    obtain ⟨rfl, hfinish⟩ := Prod.mk.inj h
    rcases hs : Sink.flush m.sink with ⟨sink', _ | reason⟩
    · simp [finish, hs, Progress.fail] at hfinish
    · simp only [finish, hs, Progress.fail] at hfinish
      cases hfinish
      exact ⟨rfl, .inr (.inr ⟨⟨reason, rfl, rfl⟩, hle, rfl⟩)⟩
  · rw [turn_of_exhausted hlt hn] at h
    cases h
    exact ⟨rfl, .inl ⟨⟨n, rfl⟩, hlt, rfl⟩⟩
  · rw [turn_of_unknown hslot hn hop] at h
    cases h
    refine ⟨rfl, .inr (.inl ⟨?_, (Array.getElem?_eq_some_iff.mp hslot).1, rfl⟩)⟩
    intro n hn
    cases hn
  · rw [turn_of_opcode hop hn] at h
    obtain ⟨rfl, hdispatch⟩ := Prod.mk.inj h
    obtain ⟨rfl, hf⟩ := dispatch_eq_fail hdispatch
    refine ⟨rfl, .inr (.inl ⟨?_, (Array.getElem?_eq_some_iff.mp hop).1, rfl⟩)⟩
    rintro n rfl
    rcases hf with ⟨reason, hreason⟩ | hp
    · cases hreason
    · exact perform_ne_stepLimit _ _ _ _ hp

theorem produces_of_turn {m m' : Machine σ} {es : List Event}
    (h : m.turn code limits = (es, .running m')) : code.Produces limits m.state m'.state := by
  obtain ⟨op, effect, sink, hop, -, hp, -, rfl, -⟩ := turn_eq_running_iff.mp h
  exact ⟨op, effect, hop, hp, rfl⟩

/-- Where the last instruction of a run led, and what the trace showed before it. -/
theorem last_of_turns {j : Nat} {m₀ m : Machine σ} {es : List Event}
    (h : m₀.turns code limits j = (es, .running m)) :
    shown es = [] ∧ m = m₀ ∨ ∃ s, (shown es).getLast? = some (.step s) ∧
      code.Produces limits s.state m.state := by
  cases j with
  | zero =>
    cases h
    exact .inl ⟨rfl, rfl⟩
  | succ j =>
    obtain ⟨es₁, m₁, es₂, -, ht, rfl⟩ := exists_last_turn h
    refine .inr ⟨⟨code.length, m₁.state⟩, ?_, produces_of_turn ht⟩
    rw [shown_append, shown_of_carries ht]
    exact List.getLast?_concat

/-! ## Faithful observers -/

/-- What is told of a run from the start is faithful to the machines that it reaches and to the way
in which it fails. -/
structure Faithful (code : Code) (limits : Limits) (sink : σ) (fuel : Nat) (es : List Event)
    (p : Progress σ) : Prop where
  /-- The trace shows a step before every attempt to fetch, and a halt where the program counter has
  left the code. -/
  shows : ∀ j e, (shown es)[j]? = some e ↔
    j < fuel ∧ ∃ m, Reaches code limits j (.start sink) m ∧ m.Shows code limits e
  /-- Nothing follows a halt. -/
  halt_last : ∀ j s, (shown es)[j]? = some (.halt s) → j + 1 = (shown es).length
  /-- The first event shows the initial state. -/
  first : ∀ e, (shown es)[0]? = some e → e.snapshot? = some ⟨code.length, ⟨0, [], .empty⟩⟩
  /-- Each later event shows what the instruction at the one before produced. -/
  next : ∀ j e e', (shown es)[j]? = some e → (shown es)[j + 1]? = some e' →
    ∃ s s', e = .step s ∧ e'.snapshot? = some s' ∧ s'.length = code.length ∧
      code.Produces limits s.state s'.state
  /-- The trace records of the log are those of the steps, with or without a tracer that logs. -/
  records : ∀ traced, traceRecords traced es = (shown es).filterMap (Event.record? code)
  /-- The limit on steps fails a run where its last instruction led. -/
  stepLimit : ∀ a n sink', p = .fail a (.stepLimit n) sink' → a < code.length ∧
    (shown es = [] ∧ a = 0 ∨ ∃ s s', (shown es).getLast? = some (.step s) ∧
      code.Produces limits s.state s' ∧ s'.pc = a)
  /-- All else fails a run at the address of its last event, which is in the code unless the flush
  failed. -/
  failure : ∀ a f sink', p = .fail a f sink' → (∀ n, f ≠ .stepLimit n) →
    (∃ s, (shown es).getLast? = some (.step s) ∧ s.state.pc = a ∧ a < code.length) ∨
    ∃ s, (shown es).getLast? = some (.halt s) ∧ s.state.pc = a ∧ code.length ≤ a ∧
      ∃ j m reason, Reaches code limits j (.start sink) m ∧ m.state = s.state ∧
        Sink.flush m.sink = (sink', some reason) ∧ f = .output reason

section

variable {sink : σ} {fuel : Nat} {es : List Event} {p : Progress σ}

theorem shows_of_turns (h : (start sink).turns code limits fuel = (es, p)) (j : Nat) (e : Event) :
    (shown es)[j]? = some e ↔
      j < fuel ∧ ∃ m, Reaches code limits j (.start sink) m ∧ m.Shows code limits e := by
  have hes : es = ((start sink).turns code limits fuel).1 := by rw [h]
  rw [hes]
  exact getElem?_shown fuel (start sink) j e

theorem halt_last_of_turns (h : (start sink).turns code limits fuel = (es, p)) {j : Nat}
    {s : Snapshot} (hj : (shown es)[j]? = some (.halt s)) : j + 1 = (shown es).length := by
  obtain ⟨-, m, hreaches, ⟨-, hstep⟩ | ⟨hle, -⟩⟩ := (shows_of_turns h j _).mp hj
  · cases hstep
  · have hlt := (List.getElem?_eq_some_iff.mp hj).1
    refine Nat.le_antisymm hlt (Nat.le_of_not_lt fun hgt => ?_)
    -- An event after the halt would show a machine that an instruction beyond the code led to.
    obtain ⟨-, m', hreaches', -⟩ :=
      (shows_of_turns h (j + 1) _).mp (List.getElem?_eq_getElem hgt)
    obtain ⟨m₁, hm₁, hcarries⟩ := hreaches'.exists_last
    obtain rfl := hm₁.unique hreaches
    exact Nat.not_le_of_lt hcarries.1.1 hle

theorem first_of_turns (h : (start sink).turns code limits fuel = (es, p)) {e : Event}
    (h0 : (shown es)[0]? = some e) : e.snapshot? = some ⟨code.length, ⟨0, [], .empty⟩⟩ := by
  obtain ⟨-, m, ⟨⟩, hshows⟩ := (shows_of_turns h 0 e).mp h0
  exact hshows.snapshot?

theorem next_of_turns (h : (start sink).turns code limits fuel = (es, p)) {j : Nat} {e e' : Event}
    (hj : (shown es)[j]? = some e) (hj' : (shown es)[j + 1]? = some e') :
    ∃ s s', e = .step s ∧ e'.snapshot? = some s' ∧ s'.length = code.length ∧
      code.Produces limits s.state s'.state := by
  obtain ⟨-, m, hreaches, hshows⟩ := (shows_of_turns h j e).mp hj
  obtain ⟨-, m', hreaches', hshows'⟩ := (shows_of_turns h (j + 1) e').mp hj'
  obtain ⟨m₁, hm₁, hcarries⟩ := hreaches'.exists_last
  obtain rfl := hm₁.unique hreaches
  obtain ⟨es', ht⟩ := carries_iff_turn.mp hcarries
  exact ⟨_, _, hshows.unique (.inl ⟨hcarries.1, rfl⟩), hshows'.snapshot?, rfl,
    produces_of_turn ht⟩

theorem stepLimit_of_turns {a n : Nat} {sink' : σ}
    (h : (start sink).turns code limits fuel = (es, .fail a (.stepLimit n) sink')) :
    a < code.length ∧ (shown es = [] ∧ a = 0 ∨ ∃ s s', (shown es).getLast? = some (.step s) ∧
      code.Produces limits s.state s' ∧ s'.pc = a) := by
  obtain ⟨j, es₁, m, es₂, -, hj, ht, rfl⟩ := exists_final_turn h
  obtain ⟨rfl, ⟨-, hlt, hshown⟩ | ⟨hf, -⟩ | ⟨⟨reason, hf, -⟩, -⟩⟩ := turn_fail_cases ht
  · rw [shown_append, hshown, List.append_nil]
    refine ⟨hlt, ?_⟩
    rcases last_of_turns hj with ⟨hnil, rfl⟩ | ⟨s, hlast, hproduces⟩
    · exact .inl ⟨hnil, rfl⟩
    · exact .inr ⟨s, m.state, hlast, hproduces, rfl⟩
  · exact absurd rfl (hf n)
  · cases hf

theorem failure_of_turns {a : Nat} {f : Fault} {sink' : σ}
    (h : (start sink).turns code limits fuel = (es, .fail a f sink')) (hf : ∀ n, f ≠ .stepLimit n) :
    (∃ s, (shown es).getLast? = some (.step s) ∧ s.state.pc = a ∧ a < code.length) ∨
    ∃ s, (shown es).getLast? = some (.halt s) ∧ s.state.pc = a ∧ code.length ≤ a ∧
      ∃ j m reason, Reaches code limits j (.start sink) m ∧ m.state = s.state ∧
        Sink.flush m.sink = (sink', some reason) ∧ f = .output reason := by
  obtain ⟨j, es₁, m, es₂, -, hj, ht, rfl⟩ := exists_final_turn h
  obtain ⟨rfl, ⟨⟨n, rfl⟩, -⟩ | ⟨-, hlt, hshown⟩ | ⟨⟨reason, rfl, hflush⟩, hle, hshown⟩⟩ :=
    turn_fail_cases ht
  · exact absurd rfl (hf n)
  · refine .inl ⟨⟨code.length, m.state⟩, ?_, rfl, hlt⟩
    rw [shown_append, hshown]
    exact List.getLast?_concat
  · refine .inr ⟨⟨code.length, m.state⟩, ?_, rfl, hle, j, m, reason, ?_, rfl, hflush, rfl⟩
    · rw [shown_append, hshown]
      exact List.getLast?_concat
    · exact reaches_iff_turns.mpr ⟨es₁, hj⟩

end

/-- **A run does not depend on who watches it, and what is told of it is faithful.** -/
theorem advance_faithful (code : Code) (limits : Limits) (sink : σ) (fuel : Nat) :
    ∃ (es : List Event) (p : Progress σ),
      (∀ {ω : Type} (observe : ω → Event → ω) (w : ω),
        (start sink).advance code limits observe fuel w = (p, es.foldl observe w)) ∧
      Faithful code limits sink fuel es p := by
  rcases h : (start sink).turns code limits fuel with ⟨es, p⟩
  have hes : es = ((start sink).turns code limits fuel).1 := by rw [h]
  refine ⟨es, p, fun observe w => by rw [advance_eq_turns, h], ?_⟩
  constructor
  case shows => exact shows_of_turns h
  case halt_last => exact fun j s => halt_last_of_turns h
  case first => exact fun e => first_of_turns h
  case next => exact fun j e e' => next_of_turns h
  case records =>
    intro traced
    rw [hes]
    exact traceRecords_turns traced fuel (start sink)
  case stepLimit =>
    rintro a n sink' rfl
    exact stepLimit_of_turns h
  case failure =>
    rintro a f sink' rfl
    exact failure_of_turns h

end Machine

end PoolMachine
