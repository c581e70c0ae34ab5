import PoolMachine.Machine.Run

/-!
# Runs turn by turn

`Machine.advance` folds the events of a run into the state of an observer. Here the events are
kept as a list instead, which every observer can be computed from.

**Turns** (`Machine.turns`). The events of up to `k` turns, and how far the run has come after
them. `advance_eq_turns` recovers `advance` for any observer, so a law about `turns` is a law about
what every observer of the run is told.

**Sequencing** (`andThen`). A run goes on where it is still running, and keeps its end where it has
ended. `turns_add` cuts a run in two; everything else about prefixes of runs follows from it.

**One turn.** A turn either leaves the code, or meets the limit on steps, or meets a slot that is no
opcode, or dispatches an instruction. `turn_eq_running_iff` says all there is to say about a turn
after which the run goes on, and `turn_eq_fail` why a turn can fail.

**Reachable machines** (`Machine.Reaches`). The same runs without their events: which machine a
number of instructions leads to.
-/

namespace PoolMachine

variable {σ ω : Type}

/-! ## Sequencing -/

/-- Goes on from a run that has not ended, and keeps the events of both parts. -/
def andThen (r : List Event × Progress σ) (next : Machine σ → List Event × Progress σ) :
    List Event × Progress σ :=
  match r with
  | (es, .running m) => (es ++ (next m).1, (next m).2)
  | (es, .ended e) => (es, .ended e)

@[simp] theorem andThen_running (es : List Event) (m : Machine σ)
    (next : Machine σ → List Event × Progress σ) :
    andThen (es, .running m) next = (es ++ (next m).1, (next m).2) := rfl

@[simp] theorem andThen_ended (es : List Event) (e : Ending σ)
    (next : Machine σ → List Event × Progress σ) :
    andThen (es, .ended e) next = (es, .ended e) := rfl

theorem andThen_assoc (r : List Event × Progress σ)
    (f g : Machine σ → List Event × Progress σ) :
    andThen (andThen r f) g = andThen r fun m => andThen (f m) g := by
  obtain ⟨es, m | e⟩ := r
  · rw [andThen_running, andThen_running]
    rcases f m with ⟨es', m' | e'⟩ <;> simp
  · rfl

namespace Machine

variable [Sink σ] (code : Code) (limits : Limits)

/-! ## Turns -/

/-- The events of up to `k` turns, and how far the run has come after them. -/
def turns : Nat → Machine σ → List Event × Progress σ
  | 0, m => ([], .running m)
  | k + 1, m => andThen (m.turn code limits) (turns k)

@[simp] theorem turns_zero (m : Machine σ) : m.turns code limits 0 = ([], .running m) := rfl

theorem turns_succ (k : Nat) (m : Machine σ) :
    m.turns code limits (k + 1) = andThen (m.turn code limits) fun m => m.turns code limits k := rfl

@[simp] theorem turns_one (m : Machine σ) : m.turns code limits 1 = m.turn code limits := by
  rw [turns_succ]
  rcases m.turn code limits with ⟨es, m' | e⟩ <;> simp

/-- **Every observer sees the same turns.** -/
theorem advance_eq_turns (observe : ω → Event → ω) (k : Nat) (m : Machine σ) (w : ω) :
    m.advance code limits observe k w =
      ((m.turns code limits k).2, (m.turns code limits k).1.foldl observe w) := by
  induction k generalizing m w with
  | zero => rfl
  | succ k ih =>
    rw [turns_succ, advance]
    rcases m.turn code limits with ⟨es, m' | e⟩
    · simp only [andThen_running, ih, List.foldl_append]
    · rfl

theorem exists_turns_of_advance {observe : ω → Event → ω} {k : Nat} {m : Machine σ} {w w' : ω}
    {p : Progress σ} (h : m.advance code limits observe k w = (p, w')) :
    ∃ es, m.turns code limits k = (es, p) ∧ es.foldl observe w = w' := by
  rw [advance_eq_turns] at h
  cases h
  exact ⟨_, rfl, rfl⟩

/-- A run of `j + k` turns is a run of `j` turns and then one of `k`. -/
theorem turns_add (j k : Nat) (m : Machine σ) :
    m.turns code limits (j + k) =
      andThen (m.turns code limits j) fun m => m.turns code limits k := by
  induction j generalizing m with
  | zero => simp
  | succ j ih =>
    have hnext : (fun m : Machine σ => m.turns code limits (j + k)) =
        fun m => andThen (m.turns code limits j) fun m => m.turns code limits k := funext ih
    rw [Nat.succ_add, turns_succ, hnext, turns_succ, andThen_assoc]

variable {code limits}

theorem turns_add_of_running {j : Nat} {m m' : Machine σ} {es : List Event}
    (h : m.turns code limits j = (es, .running m')) (k : Nat) :
    m.turns code limits (j + k) =
      (es ++ (m'.turns code limits k).1, (m'.turns code limits k).2) := by
  rw [turns_add, h, andThen_running]

theorem turns_of_ended {j k : Nat} {m : Machine σ} {es : List Event} {e : Ending σ}
    (h : m.turns code limits j = (es, .ended e)) (hjk : j ≤ k) :
    m.turns code limits k = (es, .ended e) := by
  obtain ⟨i, rfl⟩ := Nat.exists_eq_add_of_le hjk
  rw [turns_add, h, andThen_ended]

theorem exists_running_of_le {j k : Nat} {m m' : Machine σ} {es : List Event}
    (h : m.turns code limits k = (es, .running m')) (hjk : j ≤ k) :
    ∃ es₁ m₁, m.turns code limits j = (es₁, .running m₁) := by
  rcases hj : m.turns code limits j with ⟨es₁, m₁ | e⟩
  · exact ⟨es₁, m₁, rfl⟩
  · rw [turns_of_ended hj hjk] at h
    cases h

theorem exists_last_turn {k : Nat} {m m' : Machine σ} {es : List Event}
    (h : m.turns code limits (k + 1) = (es, .running m')) :
    ∃ es₁ m₁ es₂, m.turns code limits k = (es₁, .running m₁) ∧
      m₁.turn code limits = (es₂, .running m') ∧ es = es₁ ++ es₂ := by
  obtain ⟨es₁, m₁, h₁⟩ := exists_running_of_le h (Nat.le_succ k)
  rw [turns_add_of_running h₁, turns_one] at h
  rcases ht : m₁.turn code limits with ⟨es₂, m₂ | e⟩ <;> rw [ht] at h <;> cases h
  exact ⟨es₁, m₁, es₂, h₁, ht, rfl⟩

theorem exists_final_turn {k : Nat} {m : Machine σ} {es : List Event} {e : Ending σ}
    (h : m.turns code limits k = (es, .ended e)) :
    ∃ j es₁ m₁ es₂, j < k ∧ m.turns code limits j = (es₁, .running m₁) ∧
      m₁.turn code limits = (es₂, .ended e) ∧ es = es₁ ++ es₂ := by
  induction k with
  | zero => cases h
  | succ k ih =>
    rcases hk : m.turns code limits k with ⟨es₁, m₁ | e₁⟩
    · rw [turns_add_of_running hk, turns_one] at h
      rcases ht : m₁.turn code limits with ⟨es₂, m₂ | e₂⟩ <;> rw [ht] at h <;> cases h
      exact ⟨k, es₁, m₁, es₂, Nat.lt_succ_self k, hk, ht, rfl⟩
    · rw [turns_of_ended hk (Nat.le_succ k)] at h
      obtain ⟨j, es₁, m₁, es₂, hj, hrest⟩ := ih (hk.trans h)
      exact ⟨j, es₁, m₁, es₂, Nat.lt_succ_of_lt hj, hrest⟩

/-- **Invariants of runs.** What a turn preserves holds of every machine that a run reaches. -/
theorem of_turns_running {P : Machine σ → Prop} {m : Machine σ} (hinit : P m)
    (hturn : ∀ m es m', P m → m.turn code limits = (es, .running m') → P m') {k : Nat}
    {es : List Event} {m' : Machine σ} (h : m.turns code limits k = (es, .running m')) : P m' := by
  induction k generalizing es m' with
  | zero =>
    cases h
    exact hinit
  | succ k ih =>
    obtain ⟨es₁, m₁, es₂, h₁, ht, -⟩ := exists_last_turn h
    exact hturn m₁ es₂ m' (ih h₁) ht

/-! ## One turn -/

theorem turn_of_length_le {m : Machine σ} (h : code.length ≤ m.state.pc) :
    m.turn code limits = ([.halt ⟨code.length, m.state⟩], m.finish) := by
  have hslot : code.slots[m.state.pc]? = none := Array.getElem?_eq_none h
  simp only [turn, hslot]

theorem turn_of_exhausted {m : Machine σ} {n : Nat} (h : m.state.pc < code.length)
    (hn : limits.exhausted? m.steps = some n) :
    m.turn code limits = ([], .fail m.state.pc (.stepLimit n) m.sink) := by
  have hslot : code.slots[m.state.pc]? = some (code.slots[m.state.pc]) :=
    Array.getElem?_eq_getElem h
  simp only [turn, hslot, hn]

theorem turn_of_unknown {m : Machine σ} {slot : Nat} (h : code.slots[m.state.pc]? = some slot)
    (hn : limits.exhausted? m.steps = none) (hop : Opcode.ofCode? slot = none) :
    m.turn code limits = ([.step ⟨code.length, m.state⟩],
      .fail m.state.pc (.defect (.unknownOpcode slot)) m.sink) := by
  simp only [turn, h, hn, hop]

theorem turn_of_opcode {m : Machine σ} {op : Opcode}
    (h : code.slots[m.state.pc]? = some op.code) (hn : limits.exhausted? m.steps = none) :
    m.turn code limits = ([.step ⟨code.length, m.state⟩, .fetched m.state.pc op],
      m.dispatch code limits op) := by
  simp only [turn, h, hn, Opcode.ofCode?_code]

omit [Sink σ] in
/-- A turn is one of four. -/
theorem turn_cases (code : Code) (limits : Limits) (m : Machine σ) :
    code.length ≤ m.state.pc ∨
      (m.state.pc < code.length ∧ ∃ n, limits.exhausted? m.steps = some n) ∨
      (limits.exhausted? m.steps = none ∧
        ∃ slot, code.slots[m.state.pc]? = some slot ∧ Opcode.ofCode? slot = none) ∨
      (limits.exhausted? m.steps = none ∧
        ∃ op : Opcode, code.slots[m.state.pc]? = some op.code) := by
  rcases Nat.lt_or_ge m.state.pc code.length with hlt | hge
  · have hslot : code.slots[m.state.pc]? = some (code.slots[m.state.pc]) :=
      Array.getElem?_eq_getElem hlt
    rcases hn : limits.exhausted? m.steps with _ | n
    · rcases hop : Opcode.ofCode? (code.slots[m.state.pc]) with _ | op
      · exact .inr (.inr (.inl ⟨rfl, _, hslot, hop⟩))
      · rw [Opcode.ofCode?_eq_some_iff] at hop
        exact .inr (.inr (.inr ⟨rfl, op, hop ▸ hslot⟩))
    · exact .inr (.inl ⟨hlt, n, rfl⟩)
  · exact .inl hge

theorem finish_ne_running (m m' : Machine σ) : m.finish ≠ .running m' := by
  rcases h : Sink.flush m.sink with ⟨sink, _ | reason⟩ <;> simp [finish, h, Progress.fail]

theorem dispatch_eq_running_iff {m m' : Machine σ} {op : Opcode} :
    m.dispatch code limits op = .running m' ↔
      ∃ effect sink, op.perform code limits.depth m.state = .ok effect ∧
        Sink.print m.sink effect.printed = (sink, none) ∧
        m' = ⟨effect.state, m.steps + 1, sink⟩ := by
  obtain ⟨state, steps, sink⟩ := m
  rcases hp : op.perform code limits.depth state with f | effect
  · simp [dispatch, hp, Progress.fail]
  · rcases hs : Sink.print sink effect.printed with ⟨sink', _ | reason⟩
    · simp [dispatch, hp, hs, eq_comm]
    · simp [dispatch, hp, hs, Progress.fail]

/-- **A turn after which the run goes on** carries out one instruction and counts it. -/
theorem turn_eq_running_iff {m m' : Machine σ} {es : List Event} :
    m.turn code limits = (es, .running m') ↔
      ∃ op effect sink, code.slots[m.state.pc]? = some op.code ∧
        limits.exhausted? m.steps = none ∧ op.perform code limits.depth m.state = .ok effect ∧
        Sink.print m.sink effect.printed = (sink, none) ∧
        m' = ⟨effect.state, m.steps + 1, sink⟩ ∧
        es = [.step ⟨code.length, m.state⟩, .fetched m.state.pc op] := by
  constructor
  · intro h
    rcases turn_cases code limits m with
      hle | ⟨hlt, n, hn⟩ | ⟨hn, slot, hslot, hop⟩ | ⟨hn, op, hop⟩
    · rw [turn_of_length_le hle] at h
      exact absurd (congrArg Prod.snd h) (finish_ne_running m m')
    · rw [turn_of_exhausted hlt hn] at h
      cases h
    · rw [turn_of_unknown hslot hn hop] at h
      cases h
    · rw [turn_of_opcode hop hn] at h
      obtain ⟨effect, sink, hp, hs, hm⟩ := dispatch_eq_running_iff.mp (congrArg Prod.snd h)
      exact ⟨op, effect, sink, hop, hn, hp, hs, hm, (congrArg Prod.fst h).symm⟩
  · rintro ⟨op, effect, sink, hop, hn, hp, hs, hm, rfl⟩
    rw [turn_of_opcode hop hn, dispatch_eq_running_iff.mpr ⟨effect, sink, hp, hs, hm⟩]

theorem finish_eq_fail {m : Machine σ} {a : Nat} {f : Fault} {sink : σ}
    (h : m.finish = .fail a f sink) : a = m.state.pc ∧ ∃ reason, f = .output reason := by
  rcases hs : Sink.flush m.sink with ⟨sink', _ | reason⟩
  · simp [finish, hs, Progress.fail] at h
  · simp only [finish, hs, Progress.fail] at h
    cases h
    exact ⟨rfl, reason, rfl⟩

theorem dispatch_eq_fail {m : Machine σ} {op : Opcode} {a : Nat} {f : Fault} {sink : σ}
    (h : m.dispatch code limits op = .fail a f sink) :
    a = m.state.pc ∧ ((∃ reason, f = .output reason) ∨
      op.perform code limits.depth m.state = .error f) := by
  obtain ⟨state, steps, sink₀⟩ := m
  rcases hp : op.perform code limits.depth state with f' | effect
  · simp only [dispatch, hp, Progress.fail] at h
    cases h
    exact ⟨rfl, .inr rfl⟩
  · rcases hs : Sink.print sink₀ effect.printed with ⟨sink', _ | reason⟩
    · simp [dispatch, hp, hs, Progress.fail] at h
    · simp only [dispatch, hp, hs, Progress.fail] at h
      cases h
      exact ⟨rfl, .inl ⟨reason, rfl⟩⟩

theorem dispatch_ne_ok (m : Machine σ) (op : Opcode) (r : Halted) (sink : σ) :
    m.dispatch code limits op ≠ .ended ⟨.ok r, sink⟩ := by
  obtain ⟨state, steps, sink₀⟩ := m
  rcases hp : op.perform code limits.depth state with f | effect
  · simp [dispatch, hp, Progress.fail]
  · rcases hs : Sink.print sink₀ effect.printed with ⟨sink', _ | reason⟩ <;>
      simp [dispatch, hp, hs, Progress.fail]

theorem dispatch_of_error {m : Machine σ} {op : Opcode} {f : Fault}
    (h : op.perform code limits.depth m.state = .error f) :
    m.dispatch code limits op = .fail m.state.pc f m.sink := by
  obtain ⟨state, steps, sink⟩ := m
  simp only [dispatch, show op.perform code limits.depth state = .error f from h]

/-- **A turn that fails** does so at the program counter: the sink refuses, the limit on steps is
met, the slot is no opcode, or the instruction has a fault of its own. -/
theorem turn_eq_fail {m : Machine σ} {es : List Event} {a : Nat} {f : Fault} {sink : σ}
    (h : m.turn code limits = (es, .fail a f sink)) :
    a = m.state.pc ∧ ((∃ reason, f = .output reason) ∨ (∃ n, f = .stepLimit n) ∨
      (∃ slot, code.slots[m.state.pc]? = some slot ∧ Opcode.ofCode? slot = none ∧
        f = .defect (.unknownOpcode slot)) ∨
      ∃ op : Opcode, code.slots[m.state.pc]? = some op.code ∧
        limits.exhausted? m.steps = none ∧ op.perform code limits.depth m.state = .error f ∧
        es = [.step ⟨code.length, m.state⟩, .fetched m.state.pc op]) := by
  rcases turn_cases code limits m with
    hle | ⟨hlt, n, hn⟩ | ⟨hn, slot, hslot, hop⟩ | ⟨hn, op, hop⟩
  · rw [turn_of_length_le hle] at h
    obtain ⟨ha, hf⟩ := finish_eq_fail (congrArg Prod.snd h)
    exact ⟨ha, .inl hf⟩
  · rw [turn_of_exhausted hlt hn] at h
    cases h
    exact ⟨rfl, .inr (.inl ⟨n, rfl⟩)⟩
  · rw [turn_of_unknown hslot hn hop] at h
    cases h
    exact ⟨rfl, .inr (.inr (.inl ⟨slot, hslot, hop, rfl⟩))⟩
  · rw [turn_of_opcode hop hn] at h
    obtain ⟨ha, hf | hp⟩ := dispatch_eq_fail (congrArg Prod.snd h)
    · exact ⟨ha, .inl hf⟩
    · exact ⟨ha, .inr (.inr (.inr ⟨op, hop, hn, hp, (congrArg Prod.fst h).symm⟩))⟩

/-- A run goes on only where there is an instruction. -/
theorem pc_lt_length_of_turn {m m' : Machine σ} {es : List Event}
    (h : m.turn code limits = (es, .running m')) : m.state.pc < code.length := by
  obtain ⟨op, -, -, hop, -⟩ := turn_eq_running_iff.mp h
  exact (Array.getElem?_eq_some_iff.mp hop).1

/-- A run ends without a fault only where there is none. -/
theorem length_le_of_turn_ok {m : Machine σ} {es : List Event} {r : Halted} {sink : σ}
    (h : m.turn code limits = (es, .ended ⟨.ok r, sink⟩)) : code.length ≤ m.state.pc := by
  rcases turn_cases code limits m with
    hle | ⟨hlt, n, hn⟩ | ⟨hn, slot, hslot, hop⟩ | ⟨hn, op, hop⟩
  · exact hle
  · rw [turn_of_exhausted hlt hn] at h
    cases h
  · rw [turn_of_unknown hslot hn hop] at h
    cases h
  · rw [turn_of_opcode hop hn] at h
    exact absurd (congrArg Prod.snd h) (dispatch_ne_ok m op r sink)

theorem steps_of_turns {k : Nat} {m m' : Machine σ} {es : List Event}
    (h : m.turns code limits k = (es, .running m')) : m'.steps = m.steps + k := by
  induction k generalizing es m' with
  | zero =>
    cases h
    rfl
  | succ k ih =>
    obtain ⟨es₁, m₁, es₂, h₁, ht, -⟩ := exists_last_turn h
    obtain ⟨op, effect, sink, -, -, -, -, rfl, -⟩ := turn_eq_running_iff.mp ht
    rw [← Nat.add_assoc, ← ih h₁]

/-! ## How a run can go -/

variable (code limits)

/-- After `k` instructions the program counter has left the code. -/
def Leaves (m : Machine σ) (k : Nat) : Prop :=
  ∃ es m', m.turns code limits k = (es, .running m') ∧ code.length ≤ m'.state.pc

/-- After `k` instructions the program counter is in the code, and the next turn fails. -/
def Fails (m : Machine σ) (k : Nat) : Prop :=
  ∃ es m' es' e, m.turns code limits k = (es, .running m') ∧ m'.state.pc < code.length ∧
    m'.turn code limits = (es', .ended e)

/-- No number of turns ends the run. -/
def Endless (m : Machine σ) : Prop :=
  ∀ k, ∃ es m', m.turns code limits k = (es, .running m')

/-- A run leaves the code, fails in it, or has no end. -/
theorem leaves_or_fails_or_endless (m : Machine σ) :
    (∃ k, m.Leaves code limits k) ∨ (∃ k, m.Fails code limits k) ∨ m.Endless code limits := by
  by_cases hend : m.Endless code limits
  · exact .inr (.inr hend)
  · obtain ⟨k, hk⟩ := Classical.not_forall.mp hend
    induction k with
    | zero => exact absurd ⟨[], m, rfl⟩ hk
    | succ k ih =>
      by_cases hrun : ∃ es m', m.turns code limits k = (es, .running m')
      · -- The run goes on for `k` turns and ends with the next: that turn tells which way.
        obtain ⟨es, m', hm'⟩ := hrun
        rcases Nat.lt_or_ge m'.state.pc code.length with hlt | hge
        · rcases ht : m'.turn code limits with ⟨es', m'' | e⟩
          · refine absurd ⟨es ++ es', m'', ?_⟩ hk
            rw [turns_add_of_running hm', turns_one, ht]
          · exact .inr (.inl ⟨k, es, m', es', e, hm', hlt, ht⟩)
        · exact .inl ⟨k, es, m', hm', hge⟩
      · exact ih hrun

/-! ## Instruction by instruction -/

/-- The machine is about to fetch an instruction. -/
def Fetches (m : Machine σ) : Prop :=
  m.state.pc < code.length ∧ limits.exhausted? m.steps = none

/-- One instruction, fetched, decoded and carried out, takes a machine to the next. -/
def Carries (m m' : Machine σ) : Prop :=
  m.Fetches code limits ∧ ∃ op : Opcode, code.slots[m.state.pc]? = some op.code ∧
    m.dispatch code limits op = .running m'

/-- A number of instructions takes a machine to another. -/
inductive Reaches : Nat → Machine σ → Machine σ → Prop
  | refl (m : Machine σ) : Reaches 0 m m
  | head {k : Nat} {m m' m'' : Machine σ} :
      m.Carries code limits m' → Reaches k m' m'' → Reaches (k + 1) m m''

variable {code limits}

theorem carries_iff_turn {m m' : Machine σ} :
    m.Carries code limits m' ↔ ∃ es, m.turn code limits = (es, .running m') := by
  constructor
  · rintro ⟨⟨-, hn⟩, op, hop, hrun⟩
    exact ⟨_, by rw [turn_of_opcode hop hn, hrun]⟩
  · rintro ⟨es, ht⟩
    obtain ⟨op, effect, sink, hop, hn, hp, hs, rfl, -⟩ := turn_eq_running_iff.mp ht
    exact ⟨⟨pc_lt_length_of_turn ht, hn⟩, op, hop,
      dispatch_eq_running_iff.mpr ⟨effect, sink, hp, hs, rfl⟩⟩

/-- The machines that instructions reach are those that turns reach. -/
theorem reaches_iff_turns {k : Nat} {m m' : Machine σ} :
    Reaches code limits k m m' ↔ ∃ es, m.turns code limits k = (es, .running m') := by
  induction k generalizing m with
  | zero =>
    constructor
    · rintro ⟨⟩
      exact ⟨[], rfl⟩
    · rintro ⟨es, h⟩
      cases h
      exact .refl _
  | succ k ih =>
    constructor
    · rintro (_ | ⟨hcarries, hreaches⟩)
      obtain ⟨es, ht⟩ := carries_iff_turn.mp hcarries
      obtain ⟨es', hk⟩ := ih.mp hreaches
      exact ⟨es ++ es', by rw [turns_succ, ht, andThen_running, hk]⟩
    · rintro ⟨es, h⟩
      rw [turns_succ] at h
      rcases ht : m.turn code limits with ⟨es₁, m₁ | e⟩
      · rw [ht, andThen_running] at h
        obtain ⟨-, hrest⟩ := Prod.mk.inj h
        exact .head (carries_iff_turn.mpr ⟨es₁, ht⟩)
          (ih.mpr ⟨(m₁.turns code limits k).1, Prod.ext rfl hrest⟩)
      · rw [ht] at h
        cases h

theorem Reaches.unique {k : Nat} {m m₁ m₂ : Machine σ} (h₁ : Reaches code limits k m m₁)
    (h₂ : Reaches code limits k m m₂) : m₁ = m₂ := by
  obtain ⟨es₁, h₁⟩ := reaches_iff_turns.mp h₁
  obtain ⟨es₂, h₂⟩ := reaches_iff_turns.mp h₂
  cases h₁.symm.trans h₂
  rfl

theorem Carries.unique {m m₁ m₂ : Machine σ} (h₁ : m.Carries code limits m₁)
    (h₂ : m.Carries code limits m₂) : m₁ = m₂ :=
  Reaches.unique (.head h₁ (.refl m₁)) (.head h₂ (.refl m₂))

theorem Reaches.exists_last {k : Nat} {m m'' : Machine σ} (h : Reaches code limits (k + 1) m m'') :
    ∃ m', Reaches code limits k m m' ∧ m'.Carries code limits m'' := by
  obtain ⟨es, h⟩ := reaches_iff_turns.mp h
  obtain ⟨es₁, m', es₂, hk, ht, -⟩ := exists_last_turn h
  exact ⟨m', reaches_iff_turns.mpr ⟨es₁, hk⟩, carries_iff_turn.mpr ⟨es₂, ht⟩⟩

end Machine

end PoolMachine
