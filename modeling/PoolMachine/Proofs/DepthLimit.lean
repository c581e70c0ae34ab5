import PoolMachine.Proofs.Effects
import PoolMachine.Proofs.Turns

/-!
# The limit on the stack

A limit of `d` values on the stack ends a run where it would put a value on top of `d` others.

**Theorem (`advance_depthLimit`).** The stack of a limited run never has more than `d` values. The
limited run is the free run up to the first instruction that takes the depth from `d` to `d + 1`
(`Overfills`), and fails there; if the free run has no such instruction, the two are the same run.
The instruction is a load that has found its value. A load that finds none fails for that reason,
whatever the depth, and no other instruction overflows.

The invariant is that the depth is within the limit. It makes an instruction that takes values
before it puts one back safe, so that only loads remain; `Opcode.perform_some_depth` is that fact
for one instruction. A load prints nothing, so a sink that refuses cannot come between the two runs.
-/

namespace PoolMachine.Machine

variable {σ : Type} [Sink σ] {code : Code} {steps : Option Nat} {d : Nat}

/-- The instruction after `k` others takes the depth of the stack from `d` to `d + 1`. -/
def Overfills (code : Code) (limits : Limits) (d : Nat) (m : Machine σ) (k : Nat) : Prop :=
  ∃ es₁ m₁ es₂ m₂, m.turns code limits k = (es₁, .running m₁) ∧
    m₁.turn code limits = (es₂, .running m₂) ∧
    m₁.state.stack.length = d ∧ m₂.state.stack.length = d + 1

/-! ## One turn -/

@[simp] theorem print_empty (sink : σ) : Sink.print sink "" = (sink, none) := rfl

theorem exists_load_of_turn {m m' : Machine σ} {es : List Event}
    (h : m.turn code ⟨none, steps⟩ = (es, .running m'))
    (hlt : m.state.stack.length < m'.state.stack.length) :
    ∃ op v, code.slots[m.state.pc]? = some op.code ∧
      op.loaded code m.state = some (.ok v) ∧ m'.state.stack = v :: m.state.stack ∧
      es = [.step ⟨code.length, m.state⟩, .fetched m.state.pc op] := by
  obtain ⟨op, e, sink, hop, -, hp, -, rfl, rfl⟩ := turn_eq_running_iff.mp h
  obtain ⟨v, hv, rfl⟩ := Opcode.exists_loaded_of_length_lt hp hlt
  exact ⟨op, v, hop, hv, rfl, rfl⟩

theorem dispatch_depthLimit {op : Opcode} {m : Machine σ} (hm : m.state.stack.length ≤ d)
    (hfits : ∀ e, op.perform code none m.state = .ok e → e.state.stack.length ≤ d) :
    m.dispatch code ⟨some d, steps⟩ op = m.dispatch code ⟨none, steps⟩ op := by
  have hperform : op.perform code (some d) m.state = op.perform code none m.state := by
    rw [Opcode.perform_some_depth hm]
    rcases hp : op.perform code none m.state with f | e
    · rfl
    · rw [ok_bind, Effect.within, if_pos (hfits e hp)]
  simp only [dispatch, hperform]

theorem turn_depthLimit {m : Machine σ} (hm : m.state.stack.length ≤ d)
    (hfits : ∀ es m', m.turn code ⟨none, steps⟩ = (es, .running m') →
      m'.state.stack.length ≤ d) :
    m.turn code ⟨some d, steps⟩ = m.turn code ⟨none, steps⟩ := by
  have hx : (⟨some d, steps⟩ : Limits).exhausted? m.steps =
      (⟨none, steps⟩ : Limits).exhausted? m.steps := rfl
  rcases turn_cases code ⟨none, steps⟩ m with
    hle | ⟨hlt, n, hn⟩ | ⟨hn, slot, hslot, hop⟩ | ⟨hn, op, hop⟩
  · rw [turn_of_length_le hle, turn_of_length_le hle]
  · rw [turn_of_exhausted hlt hn, turn_of_exhausted hlt (hx.trans hn)]
  · rw [turn_of_unknown hslot hn hop, turn_of_unknown hslot (hx.trans hn) hop]
  · have hfree := turn_of_opcode hop hn
    rw [hfree, turn_of_opcode hop (hx.trans hn), dispatch_depthLimit hm fun e he => ?_]
    -- An effect beyond the limit is a load's, so nothing is printed and the free run goes on.
    refine Nat.le_of_not_lt fun hgt => ?_
    obtain ⟨v, -, rfl⟩ := Opcode.exists_loaded_of_length_lt he (Nat.lt_of_le_of_lt hm hgt)
    have hrun : m.dispatch code ⟨none, steps⟩ op = .running _ :=
      dispatch_eq_running_iff.mpr ⟨_, m.sink, he, print_empty m.sink, rfl⟩
    exact Nat.not_le_of_lt hgt (hfits _ _ (hfree.trans (Prod.ext rfl hrun)))

theorem turn_depthLimit_of_load {m : Machine σ} {op : Opcode} {v : Value}
    (hop : code.slots[m.state.pc]? = some op.code)
    (hn : (⟨some d, steps⟩ : Limits).exhausted? m.steps = none)
    (hv : op.loaded code m.state = some (.ok v)) (hd : m.state.stack.length = d) :
    m.turn code ⟨some d, steps⟩ =
      ([.step ⟨code.length, m.state⟩, .fetched m.state.pc op],
        .fail m.state.pc (.stackOverflow d) m.sink) := by
  have hp : op.perform code (some d) m.state = .error (.stackOverflow d) := by
    rw [Opcode.perform_some_depth (Nat.le_of_eq hd), Opcode.perform_none_of_loaded hv, ok_bind,
      Effect.within, if_neg]
    simp [hd]
  rw [turn_of_opcode hop hn]
  simp only [dispatch, hp]

theorem turn_free_of_limited {m m' : Machine σ} {es : List Event}
    (hm : m.state.stack.length ≤ d) (h : m.turn code ⟨some d, steps⟩ = (es, .running m')) :
    m.turn code ⟨none, steps⟩ = (es, .running m') ∧ m'.state.stack.length ≤ d := by
  obtain ⟨op, e, sink, hop, hn, hp, hs, rfl, rfl⟩ := turn_eq_running_iff.mp h
  rw [Opcode.perform_some_depth hm] at hp
  rcases hfree : op.perform code none m.state with f | e'
  · rw [hfree] at hp
    cases hp
  · rw [hfree, ok_bind, Effect.within] at hp
    split at hp <;> cases hp
    exact ⟨turn_eq_running_iff.mpr ⟨op, e, sink, hop, hn, hfree, hs, rfl, rfl⟩, ‹_›⟩

theorem exists_loaded_of_overflow {op : Opcode} {s : State} {n : Nat} (hs : s.stack.length ≤ d)
    (h : op.perform code (some d) s = .error (.stackOverflow n)) :
    n = d ∧ s.stack.length = d ∧ ∃ v, op.loaded code s = some (.ok v) := by
  rw [Opcode.perform_some_depth hs] at h
  rcases hfree : op.perform code none s with f | e
  · rw [hfree] at h
    cases h
    exact (Opcode.perform_none_faultsIn code op s _ hfree).elim
  · rw [hfree, ok_bind, Effect.within] at h
    split at h <;> cases h
    obtain ⟨v, hv, rfl⟩ := Opcode.exists_loaded_of_length_lt hfree (by omega)
    refine ⟨rfl, ?_, v, hv⟩
    simp only [List.length_cons] at *
    omega

theorem exists_load_of_turn_overflow {m : Machine σ} {es : List Event} {a n : Nat} {sink : σ}
    (hm : m.state.stack.length ≤ d)
    (h : m.turn code ⟨some d, steps⟩ = (es, .fail a (.stackOverflow n) sink)) :
    n = d ∧ a = m.state.pc ∧ m.state.stack.length = d ∧
      ∃ (op : Opcode) (v : Value), code.slots[m.state.pc]? = some op.code ∧
        op.loaded code m.state = some (.ok v) ∧ m.turn code ⟨none, steps⟩ = (es,
          .running ⟨⟨m.state.pc + 2, v :: m.state.stack, m.state.store⟩, m.steps + 1, m.sink⟩) := by
  obtain ⟨rfl, ⟨_, hf⟩ | ⟨_, hf⟩ | ⟨_, -, -, hf⟩ | ⟨op, hop, hn, hp, rfl⟩⟩ := turn_eq_fail h
  · cases hf
  · cases hf
  · cases hf
  · obtain ⟨rfl, hd, v, hv⟩ := exists_loaded_of_overflow hm hp
    refine ⟨rfl, rfl, hd, op, v, hop, hv, turn_eq_running_iff.mpr ?_⟩
    exact ⟨op, _, m.sink, hop, hn, Opcode.perform_none_of_loaded hv, print_empty _, rfl, rfl⟩

/-! ## Whole runs -/

/-- The runs agree until the free run exceeds the limit. -/
theorem turns_depthLimit {k : Nat} {m : Machine σ} (hm : m.state.stack.length ≤ d)
    (hno : ∀ j < k, ¬ m.Overfills code ⟨none, steps⟩ d j) :
    m.turns code ⟨some d, steps⟩ k = m.turns code ⟨none, steps⟩ k ∧
      ∀ es m', m.turns code ⟨none, steps⟩ k = (es, .running m') → m'.state.stack.length ≤ d := by
  induction k with
  | zero =>
    refine ⟨rfl, fun es m' h => ?_⟩
    cases h
    exact hm
  | succ k ih =>
    obtain ⟨heq, hlen⟩ := ih fun j hj => hno j (Nat.lt_succ_of_lt hj)
    rcases hfree : m.turns code ⟨none, steps⟩ k with ⟨es, m₁ | e⟩
    · have hm₁ := hlen es m₁ hfree
      have hfits : ∀ es' m', m₁.turn code ⟨none, steps⟩ = (es', .running m') →
          m'.state.stack.length ≤ d := by
        intro es' m' ht
        refine Nat.le_of_not_lt fun hgt => hno k (Nat.lt_succ_self k) ?_
        obtain ⟨op, v, -, -, hstack, -⟩ := exists_load_of_turn ht (Nat.lt_of_le_of_lt hm₁ hgt)
        have hsucc : m'.state.stack.length = m₁.state.stack.length + 1 := by rw [hstack]; rfl
        exact ⟨es, m₁, es', m', hfree, ht, by omega, by omega⟩
      refine ⟨?_, fun es' m' h => ?_⟩
      · rw [turns_add_of_running (heq.trans hfree), turns_add_of_running hfree, turns_one,
          turns_one, turn_depthLimit hm₁ hfits]
      · obtain ⟨es₁, m₁', es₂, h₁, ht, -⟩ := exists_last_turn h
        cases hfree.symm.trans h₁
        exact hfits es₂ m' ht
    · have hend := turns_of_ended hfree (Nat.le_succ k)
      have hlimited := turns_of_ended (heq.trans hfree) (Nat.le_succ k)
      refine ⟨hlimited.trans hend.symm, fun es' m' h => ?_⟩
      cases hend.symm.trans h

theorem turns_free_of_limited {k : Nat} {m m' : Machine σ} {es : List Event}
    (hm : m.state.stack.length ≤ d) (h : m.turns code ⟨some d, steps⟩ k = (es, .running m')) :
    m.turns code ⟨none, steps⟩ k = (es, .running m') ∧ m'.state.stack.length ≤ d := by
  induction k generalizing es m' with
  | zero =>
    cases h
    exact ⟨rfl, hm⟩
  | succ k ih =>
    obtain ⟨es₁, m₁, es₂, h₁, ht, rfl⟩ := exists_last_turn h
    obtain ⟨hfree, hm₁⟩ := ih h₁
    obtain ⟨htfree, hm'⟩ := turn_free_of_limited hm₁ ht
    rw [turns_add_of_running hfree, turns_one, htfree]
    exact ⟨rfl, hm'⟩

/-- The first instruction that exceeds the limit ends the limited run. -/
theorem turns_depthLimit_of_overfills {k : Nat} {m : Machine σ} (hm : m.state.stack.length ≤ d)
    (h : m.Overfills code ⟨none, steps⟩ d k)
    (hno : ∀ j < k, ¬ m.Overfills code ⟨none, steps⟩ d j) :
    ∃ (es : List Event) (m₁ : Machine σ) (op : Opcode) (v : Value),
      m.turns code ⟨none, steps⟩ k = (es, .running m₁) ∧ m₁.state.stack.length = d ∧
      code.slots[m₁.state.pc]? = some op.code ∧ op.loaded code m₁.state = some (.ok v) ∧
      ∀ fuel, k < fuel → m.turns code ⟨some d, steps⟩ fuel =
        (es ++ [.step ⟨code.length, m₁.state⟩, .fetched m₁.state.pc op],
          .fail m₁.state.pc (.stackOverflow d) m₁.sink) := by
  obtain ⟨es, m₁, es₂, m₂, h₁, ht, hd, hd'⟩ := h
  obtain ⟨op, v, hop, hv, -, -⟩ := exists_load_of_turn ht (by omega)
  obtain ⟨-, -, -, -, hn, -⟩ := turn_eq_running_iff.mp ht
  refine ⟨es, m₁, op, v, h₁, hd, hop, hv, fun fuel hfuel => ?_⟩
  refine turns_of_ended (j := k + 1) ?_ hfuel
  rw [turns_add_of_running ((turns_depthLimit hm hno).1.trans h₁), turns_one,
    turn_depthLimit_of_load hop hn hv hd]
  rfl

theorem exists_overfills_of_overflow {fuel a n : Nat} {m : Machine σ} {es : List Event} {sink : σ}
    (hm : m.state.stack.length ≤ d)
    (h : m.turns code ⟨some d, steps⟩ fuel = (es, .fail a (.stackOverflow n) sink)) :
    n = d ∧ ∃ (k : Nat) (es : List Event) (m₁ : Machine σ) (op : Opcode) (v : Value),
      k < fuel ∧ m.Overfills code ⟨none, steps⟩ d k ∧
      m.turns code ⟨none, steps⟩ k = (es, .running m₁) ∧ a = m₁.state.pc ∧
      code.slots[a]? = some op.code ∧ op.loaded code m₁.state = some (.ok v) := by
  obtain ⟨k, es₁, m₁, es₂, hk, h₁, ht, -⟩ := exists_final_turn h
  obtain ⟨hfree, hm₁⟩ := turns_free_of_limited hm h₁
  obtain ⟨hn, rfl, hd, op, v, hop, hv, htfree⟩ := exists_load_of_turn_overflow hm₁ ht
  refine ⟨hn, k, es₁, m₁, op, v, hk, ?_, hfree, rfl, hop, hv⟩
  exact ⟨es₁, m₁, es₂, _, hfree, htfree, hd, by rw [List.length_cons, hd]⟩

/-- **The exact meaning of the limit on the stack.** -/
theorem advance_depthLimit (code : Code) (steps : Option Nat) (sink : σ) (d : Nat) :
    let free : Limits := ⟨none, steps⟩
    let limited : Limits := ⟨some d, steps⟩
    let m₀ : Machine σ := .start sink
    -- In every state that the limited run reaches, the stack is within the limit. A load without a
    -- value fails for want of it, and no other instruction overflows.
    (∀ {ω : Type} (observe : ω → Event → ω) (w w' : ω) (fuel : Nat) (m : Machine σ),
      m₀.advance code limited observe fuel w = (.running m, w') →
        m.state.stack.length ≤ d ∧ ∀ op : Opcode,
          (∀ f, op.loaded code m.state = some (.error f) →
            op.perform code (some d) m.state = .error f) ∧
          (∀ n, op.perform code (some d) m.state = .error (.stackOverflow n) →
            op = .loadConst ∨ op = .loadName ∨ op = .loadGlobal) ∧
          (op = .ret ∨ (∃ f, op = .operate f) →
            ∀ n, op.perform code (some d) m.state ≠ .error (.stackOverflow n))) ∧
    -- The runs agree as long as the free run does not exceed the limit.
    (∀ k, (∀ j < k, ¬ m₀.Overfills code free d j) →
      ∀ {ω : Type} (observe : ω → Event → ω) (w : ω),
        m₀.advance code limited observe k w = m₀.advance code free observe k w) ∧
    -- The first instruction that exceeds it is a load with its value, and ends the limited run.
    (∀ k, m₀.Overfills code free d k → (∀ j < k, ¬ m₀.Overfills code free d j) →
      ∃ (m : Machine σ) (op : Opcode) (v : Value),
        code.slots[m.state.pc]? = some op.code ∧ op.loaded code m.state = some (.ok v) ∧
        (op = .loadConst ∨ op = .loadName ∨ op = .loadGlobal) ∧
        ∀ {ω : Type} (observe : ω → Event → ω) (w : ω), ∃ w',
          m₀.advance code free observe k w = (.running m, w') ∧
          ∀ fuel, k < fuel → m₀.advance code limited observe fuel w =
            (.fail m.state.pc (.stackOverflow d) m.sink,
              [.step ⟨code.length, m.state⟩, .fetched m.state.pc op].foldl observe w')) ∧
    -- There is no other way to overflow.
    (∀ {ω : Type} (observe : ω → Event → ω) (w w' : ω) (fuel a n : Nat) (sink' : σ),
      m₀.advance code limited observe fuel w = (.fail a (.stackOverflow n) sink', w') →
        n = d ∧ ∃ k < fuel, m₀.Overfills code free d k ∧
          ∃ (es : List Event) (m : Machine σ) (op : Opcode) (v : Value),
            m₀.turns code free k = (es, .running m) ∧ a = m.state.pc ∧
            code.slots[a]? = some op.code ∧ op.loaded code m.state = some (.ok v) ∧
            (op = .loadConst ∨ op = .loadName ∨ op = .loadGlobal)) := by
  intro free limited m₀
  have hm₀ : m₀.state.stack.length ≤ d := Nat.zero_le d
  refine ⟨?_, ?_, ?_, ?_⟩
  · intro ω observe w w' fuel m h
    obtain ⟨es, hm, -⟩ := exists_turns_of_advance code limited h
    have hlen := (turns_free_of_limited hm₀ hm).2
    refine ⟨hlen, fun op => ⟨fun f hf => ?_, fun n hn => ?_, fun hop n hn => ?_⟩⟩
    · rw [Opcode.perform_of_loaded hf, error_bind]
    · obtain ⟨-, -, v, hv⟩ := exists_loaded_of_overflow hlen hn
      exact Opcode.eq_load_of_loaded hv
    · obtain ⟨-, -, v, hv⟩ := exists_loaded_of_overflow hlen hn
      rcases hop with rfl | ⟨f, rfl⟩ <;> cases hv
  · intro k hno ω observe w
    rw [advance_eq_turns, advance_eq_turns, (turns_depthLimit hm₀ hno).1]
  · intro k hk hno
    obtain ⟨es, m, op, v, hfree, -, hop, hv, hlimited⟩ :=
      turns_depthLimit_of_overfills hm₀ hk hno
    refine ⟨m, op, v, hop, hv, Opcode.eq_load_of_loaded hv, fun observe w =>
      ⟨es.foldl observe w, ?_, fun fuel hfuel => ?_⟩⟩
    · rw [advance_eq_turns, hfree]
    · rw [advance_eq_turns, hlimited fuel hfuel, List.foldl_append]
  · intro ω observe w w' fuel a n sink' h
    obtain ⟨es, hend, -⟩ := exists_turns_of_advance code limited h
    obtain ⟨hn, k, es₁, m, op, v, hk, hover, hfree, ha, hop, hv⟩ :=
      exists_overfills_of_overflow hm₀ hend
    exact ⟨hn, k, hk, hover, es₁, m, op, v, hfree, ha, hop, hv, Opcode.eq_load_of_loaded hv⟩

/-- Of two loads the second exceeds a limit of one value. -/
theorem advance_depthLimit_second_load :
    let code : Code :=
      { slots := #[Opcode.loadConst.code, 0, Opcode.loadConst.code, 0], integers := #[7] }
    let m₀ : Machine String := .start ""
    ¬ m₀.Overfills code ⟨none, none⟩ 1 0 ∧ m₀.Overfills code ⟨none, none⟩ 1 1 ∧
      ∀ fuel, 1 < fuel → m₀.advance code ⟨some 1, none⟩ (fun n _ => n + 1) fuel 0 =
        (.fail 2 (.stackOverflow 1) "", 4) := by
  intro code m₀
  have hfirst : ¬ m₀.Overfills code ⟨none, none⟩ 1 0 := by
    rintro ⟨_, _, _, _, h, -, hd, -⟩
    cases h
    cases hd
  have hsecond : m₀.Overfills code ⟨none, none⟩ 1 1 := ⟨_, _, _, _, rfl, rfl, rfl, rfl⟩
  refine ⟨hfirst, hsecond, fun fuel hfuel => ?_⟩
  obtain ⟨m, op, v, -, -, -, hends⟩ := (advance_depthLimit code none "" 1).2.2.1 1 hsecond
    fun j hj => by rwa [Nat.lt_one_iff.mp hj]
  obtain ⟨w', hfree, hlimited⟩ := hends (fun n _ => n + 1) 0
  cases hfree
  exact hlimited fuel hfuel

end PoolMachine.Machine
