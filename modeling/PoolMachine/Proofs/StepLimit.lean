import PoolMachine.Proofs.Turns

/-!
# The limit on steps

A limit of `n` steps lets a run carry out `n` instructions and no more. What matters is what the
run without the limit does.

**Theorem (`advance_stepLimit`).** If the free run leaves the code after `k` instructions, the
limited run is the same run as soon as `k ≤ n`. If the free run fails in its next turn after `k`
instructions, the limited run is the same run as soon as `k < n`. In every other case the limited
run carries out the first `n` instructions of the free run and then fails, at the address that it
has reached, with the limit.

The bounds differ by one because the limit is looked at after the program counter and before the
instruction: a run that has left the code is past the limit, and one that is about to fail is not.

The counter is the invariant. A machine that has counted `s` steps is not held up in the next
`n - s` turns (`turns_stepLimit`), so the two runs agree for `n` turns from the start.
-/

namespace PoolMachine.Machine

variable {σ : Type} [Sink σ] {code : Code} {depth : Option Nat} {n : Nat}

/-! ## The limit looks at the counter -/

@[simp] theorem exhausted?_none (steps : Nat) :
    (⟨depth, none⟩ : Limits).exhausted? steps = none := rfl

theorem exhausted?_of_lt {steps : Nat} (h : steps < n) :
    (⟨depth, some n⟩ : Limits).exhausted? steps = none := by
  simp [Limits.exhausted?, Option.filter, Nat.not_le.mpr h]

theorem exhausted?_of_le {steps : Nat} (h : n ≤ steps) :
    (⟨depth, some n⟩ : Limits).exhausted? steps = some n := by
  simp [Limits.exhausted?, Option.filter, h]

theorem turn_stepLimit {m : Machine σ} (h : m.steps < n) :
    m.turn code ⟨depth, some n⟩ = m.turn code ⟨depth, none⟩ := by
  unfold turn dispatch
  rw [exhausted?_of_lt h, exhausted?_none]

/-- As many turns as the limit has left are turns of the free run. -/
theorem turns_stepLimit {k : Nat} {m : Machine σ} (h : m.steps + k ≤ n) :
    m.turns code ⟨depth, some n⟩ k = m.turns code ⟨depth, none⟩ k := by
  induction k with
  | zero => rfl
  | succ k ih =>
    have hk : m.steps + k ≤ n := by omega
    rcases hfree : m.turns code ⟨depth, none⟩ k with ⟨es, m' | e⟩
    · have hlimited := (ih hk).trans hfree
      have hsteps : m'.steps < n := by
        rw [steps_of_turns hfree]
        omega
      rw [turns_add_of_running hlimited, turns_add_of_running hfree, turns_one, turns_one,
        turn_stepLimit hsteps]
    · rw [turns_of_ended hfree (Nat.le_succ k),
        turns_of_ended ((ih hk).trans hfree) (Nat.le_succ k)]

theorem steps_le_stepLimit {k : Nat} {m m' : Machine σ} {es : List Event} (hm : m.steps ≤ n)
    (h : m.turns code ⟨depth, some n⟩ k = (es, .running m')) : m'.steps ≤ n := by
  refine of_turns_running (P := fun m => m.steps ≤ n) hm ?_ h
  intro m₁ es₁ m₂ _ ht
  obtain ⟨op, effect, sink, -, hx, -, -, rfl, -⟩ := turn_eq_running_iff.mp ht
  rcases Nat.lt_or_ge m₁.steps n with hlt | hge
  · exact hlt
  · rw [exhausted?_of_le hge] at hx
    cases hx

/-! ## Where the limit is not met -/

/-- Two runs that agree up to an end agree from there on, and before. -/
theorem turns_eq_of_ended {l₁ l₂ : Limits} {j : Nat} {m : Machine σ} {es : List Event}
    {e : Ending σ} (hend : m.turns code l₁ j = (es, .ended e))
    (heq : ∀ k ≤ j, m.turns code l₂ k = m.turns code l₁ k) (k : Nat) :
    m.turns code l₂ k = m.turns code l₁ k := by
  rcases Nat.le_total k j with hk | hk
  · exact heq k hk
  · rw [turns_of_ended hend hk, turns_of_ended ((heq j (Nat.le_refl j)).trans hend) hk]

theorem turns_stepLimit_of_leaves {k : Nat} {m : Machine σ} (h : m.Leaves code ⟨depth, none⟩ k)
    (hk : m.steps + k ≤ n) (fuel : Nat) :
    m.turns code ⟨depth, some n⟩ fuel = m.turns code ⟨depth, none⟩ fuel := by
  obtain ⟨es, m', hm', hpc⟩ := h
  rcases hfinish : m'.finish with m'' | e
  · exact absurd hfinish (finish_ne_running m' m'')
  · -- Both runs flush the sink in turn `k + 1`, whatever the limit says there.
    have hend : m.turns code ⟨depth, none⟩ (k + 1) =
        (es ++ [.halt ⟨code.length, m'.state⟩], .ended e) := by
      rw [turns_add_of_running hm', turns_one, turn_of_length_le hpc, hfinish]
    refine turns_eq_of_ended hend (fun j hj => ?_) fuel
    rcases Nat.le_or_eq_of_le_add_one hj with hj | rfl
    · exact turns_stepLimit (by omega)
    · rw [hend, turns_add_of_running ((turns_stepLimit hk).trans hm'), turns_one,
        turn_of_length_le hpc, hfinish]

theorem turns_stepLimit_of_fails {k : Nat} {m : Machine σ} (h : m.Fails code ⟨depth, none⟩ k)
    (hk : m.steps + k < n) (fuel : Nat) :
    m.turns code ⟨depth, some n⟩ fuel = m.turns code ⟨depth, none⟩ fuel := by
  obtain ⟨es, m', es', e, hm', -, ht⟩ := h
  have hend : m.turns code ⟨depth, none⟩ (k + 1) = (es ++ es', .ended e) := by
    rw [turns_add_of_running hm', turns_one, ht]
  exact turns_eq_of_ended hend (fun j hj => turns_stepLimit (by omega)) fuel

/-! ## Where the limit is met -/

theorem exists_running_of_late {m : Machine σ} {l : Limits}
    (h : (∃ k, m.Leaves code l k ∧ n < k) ∨ (∃ k, m.Fails code l k ∧ n ≤ k) ∨ m.Endless code l) :
    ∃ es m', m.turns code l n = (es, .running m') ∧ m'.state.pc < code.length := by
  have of_next : (∃ es m', m.turns code l (n + 1) = (es, .running m')) →
      ∃ es m', m.turns code l n = (es, .running m') ∧ m'.state.pc < code.length := by
    rintro ⟨es, m', hm'⟩
    obtain ⟨es₁, m₁, es₂, h₁, ht, -⟩ := exists_last_turn hm'
    exact ⟨es₁, m₁, h₁, pc_lt_length_of_turn ht⟩
  rcases h with ⟨k, ⟨es, m', hm', -⟩, hk⟩ | ⟨k, ⟨es, m', -, -, hm', hpc, -⟩, hk⟩ | hend
  · exact of_next (exists_running_of_le hm' hk)
  · rcases Nat.lt_or_eq_of_le hk with hlt | rfl
    · exact of_next (exists_running_of_le hm' hlt)
    · exact ⟨es, m', hm', hpc⟩
  · exact of_next (hend (n + 1))

/-- A run that is still in the code after `n` instructions is stopped there. -/
theorem turns_stepLimit_exhausted {m m' : Machine σ} {es : List Event} (hm : m.steps = 0)
    (h : m.turns code ⟨depth, none⟩ n = (es, .running m')) (hpc : m'.state.pc < code.length) :
    m.turns code ⟨depth, some n⟩ (n + 1) = (es, .fail m'.state.pc (.stepLimit n) m'.sink) := by
  have hsteps : n ≤ m'.steps := by rw [steps_of_turns h]; omega
  have hlimited : m.turns code ⟨depth, some n⟩ n = (es, .running m') :=
    (turns_stepLimit (by omega)).trans h
  rw [turns_add_of_running hlimited, turns_one, turn_of_exhausted hpc (exhausted?_of_le hsteps),
    List.append_nil]

/-- **The exact meaning of the limit on steps.** -/
theorem advance_stepLimit (code : Code) (depth : Option Nat) (sink : σ) (n : Nat) :
    let free : Limits := ⟨depth, none⟩
    let limited : Limits := ⟨depth, some n⟩
    let m₀ : Machine σ := .start sink
    ((∃ k, m₀.Leaves code free k) ∨ (∃ k, m₀.Fails code free k) ∨ m₀.Endless code free) ∧
    (∀ k, m₀.Leaves code free k ∧ k ≤ n ∨ m₀.Fails code free k ∧ k < n →
      ∀ {ω : Type} (observe : ω → Event → ω) (w : ω) (fuel : Nat),
        m₀.advance code limited observe fuel w = m₀.advance code free observe fuel w) ∧
    ((∃ k, m₀.Leaves code free k ∧ n < k) ∨ (∃ k, m₀.Fails code free k ∧ n ≤ k) ∨
        m₀.Endless code free →
      ∃ m : Machine σ, m.state.pc < code.length ∧
        ∀ {ω : Type} (observe : ω → Event → ω) (w : ω), ∃ w',
          m₀.advance code free observe n w = (.running m, w') ∧
          m₀.advance code limited observe (n + 1) w =
            (.fail m.state.pc (.stepLimit n) m.sink, w')) ∧
    (∀ {ω : Type} (observe : ω → Event → ω) (w w' : ω) (fuel : Nat) (m : Machine σ),
      m₀.advance code limited observe fuel w = (.running m, w') → m.steps ≤ n) := by
  intro free limited m₀
  refine ⟨leaves_or_fails_or_endless code free m₀, ?_, ?_, ?_⟩
  · intro k hk ω observe w fuel
    have heq : m₀.turns code limited fuel = m₀.turns code free fuel := by
      rcases hk with ⟨h, hk⟩ | ⟨h, hk⟩
      · exact turns_stepLimit_of_leaves h (by simpa [m₀, start] using hk) fuel
      · exact turns_stepLimit_of_fails h (by simpa [m₀, start] using hk) fuel
    rw [advance_eq_turns, advance_eq_turns, heq]
  · intro h
    obtain ⟨es, m, hm, hpc⟩ := exists_running_of_late h
    refine ⟨m, hpc, fun observe w => ⟨es.foldl observe w, ?_, ?_⟩⟩
    · rw [advance_eq_turns, hm]
    · rw [advance_eq_turns, turns_stepLimit_exhausted rfl hm hpc]
  · intro ω observe w w' fuel m h
    obtain ⟨es, hm, -⟩ := exists_turns_of_advance code limited h
    exact steps_le_stepLimit (Nat.zero_le n) hm

end PoolMachine.Machine
