import PoolMachine.Proofs.CanonicalMaps
import PoolMachine.Proofs.OutputLines
import PoolMachine.Proofs.StoreHistory

/-!
# Where the strings of a run come from

**Theorem (`Machine.advance_pooled`).** Every string that a run holds is a literal of its code: the
strings on the stack, and the names in the store. So the store has at most as many names as there
are different strings in the pool, however long the run, and none if the pool is empty.

Neither part is an invariant by itself. A store takes its name from the stack, so the names in the
store are literals because the strings on the stack are (`State.Pooled`).
-/

namespace PoolMachine

/-! ## States -/

/-- Every string of the state is a literal of the code. -/
structure State.Pooled (code : Code) (s : State) : Prop where
  stack : s.stack.Pooled code
  store : ∀ x ∈ s.store.names, x ∈ code.strings.toList

theorem State.pooled_initial (code : Code) : State.initial.Pooled code := ⟨nofun, nofun⟩

/-- **No instruction brings in a string**, neither on the stack nor in the store. -/
theorem Opcode.Performs.state_pooled {code : Code} {op : Opcode} {s : State} {e : Effect}
    (h : op.Performs code s e) (hs : s.Pooled code) : e.state.Pooled code := by
  refine ⟨h.pooled hs.stack, fun x hx => ?_⟩
  rcases h.store_cases with ⟨-, name, n, hstack, hstore⟩ | ⟨-, hstore⟩
  · rw [hstore, NameMap.mem_names_insert_iff] at hx
    rcases hx with rfl | hx
    · exact hs.stack x (by simp [hstack])
    · exact hs.store x hx
  · rw [hstore] at hx
    exact hs.store x hx

/-! ## Runs -/

/-- What a run holds: its stack and its store, while it goes on and once it has halted. A run that
has failed leaves nothing behind. -/
def Progress.memory? {σ : Type} : Progress σ → Option Halted
  | .running m => some ⟨m.state.stack, m.state.store⟩
  | .ended e => e.result.toOption

namespace Machine

variable {σ : Type} [Sink σ] {code : Code} {limits : Limits} {m m' : Machine σ}

theorem state_pooled_of_turns (hm : m.state.Pooled code) {k : Nat} {es : List Event}
    (h : m.turns code limits k = (es, .running m')) : m'.state.Pooled code := by
  refine of_turns_running (P := fun m => m.state.Pooled code) hm (fun m es m' hm ht => ?_) h
  obtain ⟨op, effect, sink, -, -, hp, -, rfl, -⟩ := turn_eq_running_iff.mp ht
  exact (Opcode.performs_of_perform_limit hp).state_pooled hm

theorem eq_of_turn_ok {es : List Event} {r : Halted} {sink : σ}
    (h : m.turn code limits = (es, .ended ⟨.ok r, sink⟩)) :
    r = ⟨m.state.stack, m.state.store⟩ := by
  rw [turn_of_length_le (length_le_of_turn_ok h), finish] at h
  rcases hflush : Sink.flush m.sink with ⟨sink', _ | reason⟩ <;>
    simp only [hflush, Progress.fail] at h <;> cases h
  rfl

theorem exists_reached_of_memory? {k : Nat} {held : Halted}
    (h : (m.turns code limits k).2.memory? = some held) :
    ∃ j es m', m.turns code limits j = (es, .running m') ∧
      held = ⟨m'.state.stack, m'.state.store⟩ := by
  rcases hturns : m.turns code limits k with ⟨es, m' | ⟨f | r, sink⟩⟩
  · rw [hturns] at h
    exact ⟨k, es, m', hturns, (Option.some.inj h).symm⟩
  · rw [hturns] at h
    cases h
  · rw [hturns] at h
    obtain rfl := Option.some.inj h
    obtain ⟨j, es₁, m₁, es₂, -, hreached, ht, -⟩ := exists_final_turn hturns
    exact ⟨j, es₁, m₁, hreached, eq_of_turn_ok ht⟩

/-- **Strings come from the pool alone.** -/
theorem advance_pooled {ω : Type} (code : Code) (limits : Limits) (sink : σ)
    (observe : ω → Event → ω) (w : ω) (k : Nat) (held : Halted)
    (hheld : ((start sink).advance code limits observe k w).1.memory? = some held) :
    (∀ x, .string x ∈ held.stack → x ∈ code.strings) ∧
    (∀ x n, held.store.get? x = some n → x ∈ code.strings) ∧
    held.store.size ≤ code.strings.toList.toFinset.card ∧
    (code.strings = #[] → held.store = .empty) := by
  rw [advance_eq_turns] at hheld
  obtain ⟨j, es, m, hturns, rfl⟩ := exists_reached_of_memory? hheld
  have hpooled := state_pooled_of_turns (State.pooled_initial code) hturns
  have hsize := NameMap.size_le_card hpooled.store
  refine ⟨fun x hx => ?_, fun x n hx => ?_, hsize, fun hempty => ?_⟩
  · exact Array.mem_toList_iff.mp (hpooled.stack x hx)
  · exact Array.mem_toList_iff.mp (hpooled.store x (NameMap.mem_names_iff.mpr ⟨n, hx⟩))
  · refine NameMap.eq_empty_of_size_eq_zero ?_
    simpa [hempty] using hsize

end Machine

/-- Stores without end, under a name that is in the pool twice. -/
def Code.rebinding : Code where
  slots := #[Opcode.loadConst.code, 0, Opcode.loadName.code, 0, Opcode.store.code,
    Opcode.loadConst.code, 1, Opcode.loadName.code, 1, Opcode.store.code,
    Opcode.jumpAbsolute.code, 2]
  integers := #[1, 2, 0]
  strings := #["x", "x"]
  booleans := #[]

/-- Puts an integer on the stack, and halts. -/
def Code.unnamed : Code := ⟨#[Opcode.loadConst.code, 0], #[5], #[], #[]⟩

/-- In the third round, before its first store, and after the end of a run without strings. -/
theorem Machine.advance_pooled_rebinding :
    (∃ held : Halted, held.stack = [.string "x", .integer 1] ∧ held.store.get? "x" = some 2 ∧
      ((start "").advance Code.rebinding {} (fun w _ => w) 16 ()).1.memory? = some held ∧
      "x" ∈ Code.rebinding.strings ∧ held.store.size ≤ 1) ∧
    ∃ held : Halted, held.stack = [.integer 5] ∧ held.store = .empty ∧
      ((start "").advance Code.unnamed {} (fun w _ => w) 2 ()).1.memory? = some held := by
  have hrebinding : ((start "").advance Code.rebinding {} (fun w _ => w) 16 ()).1.memory? =
      some ⟨[.string "x", .integer 1], .ofList [("x", 2)]⟩ := rfl
  have hunnamed : ((start "").advance Code.unnamed {} (fun w _ => w) 2 ()).1.memory? =
      some ⟨[.integer 5], .empty⟩ := rfl
  obtain ⟨hstack, -, hsize, -⟩ := advance_pooled _ _ _ _ _ _ _ hrebinding
  obtain ⟨-, -, -, hempty⟩ := advance_pooled _ _ _ _ _ _ _ hunnamed
  exact ⟨⟨_, rfl, rfl, hrebinding, hstack "x" List.mem_cons_self, hsize⟩,
    ⟨_, rfl, hempty rfl, hunnamed⟩⟩

end PoolMachine
