import PoolMachine.Proofs.Effects
import PoolMachine.Proofs.Jumps
import PoolMachine.Proofs.Turns

/-!
# Exact jumps

Jumps are computed in words, and the target of a forward jump is held at the largest word. Read as
integers, a jump that is taken has an exact target, which may be negative and may be no word.

**Theorem (`Code.jumps_exact`).** In a code whose length is a word, a jump is refused exactly if its
exact target is negative, and the fault names the target. A target that is a word is where the run
goes on. A larger one takes the run to the largest word, where it has left the code and halts as it
would at the target.

* *Targets* (`Opcode.Takes.perform_eq`). The address after an opcode of the code is a word, so the
  sum that a forward jump takes of it is exact up to the largest word, and never held at the least.
* *Addresses* (`Machine.pc_le_of_turns`). A jump leads to a word, and any other instruction at most
  two slots further, so the program counter stays far below the end of the unsigned words.
-/

namespace PoolMachine

/-! ## Jumps that are taken -/

namespace Opcode

/-- The instruction is a jump that is taken in the state, with an exact target and the stack that it
leaves. -/
inductive Takes (code : Code) (s : State) : Opcode → Int → Stack → Prop
  | forward {n : Word} : code.integerOperand .jumpForward s.pc = .ok n →
      Takes code s .jumpForward (s.pc + 1 + n.toInt) s.stack
  | absolute {n : Word} : code.integerOperand .jumpAbsolute s.pc = .ok n →
      Takes code s .jumpAbsolute n.toInt s.stack
  | conditional {sense : Bool} {n : Word} {rest : Stack} :
      code.integerOperand (.jumpIf sense) s.pc = .ok n → s.stack = .boolean sense :: rest →
      Takes code s (.jumpIf sense) n.toInt rest

namespace Takes

variable {code : Code} {s : State} {op : Opcode} {target : Int} {stack : Stack}

theorem le_target (h : Takes code s op target stack) : -2 ^ 63 ≤ target := by
  cases h with
  | @forward n _ =>
    have hn := n.le_toInt
    omega
  | absolute | conditional => exact Int64.le_toInt _

/-- **A jump goes to its exact target, held at the largest word.** -/
theorem perform_eq (h : Takes code s op target stack) (hpc : s.pc + 1 < 2 ^ 63)
    (limit : Option Nat) : op.perform code limit s =
      (goTo (min target (2 ^ 63 - 1))).map fun pc => ⟨⟨pc, stack, s.store⟩, ""⟩ := by
  have hword (n : Word) : min n.toInt (2 ^ 63 - 1) = n.toInt := by
    have hn := n.toInt_lt
    omega
  cases h with
  | forward hn =>
    simp only [perform, hn, ok_bind, jumpTo_eq_goTo, toInt_forwardTarget hpc, exactTarget]
    rfl
  | absolute hn =>
    simp only [perform, hn, ok_bind, jumpTo_eq_goTo, hword]
    rfl
  | conditional hn hstack =>
    simp only [perform, hn, hstack, Stack.pop, Value.asBoolean, Value.asLiteral, ok_bind, if_pos,
      jumpTo_eq_goTo, hword]
    rfl

end Takes

end Opcode

/-! ## The program counter -/

theorem le_of_jumpTo {target : Word} {pc : Nat} (h : jumpTo target = .ok pc) : pc ≤ 2 ^ 63 - 1 := by
  have hlt := target.toInt_lt
  rw [jumpTo_eq_goTo, goTo] at h
  split at h <;> cases h
  omega

theorem Opcode.Performs.pc_le {code : Code} {op : Opcode} {s : State} {e : Effect}
    (h : op.Performs code s e) : e.state.pc ≤ 2 ^ 63 - 1 ∨ e.state.pc ≤ s.pc + 2 := by
  cases h with
  | jumpForward _ hpc | jumpTaken _ hpc | jumpAbsolute _ hpc => exact .inl (le_of_jumpTo hpc)
  | operate | printItem | printNewline | store => exact .inr (Nat.le_succ _)
  | loadGlobal | loadConst | loadName | jumpPassed | ret => exact .inr (Nat.le_refl _)

namespace Machine

variable {σ : Type} [Sink σ] {code : Code} {limits : Limits}

/-- **The program counter stays small**: no run takes it beyond the words and the slot after the
end of the code. -/
theorem pc_le_of_turns {sink : σ} {k : Nat} {es : List Event} {m : Machine σ}
    (h : (start sink).turns code limits k = (es, .running m)) :
    m.state.pc ≤ 2 ^ 63 - 1 ∨ m.state.pc ≤ code.length + 1 := by
  apply of_turns_running (P := fun m => m.state.pc ≤ 2 ^ 63 - 1 ∨ m.state.pc ≤ code.length + 1)
    (.inl (Nat.zero_le _)) ?_ h
  intro m es m' _ ht
  have hlt := pc_lt_length_of_turn ht
  obtain ⟨op, effect, sink, -, -, hp, -, rfl, -⟩ := turn_eq_running_iff.mp ht
  rcases (Opcode.performs_of_perform_limit hp).pc_le with hword | hnext
  · exact .inl hword
  · right
    show effect.state.pc ≤ code.length + 1
    omega

/-! ## Machines that have left the code -/

/-- Two machines halt alike: both have left the code, and the runs end in the same way. A flush that
is refused is reported at the address of the machine. -/
structure HaltsLike (code : Code) (limits : Limits) (m m' : Machine σ) : Prop where
  leaves : m.turn code limits = ([.halt ⟨code.length, m.state⟩], m.finish)
  leaves' : m'.turn code limits = ([.halt ⟨code.length, m'.state⟩], m'.finish)
  halted : ∀ r sink, m.finish = .ended ⟨.ok r, sink⟩ ↔ m'.finish = .ended ⟨.ok r, sink⟩
  refused : ∀ reason sink, m.finish = .fail m.state.pc (.output reason) sink ↔
    m'.finish = .fail m'.state.pc (.output reason) sink

/-- The machine after a jump to an address. -/
def jumped (m : Machine σ) (pc : Nat) (stack : Stack) : Machine σ :=
  ⟨⟨pc, stack, m.state.store⟩, m.steps + 1, m.sink⟩

theorem haltsLike_jumped {m : Machine σ} {pc pc' : Nat} (h : code.length ≤ pc)
    (h' : code.length ≤ pc') (stack : Stack) :
    HaltsLike code limits (m.jumped pc stack) (m.jumped pc' stack) where
  leaves := turn_of_length_le h
  leaves' := turn_of_length_le h'
  halted r sink := by
    rcases hflush : Sink.flush m.sink with ⟨sink', _ | reason⟩ <;>
      simp [finish, jumped, hflush, Progress.fail]
  refused reason sink := by
    rcases hflush : Sink.flush m.sink with ⟨sink', _ | reason'⟩ <;>
      simp [finish, jumped, hflush, Progress.fail]

theorem dispatch_of_takes {m : Machine σ} {op : Opcode} {target : Int} {stack : Stack}
    (h : op.Takes code m.state target stack) (hpc : m.state.pc + 1 < 2 ^ 63) (limits : Limits) :
    (target < 0 → m.dispatch code limits op =
      .fail m.state.pc (.jumpOutOfRange (.ofInt target)) m.sink) ∧
    (0 ≤ target → m.dispatch code limits op =
      .running (m.jumped (min target (2 ^ 63 - 1)).toNat stack)) := by
  have hperform := h.perform_eq hpc limits.depth
  constructor
  · intro hneg
    have hmin : min target (2 ^ 63 - 1) = target := by omega
    rw [hmin, goTo, if_pos hneg] at hperform
    exact dispatch_of_error hperform
  · intro hnonneg
    rw [goTo, if_neg (by omega)] at hperform
    exact dispatch_eq_running_iff.mpr ⟨_, m.sink, hperform, rfl, rfl⟩

end Machine

/-- **Jumps are exact.** The size of the code keeps its addresses within a word. -/
theorem Code.jumps_exact {σ ω : Type} [Sink σ] (code : Code) (hlength : code.length ≤ 2 ^ 63 - 1)
    (limits : Limits) (sink : σ) (observe : ω → Event → ω) (w w' : ω) (fuel : Nat) (m : Machine σ)
    (hm : (Machine.start sink).advance code limits observe fuel w = (.running m, w')) :
    -- Wherever a run has come, the addresses of the next two slots are unsigned words.
    (m.state.pc ≤ 2 ^ 63 - 1 ∨ m.state.pc ≤ code.length + 1) ∧ m.state.pc + 2 < 2 ^ 64 ∧
    ∀ (op : Opcode) target stack, m.Fetches code limits → code.slots[m.state.pc]? = some op.code →
      op.Takes code m.state target stack →
      -- The address of a jump and the one after it are words, and the target is not below them.
      ((Int64.ofNat m.state.pc).toInt = m.state.pc ∧
        (Int64.ofNat m.state.pc + 1).toInt = m.state.pc + 1 ∧ -2 ^ 63 ≤ target) ∧
      -- A negative target is refused, and no other.
      ((∃ t : Word, t.toInt = target ∧
        (m.turn code limits).2 = .fail m.state.pc (.jumpOutOfRange t) m.sink) ↔ target < 0) ∧
      -- A target that is a word is reached.
      (0 ≤ target → target ≤ 2 ^ 63 - 1 →
        (m.turn code limits).2 = .running (m.jumped target.toNat stack)) ∧
      -- At the largest word, the run halts as it would at a larger target.
      (2 ^ 63 - 1 < target →
        (m.turn code limits).2 = .running (m.jumped (2 ^ 63 - 1) stack) ∧
        Machine.HaltsLike code limits (m.jumped (2 ^ 63 - 1) stack)
          (m.jumped target.toNat stack)) := by
  obtain ⟨es, hturns, -⟩ := Machine.exists_turns_of_advance code limits hm
  have hpc := Machine.pc_le_of_turns hturns
  refine ⟨hpc, by omega, ?_⟩
  intro op target stack hfetches hop htakes
  have hnext : m.state.pc + 1 < 2 ^ 63 := by
    have hlt := hfetches.1
    omega
  have hle := htakes.le_target
  obtain ⟨hnegative, hnonneg⟩ := Machine.dispatch_of_takes htakes hnext limits
  rw [Machine.turn_of_opcode hop hfetches.2]
  refine ⟨⟨?_, Word.toInt_ofNat_add_one hnext, hle⟩, ⟨?_, ?_⟩, ?_, ?_⟩
  · exact Int64.toInt_ofNat_of_lt (by omega)
  · rintro ⟨t, -, hfail⟩
    by_contra hge
    rw [hnonneg (by omega)] at hfail
    cases hfail
  · intro hneg
    exact ⟨.ofInt target, Int64.toInt_ofInt_of_le hle (by omega), hnegative hneg⟩
  · intro hge hsmall
    have hmin : min target (2 ^ 63 - 1) = target := by omega
    rw [hnonneg hge, hmin]
  · intro hlarge
    have hmin : min target (2 ^ 63 - 1) = 2 ^ 63 - 1 := by omega
    rw [hnonneg (by omega), hmin]
    exact ⟨rfl, Machine.haltsLike_jumped (by omega) (by omega) stack⟩

/-- Jumps forward by one slot, and then by the largest word. -/
def Code.twoLeaps : Code where
  slots := #[Opcode.jumpForward.code, 0, Opcode.jumpForward.code, 1]
  integers := #[1, 9223372036854775807]

/-- The second jump starts at address 2, so that its exact target is no word. -/
theorem Code.jumps_exact_twoLeaps :
    twoLeaps.length ≤ 2 ^ 63 - 1 ∧
      ∃ m, (Machine.start "").advance twoLeaps {} (fun w _ => w) 1 () = (.running m, ()) ∧
        m.state.pc = 2 ∧ m.Fetches twoLeaps {} ∧
        Opcode.jumpForward.Takes twoLeaps m.state (2 ^ 63 + 2) [] ∧
        (m.turn twoLeaps {}).2 = .running (m.jumped (2 ^ 63 - 1) []) ∧
        Machine.HaltsLike twoLeaps {} (m.jumped (2 ^ 63 - 1) []) (m.jumped (2 ^ 63 + 2) []) := by
  have hlength : twoLeaps.length ≤ 2 ^ 63 - 1 := by decide
  have hm : (Machine.start "").advance twoLeaps {} (fun w _ => w) 1 () =
      (.running ⟨⟨2, [], .empty⟩, 1, ""⟩, ()) := rfl
  have hfetches : (Machine.mk ⟨2, [], .empty⟩ 1 "").Fetches twoLeaps {} := ⟨by decide, rfl⟩
  have htakes : Opcode.jumpForward.Takes twoLeaps ⟨2, [], .empty⟩ (2 ^ 63 + 2) [] :=
    .forward (n := 9223372036854775807) rfl
  obtain ⟨-, -, hjumps⟩ := jumps_exact twoLeaps hlength {} "" (fun w _ => w) () () 1 _ hm
  obtain ⟨-, -, -, hheld⟩ := hjumps _ _ _ hfetches rfl htakes
  exact ⟨hlength, _, hm, rfl, hfetches, htakes, hheld (by decide)⟩

end PoolMachine
