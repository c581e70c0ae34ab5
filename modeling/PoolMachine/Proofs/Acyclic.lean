import Mathlib.Data.List.Nodup
import Mathlib.Data.List.Perm.Subperm
import Mathlib.Logic.Relation
import PoolMachine.Proofs.Trace

/-!
# Code without cycles

Jumps may go backwards, and they may land on a slot that was meant as an operand and is then read as
an opcode, so the program counter by itself measures nothing. What bounds a run is the graph of the
addresses to which the instructions can lead.

* **`Code.successors`**: the addresses to which the slot at an address can lead when it is read as
  an opcode.
* **`Code.Acyclic`**: no cycle of this graph can be reached from address zero.

**Theorem (`Code.run_of_acyclic`).** A run of a code without cycles ends, under all limits and with
every sink, and dispatches at most as many instructions as the code has slots.

A run follows the edges of the graph (`Performs.mem_successors`), so an address that it dispatched
leads to the address that it has reached. The two can only be equal on a cycle, and therefore no
address is dispatched twice (`Visits.step`). There are no more addresses than slots.
-/

namespace PoolMachine

/-! ## The graph -/

namespace Opcode

/-- Whether an instruction can go on to the one after it. All can but the jumps that are always
taken. -/
def passes : Opcode → Bool
  | jumpForward | jumpAbsolute => false
  | _ => true

/-- The target of a jump at an address, by the literal of its operand. Other instructions have
none. -/
def target? (a : Nat) (n : Word) : Opcode → Option Word
  | jumpForward => some (forwardTarget a n)
  | jumpIf _ | jumpAbsolute => some n
  | _ => none

end Opcode

namespace Code

/-- The integer literal that the slot after an address stands for, as an operand. -/
def integerAfter? (code : Code) (a : Nat) : Option Word :=
  code.slots[a + 1]?.bind (code.integers[·]?)

/-- The address to which an instruction can jump, if its operand has a literal and the target is not
negative. -/
def landing? (code : Code) (a : Nat) (op : Opcode) : Option Nat :=
  ((code.integerAfter? a).bind (op.target? a)).bind fun t =>
    if 0 ≤ t.toInt then some t.toInt.toNat else none

/-- The addresses to which the slot at an address can lead. -/
def successors (code : Code) (a : Nat) : List Nat :=
  match code.opcodeAt? a with
  | none => []
  | some op => (code.landing? a op).toList ++ if op.passes then [a + op.width] else []

/-- An edge between two addresses of the code. -/
def Successor (code : Code) (a b : Nat) : Prop :=
  a < code.length ∧ b < code.length ∧ b ∈ code.successors a

/-- No cycle can be reached from address zero. -/
def Acyclic (code : Code) : Prop :=
  ∀ a, Relation.ReflTransGen code.Successor 0 a → ¬ Relation.TransGen code.Successor a a

variable {code : Code} {a : Nat} {op : Opcode}

theorem successors_of_slot (h : code.slots[a]? = some op.code) : code.successors a =
    (code.landing? a op).toList ++ if op.passes then [a + op.width] else [] := by
  have hop : code.opcodeAt? a = some op := by
    rw [opcodeAt?, h, Option.bind_some, Opcode.ofCode?_code]
  simp only [successors, hop]

theorem integerAfter?_of_operand {n : Word} (h : code.integerOperand op a = .ok n) :
    code.integerAfter? a = some n := by
  obtain ⟨index, hslot, hn⟩ := literalOperand_eq_ok_iff.mp h
  rw [integerAfter?, hslot, Option.bind_some]
  exact hn

theorem landing?_of_jumpTo {n target : Word} {pc : Nat} (hn : code.integerOperand op a = .ok n)
    (htarget : op.target? a n = some target) (hpc : jumpTo target = .ok pc) :
    code.landing? a op = some pc := by
  simp only [landing?, integerAfter?_of_operand hn, Option.bind_some, htarget]
  simp only [jumpTo, Int64.lt_iff_toInt_lt, Int64.toInt_zero] at hpc
  split at hpc <;> cases hpc
  rw [if_pos (Int.not_lt.mp ‹_›)]

end Code

/-- **An instruction leads along an edge of the graph.** -/
theorem Opcode.Performs.mem_successors {code : Code} {op : Opcode} {s : State} {e : Effect}
    (h : op.Performs code s e) (hop : code.slots[s.pc]? = some op.code) :
    e.state.pc ∈ code.successors s.pc := by
  rw [Code.successors_of_slot hop]
  cases h with
  | jumpForward hn hpc | jumpTaken hn hpc | jumpAbsolute hn hpc =>
    rw [Code.landing?_of_jumpTo hn rfl hpc]
    exact List.mem_append_left _ (List.mem_singleton.mpr rfl)
  | _ => exact List.mem_append_right _ (List.mem_singleton.mpr rfl)

/-- A code has no cycles if its addresses have ranks that grow along every edge. -/
theorem Code.acyclic_of_rank {code : Code} (rank : Nat → Nat)
    (h : ∀ a < code.length, ∀ b ∈ code.successors a, b < code.length → rank a < rank b) :
    code.Acyclic := by
  have grows {a b : Nat} (hab : Relation.TransGen code.Successor a b) : rank a < rank b := by
    induction hab with
    | single hab => exact h _ hab.1 _ hab.2.2 hab.2.1
    | tail _ hbc ih => exact Nat.lt_trans ih (h _ hbc.1 _ hbc.2.2 hbc.2.1)
  intro a _ hcycle
  exact Nat.lt_irrefl _ (grows hcycle)

/-! ## Dispatched addresses -/

/-- The addresses of the instructions that a run dispatches, in order. -/
def dispatched (es : List Event) : List Nat :=
  es.filterMap fun
    | .fetched pc _ => some pc
    | .step _ | .halt _ => none

theorem dispatched_append (es es' : List Event) :
    dispatched (es ++ es') = dispatched es ++ dispatched es' :=
  List.filterMap_append

/-- What is known of a run by the addresses that it has dispatched and the one that it has
reached. -/
structure Visits (code : Code) (visited : List Nat) (pc : Nat) : Prop where
  /-- No address has been dispatched twice. -/
  nodup : visited.Nodup
  /-- All are addresses of the code. -/
  bounded : ∀ a ∈ visited, a < code.length
  /-- The run has come here along the graph. -/
  reached : pc < code.length → Relation.ReflTransGen code.Successor 0 pc
  /-- It has come here from each of them. -/
  leads : pc < code.length → ∀ a ∈ visited, Relation.TransGen code.Successor a pc

namespace Visits

variable {code : Code} {visited : List Nat} {pc : Nat}

theorem start (code : Code) : Visits code [] 0 where
  nodup := List.nodup_nil
  bounded _ h := nomatch h
  reached _ := .refl
  leads _ _ h := nomatch h

theorem nodup_concat (h : Visits code visited pc) (hcode : code.Acyclic) (hpc : pc < code.length) :
    (visited ++ [pc]).Nodup := by
  have hnew : pc ∉ visited := fun hmem => hcode pc (h.reached hpc) (h.leads hpc pc hmem)
  exact List.nodup_append.mpr ⟨h.nodup, List.nodup_singleton pc, fun a ha b hb hab =>
    hnew (List.mem_singleton.mp hb ▸ hab ▸ ha)⟩

theorem bounded_concat (h : Visits code visited pc) (hpc : pc < code.length) :
    ∀ a ∈ visited ++ [pc], a < code.length := by
  intro a ha
  rcases List.mem_append.mp ha with ha | ha
  · exact h.bounded a ha
  · exact List.mem_singleton.mp ha ▸ hpc

/-- **An instruction is dispatched at a new address.** -/
theorem step {pc' : Nat} (h : Visits code visited pc) (hcode : code.Acyclic)
    (hpc : pc < code.length) (hnext : pc' ∈ code.successors pc) :
    Visits code (visited ++ [pc]) pc' where
  nodup := h.nodup_concat hcode hpc
  bounded := h.bounded_concat hpc
  reached hpc' := (h.reached hpc).tail ⟨hpc, hpc', hnext⟩
  leads hpc' a ha := by
    rcases List.mem_append.mp ha with ha | ha
    · exact (h.leads hpc a ha).tail ⟨hpc, hpc', hnext⟩
    · exact List.mem_singleton.mp ha ▸ .single ⟨hpc, hpc', hnext⟩

end Visits

theorem Code.length_le_of_nodup {code : Code} {visited : List Nat} (hnodup : visited.Nodup)
    (hbounded : ∀ a ∈ visited, a < code.length) : visited.length ≤ code.length := by
  have hsub : visited ⊆ List.range code.length := fun a ha => List.mem_range.mpr (hbounded a ha)
  simpa using (hnodup.subperm hsub).length_le

/-! ## Runs -/

namespace Machine

variable {σ : Type} [Sink σ] {code : Code} {limits : Limits}

theorem dispatched_turn (code : Code) (limits : Limits) (m : Machine σ) :
    dispatched (m.turn code limits).1 = [] ∨
      m.state.pc < code.length ∧ dispatched (m.turn code limits).1 = [m.state.pc] := by
  rcases turn_cases code limits m with
    hle | ⟨hlt, n, hn⟩ | ⟨hn, slot, hslot, hop⟩ | ⟨hn, op, hop⟩
  · rw [turn_of_length_le hle]
    exact .inl rfl
  · rw [turn_of_exhausted hlt hn]
    exact .inl rfl
  · rw [turn_of_unknown hslot hn hop]
    exact .inl rfl
  · rw [turn_of_opcode hop hn]
    exact .inr ⟨(Array.getElem?_eq_some_iff.mp hop).1, rfl⟩

theorem visits_of_turns (hcode : code.Acyclic) {sink : σ} {k : Nat} {es : List Event}
    {m : Machine σ} (h : (start sink).turns code limits k = (es, .running m)) :
    Visits code (dispatched es) m.state.pc ∧ (dispatched es).length = k := by
  induction k generalizing es m with
  | zero =>
    cases h
    exact ⟨.start code, rfl⟩
  | succ k ih =>
    obtain ⟨es₁, m₁, es₂, h₁, ht, rfl⟩ := exists_last_turn h
    obtain ⟨hvisits, hlength⟩ := ih h₁
    obtain ⟨op, effect, sink', hop, -, hp, -, rfl, rfl⟩ := turn_eq_running_iff.mp ht
    have hnext : effect.state.pc ∈ code.successors m₁.state.pc :=
      (Opcode.performs_of_perform_limit hp).mem_successors hop
    rw [dispatched_append]
    refine ⟨hvisits.step hcode (pc_lt_length_of_turn ht) hnext, ?_⟩
    rw [List.length_append, hlength]
    rfl

/-- Whether a run goes on or has ended, it has dispatched no address twice. -/
theorem dispatched_turns (hcode : code.Acyclic) (limits : Limits) (sink : σ) (k : Nat) :
    (dispatched ((start sink).turns code limits k).1).Nodup ∧
      ∀ a ∈ dispatched ((start sink).turns code limits k).1, a < code.length := by
  rcases h : (start sink).turns code limits k with ⟨es, m | e⟩
  · obtain ⟨hvisits, -⟩ := visits_of_turns hcode h
    exact ⟨hvisits.nodup, hvisits.bounded⟩
  · obtain ⟨j, es₁, m, es₂, -, hj, ht, rfl⟩ := exists_final_turn h
    obtain ⟨hvisits, -⟩ := visits_of_turns hcode hj
    have hlast := dispatched_turn code limits m
    rw [ht] at hlast
    rw [dispatched_append]
    rcases hlast with hnone | ⟨hpc, hone⟩
    · rw [hnone, List.append_nil]
      exact ⟨hvisits.nodup, hvisits.bounded⟩
    · rw [hone]
      exact ⟨hvisits.nodup_concat hcode hpc, hvisits.bounded_concat hpc⟩

theorem exists_ended_of_acyclic (hcode : code.Acyclic) (limits : Limits) (sink : σ) :
    ∃ es e, (start sink).turns code limits (code.length + 1) = (es, .ended e) := by
  rcases h : (start sink).turns code limits (code.length + 1) with ⟨es, m | e⟩
  · obtain ⟨hvisits, hlength⟩ := visits_of_turns hcode h
    have hle := Code.length_le_of_nodup hvisits.nodup hvisits.bounded
    omega
  · exact ⟨es, e, rfl⟩

end Machine

/-- **A run of a code without cycles ends**, and dispatches no address twice. -/
theorem Code.run_of_acyclic {σ : Type} [Sink σ] (code : Code) (hcode : code.Acyclic)
    (limits : Limits) (sink : σ) :
    ∃ (es : List Event) (e : Ending σ),
      (∀ {ω : Type} (observe : ω → Event → ω) (w : ω) (fuel : Nat), code.length < fuel →
        code.run limits sink observe w fuel = some (e, es.foldl observe w)) ∧
      (dispatched es).Nodup ∧ (dispatched es).length ≤ code.length := by
  obtain ⟨es, e, hend⟩ := Machine.exists_ended_of_acyclic hcode limits sink
  have hdispatched := Machine.dispatched_turns hcode limits sink (code.length + 1)
  rw [hend] at hdispatched
  obtain ⟨hnodup, hbounded⟩ := hdispatched
  refine ⟨es, e, fun observe w fuel hfuel => ?_, hnodup, length_le_of_nodup hnodup hbounded⟩
  rw [run, Machine.advance_eq_turns, Machine.turns_of_ended hend hfuel]

/-- A jump to the operand of another one, which is a line feed when it is read as an opcode; then a
jump backwards, to that other jump. It has no literal for its operand, so the run fails there. -/
def Code.detour : Code where
  slots := #[Opcode.jumpAbsolute.code, 0, Opcode.printNewline.code, Opcode.jumpAbsolute.code,
    Opcode.printNewline.code, Opcode.jumpAbsolute.code, 1]
  integers := #[4, 2]
  strings := #[]
  booleans := #[]

theorem Code.acyclic_detour : detour.Acyclic :=
  acyclic_of_rank (fun a => [0, 0, 3, 4, 1, 2].getD a 0) (by decide)

theorem Code.run_detour : detour.Acyclic ∧ ∃ (es : List Event) (e : Ending String),
    detour.run {} "" (fun w e => w ++ [e]) [] 8 = some (e, es.foldl (fun w e => w ++ [e]) []) ∧
      (dispatched es).Nodup ∧ (dispatched es).length ≤ 7 := by
  obtain ⟨es, e, hrun, hnodup, hlength⟩ := run_of_acyclic (σ := String) detour acyclic_detour {} ""
  exact ⟨acyclic_detour, es, e, hrun _ _ 8 (by decide), hnodup, hlength⟩

end PoolMachine
