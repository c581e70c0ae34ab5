import PoolMachine.Proofs.Emission
import PoolMachine.Proofs.Sweep

/-!
# Streams of instructions

A stream of slots is well-formed if it is made of instructions, one behind the other: the code of an
opcode, and behind an opcode that takes an operand an index of the pool that the opcode names.

**Theorem (`Code.listing_segments`).** A code has a listing exactly if its slots are such a stream.
The listing then shows these instructions, from address zero to the end of the code, each at the
address where the one before it ends. All other slots are a stream of instructions and then slots
that do not start with one; the listing fails at the address where these start, with what is wrong
there.

Segments and flaws are facts about slots alone and do not mention the sweep. The sweep passes over a
segment (`instructionsFrom_segment`) and stops at a flaw (`instructionsFrom_flawed`), and all slots
are segments up to a flaw or up to the end (`segmented`).
-/

namespace PoolMachine

/-! ## Segments and flaws -/

/-- The slots of one instruction of a code. -/
inductive Segment (code : Code)
  /-- An opcode by itself. -/
  | bare (op : Opcode) (h : op.operand = none)
  /-- An opcode and an index of its pool. -/
  | pooled (op : Opcode) (pool : Kind) (index : Nat) (h : op.operand = some pool)
      (hindex : index < code.poolSize pool)

namespace Segment

variable {code : Code}

def op : Segment code → Opcode
  | bare op _ => op
  | pooled op _ _ _ _ => op

def index? : Segment code → Option Nat
  | bare _ _ => none
  | pooled _ _ index _ _ => some index

def slots (s : Segment code) : List Nat := s.op.code :: s.index?.toList

/-- The slots of instructions, one behind the other. -/
def join (ss : List (Segment code)) : List Nat := ss.flatMap slots

theorem length_slots (s : Segment code) : s.slots.length = s.op.width := by
  cases s with
  | bare op h => simp [slots, Segment.op, index?, Opcode.width, h]
  | pooled op pool index h => simp [slots, Segment.op, index?, Opcode.width, h]

end Segment

/-- Slots that do not start with an instruction, and what is wrong with them. -/
inductive Flawed (code : Code) : List Nat → Defect → Prop
  | unknownOpcode {slot : Nat} {rest : List Nat} : (∀ op : Opcode, op.code ≠ slot) →
      Flawed code (slot :: rest) (.unknownOpcode slot)
  | missingOperand {op : Opcode} {pool : Kind} : op.operand = some pool →
      Flawed code [op.code] (.missingOperand op)
  | badIndex {op : Opcode} {pool : Kind} {index : Nat} {rest : List Nat} :
      op.operand = some pool → code.poolSize pool ≤ index →
      Flawed code (op.code :: index :: rest) (.badIndex pool index (code.poolSize pool))

/-- The instructions cover the slots between two addresses: the first starts at the first address,
each other where the one before it ends, and the last ends at the second address. -/
def Covers (start stop : Nat) : List Instruction → Prop
  | [] => start = stop
  | i :: is => i.address = start ∧ Covers (start + i.op.width) stop is

namespace Code

variable {code : Code} {pool : Kind} {index : Nat}

theorem entry_of_le (h : code.poolSize pool ≤ index) :
    code.entry pool index = .error (.badIndex pool index (code.poolSize pool)) := by
  rw [entry, literal_of_le h]
  rfl

/-! ## The sweep over segments -/

/-- **The sweep passes over a segment**, and shows the instruction at its address. -/
theorem instructionsFrom_segment (s : Segment code) (a : Nat) (rest : List Nat) :
    ∃ i : Instruction, i.address = a ∧ (i.op, i.operand.map (·.1)) = (s.op, s.index?) ∧
      code.instructionsFrom a (s.slots ++ rest) =
        code.instructionsFrom (a + s.op.width) rest >>= fun is => .ok (i :: is) := by
  cases s with
  | bare op h =>
    refine ⟨⟨a, op, none⟩, rfl, rfl, ?_⟩
    simp [Segment.slots, Segment.op, Segment.index?, instructionsFrom, Opcode.width, h]
  | pooled op pool index h hindex =>
    obtain ⟨v, hv⟩ := exists_entry_iff.mpr hindex
    refine ⟨⟨a, op, some (index, v)⟩, rfl, rfl, ?_⟩
    simp [Segment.slots, Segment.op, Segment.index?, instructionsFrom, Opcode.width, h, hv]

theorem instructionsFrom_join (ss : List (Segment code)) (a : Nat) (rest : List Nat) :
    ∃ is, Covers a (a + (Segment.join ss).length) is ∧
      is.map (fun i => (i.op, i.operand.map (·.1))) = ss.map (fun s => (s.op, s.index?)) ∧
      code.instructionsFrom a (Segment.join ss ++ rest) =
        code.instructionsFrom (a + (Segment.join ss).length) rest >>= fun more =>
          .ok (is ++ more) := by
  induction ss generalizing a with
  | nil =>
    refine ⟨[], rfl, rfl, ?_⟩
    show code.instructionsFrom a rest = _
    cases h : code.instructionsFrom a rest <;> simp [Segment.join, h]
  | cons s ss ih =>
    obtain ⟨i, ha, hop, hsegment⟩ := instructionsFrom_segment s a (Segment.join ss ++ rest)
    obtain ⟨is, hcovers, hops, hjoin⟩ := ih (a + s.op.width)
    have hlength : a + (Segment.join (s :: ss)).length =
        a + s.op.width + (Segment.join ss).length := by
      simp [Segment.join, Segment.length_slots, Nat.add_assoc]
    have hiop : i.op = s.op := congrArg Prod.fst hop
    refine ⟨i :: is, ⟨ha, ?_⟩, ?_, ?_⟩
    · rw [hlength, hiop]
      exact hcovers
    · rw [List.map_cons, List.map_cons, hop, hops]
    · have hslots : Segment.join (s :: ss) ++ rest = s.slots ++ (Segment.join ss ++ rest) := by
        simp [Segment.join]
      rw [hslots, hsegment, hjoin, hlength]
      cases code.instructionsFrom (a + s.op.width + (Segment.join ss).length) rest <;> rfl

/-- **The sweep stops at a flaw**, with the address where the flawed slots start. -/
theorem instructionsFrom_flawed {slots : List Nat} {d : Defect} (h : Flawed code slots d)
    (a : Nat) : code.instructionsFrom a slots = .error ⟨a, d⟩ := by
  cases h with
  | @unknownOpcode slot rest hno =>
    have hop : Opcode.ofCode? slot = none := by
      rw [Option.eq_none_iff_forall_ne_some]
      intro op hop
      exact hno op (Opcode.ofCode?_eq_some_iff.mp hop).symm
    simp [instructionsFrom, hop]
  | missingOperand hpool => simp [instructionsFrom, hpool]
  | badIndex hpool hle => simp [instructionsFrom, hpool, entry_of_le hle]

/-- The slots are segments up to a flaw, or up to the end. -/
def Segmented (code : Code) (slots : List Nat) : Prop :=
  ∃ (ss : List (Segment code)) (rest : List Nat), Segment.join ss ++ rest = slots ∧
    (rest = [] ∨ ∃ d, Flawed code rest d)

theorem Segmented.cons (s : Segment code) {slots : List Nat} (h : code.Segmented slots) :
    code.Segmented (s.slots ++ slots) := by
  obtain ⟨ss, rest, rfl, hrest⟩ := h
  exact ⟨s :: ss, rest, by simp [Segment.join], hrest⟩

theorem Segmented.of_flawed {slots : List Nat} {d : Defect} (h : Flawed code slots d) :
    code.Segmented slots := ⟨[], slots, rfl, .inr ⟨d, h⟩⟩

/-- **All slots are segments up to a flaw**, or up to the end. -/
theorem segmented (code : Code) (slots : List Nat) : code.Segmented slots := by
  -- Along the stream: what is left after a segment is shorter.
  induction hn : slots.length using Nat.strong_induction_on generalizing slots with
  | h n ih =>
    subst hn
    rcases slots with _ | ⟨slot, slots⟩
    · exact ⟨[], [], rfl, .inl rfl⟩
    · by_cases hop : ∃ op : Opcode, op.code = slot
      · obtain ⟨op, rfl⟩ := hop
        rcases hpool : op.operand with _ | pool
        · exact (ih _ (Nat.lt_succ_self _) slots rfl).cons (.bare op hpool)
        · rcases slots with _ | ⟨index, slots⟩
          · exact .of_flawed (.missingOperand hpool)
          · by_cases hindex : index < code.poolSize pool
            · have hshorter : slots.length < (op.code :: index :: slots).length := by
                simp only [List.length_cons]
                omega
              exact (ih _ hshorter slots rfl).cons (.pooled op pool index hpool hindex)
            · exact .of_flawed (.badIndex hpool (Nat.le_of_not_lt hindex))
      · exact .of_flawed (.unknownOpcode (not_exists.mp hop))

/-! ## Listings -/

theorem listing_of_join {ss : List (Segment code)} (h : Segment.join ss = code.slots.toList) :
    ∃ is, Covers 0 code.length is ∧
      is.map (fun i => (i.op, i.operand.map (·.1))) = ss.map (fun s => (s.op, s.index?)) ∧
      code.listing =
        .ok (Text.unlines ("CODE" :: is.map Instruction.text ++ "" :: code.poolLines)) := by
  obtain ⟨is, hcovers, hops, hsweep⟩ := instructionsFrom_join ss 0 []
  have hlength : 0 + (Segment.join ss).length = code.length := by
    rw [h, Nat.zero_add, Array.length_toList, length]
  have hinstructions : code.instructions = .ok is := by
    rw [List.append_nil, h] at hsweep
    simpa [instructions, instructionsFrom] using hsweep
  rw [hlength] at hcovers
  exact ⟨is, hcovers, hops, listing_eq_ok_iff.mpr ⟨is, hinstructions, rfl⟩⟩

theorem listing_of_flawed {ss : List (Segment code)} {rest : List Nat} {d : Defect}
    (h : Segment.join ss ++ rest = code.slots.toList) (hrest : Flawed code rest d) :
    code.listing = .error ⟨(Segment.join ss).length, d⟩ := by
  obtain ⟨is, -, -, hsweep⟩ := instructionsFrom_join ss 0 rest
  rw [h, Nat.zero_add, instructionsFrom_flawed hrest, error_bind] at hsweep
  simp [listing, listingLines, instructions, hsweep, Except.map]

/-- **A code has a listing exactly if its slots are a stream of instructions**, and the listing
fails where they stop being one. -/
theorem listing_segments (code : Code) :
    ((∃ text, code.listing = .ok text) ↔
      ∃ ss : List (Segment code), Segment.join ss = code.slots.toList) ∧
    -- The listing shows the instructions of the stream, from the start to the end without a gap.
    (∀ ss : List (Segment code), Segment.join ss = code.slots.toList →
      ∃ is, Covers 0 code.length is ∧
        is.map (fun i => (i.op, i.operand.map (·.1))) = ss.map (fun s => (s.op, s.index?)) ∧
        code.listing =
          .ok (Text.unlines ("CODE" :: is.map Instruction.text ++ "" :: code.poolLines))) ∧
    -- It fails at the first slots that are no instruction, and says what is wrong with them.
    ∀ e, code.listing = .error e ↔
      ∃ (ss : List (Segment code)) (rest : List Nat),
        Segment.join ss ++ rest = code.slots.toList ∧ e.address = (Segment.join ss).length ∧
        Flawed code rest e.defect := by
  obtain ⟨ss, rest, hslots, rfl | ⟨d, hd⟩⟩ := code.segmented code.slots.toList
  · rw [List.append_nil] at hslots
    obtain ⟨is, -, -, hlisting⟩ := listing_of_join hslots
    refine ⟨⟨fun _ => ⟨ss, hslots⟩, fun _ => ⟨_, hlisting⟩⟩, fun _ => listing_of_join, ?_⟩
    intro e
    constructor
    · intro herror
      cases hlisting.symm.trans herror
    · rintro ⟨ss', rest', hslots', -, hflawed⟩
      cases hlisting.symm.trans (listing_of_flawed hslots' hflawed)
  · have hlisting := listing_of_flawed hslots hd
    refine ⟨⟨?_, ?_⟩, fun _ => listing_of_join, ?_⟩
    · rintro ⟨text, htext⟩
      cases hlisting.symm.trans htext
    · rintro ⟨ss', hslots'⟩
      obtain ⟨is, -, -, htext⟩ := listing_of_join hslots'
      exact ⟨_, htext⟩
    · intro e
      constructor
      · intro herror
        cases hlisting.symm.trans herror
        exact ⟨ss, rest, hslots, rfl, hd⟩
      · rintro ⟨ss', rest', hslots', haddress, hflawed⟩
        rw [listing_of_flawed hslots' hflawed, ← haddress]

/-- Ten of the opcodes take an operand, and with it a second slot. -/
example : (Opcode.all.filter (·.operand.isSome)).length = 10 := by decide

/-- Slots beside a pool of one integer. -/
def besideSeven (slots : Array Nat) : Code where
  slots := slots
  integers := #[7]

/-- An index that is one too large is a fault of the instruction at address one, where the slot of
the index has address two. -/
theorem listing_segments_besideSeven :
    (∃ text, (besideSeven #[12, 15, 0]).listing = .ok text) ∧
      (besideSeven #[12, 15, 1]).listing = .error ⟨1, .badIndex .integer 1 1⟩ := by
  have hoperand : Opcode.loadConst.operand = some .integer := rfl
  constructor
  · exact (listing_segments _).1.mpr
      ⟨[.bare .printNewline rfl, .pooled .loadConst .integer 0 hoperand (by decide)], rfl⟩
  · exact ((listing_segments _).2.2 _).mpr
      ⟨[.bare .printNewline rfl], [15, 1], rfl, rfl, .badIndex hoperand (by decide)⟩

end Code

end PoolMachine
