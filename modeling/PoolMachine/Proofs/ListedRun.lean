import PoolMachine.Proofs.Command
import PoolMachine.Proofs.Turns

/-!
# Running code and running its listing

**Theorem (`advance_eq_listed`).** Let a code have a listing in which every jump goes to a negative
address, to an instruction of the listing, or beyond the end (`Listed.Closed`). Then a run of the
code is a run of its listing, turn by turn: the same states, the same output, the same events and
the same end, under all limits and with every sink. The run is never at a slot of the code that the
listing does not show as an instruction, and never fails because of a defect of the code.

A stream does not say which of its slots are opcodes, so everything rests on the program counter
staying in step with the sweep. The invariant is `Listed.At`: the program counter is at an
instruction of the listing, or beyond the end. An instruction that does not jump keeps it, because
the next one in the listing starts where it ends (`Fills.next`); a jump keeps it because the listing
is closed. Where it holds, both machines take the same turn.
-/

namespace PoolMachine

/-! ## Where a command leads -/

namespace Command

theorem load_pc (s : State) (limit : Option Nat) (v : Value) :
    ResultsIn (fun e => e.state.pc = s.pc + 2) (s.load limit v) :=
  .bind fun _ _ => ResultsIn.ok_iff.mpr rfl

theorem goTo_eq_ok {target : Int} {pc : Nat} (h : goTo target = .ok pc) :
    0 ≤ target ∧ pc = target.toNat := by
  unfold goTo at h
  split at h <;> cases h
  exact ⟨Int.not_lt.mp ‹_›, rfl⟩

/-- The addresses to which a command at an address may lead: that of the next command, and the
target of its jump. -/
def LeadsTo (c : Command) (address pc : Nat) : Prop :=
  pc = address + c.op.width ∨ ∃ t, c.target? address = some t ∧ 0 ≤ t ∧ pc = t.toNat

theorem perform_leadsTo (limit : Option Nat) (c : Command) (s : State) :
    ResultsIn (fun e => c.LeadsTo s.pc e.state.pc) (c.perform limit s) := by
  have next {e : Effect} (h : e.state.pc = s.pc + c.op.width) :
      ResultsIn (fun e => c.LeadsTo s.pc e.state.pc) (.ok e : Except Fault Effect) :=
    ResultsIn.ok_iff.mpr (.inl h)
  have load (hw : c.op.width = 2) (v : Value) :
      ResultsIn (fun e => c.LeadsTo s.pc e.state.pc) (s.load limit v) :=
    fun e he => .inl (hw ▸ load_pc s limit v e he)
  cases c with
  | operate f => exact .bind fun _ _ => .bind fun _ _ => .bind fun _ _ => .bind fun _ _ => next rfl
  | printItem => exact .bind fun _ _ => next rfl
  | printNewline => exact next rfl
  | store => exact .bind fun _ _ => .bind fun _ _ => .bind fun _ _ => .bind fun _ _ => next rfl
  | loadGlobal name =>
    simp only [perform]
    split
    · exact .error _
    · exact load rfl _
  | loadConst | loadName => exact load rfl _
  | jumpForward | jumpAbsolute =>
    exact .bind fun pc hpc => ResultsIn.ok_iff.mpr (.inr ⟨_, rfl, goTo_eq_ok hpc⟩)
  | jumpIf sense target =>
    refine .bind fun _ _ => .bind fun b _ => ?_
    by_cases hb : b = sense
    · simp only [if_pos hb]
      exact .bind fun pc hpc => ResultsIn.ok_iff.mpr (.inr ⟨_, rfl, goTo_eq_ok hpc⟩)
    · simp only [if_neg hb]
      exact next rfl
  | callFunction | loadArg | makeFunction => exact .error _
  | ret => exact .bind fun _ _ => .bind fun _ _ => next rfl

open FaultsIn in
theorem perform_faultsIn (limit : Option Nat) (c : Command) (s : State) :
    FaultsIn (fun f => ∀ d, f ≠ .defect d) (c.perform limit s) := by
  have hpop := of_pop (P := fun f => ∀ d, f ≠ .defect d) nofun
  have hpush := of_push (P := fun f => ∀ d, f ≠ .defect d) nofun
  have hliteral := of_asLiteral (P := fun f => ∀ d, f ≠ .defect d) fun _ => nofun
  have hload (v : Value) : FaultsIn (fun f => ∀ d, f ≠ .defect d) (s.load limit v) :=
    (hpush _ _ _).bind fun _ _ => .ok _
  have hgo (t : Int) : FaultsIn (fun f => ∀ d, f ≠ .defect d) (goTo t) := by
    unfold goTo
    split <;> simp
  cases c with
  | operate f =>
    refine (hpop _).bind fun _ _ => (hpop _).bind fun _ _ => ?_
    refine (of_operator (fun _ _ => nofun) nofun _).bind fun _ _ => ?_
    exact (hpush _ _ _).bind fun _ _ => .ok _
  | printItem => exact (hpop _).bind fun _ _ => .ok _
  | printNewline => exact .ok _
  | store =>
    refine (hpop _).bind fun _ _ => (hliteral _ .string _).bind fun _ _ => ?_
    exact (hpop _).bind fun _ _ => (hliteral _ .integer _).bind fun _ _ => .ok _
  | loadGlobal name =>
    simp only [perform]
    split
    · simp
    · exact hload _
  | loadConst | loadName => exact hload _
  | jumpForward | jumpAbsolute => exact (hgo _).bind fun _ _ => .ok _
  | jumpIf sense target =>
    refine (hpop _).bind fun _ _ => (hliteral _ .boolean _).bind fun b _ => ?_
    by_cases hb : b = sense
    · simp only [if_pos hb]
      exact (hgo _).bind fun _ _ => .ok _
    · simp only [if_neg hb]
      exact .ok _
  | callFunction | loadArg | makeFunction => simp [perform]
  | ret => exact (hpop _).bind fun _ _ => (hpush _ _ _).bind fun _ _ => .ok _

end Command

/-! ## Listings whose jumps stay in step -/

namespace Listed

/-- Every jump of a listing goes to a negative address, to an instruction of the listing, or beyond
its end. -/
def Closed (is : List Instruction) : Prop :=
  ∀ i ∈ is, ∀ c ∈ i.command?, ∀ t ∈ c.target? i.address,
    t < 0 ∨ (∃ j ∈ is, (j.address : Int) = t) ∨ (length is : Int) ≤ t

instance (is : List Instruction) : Decidable (Closed is) :=
  inferInstanceAs (Decidable (∀ i ∈ is, ∀ c ∈ i.command?, ∀ t ∈ c.target? i.address,
    t < 0 ∨ (∃ j ∈ is, (j.address : Int) = t) ∨ (length is : Int) ≤ t))

/-- An address where an instruction of the listing starts, or one beyond its end. -/
def At (is : List Instruction) (a : Nat) : Prop :=
  length is ≤ a ∨ ∃ i ∈ is, i.address = a

variable {σ ω : Type} [Sink σ] {code : Code} {is : List Instruction} {limits : Limits}

theorem length_eq (h : code.Fills 0 is) : length is = code.length := by
  rw [h.length_eq, Nat.zero_add, length]

theorem at_of_boundary (h : code.Fills 0 is) {a : Nat} (ha : code.Boundary is a) : At is a := by
  rcases ha with rfl | hi
  · exact .inl (Nat.le_of_eq (length_eq h))
  · exact .inr hi

theorem command?_eq (h : code.Fills 0 is) {i : Instruction} (hi : i ∈ is) :
    command? is i.address = i.command? := by
  have hsome : (is.find? (·.address = i.address)).isSome :=
    List.find?_isSome.mpr ⟨i, hi, by simp⟩
  obtain ⟨j, hj⟩ := Option.isSome_iff_exists.mp hsome
  have hja : j.address = i.address := by simpa using List.find?_some hj
  obtain rfl := (h.holds j (List.mem_of_find?_eq_some hj)).unique (h.holds i hi) hja
  rw [command?, hj, Option.bind_some]

theorem exists_command_of_at (h : code.Fills 0 is) (hlen : code.length < 2 ^ 63) {pc : Nat}
    (hlt : pc < code.length) (hat : At is pc) :
    ∃ i ∈ is, ∃ c, i.address = pc ∧ i.command? = some c ∧ c.op = i.op ∧
      code.slots[pc]? = some i.op.code ∧
      ∀ limit s, s.pc = pc → i.op.perform code limit s = c.perform limit s := by
  rcases hat with hge | ⟨i, hi, rfl⟩
  · rw [length_eq h] at hge
    omega
  · obtain ⟨c, hc, hop, hperform⟩ := (h.holds i hi).exists_command (by omega)
    exact ⟨i, hi, c, rfl, hc, hop, (h.holds i hi).opcode, hperform⟩

/-- A closed listing leads from its instructions to its instructions, or beyond its end. -/
theorem at_of_leadsTo (h : code.Fills 0 is) (hclosed : Closed is) {i : Instruction} (hi : i ∈ is)
    {c : Command} (hc : i.command? = some c) (hop : c.op = i.op) {pc : Nat}
    (hpc : c.LeadsTo i.address pc) : At is pc := by
  rcases hpc with rfl | ⟨t, ht, hpos, rfl⟩
  · rw [hop]
    exact at_of_boundary h (h.next i hi)
  · rcases hclosed i hi c hc t ht with hneg | ⟨j, hj, rfl⟩ | hlen
    · omega
    · exact .inr ⟨j, hj, by simp⟩
    · exact .inl (by omega)

/-! ## One turn in step -/

theorem dispatch_eq {op : Opcode} {c : Command} {m : Machine σ}
    (h : op.perform code limits.depth m.state = c.perform limits.depth m.state) :
    m.dispatch code limits op = dispatch limits c m := by
  obtain ⟨state, steps, sink⟩ := m
  rcases hc : c.perform limits.depth state with f | effect
  · simp only [Machine.dispatch, dispatch, h, hc]
  · rcases hs : Sink.print sink effect.printed with ⟨sink', _ | reason⟩ <;>
      simp only [Machine.dispatch, dispatch, h, hc, hs]

/-- In step with the sweep, both machines take the same turn. -/
theorem turn_eq (h : code.Fills 0 is) (hlen : code.length < 2 ^ 63) {m : Machine σ}
    (hat : At is m.state.pc) : turn is limits m = some (m.turn code limits) := by
  rcases Nat.lt_or_ge m.state.pc code.length with hlt | hge
  · have hpos : ¬ code.length ≤ m.state.pc := Nat.not_le.mpr hlt
    rcases hn : limits.exhausted? m.steps with _ | n
    · obtain ⟨i, hi, c, hpc, hc, hop, hslot, hperform⟩ := exists_command_of_at h hlen hlt hat
      have hshown : command? is m.state.pc = some c := by rw [← hpc, command?_eq h hi, hc]
      rw [Machine.turn_of_opcode hslot hn, dispatch_eq (hperform _ _ rfl), ← hop]
      simp only [turn, length_eq h, if_neg hpos, hn, hshown]
      rfl
    · rw [Machine.turn_of_exhausted hlt hn]
      simp only [turn, length_eq h, if_neg hpos, hn]
  · rw [Machine.turn_of_length_le hge]
    simp only [turn, length_eq h, if_pos hge]

/-- **A turn keeps in step** with the sweep of a closed listing. -/
theorem at_of_turn (h : code.Fills 0 is) (hlen : code.length < 2 ^ 63) (hclosed : Closed is)
    {m m' : Machine σ} {es : List Event} (hat : At is m.state.pc)
    (ht : m.turn code limits = (es, .running m')) : At is m'.state.pc := by
  have hlt := Machine.pc_lt_length_of_turn ht
  obtain ⟨i, hi, c, hpc, hc, hop, hslot, hperform⟩ := exists_command_of_at h hlen hlt hat
  obtain ⟨op, effect, sink, hslot', -, hok, -, rfl, -⟩ := Machine.turn_eq_running_iff.mp ht
  obtain rfl : op = i.op := Opcode.code_injective (Option.some.inj (hslot'.symm.trans hslot))
  rw [hperform _ _ rfl] at hok
  have hleads := Command.perform_leadsTo limits.depth c m.state effect hok
  rw [← hpc] at hleads
  exact at_of_leadsTo h hclosed hi hc hop hleads

theorem turn_ne_defect (h : code.Fills 0 is) (hlen : code.length < 2 ^ 63) {m : Machine σ}
    (hat : At is m.state.pc) (es : List Event) (a : Nat) (d : Defect) (sink : σ) :
    m.turn code limits ≠ (es, .fail a (.defect d) sink) := by
  intro hfail
  obtain ⟨-, ⟨_, hf⟩ | ⟨_, hf⟩ | ⟨slot, hslot, hnone, -⟩ | ⟨op, hop, -, hp, -⟩⟩ :=
    Machine.turn_eq_fail hfail
  · cases hf
  · cases hf
  · have hlt := (Array.getElem?_eq_some_iff.mp hslot).1
    obtain ⟨i, -, c, -, -, -, hslot', -⟩ := exists_command_of_at h hlen hlt hat
    obtain rfl : slot = i.op.code := Option.some.inj (hslot.symm.trans hslot')
    rw [Opcode.ofCode?_code] at hnone
    cases hnone
  · have hlt := (Array.getElem?_eq_some_iff.mp hop).1
    obtain ⟨i, -, c, -, -, -, hslot, hperform⟩ := exists_command_of_at h hlen hlt hat
    obtain rfl : op = i.op := Opcode.code_injective (Option.some.inj (hop.symm.trans hslot))
    rw [hperform _ _ rfl] at hp
    exact Command.perform_faultsIn _ _ _ _ hp d rfl

/-! ## Whole runs in step -/

theorem advance_eq (h : code.Fills 0 is) (hlen : code.length < 2 ^ 63) (hclosed : Closed is)
    (observe : ω → Event → ω) (fuel : Nat) {m : Machine σ} (hat : At is m.state.pc) (w : ω) :
    advance is limits observe fuel m w = some (m.advance code limits observe fuel w) := by
  induction fuel generalizing m w with
  | zero => rfl
  | succ fuel ih =>
    rw [advance, Machine.advance, turn_eq h hlen hat]
    rcases ht : m.turn code limits with ⟨es, m' | e⟩
    · exact ih (at_of_turn h hlen hclosed hat ht) _
    · rfl

/-- **A run of a closed listing keeps in step** with the sweep. -/
theorem at_of_turns (h : code.Fills 0 is) (hlen : code.length < 2 ^ 63) (hclosed : Closed is)
    {sink : σ} {k : Nat} {es : List Event} {m : Machine σ}
    (hk : (Machine.start sink).turns code limits k = (es, .running m)) : At is m.state.pc :=
  Machine.of_turns_running (P := fun m => At is m.state.pc) (at_of_boundary h h.head)
    (fun _ _ _ hat ht => at_of_turn h hlen hclosed hat ht) hk

end Listed

variable {σ ω : Type} [Sink σ]

/-- **A run of a code is a run of its listing**, if the jumps of the listing are closed. The bound
on the length is that of the words, in which forward jumps are computed. -/
theorem Code.advance_eq_listed (code : Code) (hlen : code.length < 2 ^ 63) {text : String}
    (hlist : code.listing = .ok text) :
    ∃ is, code.instructions = .ok is ∧
      text = Text.unlines ("CODE" :: is.map Instruction.text ++ "" :: code.poolLines) ∧
      (Listed.Closed is → ∀ (limits : Limits) (sink : σ) (observe : ω → Event → ω) (w : ω) fuel,
        Listed.advance is limits observe fuel (.start sink) w =
            some (Machine.advance code limits observe fuel (.start sink) w) ∧
          (∀ m w', Machine.advance code limits observe fuel (.start sink) w = (.running m, w') →
            m.state.pc < code.length → ∃ i ∈ is, i.address = m.state.pc) ∧
          ∀ a d sink' w', Machine.advance code limits observe fuel (.start sink) w ≠
            (.fail a (.defect d) sink', w')) := by
  obtain ⟨is, his, htext⟩ := listing_eq_ok_iff.mp hlist
  have h : code.Fills 0 is := instructions_eq_ok_iff.mp his
  refine ⟨is, his, htext, fun hclosed limits sink observe w fuel => ⟨?_, ?_, ?_⟩⟩
  · exact Listed.advance_eq h hlen hclosed observe fuel (Listed.at_of_boundary h h.head) w
  · intro m w' hrun hlt
    obtain ⟨es, hturns, -⟩ := Machine.exists_turns_of_advance code limits hrun
    rcases Listed.at_of_turns h hlen hclosed hturns with hge | hi
    · rw [Listed.length_eq h] at hge
      omega
    · exact hi
  · intro a d sink' w' hrun
    obtain ⟨es, hturns, -⟩ := Machine.exists_turns_of_advance code limits hrun
    obtain ⟨j, es₁, m, es₂, -, hj, hlast, -⟩ := Machine.exists_final_turn hturns
    have hat := Listed.at_of_turns h hlen hclosed hj
    exact Listed.turn_ne_defect h hlen hat es₂ a d sink' hlast

/-- A loop with a jump over an instruction: it prints sevens. -/
def Code.sevens : Code where
  slots := #[Opcode.loadConst.code, 0, Opcode.jumpForward.code, 1, Opcode.printNewline.code,
    Opcode.printItem.code, Opcode.jumpAbsolute.code, 2]
  integers := #[7, 2, 0]
  strings := #[]
  booleans := #[]

theorem Code.advance_sevens_eq_listed :
    ∃ is text, sevens.length < 2 ^ 63 ∧ sevens.listing = .ok text ∧
      sevens.instructions = .ok is ∧ Listed.Closed is ∧ is.map (·.address) = [0, 2, 4, 5, 6] ∧
      Listed.advance is {} (fun w e => w ++ [e]) 9 (.start "") [] =
        some (Machine.advance sevens {} (fun w e => w ++ [e]) 9 (.start "") []) := by
  have his : sevens.instructions =
      .ok [⟨0, .loadConst, some (0, .integer 7)⟩, ⟨2, .jumpForward, some (1, .integer 2)⟩,
        ⟨4, .printNewline, none⟩, ⟨5, .printItem, none⟩,
        ⟨6, .jumpAbsolute, some (2, .integer 0)⟩] := rfl
  have hlist := listing_eq_ok_iff.mpr ⟨_, his, rfl⟩
  obtain ⟨is, his', -, h⟩ :=
    advance_eq_listed (σ := String) (ω := List Event) sevens (by decide) hlist
  cases his.symm.trans his'
  exact ⟨_, _, by decide, hlist, his, by decide, rfl, (h (by decide) {} "" _ [] 9).1⟩

end PoolMachine
