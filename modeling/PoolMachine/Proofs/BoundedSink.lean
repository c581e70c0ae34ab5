import PoolMachine.Proofs.Effects
import PoolMachine.Proofs.Turns

/-!
# Bounded output

A buffer with a capacity takes as many bytes as it has room for, and refuses the next one.

**Theorem (`Program.run_capped`).** A run that prints to a bounded buffer is the run that prints to
an unbounded one, up to the first instruction that takes the output beyond the capacity
(`Machine.Exceeds`). This instruction prints an item or a line feed; the bounded run fails there,
and has written exactly as many bytes of the unbounded run's output as the capacity allows, be it in
the middle of a character. If there is no such instruction, the two runs are the same to their end.

Runs with different sinks are compared through a map between the sinks (`Machine.mapSink`). The map
that sets a capacity (`Buffer.capped`) commutes with a print that fits, and with the flush
(`turn_mapSink`); the print that does not fit is the one that exceeds.
-/

namespace PoolMachine

variable {σ τ : Type}

/-! ## Runs with different sinks -/

/-- The same run, with another sink. -/
def Machine.mapSink (f : σ → τ) (m : Machine σ) : Machine τ := ⟨m.state, m.steps, f m.sink⟩

/-- The same end, with another sink. -/
def Ending.mapSink (f : σ → τ) (e : Ending σ) : Ending τ := ⟨e.result, f e.sink⟩

namespace Progress

def mapSink (f : σ → τ) : Progress σ → Progress τ
  | running m => .running (m.mapSink f)
  | ended e => .ended (e.mapSink f)

/-- The sink of a run, whether it goes on or has ended. -/
def sink : Progress σ → σ
  | running m => m.sink
  | ended e => e.sink

@[simp] theorem mapSink_running (f : σ → τ) (m : Machine σ) :
    (running m).mapSink f = .running (m.mapSink f) := rfl

@[simp] theorem mapSink_ended (f : σ → τ) (e : Ending σ) :
    (ended e).mapSink f = .ended (e.mapSink f) := rfl

end Progress

namespace Machine

variable [Sink σ] [Sink τ] {code : Code} {limits : Limits} {f : σ → τ} {m : Machine σ}

theorem finish_mapSink
    (hflush : Sink.flush (f m.sink) = (f (Sink.flush m.sink).1, (Sink.flush m.sink).2)) :
    (m.mapSink f).finish = m.finish.mapSink f := by
  rcases hs : Sink.flush m.sink with ⟨sink, _ | reason⟩ <;> rw [hs] at hflush <;>
    simp only [finish, mapSink, hflush, hs] <;> rfl

theorem dispatch_mapSink {op : Opcode}
    (hprint : ∀ effect, op.perform code limits.depth m.state = .ok effect →
      Sink.print (f m.sink) effect.printed =
        (f (Sink.print m.sink effect.printed).1, (Sink.print m.sink effect.printed).2)) :
    (m.mapSink f).dispatch code limits op = (m.dispatch code limits op).mapSink f := by
  obtain ⟨state, steps, sink⟩ := m
  rcases hp : op.perform code limits.depth state with fault | effect
  · simp only [dispatch, mapSink, hp]
    rfl
  · have hprinted := hprint effect hp
    rcases hs : Sink.print sink effect.printed with ⟨sink', _ | reason⟩ <;>
      simp only [hs] at hprinted <;> simp only [dispatch, mapSink, hp, hs, hprinted] <;> rfl

/-- A map between sinks that commutes with the flush and with what the instruction prints commutes
with a turn. -/
theorem turn_mapSink
    (hflush : Sink.flush (f m.sink) = (f (Sink.flush m.sink).1, (Sink.flush m.sink).2))
    (hprint : ∀ op : Opcode, code.slots[m.state.pc]? = some op.code →
      limits.exhausted? m.steps = none →
      ∀ effect, op.perform code limits.depth m.state = .ok effect →
        Sink.print (f m.sink) effect.printed =
          (f (Sink.print m.sink effect.printed).1, (Sink.print m.sink effect.printed).2)) :
    (m.mapSink f).turn code limits =
      ((m.turn code limits).1, (m.turn code limits).2.mapSink f) := by
  rcases turn_cases code limits m with
    hle | ⟨hlt, n, hn⟩ | ⟨hn, slot, hslot, hop⟩ | ⟨hn, op, hop⟩
  · rw [turn_of_length_le hle, turn_of_length_le (m := m.mapSink f) hle, finish_mapSink hflush]
    rfl
  · rw [turn_of_exhausted hlt hn, turn_of_exhausted (m := m.mapSink f) hlt hn]
    rfl
  · rw [turn_of_unknown hslot hn hop, turn_of_unknown (m := m.mapSink f) hslot hn hop]
    rfl
  · rw [turn_of_opcode hop hn, turn_of_opcode (m := m.mapSink f) hop hn,
      dispatch_mapSink (hprint op hop hn)]
    rfl

end Machine

/-! ## Writing to a buffer -/

namespace Buffer

/-- The buffer with a capacity. -/
def capped (room : Nat) (b : Buffer) : Buffer := { b with capacity := some room }

/-- The buffer with other bytes. -/
def holding (bytes : ByteArray) (b : Buffer) : Buffer := { b with bytes := bytes }

variable {b : Buffer} {text : String} {room : Nat}

theorem extract_of_size_le {bytes : ByteArray} (h : bytes.size ≤ room) :
    bytes.extract 0 room = bytes := by
  rw [← Nat.max_eq_left h, ByteArray.extract_zero_max_size]

theorem extract_append_of_le {bytes more : ByteArray} (h : room ≤ bytes.size) :
    (bytes ++ more).extract 0 room = bytes.extract 0 room := by
  rw [ByteArray.extract_append, Nat.sub_eq_zero_of_le h, Nat.zero_sub, ByteArray.extract_same,
    ByteArray.append_empty]

theorem write_of_unbounded (h : b.capacity = none) (text : String) :
    b.write text = (b.holding (b.bytes ++ text.toUTF8), none) := by
  have hfitting : b.fitting text = text.toUTF8 := by simp only [fitting, h]
  simp [write, hfitting, holding]

/-- **A capacity cuts what does not fit**, and refuses it if there is any. -/
theorem write_capped (hb : b.bytes.size ≤ room) (text : String) :
    (b.capped room).write text =
      ((b.holding ((b.bytes ++ text.toUTF8).extract 0 room)).capped room,
        if room < (b.bytes ++ text.toUTF8).size then some b.whenFull else none) := by
  have hfitting : (b.capped room).fitting text = text.toUTF8.extract 0 (room - b.bytes.size) := rfl
  have hbytes : (b.bytes ++ text.toUTF8).extract 0 room =
      b.bytes ++ text.toUTF8.extract 0 (room - b.bytes.size) := by
    rw [ByteArray.extract_append, extract_of_size_le hb, Nat.zero_sub]
  have hrefuses : (text.toUTF8.extract 0 (room - b.bytes.size)).size < text.utf8ByteSize ↔
      room < (b.bytes ++ text.toUTF8).size := by
    have hsize : text.toUTF8.size = text.utf8ByteSize := rfl
    rw [ByteArray.size_extract, ByteArray.size_append, hsize]
    omega
  simp only [write, hfitting, hrefuses, hbytes]
  rfl

theorem write_capped_of_le (h : (b.bytes ++ text.toUTF8).size ≤ room) :
    (b.capped room).write text = ((b.holding (b.bytes ++ text.toUTF8)).capped room, none) := by
  have hb : b.bytes.size ≤ room := by
    rw [ByteArray.size_append] at h
    omega
  rw [write_capped hb, extract_of_size_le h, if_neg (Nat.not_lt.mpr h)]

/-- An empty text would leave a buffer as it is, if it reached it. -/
theorem print_eq_write (b : Buffer) (text : String) : Sink.print b text = b.write text := by
  by_cases h : text.isEmpty
  · obtain rfl : text = "" := String.isEmpty_iff.mp h
    have hfitting : b.fitting "" = .empty := by
      unfold fitting
      split
      · rfl
      · exact ByteArray.extract_eq_empty_iff.mpr (Nat.min_le_right _ _)
    simp [Sink.print, write, hfitting]
  · rw [Sink.print, if_neg h]
    rfl

end Buffer

theorem Opcode.Performs.printed_cases {code : Code} {op : Opcode} {s : State} {e : Effect}
    (h : op.Performs code s e) : (op = .printItem ∨ op = .printNewline) ∨ e.printed = "" := by
  cases h with
  | printItem => exact .inl (.inl rfl)
  | printNewline => exact .inl (.inr rfl)
  | _ => exact .inr rfl

namespace Machine

variable {code : Code} {limits : Limits} {room : Nat} {m m' : Machine Buffer} {es : List Event}

/-! ## One turn -/

theorem turn_of_unbounded (hm : m.sink.capacity = none) {op : Opcode} {effect : Effect}
    (hop : code.slots[m.state.pc]? = some op.code) (hn : limits.exhausted? m.steps = none)
    (hp : op.perform code limits.depth m.state = .ok effect) :
    m.turn code limits = ([.step ⟨code.length, m.state⟩, .fetched m.state.pc op],
      .running ⟨effect.state, m.steps + 1,
        m.sink.holding (m.sink.bytes ++ effect.printed.toUTF8)⟩) := by
  refine turn_eq_running_iff.mpr ⟨op, effect, _, hop, hn, hp, ?_, rfl, rfl⟩
  rw [Buffer.print_eq_write, Buffer.write_of_unbounded hm]

theorem exists_printed_of_turn (hm : m.sink.capacity = none)
    (h : m.turn code limits = (es, .running m')) :
    ∃ (op : Opcode) (effect : Effect), code.slots[m.state.pc]? = some op.code ∧
      limits.exhausted? m.steps = none ∧ op.perform code limits.depth m.state = .ok effect ∧
      m' = ⟨effect.state, m.steps + 1,
        m.sink.holding (m.sink.bytes ++ effect.printed.toUTF8)⟩ ∧
      es = [.step ⟨code.length, m.state⟩, .fetched m.state.pc op] := by
  obtain ⟨op, effect, sink, hop, hn, hp, -, -, -⟩ := turn_eq_running_iff.mp h
  cases (turn_of_unbounded hm hop hn hp).symm.trans h
  exact ⟨op, effect, hop, hn, hp, rfl, rfl⟩

theorem turn_capped (hm : m.sink.capacity = none)
    (hfits : ∀ es m', m.turn code limits = (es, .running m') → m'.sink.bytes.size ≤ room) :
    (m.mapSink (Buffer.capped room)).turn code limits =
      ((m.turn code limits).1, (m.turn code limits).2.mapSink (Buffer.capped room)) := by
  refine turn_mapSink rfl fun op hop hn effect hp => ?_
  have hsize := hfits _ _ (turn_of_unbounded hm hop hn hp)
  rw [Buffer.print_eq_write, Buffer.print_eq_write, Buffer.write_of_unbounded hm]
  exact Buffer.write_capped_of_le hsize

/-- A turn whose output does not fit prints, and the bounded run fails in it. -/
theorem turn_capped_of_lt (hm : m.sink.capacity = none) (hle : m.sink.bytes.size ≤ room)
    (h : m.turn code limits = (es, .running m')) (hlt : room < m'.sink.bytes.size) :
    ∃ op : Opcode, code.slots[m.state.pc]? = some op.code ∧
      (op = .printItem ∨ op = .printNewline) ∧
      (m.mapSink (Buffer.capped room)).turn code limits =
        ([.step ⟨code.length, m.state⟩, .fetched m.state.pc op],
          .fail m.state.pc (.output m.sink.whenFull)
            ((m.sink.holding (m'.sink.bytes.extract 0 room)).capped room)) := by
  obtain ⟨op, effect, hop, hn, hp, hm', -⟩ := exists_printed_of_turn hm h
  have hbytes : m'.sink.bytes = m.sink.bytes ++ effect.printed.toUTF8 := by rw [hm']; rfl
  rw [hbytes] at hlt ⊢
  refine ⟨op, hop, ?_, ?_⟩
  · rcases (Opcode.performs_of_perform_limit hp).printed_cases with hprints | hempty
    · exact hprints
    · have hsize : (m.sink.bytes ++ effect.printed.toUTF8).size = m.sink.bytes.size := by
        rw [hempty, ByteArray.size_append]
        rfl
      omega
  · have hprint : Sink.print (m.sink.capped room) effect.printed =
        ((m.sink.holding ((m.sink.bytes ++ effect.printed.toUTF8).extract 0 room)).capped room,
          some m.sink.whenFull) := by
      rw [Buffer.print_eq_write, Buffer.write_capped hle, if_pos hlt]
    rw [turn_of_opcode (m := m.mapSink (Buffer.capped room)) hop hn]
    simp only [dispatch, mapSink, hp, hprint]

theorem turn_appends (code : Code) (limits : Limits) (m : Machine Buffer) :
    ∃ more, (m.turn code limits).2.sink.bytes = m.sink.bytes ++ more := by
  have same {p : Progress Buffer} (h : p.sink = m.sink) :
      ∃ more, p.sink.bytes = m.sink.bytes ++ more :=
    ⟨.empty, by rw [h, ByteArray.append_empty]⟩
  rcases turn_cases code limits m with
    hle | ⟨hlt, n, hn⟩ | ⟨hn, slot, hslot, hop⟩ | ⟨hn, op, hop⟩
  · rw [turn_of_length_le hle]
    apply same
    rcases hs : Sink.flush m.sink with ⟨sink, _ | reason⟩ <;> simp only [finish, hs] <;>
      exact (congrArg Prod.fst hs).symm
  · rw [turn_of_exhausted hlt hn]
    exact same rfl
  · rw [turn_of_unknown hslot hn hop]
    exact same rfl
  · rw [turn_of_opcode hop hn]
    rcases hp : op.perform code limits.depth m.state with f | effect
    · exact same (by rw [dispatch_of_error hp]; rfl)
    · refine ⟨m.sink.fitting effect.printed, ?_⟩
      obtain ⟨state, steps, sink⟩ := m
      have hbytes : (Sink.print sink effect.printed).1.bytes =
          sink.bytes ++ sink.fitting effect.printed := by
        rw [Buffer.print_eq_write]
        rfl
      rcases hs : Sink.print sink effect.printed with ⟨sink', _ | reason⟩ <;> rw [hs] at hbytes <;>
        simp only [dispatch, hp, hs] <;> exact hbytes

/-! ## Runs -/

/-- The instruction after `k` others takes the output beyond a number of bytes. -/
def Exceeds (code : Code) (limits : Limits) (room : Nat) (m : Machine Buffer) (k : Nat) : Prop :=
  ∃ es₁ m₁ es₂ m₂, m.turns code limits k = (es₁, .running m₁) ∧
    m₁.turn code limits = (es₂, .running m₂) ∧ room < m₂.sink.bytes.size

theorem turns_appends (code : Code) (limits : Limits) (k : Nat) (m : Machine Buffer) :
    ∃ more, (m.turns code limits k).2.sink.bytes = m.sink.bytes ++ more := by
  induction k generalizing m with
  | zero => exact ⟨.empty, ByteArray.append_empty.symm⟩
  | succ k ih =>
    obtain ⟨more, hmore⟩ := turn_appends code limits m
    rw [turns_succ]
    rcases ht : m.turn code limits with ⟨es, m₁ | e⟩ <;> rw [ht] at hmore
    · obtain ⟨more', hmore'⟩ := ih m₁
      refine ⟨more ++ more', ?_⟩
      rw [andThen_running, hmore', ← ByteArray.append_assoc, ← hmore]
      rfl
    · exact ⟨more, hmore⟩

theorem sink_of_turns (hm : m.sink.capacity = none) {k : Nat}
    (h : m.turns code limits k = (es, .running m')) :
    m'.sink.capacity = none ∧ m'.sink.whenFull = m.sink.whenFull := by
  refine of_turns_running
    (P := fun m' => m'.sink.capacity = none ∧ m'.sink.whenFull = m.sink.whenFull) ⟨hm, rfl⟩ ?_ h
  intro m₁ es₁ m₂ ⟨hcapacity, hreason⟩ ht
  obtain ⟨-, -, -, -, -, rfl, -⟩ := exists_printed_of_turn hcapacity ht
  exact ⟨hcapacity, hreason⟩

/-- **The runs agree until the output exceeds the capacity.** -/
theorem turns_capped (hm : m.sink.capacity = none) (hle : m.sink.bytes.size ≤ room) {k : Nat}
    (hno : ∀ j < k, ¬ m.Exceeds code limits room j) :
    (m.mapSink (Buffer.capped room)).turns code limits k =
        ((m.turns code limits k).1, (m.turns code limits k).2.mapSink (Buffer.capped room)) ∧
      ∀ es m', m.turns code limits k = (es, .running m') → m'.sink.bytes.size ≤ room := by
  induction k with
  | zero =>
    refine ⟨rfl, fun es m' h => ?_⟩
    cases h
    exact hle
  | succ k ih =>
    obtain ⟨heq, -⟩ := ih fun j hj => hno j (Nat.lt_succ_of_lt hj)
    rcases hk : m.turns code limits k with ⟨es, m₁ | e⟩ <;> rw [hk] at heq
    · obtain ⟨hm₁, -⟩ := sink_of_turns hm hk
      have hfits : ∀ es' m', m₁.turn code limits = (es', .running m') →
          m'.sink.bytes.size ≤ room := by
        intro es' m' ht
        exact Nat.le_of_not_lt fun hlt =>
          hno k (Nat.lt_succ_self k) ⟨es, m₁, es', m', hk, ht, hlt⟩
      refine ⟨?_, fun es' m' h => ?_⟩
      · rw [turns_add_of_running heq, turns_add_of_running hk, turns_one, turns_one,
          turn_capped hm₁ hfits]
      · obtain ⟨es₁, m₁', es₂, h₁, ht, -⟩ := exists_last_turn h
        cases hk.symm.trans h₁
        exact hfits es₂ m' ht
    · have hend := turns_of_ended hk (Nat.le_succ k)
      rw [hend, turns_of_ended heq (Nat.le_succ k)]
      exact ⟨rfl, nofun⟩

/-- **The first instruction that exceeds the capacity ends the bounded run.** -/
theorem turns_capped_of_exceeds (hm : m.sink.capacity = none) (hle : m.sink.bytes.size ≤ room)
    {k : Nat} (h : m.Exceeds code limits room k)
    (hno : ∀ j < k, ¬ m.Exceeds code limits room j) :
    ∃ (es : List Event) (m₁ : Machine Buffer) (op : Opcode) (cut : Buffer),
      m.turns code limits k = (es, .running m₁) ∧ code.slots[m₁.state.pc]? = some op.code ∧
      (op = .printItem ∨ op = .printNewline) ∧ cut.bytes.size = room ∧
      ∀ fuel, k < fuel →
        (m.mapSink (Buffer.capped room)).turns code limits fuel =
          (es ++ [.step ⟨code.length, m₁.state⟩, .fetched m₁.state.pc op],
            .fail m₁.state.pc (.output m.sink.whenFull) cut) ∧
        cut.bytes = (m.turns code limits fuel).2.sink.bytes.extract 0 room := by
  obtain ⟨es, m₁, es₂, m₂, hk, ht, hlt⟩ := h
  obtain ⟨heq, hsize⟩ := turns_capped hm hle hno
  obtain ⟨hm₁, hreason⟩ := sink_of_turns hm hk
  obtain ⟨op, hop, hprints, hfail⟩ := turn_capped_of_lt hm₁ (hsize es m₁ hk) ht hlt
  refine ⟨es, m₁, op, (m₁.sink.holding (m₂.sink.bytes.extract 0 room)).capped room, hk, hop,
    hprints, ?_, fun fuel hfuel => ⟨?_, ?_⟩⟩
  · show (m₂.sink.bytes.extract 0 room).size = room
    rw [ByteArray.size_extract]
    omega
  · rw [hk] at heq
    refine turns_of_ended (j := k + 1) ?_ hfuel
    rw [turns_add_of_running heq, turns_one, hfail, hreason]
    rfl
  · -- The unbounded run has `m₂` after the instruction, and then only adds to its output.
    have hnext : m.turns code limits (k + 1) = (es ++ es₂, .running m₂) := by
      rw [turns_add_of_running hk, turns_one, ht]
    obtain ⟨j, rfl⟩ := Nat.exists_eq_add_of_le hfuel
    obtain ⟨more, hmore⟩ := turns_appends code limits j m₂
    rw [turns_add_of_running hnext, hmore, Buffer.extract_append_of_le (Nat.le_of_lt hlt)]
    rfl

end Machine

/-- **A bounded buffer cuts the output of a run, and changes nothing else.** -/
theorem Program.run_capped (program : Program) (limits : Limits) (room : Nat) (reason : String)
    (flushRefusal : Option String) :
    let unbounded : Buffer := { whenFull := reason, flushRefusal }
    let bounded : Buffer := { capacity := some room, whenFull := reason, flushRefusal }
    (∀ code, program.main? = some code →
      -- The runs agree as long as the output does not exceed the capacity.
      (∀ k, (∀ j < k, ¬ (Machine.start unbounded).Exceeds code limits room j) →
        ∀ {ω : Type} (observe : ω → Event → ω) (w : ω),
          (Machine.start bounded).advance code limits observe k w =
            (((Machine.start unbounded).advance code limits observe k w).1.mapSink
                (Buffer.capped room),
              ((Machine.start unbounded).advance code limits observe k w).2)) ∧
      -- The first instruction that exceeds it prints, and ends the bounded run. What has been
      -- written is the beginning of the output of the unbounded run, then and later.
      (∀ k, (Machine.start unbounded).Exceeds code limits room k →
        (∀ j < k, ¬ (Machine.start unbounded).Exceeds code limits room j) →
        ∃ (m : Machine Buffer) (op : Opcode) (cut : Buffer),
          code.slots[m.state.pc]? = some op.code ∧ (op = .printItem ∨ op = .printNewline) ∧
          cut.bytes.size = room ∧
          ∀ {ω : Type} (observe : ω → Event → ω) (w : ω), ∃ w',
            (Machine.start unbounded).advance code limits observe k w = (.running m, w') ∧
            ∀ fuel, k < fuel →
              (Machine.start bounded).advance code limits observe fuel w =
                (.fail m.state.pc (.output reason) cut,
                  [.step ⟨code.length, m.state⟩, .fetched m.state.pc op].foldl observe w') ∧
              cut.bytes = ((Machine.start unbounded).advance code limits observe fuel
                w).1.sink.bytes.extract 0 room)) ∧
    -- If there is no such instruction, the results are the same.
    ((∀ code k, program.main? = some code →
        ¬ (Machine.start unbounded).Exceeds code limits room k) →
      ∀ {ω : Type} (observe : ω → Event → ω) (w : ω) (fuel : Nat),
        program.run limits bounded observe w fuel =
          (program.run limits unbounded observe w fuel).map fun r =>
            (r.1.mapSink (Buffer.capped room), r.2)) := by
  intro unbounded bounded
  have hstart : Machine.start bounded =
      (Machine.start unbounded).mapSink (Buffer.capped room) := rfl
  have hle : (Machine.start unbounded).sink.bytes.size ≤ room := Nat.zero_le room
  have hagree {code : Code} {k : Nat}
      (hno : ∀ j < k, ¬ (Machine.start unbounded).Exceeds code limits room j) {ω : Type}
      (observe : ω → Event → ω) (w : ω) :
      (Machine.start bounded).advance code limits observe k w =
        (((Machine.start unbounded).advance code limits observe k w).1.mapSink
            (Buffer.capped room),
          ((Machine.start unbounded).advance code limits observe k w).2) := by
    rw [Machine.advance_eq_turns, Machine.advance_eq_turns, hstart,
      (Machine.turns_capped rfl hle hno).1]
  refine ⟨fun code _ => ⟨fun k hno {ω} => hagree hno, ?_⟩, ?_⟩
  · intro k hexceeds hno
    obtain ⟨es, m, op, cut, hk, hop, hprints, hsize, hlater⟩ :=
      Machine.turns_capped_of_exceeds rfl hle hexceeds hno
    refine ⟨m, op, cut, hop, hprints, hsize, fun observe w => ⟨es.foldl observe w, ?_, ?_⟩⟩
    · rw [Machine.advance_eq_turns, hk]
    · intro fuel hfuel
      obtain ⟨hbounded, hcut⟩ := hlater fuel hfuel
      rw [Machine.advance_eq_turns, Machine.advance_eq_turns, hstart, hbounded, List.foldl_append]
      exact ⟨rfl, hcut⟩
  · intro hno ω observe w fuel
    rcases hmain : program.main? with _ | code
    · simp only [run, hmain]
      rfl
    · have hrun := hagree (fun j _ => hno code j hmain) observe w (k := fuel)
      simp only [run, hmain, Code.run, hrun]
      rcases (Machine.start unbounded).advance code limits observe fuel w with ⟨m | e, w'⟩ <;> rfl

/-- Prints three bytes, the last two of which are one character. -/
def Code.accent : Code where
  slots := #[Opcode.loadName.code, 0, Opcode.printItem.code]
  integers := #[]
  strings := #["aé"]
  booleans := #[]

theorem Program.run_capped_accent :
    let unbounded : Buffer := { whenFull := "full" }
    let bounded : Buffer := { capacity := some 2, whenFull := "full" }
    (Machine.start unbounded).Exceeds Code.accent {} 2 1 ∧
      ∃ cut : Buffer, cut.bytes.size = 2 ∧
        (Machine.start bounded).advance Code.accent {} (fun w _ => w) 2 () =
          (.fail 2 (.output "full") cut, ()) := by
  intro unbounded bounded
  have hturns : (Machine.start unbounded).turns Code.accent {} 1 =
      (_, .running ⟨⟨2, [.string "aé"], .empty⟩, 1, unbounded⟩) := rfl
  have hturn : (⟨⟨2, [.string "aé"], .empty⟩, 1, unbounded⟩ : Machine Buffer).turn Code.accent {} =
      (_, .running ⟨⟨3, [], .empty⟩, 2, unbounded.holding "aé".toUTF8⟩) := rfl
  have hexceeds : (Machine.start unbounded).Exceeds Code.accent {} 2 1 :=
    ⟨_, _, _, _, hturns, hturn, by decide⟩
  have hfirst : ∀ j < 1, ¬ (Machine.start unbounded).Exceeds Code.accent {} 2 j := by
    rintro j hj ⟨es₁, m₁, es₂, m₂, hj₁, ht, hlt⟩
    obtain rfl : j = 0 := Nat.lt_one_iff.mp hj
    cases hj₁
    cases ht
    exact absurd hlt (by decide)
  obtain ⟨m, op, cut, -, -, hsize, hlater⟩ :=
    ((run_capped (.ofList [("main", Code.accent)]) {} 2 "full" none).1 _ rfl).2 1 hexceeds hfirst
  obtain ⟨w', hm, hfuel⟩ := hlater (fun (w : Unit) _ => w) ()
  have hpc : m.state.pc = 2 := by
    rw [Machine.advance_eq_turns, hturns] at hm
    cases hm
    rfl
  exact ⟨hexceeds, cut, hsize, by rw [(hfuel 2 (by decide)).1, hpc]⟩

end PoolMachine
