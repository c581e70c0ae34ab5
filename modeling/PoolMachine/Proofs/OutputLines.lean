import PoolMachine.Proofs.BoundedSink
import PoolMachine.Proofs.Legible
import PoolMachine.Proofs.Origin

/-!
# Lines of the output

**Theorem (`Program.output_lines_of_assemble`).** Where a run of an assembled function has come to,
its output has as many line feeds as the run has carried out instructions that print one, and no
other white space. So the lines of the output are those that the program ends.

* *Texts* (`Value.isWord_text`). The text of a value is a word, unless the value is a string that is
  none.
* *The stack* (`Stack.Pooled`). No instruction makes a string, so every string on the stack is a
  literal of the code; those of an assembled code are words.
* *Output* (`Text.Lined`). What an instruction prints therefore has no white space but the line feed
  that it is there to print (`Opcode.Performs.lined`), and the output of a run is what its
  instructions print, one after another.
-/

namespace PoolMachine

/-! ## White space in texts -/

/-- The text has `n` line feeds, and no other white space. -/
structure Text.Lined (n : Nat) (cs : List Char) : Prop where
  count_eq : cs.count '\n' = n
  eq_lineFeed : ∀ c ∈ cs, isBlank c = true → c = '\n'

namespace Text.Lined

variable {m n : Nat} {as bs cs : List Char}

theorem of_forall_not (h : ∀ c ∈ cs, isBlank c = false) : Lined 0 cs where
  count_eq := by
    refine List.count_eq_zero.mpr fun hmem => ?_
    exact absurd (h _ hmem) (by decide)
  eq_lineFeed c hc hblank := absurd hblank (by simp [h c hc])

theorem lineFeed : Lined 1 "\n".toList := ⟨by decide, fun _ hc _ => List.mem_singleton.mp hc⟩

theorem append (ha : Lined m as) (hb : Lined n bs) : Lined (m + n) (as ++ bs) where
  count_eq := by rw [List.count_append, ha.count_eq, hb.count_eq]
  eq_lineFeed c hc := by
    rcases List.mem_append.mp hc with hc | hc
    · exact ha.eq_lineFeed c hc
    · exact hb.eq_lineFeed c hc

end Text.Lined

theorem Word.isWord_text (n : Word) : Text.IsWord n.text := by
  refine ⟨text_ne_empty n, fun c hc => ?_⟩
  rw [toList_text, List.mem_append] at hc
  rcases hc with hsign | hdigit
  · by_cases hn : n < 0
    · rw [if_pos hn] at hsign
      rw [List.mem_singleton.mp hsign]
      rfl
    · rw [if_neg hn] at hsign
      exact absurd hsign List.not_mem_nil
  · exact Text.isBlank_of_isDigit (Nat.isDigit_of_mem_toDigits (by decide) (by decide) hdigit)

theorem Value.isWord_text {v : Value} (h : ∀ x, v = .string x → Text.IsWord x) :
    Text.IsWord v.text := by
  cases v with
  | integer n => exact n.isWord_text
  | string x => exact h x rfl
  | boolean b => cases b <;> decide

/-! ## Strings on the stack -/

/-- Every string on the stack is a literal of the code. -/
def Stack.Pooled (code : Code) (stack : Stack) : Prop :=
  ∀ x, .string x ∈ stack → x ∈ code.strings.toList

namespace Stack.Pooled

variable {code : Code} {stack : Stack} {v : Value}

theorem tail (h : Pooled code (v :: stack)) : Pooled code stack :=
  fun x hx => h x (List.mem_cons_of_mem v hx)

theorem cons (hv : ∀ x, v = .string x → x ∈ code.strings.toList) (h : Pooled code stack) :
    Pooled code (v :: stack) := by
  intro x hx
  rcases List.mem_cons.mp hx with heq | hx
  · exact hv x heq.symm
  · exact h x hx

end Stack.Pooled

theorem Operator.apply_ne_string (f : Operator) (l r : Value) (x : String) :
    f.apply l r ≠ .ok (.string x) := by
  intro h
  unfold apply at h
  split at h
  · cases f with
    | div | mod =>
      simp only [onWords] at h
      split at h <;> cases h
    | _ => cases h
  · cases h
  · cases h

namespace Opcode.Performs

variable {code : Code} {op : Opcode} {s : State} {e : Effect}

/-- **No instruction makes a string.** -/
theorem pooled (h : op.Performs code s e) (hs : s.stack.Pooled code) :
    e.state.stack.Pooled code := by
  cases h with
  | @operate f _ l r _ _ _ hv =>
    refine .cons (fun x hx => ?_) hs.tail.tail
    exact absurd (hx ▸ hv) (f.apply_ne_string l r x)
  | printItem | jumpTaken | jumpPassed => exact hs.tail
  | store => exact hs.tail.tail
  | loadGlobal | loadConst => exact .cons nofun hs
  | loadName hname =>
    refine .cons (fun x hx => ?_) hs
    obtain ⟨index, -, hstring⟩ := Code.literalOperand_eq_ok_iff.mp hname
    cases hx
    exact Array.mem_toList_iff.mpr (Array.mem_of_getElem? hstring)
  | printNewline | jumpForward | jumpAbsolute | ret => exact hs

/-- **An instruction prints a line feed if that is its purpose, and else no white space.** -/
theorem lined (h : op.Performs code s e) (hs : s.stack.Pooled code)
    (hwords : ∀ x ∈ code.strings.toList, Text.IsWord x) :
    Text.Lined ([op].count .printNewline) e.printed.toList := by
  cases h with
  | printNewline => exact .lineFeed
  | printItem =>
    refine .of_forall_not (Value.isWord_text fun x hx => hwords x (hs x ?_)).2
    exact hx ▸ List.mem_cons_self
  | _ => exact .of_forall_not nofun

end Opcode.Performs

/-! ## Runs -/

theorem Sink.print_string (output text : String) :
    Sink.print output text = (output ++ text, none) := by
  by_cases h : text.isEmpty
  · rw [Sink.print, if_pos h, String.isEmpty_iff.mp h, String.append_empty]
  · rw [Sink.print, if_neg h]
    rfl

namespace Machine

section Carried

variable {σ : Type} [Sink σ] (code : Code) (limits : Limits)

/-- The opcodes of the instructions that are carried out within `k` turns, in order. -/
def carried : Nat → Machine σ → List Opcode
  | 0, _ => []
  | k + 1, m =>
    match (m.turn code limits).2 with
    | .running m' => (code.slots[m.state.pc]?.bind Opcode.ofCode?).toList ++ carried k m'
    | .ended _ => []

variable {code limits} {m m' : Machine σ} {es : List Event}

theorem carried_of_running {op : Opcode} (hop : code.slots[m.state.pc]? = some op.code)
    (h : m.turn code limits = (es, .running m')) (k : Nat) :
    m.carried code limits (k + 1) = op :: m'.carried code limits k := by
  rw [carried, h, hop, Option.bind_some, Opcode.ofCode?_code]
  rfl

theorem carried_of_ended {e : Ending σ} (h : m.turn code limits = (es, .ended e)) (k : Nat) :
    m.carried code limits (k + 1) = [] := by
  rw [carried, h]

end Carried

variable {code : Code} {limits : Limits} {m : Machine String}

theorem sink_of_turn_ended {es : List Event} {e : Ending String}
    (h : m.turn code limits = (es, .ended e)) : e.sink = m.sink := by
  rcases turn_cases code limits m with
    hle | ⟨hlt, n, hn⟩ | ⟨hn, slot, hslot, hop⟩ | ⟨hn, op, hop⟩
  · rw [turn_of_length_le hle] at h
    cases h
    rfl
  · rw [turn_of_exhausted hlt hn] at h
    cases h
    rfl
  · rw [turn_of_unknown hslot hn hop] at h
    cases h
    rfl
  · rw [turn_of_opcode hop hn] at h
    rcases hp : op.perform code limits.depth m.state with f | effect
    · rw [dispatch_of_error hp] at h
      cases h
      rfl
    · rw [dispatch_eq_running_iff.mpr ⟨effect, _, hp, Sink.print_string _ _, rfl⟩] at h
      cases h

/-- **A run adds lines to its output**, as many as it carries out instructions that end one. -/
theorem exists_lined (hwords : ∀ x ∈ code.strings.toList, Text.IsWord x)
    (hm : m.state.stack.Pooled code) (limits : Limits) (k : Nat) :
    ∃ more : String, (m.turns code limits k).2.sink = m.sink ++ more ∧
      Text.Lined ((m.carried code limits k).count .printNewline) more.toList := by
  induction k generalizing m with
  | zero => exact ⟨"", String.append_empty.symm, .of_forall_not nofun⟩
  | succ k ih =>
    rw [turns_succ]
    rcases ht : m.turn code limits with ⟨es, m' | e⟩
    · obtain ⟨op, effect, sink, hop, -, hp, hs, rfl, -⟩ := turn_eq_running_iff.mp ht
      rw [Sink.print_string] at hs
      cases hs
      have hperforms := Opcode.performs_of_perform_limit hp
      obtain ⟨more, hmore, hlined⟩ :=
        ih (m := ⟨effect.state, m.steps + 1, m.sink ++ effect.printed⟩) (hperforms.pooled hm)
      refine ⟨effect.printed ++ more, ?_, ?_⟩
      · rw [andThen_running, hmore, String.append_assoc]
      · rw [carried_of_running hop ht, ← List.singleton_append, List.count_append,
          String.toList_append]
        exact (hperforms.lined hm hwords).append hlined
    · refine ⟨"", ?_, ?_⟩
      · rw [andThen_ended, String.append_empty]
        exact sink_of_turn_ended ht
      · rw [carried_of_ended ht]
        exact .of_forall_not nofun

end Machine

/-- **Only line feeds divide the output of an assembled function**, and each is printed by an
instruction of its own. -/
theorem Program.output_lines_of_assemble {ω : Type} {text name : String} {p : Program} {code : Code}
    (hp : assemble text = .ok p) (hcode : p.get? name = some code) (limits : Limits)
    (observe : ω → Event → ω) (w : ω) (k : Nat) :
    let output := ((Machine.start "").advance code limits observe k w).1.sink
    output.toList.count '\n' = ((Machine.start "").carried code limits k).count .printNewline ∧
      ∀ c ∈ output.toList, Text.isBlank c = true → c = '\n' := by
  have hwords : ∀ x ∈ code.strings.toList, Text.IsWord x := by
    intro x hx
    obtain ⟨t, ht, hitem⟩ := exists_token_of_literal (k := .string) (v := .string x) hp hcode
      (List.mem_map_of_mem hx)
    rw [← Item.text_of_string hitem]
    exact Token.isWord_of_mem_scan ht
  have hempty : (Machine.start "").state.stack.Pooled code := nofun
  obtain ⟨more, hmore, hlined⟩ := Machine.exists_lined hwords hempty limits k
  have houtput : ((Machine.start "").advance code limits observe k w).1.sink = more := by
    rw [Machine.advance_eq_turns, hmore]
    exact String.empty_append
  rw [houtput]
  exact ⟨hlined.count_eq, hlined.eq_lineFeed⟩

/-- Prints a string and a line feed, and fails. -/
def Code.verse : Code where
  slots := #[Opcode.loadName.code, 0, Opcode.printItem.code, Opcode.printNewline.code,
    Opcode.printItem.code]
  integers := #[]
  strings := #["\\n"]
  booleans := #[]

/-- The string is a backslash and a letter, and ends no line. -/
theorem Program.output_lines_of_verse :
    ∃ (text : String) (p : Program), assemble text = .ok p ∧ p.get? "main" = some Code.verse ∧
      ((Machine.start "").advance Code.verse {} (fun w _ => w) 9 ()).1.sink = "\\n\n" ∧
      ((Machine.start "").carried Code.verse {} 9).count .printNewline = 1 := by
  have hp : assemble "DEF main LOAD_NAME \\n PRINT_ITEM PRINT_NEWLINE PRINT_ITEM ENDDEF" =
      .ok (.ofList [("main", Code.verse)]) := rfl
  have hcode : NameMap.get? (.ofList [("main", Code.verse)]) "main" = some Code.verse := rfl
  have houtput : ((Machine.start "").advance Code.verse {} (fun w _ => w) 9 ()).1.sink =
      "\\n\n" := rfl
  have hlines := (output_lines_of_assemble hp hcode {} (fun w _ => w) () 9).1
  rw [houtput] at hlines
  exact ⟨_, _, hp, hcode, houtput, hlines.symm.trans (by decide)⟩

end PoolMachine
