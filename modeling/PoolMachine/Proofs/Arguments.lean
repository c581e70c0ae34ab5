import Mathlib.Data.List.Basic
import PoolMachine.CommandLine.Report
import PoolMachine.Proofs.Effects

/-!
# Arguments of a run

`RunOptions.complete` reads arguments from left to right. This file opens it once, with an equation
for each kind of argument that comes first, and then says what one more `--debug` does.

* **`Awaits`**: the arguments end with an option whose value is still to come.
* **`ofArguments_insert`**: anywhere else, the option turns the log on and changes nothing besides.
* **`complete_insert_value`**: there, it is taken for the value, and refused.
* **`launch_run_of_error`**: arguments that are refused end the command before the run.
-/

namespace PoolMachine.CommandLine

namespace RunOptions

/-! ## One argument after another -/

/-- An option that is followed by its value. -/
def TakesValue (flag : String) : Prop := flag = "--max-steps" ∨ flag = "--max-stack"

section

variable (draft : Draft) (v : String) (rest : List String)

theorem complete_debug :
    complete draft ("--debug" :: rest) = complete { draft with debug := true } rest := by
  rw [complete.eq_def]
  exact if_pos rfl

theorem complete_steps :
    complete draft ("--max-steps" :: v :: rest) = (value "--max-steps" v >>= fun n =>
      complete { draft with limits := { draft.limits with steps := some n } } rest) := by
  rw [complete, if_neg (by decide), if_pos rfl]

theorem complete_stack :
    complete draft ("--max-stack" :: v :: rest) = (value "--max-stack" v >>= fun n =>
      complete { draft with limits := { draft.limits with depth := some n } } rest) := by
  rw [complete, if_neg (by decide), if_neg (by decide), if_pos rfl]

theorem complete_missing {flag : String} (h : TakesValue flag) :
    complete draft [flag] = .error (.missingValue flag) := by
  rcases h with rfl | rfl
  · rw [complete, if_neg (by decide), if_pos rfl]
  · rw [complete, if_neg (by decide), if_neg (by decide), if_pos rfl]

variable {draft v}

theorem complete_unknown (hdebug : v ≠ "--debug") (hsteps : v ≠ "--max-steps")
    (hstack : v ≠ "--max-stack") (hflag : isFlag v) :
    complete draft (v :: rest) = .error (.unknown v) := by
  rw [complete.eq_def]
  simp only [if_neg hdebug, if_neg hsteps, if_neg hstack, if_pos hflag]

theorem complete_path (hflag : ¬ isFlag v) :
    complete draft (v :: rest) = draft.input.elim (complete { draft with input := some v } rest)
      fun _ => .error (.unexpected v) := by
  have hne {w : String} (hw : isFlag w) : v ≠ w := fun h => hflag (h ▸ hw)
  have hdebug : v ≠ "--debug" := hne (by decide)
  have hsteps : v ≠ "--max-steps" := hne (by decide)
  have hstack : v ≠ "--max-stack" := hne (by decide)
  rw [complete.eq_def]
  simp only [if_neg hdebug, if_neg hsteps, if_neg hstack, if_neg hflag]
  cases draft.input <;> rfl

end

/-! ## One option more -/

/-- The arguments end with an option whose value is still to come. -/
def Awaits (arguments : List String) : Prop := ∃ flag ∈ arguments.getLast?, TakesValue flag

theorem awaits_singleton {a : String} : Awaits [a] ↔ TakesValue a := by simp [Awaits]

theorem awaits_cons_cons {a b : String} {rest : List String} :
    Awaits (a :: b :: rest) ↔ Awaits (b :: rest) := by
  rw [Awaits, List.getLast?_cons_cons, Awaits]

theorem Awaits.cons {a : String} {rest : List String} (h : Awaits rest) : Awaits (a :: rest) := by
  obtain ⟨flag, hlast, hvalue⟩ := h
  exact ⟨flag, List.mem_getLast?_cons hlast, hvalue⟩

theorem Awaits.of_cons {a : String} {rest : List String} (h : Awaits (a :: rest))
    (ha : ¬ TakesValue a) : Awaits rest := by
  cases rest with
  | nil => exact absurd (awaits_singleton.mp h) ha
  | cons b rest => exact awaits_cons_cons.mp h

/-- The options with the log turned on. -/
def verbose (options : RunOptions) : RunOptions := { options with debug := true }

/-- A draft in which the log is on leads to the same options, with the log on. -/
theorem complete_verbose (draft : Draft) (arguments : List String) :
    complete { draft with debug := true } arguments = (complete draft arguments).map verbose := by
  induction draft, arguments using complete.induct with
  | case1 draft input hinput =>
    simp only [complete, hinput]
    rfl
  | case2 draft hinput =>
    simp only [complete, hinput]
    rfl
  | case3 draft rest ih =>
    rw [complete_debug, complete_debug]
    exact ih
  | case4 draft =>
    rw [complete_missing _ (.inl rfl), complete_missing _ (.inl rfl)]
    rfl
  | case5 draft v rest _ ih =>
    rw [complete_steps, complete_steps]
    rcases value "--max-steps" v with e | n
    · rfl
    · exact ih n
  | case6 draft =>
    rw [complete_missing _ (.inr rfl), complete_missing _ (.inr rfl)]
    rfl
  | case7 draft v rest _ _ ih =>
    rw [complete_stack, complete_stack]
    rcases value "--max-stack" v with e | n
    · rfl
    · exact ih n
  | case8 draft v rest hdebug hsteps hstack hflag =>
    rw [complete_unknown rest hdebug hsteps hstack hflag,
      complete_unknown rest hdebug hsteps hstack hflag]
    rfl
  | case9 draft v rest _ _ _ hflag input hinput =>
    rw [complete_path rest hflag, complete_path rest hflag]
    simp only [hinput, Option.elim_some]
    rfl
  | case10 draft v rest _ _ _ hflag hinput ih =>
    rw [complete_path rest hflag, complete_path rest hflag]
    simp only [hinput, Option.elim_none]
    exact ih

/-- An option that stands on its own might as well come first. -/
theorem complete_insert (draft : Draft) {front : List String} (hplace : ¬ Awaits front)
    (back : List String) :
    complete draft (front ++ "--debug" :: back) =
      complete { draft with debug := true } (front ++ back) := by
  -- Along the reading of `front`. A value is read together with its option, so the place of the
  -- insertion is never between the two.
  induction draft, front using complete.induct with
  | case1 draft | case2 draft => exact complete_debug draft back
  | case3 draft rest ih =>
    simp only [List.cons_append, complete_debug]
    exact ih (mt Awaits.cons hplace)
  | case4 | case6 => exact absurd (awaits_singleton.mpr (by simp [TakesValue])) hplace
  | case5 draft v rest _ ih =>
    simp only [List.cons_append, complete_steps]
    congr 1
    funext n
    exact ih n fun h => hplace h.cons.cons
  | case7 draft v rest _ _ ih =>
    simp only [List.cons_append, complete_stack]
    congr 1
    funext n
    exact ih n fun h => hplace h.cons.cons
  | case8 draft v rest hdebug hsteps hstack hflag =>
    simp only [List.cons_append, complete_unknown _ hdebug hsteps hstack hflag]
  | case9 draft v rest _ _ _ hflag input hinput =>
    simp only [List.cons_append, complete_path _ hflag, hinput, Option.elim_some]
  | case10 draft v rest _ _ _ hflag hinput ih =>
    simp only [List.cons_append, complete_path _ hflag, hinput, Option.elim_none]
    exact ih (mt Awaits.cons hplace)

theorem ofArguments_insert {front : List String} (hplace : ¬ Awaits front) (back : List String) :
    ofArguments (front ++ "--debug" :: back) = (ofArguments (front ++ back)).map verbose := by
  rw [ofArguments, complete_insert _ hplace, complete_verbose, ofArguments]

/-! ## A value that is an option -/

theorem value_of_isFlag {v : String} (h : isFlag v) (flag : String) :
    value flag v = .error (.notCount flag v) := by
  obtain ⟨cs, hcs⟩ : ∃ cs, v.toList = '-' :: '-' :: cs := by
    obtain ⟨cs, hcs⟩ := List.isPrefixOf_iff_prefix.mp h
    exact ⟨cs, hcs.symm⟩
  have hnone : count? v = none := by
    rw [count?, hcs]
    rfl
  rw [value, hnone]

theorem TakesValue.isFlag {flag : String} (h : TakesValue flag) : isFlag flag := by
  rcases h with rfl | rfl <;> decide

/-- A value that is accepted is not an option whose value is still to come. -/
theorem exists_of_value_bind {flag v : String} {rest : List String}
    {next : Nat → Except OptionError RunOptions} {options : RunOptions}
    (hplace : Awaits (v :: rest)) (h : value flag v >>= next = .ok options) :
    ∃ n, value flag v = .ok n ∧ Awaits rest ∧ next n = .ok options := by
  have hv : ¬ TakesValue v := by
    intro hv
    rw [value_of_isFlag hv.isFlag] at h
    cases h
  rcases hn : value flag v with e | n
  · rw [hn] at h
    cases h
  · rw [hn] at h
    exact ⟨n, rfl, hplace.of_cons hv, h⟩

/-- In the place of a value, the option is refused. -/
theorem complete_insert_value {draft : Draft} {front back : List String} {options : RunOptions}
    (haccepted : complete draft (front ++ back) = .ok options) (hplace : Awaits front) :
    ∃ flag ∈ front.getLast?,
      complete draft (front ++ "--debug" :: back) = .error (.notCount flag "--debug") := by
  have hdebug (flag : String) : value flag "--debug" = .error (.notCount flag "--debug") :=
    value_of_isFlag (by decide) flag
  -- Along the reading of `front`, which has to come to the last option without a fault.
  induction draft, front using complete.induct with
  | case1 | case2 => simp [Awaits] at hplace
  | case3 draft rest ih =>
    rw [List.cons_append, complete_debug] at haccepted
    have hrest : Awaits rest := hplace.of_cons (by simp [TakesValue])
    obtain ⟨flag, hlast, herror⟩ := ih haccepted hrest
    rw [List.cons_append, complete_debug]
    exact ⟨flag, List.mem_getLast?_cons hlast, herror⟩
  | case4 draft =>
    refine ⟨"--max-steps", rfl, ?_⟩
    rw [List.cons_append, List.nil_append, complete_steps, hdebug, error_bind]
  | case5 draft v rest _ ih =>
    rw [List.cons_append, List.cons_append, complete_steps] at haccepted
    obtain ⟨n, hn, hrest, haccepted⟩ := exists_of_value_bind (awaits_cons_cons.mp hplace) haccepted
    obtain ⟨flag, hlast, herror⟩ := ih n haccepted hrest
    rw [List.cons_append, List.cons_append, complete_steps, hn, ok_bind]
    exact ⟨flag, List.mem_getLast?_cons (List.mem_getLast?_cons hlast), herror⟩
  | case6 draft =>
    refine ⟨"--max-stack", rfl, ?_⟩
    rw [List.cons_append, List.nil_append, complete_stack, hdebug, error_bind]
  | case7 draft v rest _ _ ih =>
    rw [List.cons_append, List.cons_append, complete_stack] at haccepted
    obtain ⟨n, hn, hrest, haccepted⟩ := exists_of_value_bind (awaits_cons_cons.mp hplace) haccepted
    obtain ⟨flag, hlast, herror⟩ := ih n haccepted hrest
    rw [List.cons_append, List.cons_append, complete_stack, hn, ok_bind]
    exact ⟨flag, List.mem_getLast?_cons (List.mem_getLast?_cons hlast), herror⟩
  | case8 draft v rest hdebug hsteps hstack hflag =>
    rw [List.cons_append, complete_unknown _ hdebug hsteps hstack hflag] at haccepted
    cases haccepted
  | case9 draft v rest _ _ _ hflag input hinput =>
    simp only [List.cons_append, complete_path _ hflag, hinput, Option.elim_some] at haccepted
    cases haccepted
  | case10 draft v rest _ _ _ hflag hinput ih =>
    simp only [List.cons_append, complete_path _ hflag, hinput, Option.elim_none] at haccepted ⊢
    obtain ⟨flag, hlast, herror⟩ := ih haccepted (hplace.of_cons fun h => hflag h.isFlag)
    exact ⟨flag, List.mem_getLast?_cons hlast, herror⟩

end RunOptions

theorem launch_run_of_error {arguments : List String} {e : OptionError} (world : World)
    (h : RunOptions.ofArguments arguments = .error e) :
    launch world ("run" :: arguments) = .done { code := 1, stderr := e.message } := by
  rw [launch, launchRun, h]

end PoolMachine.CommandLine
