import PoolMachine.Proofs.Arguments
import PoolMachine.Proofs.Turns

/-!
# The option `--debug`

The option adds the listing and the trace to the log of a run.

**Theorem (`CommandLine.report_insert_debug`).** Add the option to arguments that a run accepts. If
the program can be listed, the command shows the same as without it, at every point and in the end.
If not, the command ends before the run, with the error of the listing. Behind an option that takes
a value, `--debug` is that value, and is refused.

The second case is not empty: a run may do without what the listing needs, such as code that it
does not reach, or the operand of a `RETURN`.

* **`shown`**: what a command shows, which is the text on the standard output so far, and the exit
  code once it has ended. Of a session, only the program and the limits count
  (`Session.shown_congr`), since every observer sees the same turns.
* **`launch_run_of_none`**, **`launch_run_of_unlisted`**: the ways to end before the run with
  arguments that are accepted. Otherwise, `launch_run_of_listed`.
-/

namespace PoolMachine

theorem Program.exists_listingLines {program : Program} {text : String}
    (h : program.listing = .ok text) : ∃ lines, program.listingLines = .ok lines := by
  rcases hlines : program.listingLines with e | lines
  · rw [Program.listing, hlines] at h
    cases h
  · exact ⟨lines, rfl⟩

theorem Program.listingLines_of_listing {program : Program} {e : ListingError}
    (h : program.listing = .error e) : program.listingLines = .error e := by
  rcases hlines : program.listingLines with e' | lines
  · rw [Program.listing, hlines] at h
    cases h
    rfl
  · rw [Program.listing, hlines] at h
    cases h

namespace CommandLine

/-! ## What a command shows -/

/-- What counts of a report besides the log: the text on the standard output and the code. -/
def Report.outcome (r : Report) : String × UInt32 := (r.stdout, r.code)

/-- What a session shows after up to `fuel` turns: the text on the standard output so far, and the
exit code if the run has ended. -/
def Session.shown (s : Session) (fuel : Nat) : String × Option UInt32 :=
  match s.program.main? with
  | none => ("", some (s.verdict (.error .missingMain)).1)
  | some code =>
    match (Machine.start "").advance code s.options.limits s.observe fuel s.log with
    | (.running m, _) => (m.sink, none)
    | (.ended e, _) => (e.sink, some (s.verdict e.result).1)

/-- What a command shows after up to `fuel` turns of its run. -/
def shown (world : World) (arguments : List String) (fuel : Nat) : String × Option UInt32 :=
  match launch world arguments with
  | .done r => (r.stdout, some r.code)
  | .ready s => s.shown fuel

theorem Session.verdict_code (s s' : Session) (result : Except RunError Halted) :
    (s.verdict result).1 = (s'.verdict result).1 := by
  cases result <;> rfl

/-- **Who looks on, and what has been logged, do not matter.** -/
theorem Session.shown_congr {s s' : Session} (hprogram : s.program = s'.program)
    (hlimits : s.options.limits = s'.options.limits) (fuel : Nat) :
    s.shown fuel = s'.shown fuel := by
  rw [shown, shown, hprogram]
  cases s'.program.main? with
  | none => rfl
  | some code =>
    simp only [Machine.advance_eq_turns, hlimits]
    cases ((Machine.start "").turns code s'.options.limits fuel).2 with
    | running m => rfl
    | ended e => simp only [s.verdict_code s']

section

variable {world : World} {arguments : List String}

theorem report_of_done {r : Report} (h : launch world arguments = .done r) (fuel : Nat) :
    report world arguments fuel = some r := by
  rw [report, h]

theorem shown_of_done {r : Report} (h : launch world arguments = .done r) (fuel : Nat) :
    shown world arguments fuel = (r.stdout, some r.code) := by
  rw [shown, h]

theorem shown_of_ready {s : Session} (h : launch world arguments = .ready s) (fuel : Nat) :
    shown world arguments fuel = s.shown fuel := by
  rw [shown, h]

/-- A report is what the command has shown when it ends. -/
theorem outcome_report (world : World) (arguments : List String) (fuel : Nat) :
    (report world arguments fuel).map Report.outcome =
      (shown world arguments fuel).2.map fun code => ((shown world arguments fuel).1, code) := by
  rw [report, shown]
  cases launch world arguments with
  | done r => rfl
  | ready s =>
    simp only [Program.run, Session.shown, Code.run]
    cases s.program.main? with
    | none => rfl
    | some code =>
      simp only
      rcases (Machine.start "").advance code s.options.limits s.observe fuel s.log with ⟨m | e, w⟩
      · rfl
      · rfl

theorem code_ne_one_of_ready {s : Session} (h : launch world arguments = .ready s) {fuel : Nat}
    {r : Report} (hr : report world arguments fuel = some r) : r.code ≠ 1 := by
  rw [report, h] at hr
  obtain ⟨⟨e, log⟩, -, rfl⟩ := Option.map_eq_some_iff.mp hr
  rw [Session.report]
  cases e.result with
  | error _ => exact (by decide : (3 : UInt32) ≠ 1)
  | ok _ => exact (by decide : (0 : UInt32) ≠ 1)

end

/-! ## Before a run -/

/-- The program of the file at a path, if the file can be read and assembled. -/
def World.program? (world : World) (path : String) : Option Program :=
  (world.read path).toOption.bind fun text => (Program.assemble text).toOption

theorem program_load (world : World) (threshold : Log.Threshold) (path : String) :
    (load world threshold path).toOption.map Prod.fst = world.program? path := by
  rw [load, World.program?]
  cases world.read path with
  | error e => rfl
  | ok text =>
    show _ = (Program.assemble text).toOption
    simp only [Program.assemble]
    cases (Assembly.ofText text).program with
    | error e => rfl
    | ok program => rfl

theorem exists_load_of_program {world : World} {path : String} {program : Program}
    (h : world.program? path = some program) (threshold : Log.Threshold) :
    ∃ log, load world threshold path = .ok (program, log) := by
  rw [← program_load world threshold] at h
  rcases hload : load world threshold path with e | ⟨p, log⟩
  · rw [hload] at h
    cases h
  · rw [hload] at h
    cases h
    exact ⟨log, rfl⟩

theorem exists_load_of_none {world : World} {path : String} (h : world.program? path = none)
    (threshold : Log.Threshold) : ∃ stderr, load world threshold path = .error stderr := by
  rw [← program_load world threshold] at h
  rcases hload : load world threshold path with e | ⟨p, log⟩
  · exact ⟨e, rfl⟩
  · rw [hload] at h
    cases h

section

variable {world : World} {arguments : List String} {options : RunOptions}
  (h : RunOptions.ofArguments arguments = .ok options)

include h

theorem launch_run_of_none (hfile : world.program? options.input = none) :
    ∃ stderr, launch world ("run" :: arguments) = .done { code := 1, stderr } := by
  obtain ⟨stderr, hload⟩ := exists_load_of_none hfile
    (world.threshold (some (if options.debug then .debug else .warn)))
  refine ⟨stderr, ?_⟩
  simp only [launch, launchRun, h, hload]

variable {program : Program} (hfile : world.program? options.input = some program)

include hfile

theorem launch_run_of_listed
    (hlisted : options.debug = true → ∃ lines, program.listingLines = .ok lines) :
    ∃ s, launch world ("run" :: arguments) = .ready s ∧ s.program = program ∧
      s.options = options := by
  obtain ⟨log, hload⟩ := exists_load_of_program hfile
    (world.threshold (some (if options.debug then .debug else .warn)))
  simp only [launch, launchRun, h, hload]
  by_cases hdebug : options.debug = true
  · obtain ⟨lines, hlines⟩ := hlisted hdebug
    rw [if_pos hdebug, hlines]
    exact ⟨_, rfl, rfl, rfl⟩
  · rw [if_neg hdebug]
    exact ⟨_, rfl, rfl, rfl⟩

theorem launch_run_of_unlisted (hdebug : options.debug = true) {e : ListingError}
    (herror : program.listingLines = .error e) :
    ∃ log, launch world ("run" :: arguments) =
      .done { code := 1, stderr := log ++ errorLine e.message } := by
  obtain ⟨log, hload⟩ := exists_load_of_program hfile
    (world.threshold (some (if options.debug then .debug else .warn)))
  refine ⟨log, ?_⟩
  simp only [launch, launchRun, h, hload]
  rw [if_pos hdebug, herror]

end

/-! ## The option and the outcome -/

section

variable {world : World} {front back : List String} {options : RunOptions}
  (haccepted : RunOptions.ofArguments (front ++ back) = .ok options)

include haccepted

theorem ofArguments_insert_of_ok (hplace : ¬ RunOptions.Awaits front) :
    RunOptions.ofArguments (front ++ "--debug" :: back) = .ok options.verbose := by
  rw [RunOptions.ofArguments_insert hplace, haccepted]
  rfl

/-- Where the program can be listed, the option changes nothing that the command shows. -/
theorem shown_insert (hplace : ¬ RunOptions.Awaits front)
    (hlisted : ∀ program, world.program? options.input = some program →
      ∃ text, program.listing = .ok text) (fuel : Nat) :
    shown world ("run" :: (front ++ "--debug" :: back)) fuel =
      shown world ("run" :: (front ++ back)) fuel := by
  have hverbose := ofArguments_insert_of_ok haccepted hplace
  cases hfile : world.program? options.input with
  | none =>
    obtain ⟨_, hplain⟩ := launch_run_of_none haccepted hfile
    obtain ⟨_, hdebug⟩ := launch_run_of_none hverbose hfile
    rw [shown_of_done hplain, shown_of_done hdebug]
  | some program =>
    obtain ⟨text, htext⟩ := hlisted program hfile
    have hlines := Program.exists_listingLines htext
    obtain ⟨s, hplain, hprogram, hoptions⟩ := launch_run_of_listed haccepted hfile fun _ => hlines
    obtain ⟨s', hdebug, hprogram', hoptions'⟩ := launch_run_of_listed hverbose hfile fun _ => hlines
    rw [shown_of_ready hplain, shown_of_ready hdebug]
    apply Session.shown_congr
    · rw [hprogram, hprogram']
    · rw [hoptions, hoptions']
      rfl

theorem report_insert_of_unlisted (hplace : ¬ RunOptions.Awaits front) {program : Program}
    (hfile : world.program? options.input = some program) {e : ListingError}
    (herror : program.listing = .error e) :
    ∃ log, ∀ fuel, report world ("run" :: (front ++ "--debug" :: back)) fuel =
      some { code := 1, stderr := log ++ errorLine e.message } := by
  have hverbose := ofArguments_insert_of_ok haccepted hplace
  obtain ⟨log, hdone⟩ := launch_run_of_unlisted hverbose hfile rfl
    (Program.listingLines_of_listing herror)
  exact ⟨log, report_of_done hdone⟩

end

/-- **The option `--debug` only observes, unless a function cannot be listed.** -/
theorem report_insert_debug {world : World} {front back : List String} {options : RunOptions}
    (haccepted : RunOptions.ofArguments (front ++ back) = .ok options)
    (hquiet : options.debug = false) :
    -- On its own, the option changes the log alone if the program can be listed,
    (¬ RunOptions.Awaits front →
      (∀ program, world.program? options.input = some program →
        ∃ text, program.listing = .ok text) →
      ∀ fuel, shown world ("run" :: (front ++ "--debug" :: back)) fuel =
          shown world ("run" :: (front ++ back)) fuel ∧
        (report world ("run" :: (front ++ "--debug" :: back)) fuel).map Report.outcome =
          (report world ("run" :: (front ++ back)) fuel).map Report.outcome) ∧
    -- and ends the command before the run if not. Without it, the run decides.
    (¬ RunOptions.Awaits front → ∀ program e, world.program? options.input = some program →
      program.listing = .error e →
      (∃ log, ∀ fuel, report world ("run" :: (front ++ "--debug" :: back)) fuel =
        some { code := 1, stderr := log ++ errorLine e.message }) ∧
      ∀ fuel r, report world ("run" :: (front ++ back)) fuel = some r → r.code ≠ 1) ∧
    -- In the place of a value, it is not an option.
    (RunOptions.Awaits front → ∃ flag ∈ front.getLast?, ∀ fuel,
      report world ("run" :: (front ++ "--debug" :: back)) fuel =
        some { code := 1, stderr := (OptionError.notCount flag "--debug").message }) := by
  refine ⟨fun hplace hlisted fuel => ?_, fun hplace program e hfile herror => ⟨?_, ?_⟩,
    fun hplace => ?_⟩
  · have hshown := shown_insert haccepted hplace hlisted fuel
    refine ⟨hshown, ?_⟩
    rw [outcome_report, outcome_report, hshown]
  · exact report_insert_of_unlisted haccepted hplace hfile herror
  · intro fuel r hr
    obtain ⟨s, hready, -, -⟩ := launch_run_of_listed haccepted hfile
      fun hdebug => absurd (hquiet.symm.trans hdebug) (by decide)
    exact code_ne_one_of_ready hready hr
  · obtain ⟨flag, hlast, herror⟩ := RunOptions.complete_insert_value haccepted hplace
    exact ⟨flag, hlast, report_of_done (launch_run_of_error world herror)⟩

/-- Surroundings where every file has the same text. -/
def World.holding (text : String) : World := ⟨fun _ => .ok text, some "off"⟩

/-- The last instruction lacks its operand, which no run reads. -/
def strayReturn : String := "DEF main LOAD_CONST 4 PRINT_ITEM LOAD_CONST 4 RETURN ENDDEF"

/-- Prints without end. -/
def endless : String := "DEF main LOAD_CONST 7 PRINT_ITEM JUMP_ABSOLUTE 0 ENDDEF"

/-- A program that cannot be listed runs, but not with the option. -/
theorem not_outcome_insert_debug :
    ¬ ∀ (world : World) (front back : List String) (options : RunOptions),
      RunOptions.ofArguments (front ++ back) = .ok options → options.debug = false →
      ¬ RunOptions.Awaits front → ∀ fuel,
        (report world ("run" :: (front ++ "--debug" :: back)) fuel).map Report.outcome =
          (report world ("run" :: (front ++ back)) fuel).map Report.outcome := by
  intro h
  have heq := h (.holding strayReturn) ["p.cspc"] [] ⟨"p.cspc", false, {}⟩ rfl rfl
    (by simp [RunOptions.Awaits, RunOptions.TakesValue]) 9
  have hdebug : (report (.holding strayReturn) ["run", "p.cspc", "--debug"] 9).map
      Report.outcome = some ("", 1) := rfl
  have hplain : (report (.holding strayReturn) ["run", "p.cspc"] 9).map
      Report.outcome = some ("4", 0) := rfl
  exact absurd (hdebug.symm.trans (heq.trans hplain)) (by decide)

/-- The option beside a run without end, beside a program that cannot be listed, and in the place
of a limit. -/
theorem report_insert_debug_endless :
    (∀ fuel, shown (.holding endless) ["run", "--max-stack", "9", "--debug", "p.cspc"] fuel =
      shown (.holding endless) ["run", "--max-stack", "9", "p.cspc"] fuel) ∧
    (∃ log, ∀ fuel, report (.holding strayReturn) ["run", "p.cspc", "--debug"] fuel =
      some
        { code := 1
          stderr := log ++ errorLine (ListingError.message ⟨5, .missingOperand .ret⟩) }) ∧
    (∀ fuel, report (.holding endless) ["run", "--max-stack", "--debug", "9", "p.cspc"] fuel =
      some { code := 1, stderr := (OptionError.notCount "--max-stack" "--debug").message }) := by
  have haccepted : RunOptions.ofArguments (["--max-stack", "9"] ++ ["p.cspc"]) =
      .ok ⟨"p.cspc", false, ⟨some 9, none⟩⟩ := rfl
  have hunbounded : RunOptions.ofArguments (["p.cspc"] ++ []) = .ok ⟨"p.cspc", false, {}⟩ := rfl
  have hsplit : RunOptions.ofArguments (["--max-stack"] ++ ["9", "p.cspc"]) =
      .ok ⟨"p.cspc", false, ⟨some 9, none⟩⟩ := rfl
  obtain ⟨program, hfile, herror⟩ : ∃ program : Program,
      (World.holding strayReturn).program? "p.cspc" = some program ∧
        program.listing = .error ⟨5, .missingOperand .ret⟩ := ⟨_, rfl, rfl⟩
  refine ⟨fun fuel => ((report_insert_debug haccepted rfl).1 ?_ ?_ fuel).1,
    ((report_insert_debug hunbounded rfl).2.1 ?_ program _ hfile herror).1, fun fuel => ?_⟩
  · simp [RunOptions.Awaits, RunOptions.TakesValue]
  · intro program hfile
    obtain rfl := Option.some.inj hfile
    exact ⟨_, rfl⟩
  · simp [RunOptions.Awaits, RunOptions.TakesValue]
  · obtain ⟨flag, hlast, hreport⟩ := (report_insert_debug hsplit rfl).2.2 ⟨_, rfl, .inr rfl⟩
    obtain rfl := Option.some.inj hlast
    exact hreport fuel

end CommandLine

end PoolMachine
