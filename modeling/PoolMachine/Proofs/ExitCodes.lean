import PoolMachine.Proofs.CanonicalMaps
import PoolMachine.Proofs.DebugOption

/-!
# Exit codes and the standard output

**Theorem (`CommandLine.report_codes`).** A command ends with the code 0, 1 or 3, unless it runs a
program that does not end. The code is 3 if and only if the run of a program fails. Before the run,
a command that fails has shown nothing. After it, the standard output is what the program printed.
The setting of the log changes neither.

What a command does is said by two relations, `Runs` and `Lists`. Both depend on the files alone,
and not on the setting of the log.

* *Runs.* A command that runs a program shows what the program's own run shows, whoever looks on
  (`Runs.outcome_report`). Any other command ends at once (`runs_or_done`).
* *Listings.* A command that lists a program shows the listing with the code 0
  (`launch_of_lists`), or nothing with the code 1 (`launch_disassemble_of_not_lists`).
-/

namespace PoolMachine

/-! ## Programs that can be listed -/

theorem exists_mapM_eq_ok_iff {α β ε : Type} {f : α → Except ε β} {xs : List α} :
    (∃ ys, xs.mapM f = .ok ys) ↔ ∀ x ∈ xs, ∃ y, f x = .ok y := by
  induction xs with
  | nil => simp
  | cons x xs ih =>
    rw [List.mapM_cons, List.forall_mem_cons, ← ih]
    rcases f x with e | y
    · simp
    · rcases xs.mapM f with e | ys <;> simp

theorem Program.exists_functionLines_iff {f : String × Code} :
    (∃ ls, functionLines f = .ok ls) ↔ ∃ text, f.2.listing = .ok text := by
  rw [functionLines, Code.listing]
  rcases f.2.listingLines with e | ls <;> simp [Except.map]

theorem Program.exists_listingLines_iff {program : Program} :
    (∃ lines, program.listingLines = .ok lines) ↔
      ∀ name code, program.get? name = some code → ∃ text, code.listing = .ok text := by
  have hblocks : (∃ lines, program.listingLines = .ok lines) ↔
      ∃ bs, program.toList.mapM functionLines = .ok bs := by
    rw [listingLines]
    rcases program.toList.mapM functionLines with e | bs <;> simp
  simp only [hblocks, exists_mapM_eq_ok_iff, exists_functionLines_iff, Prod.forall,
    NameMap.mem_toList_iff]

/-! ## Runs that nobody observes -/

/-- How a run of a program ends, with its output as text, if it ends within the fuel. -/
def Program.ending? (program : Program) (limits : Limits) (fuel : Nat) : Option (Ending String) :=
  (program.run limits "" (fun w _ => w) () fuel).map Prod.fst

/-- **A run ends the same way for every observer.** -/
theorem Program.map_run_eq_ending? {ω : Type} (program : Program) (limits : Limits)
    (observe : ω → Event → ω) (w : ω) (fuel : Nat) :
    (program.run limits "" observe w fuel).map Prod.fst = program.ending? limits fuel := by
  rw [ending?, run, run]
  cases program.main? with
  | none => rfl
  | some code =>
    simp only [Code.run, Machine.advance_eq_turns]
    cases ((Machine.start "").turns code limits fuel).2 with
    | running m => rfl
    | ended e => rfl

/-- The exit code of a command whose run has ended. -/
def Ending.exitCode (e : Ending String) : UInt32 :=
  match e.result with
  | .ok _ => 0
  | .error _ => 3

theorem Ending.exitCode_eq_zero_or (e : Ending String) : e.exitCode = 0 ∨ e.exitCode = 3 := by
  rw [exitCode]
  cases e.result with
  | ok halted => exact .inl rfl
  | error error => exact .inr rfl

theorem Ending.exitCode_eq_three_iff {e : Ending String} :
    e.exitCode = 3 ↔ ∃ error, e.result = .error error := by
  rw [exitCode]
  cases e.result with
  | ok halted => simp
  | error error => simp

namespace CommandLine

variable {world : World} {arguments : List String} {options : RunOptions} {program : Program}

/-! ## What a command does -/

/-- The file at a path can be read, and is assembled to the program. -/
def Holds (read : String → Except ReadError String) (path : String) (program : Program) : Prop :=
  ∃ text, read path = .ok text ∧ Program.assemble text = .ok program

/-- The command runs a program: its options are accepted, the file is read and assembled, and every
function can be listed, if the listing is asked for. -/
structure Runs (read : String → Except ReadError String) (arguments : List String)
    (options : RunOptions) (program : Program) : Prop where
  accepted : ∃ rest, arguments = "run" :: rest ∧ RunOptions.ofArguments rest = .ok options
  holds : Holds read options.input program
  listed : options.debug = true →
    ∀ name code, program.get? name = some code → ∃ text, code.listing = .ok text

/-- The command lists a program. -/
def Lists (read : String → Except ReadError String) (arguments : List String)
    (listing : String) : Prop :=
  ∃ path rest program, arguments = "disassemble" :: path :: rest ∧ Holds read path program ∧
    program.listing = .ok listing

theorem toOption_eq_some_iff {α ε : Type} {x : Except ε α} {a : α} :
    x.toOption = some a ↔ x = .ok a := by
  cases x with
  | error e => exact iff_of_false (Option.some_ne_none a ·.symm) (by simp)
  | ok b => exact Option.some_inj.trans (by simp)

theorem World.program?_eq_some_iff {path : String} :
    world.program? path = some program ↔ Holds world.read path program := by
  simp only [World.program?, Holds, Option.bind_eq_some_iff, toOption_eq_some_iff]

/-! ## Commands that run a program -/

theorem Runs.exists_session (h : Runs world.read arguments options program) :
    ∃ s, launch world arguments = .ready s ∧ s.program = program ∧ s.options = options := by
  obtain ⟨rest, rfl, haccepted⟩ := h.accepted
  exact launch_run_of_listed haccepted (World.program?_eq_some_iff.mpr h.holds)
    fun hdebug => Program.exists_listingLines_iff.mpr (h.listed hdebug)

/-- **A command that runs a program shows what the run shows.** -/
theorem Runs.outcome_report (h : Runs world.read arguments options program) (fuel : Nat) :
    (report world arguments fuel).map Report.outcome =
      (program.ending? options.limits fuel).map fun e => (e.sink, e.exitCode) := by
  obtain ⟨s, hready, rfl, rfl⟩ := h.exists_session
  rw [← Program.map_run_eq_ending? _ _ s.observe s.log, report, hready, Option.map_map,
    Option.map_map]
  congr 1
  funext p
  obtain ⟨⟨result, sink⟩, log⟩ := p
  cases result with
  | error e => rfl
  | ok halted => rfl

theorem launch_run_of_not_runs {rest : List String}
    (h : ∀ options program, ¬ Runs world.read ("run" :: rest) options program) :
    ∃ stderr, launch world ("run" :: rest) = .done { code := 1, stderr } := by
  cases haccepted : RunOptions.ofArguments rest with
  | error e => exact ⟨_, launch_run_of_error world haccepted⟩
  | ok options =>
    cases hfile : world.program? options.input with
    | none => exact launch_run_of_none haccepted hfile
    | some program =>
      have hunlisted : ¬ (options.debug = true →
          ∀ name code, program.get? name = some code → ∃ text, code.listing = .ok text) :=
        fun hlisted =>
          h options program ⟨⟨rest, rfl, haccepted⟩, World.program?_eq_some_iff.mp hfile, hlisted⟩
      rw [← Program.exists_listingLines_iff, Classical.not_imp] at hunlisted
      obtain ⟨hdebug, hnone⟩ := hunlisted
      cases herror : program.listingLines with
      | error e =>
        obtain ⟨log, hdone⟩ := launch_run_of_unlisted haccepted hfile hdebug herror
        exact ⟨_, hdone⟩
      | ok lines => exact absurd ⟨lines, herror⟩ hnone

/-! ## Other commands -/

theorem launch_of_lists {listing : String} (h : Lists world.read arguments listing) :
    ∃ stderr, launch world arguments = .done { code := 0, stdout := listing, stderr } := by
  obtain ⟨path, rest, program, rfl, hholds, hlisting⟩ := h
  obtain ⟨log, hload⟩ := exists_load_of_program (World.program?_eq_some_iff.mpr hholds)
    (world.threshold (some .warn))
  refine ⟨log, ?_⟩
  simp only [launch, disassemble, hload, hlisting]

theorem launch_disassemble_of_not_lists {rest : List String}
    (h : ∀ listing, ¬ Lists world.read ("disassemble" :: rest) listing) :
    ∃ stderr, launch world ("disassemble" :: rest) = .done { code := 1, stderr } := by
  cases rest with
  | nil => exact ⟨_, rfl⟩
  | cons path rest =>
    cases hfile : world.program? path with
    | none =>
      obtain ⟨stderr, hload⟩ := exists_load_of_none hfile (world.threshold (some .warn))
      refine ⟨stderr, ?_⟩
      simp only [launch, disassemble, hload]
    | some program =>
      obtain ⟨log, hload⟩ := exists_load_of_program hfile (world.threshold (some .warn))
      cases hlisting : program.listing with
      | error e =>
        refine ⟨log ++ errorLine e.message, ?_⟩
        simp only [launch, disassemble, hload, hlisting]
      | ok listing =>
        exact absurd ⟨path, rest, program, rfl, World.program?_eq_some_iff.mp hfile, hlisting⟩
          (h listing)

theorem launch_of_other (hrun : arguments.head? ≠ some "run")
    (hlist : arguments.head? ≠ some "disassemble") :
    ∃ code stderr, (code = 0 ∨ code = 1) ∧
      ∀ world, launch world arguments = .done { code, stderr } := by
  unfold launch
  split
  · exact ⟨1, usage, .inr rfl, fun _ => rfl⟩
  · exact absurd rfl hrun
  · exact absurd rfl hlist
  · exact ⟨0, usage, .inl rfl, fun _ => rfl⟩
  · exact ⟨0, usage, .inl rfl, fun _ => rfl⟩
  · exact ⟨0, usage, .inl rfl, fun _ => rfl⟩
  · exact ⟨1, _, .inr rfl, fun _ => rfl⟩

/-- **A command runs a program, or ends at once.** In the second case it shows nothing if it fails,
and the setting of the log changes the text on the standard error alone. -/
theorem runs_or_done (world : World) (arguments : List String) :
    (∃ options program, Runs world.read arguments options program) ∨
    ∃ code stdout, (code = 1 ∧ stdout = "" ∨ code = 0 ∧ arguments.head? ≠ some "run") ∧
      ∀ setting, ∃ stderr,
        launch { world with logSetting := setting } arguments = .done { code, stdout, stderr } := by
  refine or_iff_not_imp_left.mpr fun h => ?_
  simp only [not_exists] at h
  by_cases hrun : arguments.head? = some "run"
  · obtain ⟨rest, rfl⟩ := List.head?_eq_some_iff.mp hrun
    exact ⟨1, "", .inl ⟨rfl, rfl⟩, fun _ => launch_run_of_not_runs h⟩
  by_cases hlist : arguments.head? = some "disassemble"
  · by_cases hlists : ∃ listing, Lists world.read arguments listing
    · obtain ⟨listing, hlists⟩ := hlists
      exact ⟨0, listing, .inr ⟨rfl, hrun⟩, fun _ => launch_of_lists hlists⟩
    · obtain ⟨rest, rfl⟩ := List.head?_eq_some_iff.mp hlist
      exact ⟨1, "", .inl ⟨rfl, rfl⟩,
        fun _ => launch_disassemble_of_not_lists (not_exists.mp hlists)⟩
  · obtain ⟨code, stderr, hcode, hdone⟩ := launch_of_other hrun hlist
    exact ⟨code, "", hcode.symm.imp (⟨·, rfl⟩) (⟨·, hrun⟩), fun _ => ⟨stderr, hdone _⟩⟩

/-- **The setting of the log changes nothing that a command shows**, while it runs or in the
end. -/
theorem shown_logSetting (world : World) (setting : Option String) (arguments : List String)
    (fuel : Nat) :
    shown { world with logSetting := setting } arguments fuel = shown world arguments fuel := by
  rcases runs_or_done world arguments with ⟨options, program, hruns⟩ | ⟨code, stdout, -, hdone⟩
  · have hruns' : Runs { world with logSetting := setting : World }.read
        arguments options program := hruns
    obtain ⟨s, hready, hprogram, hoptions⟩ := hruns.exists_session
    obtain ⟨s', hready', hprogram', hoptions'⟩ := hruns'.exists_session
    rw [shown_of_ready hready, shown_of_ready hready']
    apply Session.shown_congr
    · rw [hprogram, hprogram']
    · rw [hoptions, hoptions']
  · obtain ⟨stderr, hown⟩ := hdone world.logSetting
    obtain ⟨stderr', hother⟩ := hdone setting
    rw [shown_of_done hown, shown_of_done hother]

/-! ## Reports and codes -/

section

variable {fuel : Nat} {r : Report}

theorem Runs.exists_report {e : Ending String} (h : Runs world.read arguments options program)
    (he : program.ending? options.limits fuel = some e) :
    ∃ r, report world arguments fuel = some r ∧ r.stdout = e.sink ∧ r.code = e.exitCode := by
  have houtcome := h.outcome_report fuel
  rw [he, Option.map_some, Option.map_eq_some_iff] at houtcome
  simpa only [Report.outcome, Prod.mk.injEq] using houtcome

/-- A command ends, unless it runs a program that does not. -/
theorem report_eq_none_iff : report world arguments fuel = none ↔ ∃ options program,
    Runs world.read arguments options program ∧ program.ending? options.limits fuel = none := by
  constructor
  · intro h
    rcases runs_or_done world arguments with ⟨options, program, hruns⟩ | ⟨code, stdout, -, hdone⟩
    · have houtcome := hruns.outcome_report fuel
      rw [h, Option.map_none, eq_comm, Option.map_eq_none_iff] at houtcome
      exact ⟨options, program, hruns, houtcome⟩
    · obtain ⟨stderr, hdone⟩ := hdone world.logSetting
      cases h.symm.trans (report_of_done hdone fuel)
  · intro ⟨options, program, hruns, hnone⟩
    have houtcome := hruns.outcome_report fuel
    rw [hnone, Option.map_none, Option.map_eq_none_iff] at houtcome
    exact houtcome

theorem report_cases (h : report world arguments fuel = some r) :
    (∃ options program e, Runs world.read arguments options program ∧
      program.ending? options.limits fuel = some e ∧ r.stdout = e.sink ∧ r.code = e.exitCode) ∨
    r.code = 1 ∧ r.stdout = "" ∨ r.code = 0 ∧ arguments.head? ≠ some "run" := by
  rcases runs_or_done world arguments with ⟨options, program, hruns⟩ | ⟨code, stdout, hcode, hdone⟩
  · cases he : program.ending? options.limits fuel with
    | none => cases h.symm.trans (report_eq_none_iff.mpr ⟨options, program, hruns, he⟩)
    | some e =>
      obtain ⟨r', hr', hshown⟩ := hruns.exists_report he
      cases h.symm.trans hr'
      exact .inl ⟨options, program, e, hruns, he, hshown⟩
  · obtain ⟨stderr, hdone⟩ := hdone world.logSetting
    cases h.symm.trans (report_of_done hdone fuel)
    exact .inr hcode

theorem exists_code_eq_three_iff : (∃ r, report world arguments fuel = some r ∧ r.code = 3) ↔
    ∃ options program e error, Runs world.read arguments options program ∧
      program.ending? options.limits fuel = some e ∧ e.result = .error error := by
  constructor
  · intro ⟨r, hr, hthree⟩
    rcases report_cases hr with ⟨options, program, e, hruns, he, -, hcode⟩ | ⟨hcode, -⟩ | ⟨hcode, -⟩
    · obtain ⟨error, herror⟩ := Ending.exitCode_eq_three_iff.mp (hcode.symm.trans hthree)
      exact ⟨options, program, e, error, hruns, he, herror⟩
    · exact absurd (hcode.symm.trans hthree) (by decide)
    · exact absurd (hcode.symm.trans hthree) (by decide)
  · intro ⟨options, program, e, error, hruns, he, herror⟩
    obtain ⟨r, hr, -, hcode⟩ := hruns.exists_report he
    exact ⟨r, hr, hcode.trans (Ending.exitCode_eq_three_iff.mpr ⟨error, herror⟩)⟩

theorem ran_iff (h : report world arguments fuel = some r)
    (hrun : arguments.head? = some "run") :
    r.code = 0 ∨ r.code = 3 ↔ ∃ options program e, Runs world.read arguments options program ∧
      program.ending? options.limits fuel = some e ∧ r.stdout = e.sink := by
  constructor
  · intro hran
    rcases report_cases h with ⟨options, program, e, hruns, he, hsink, -⟩ | ⟨hone, -⟩ | ⟨-, hother⟩
    · exact ⟨options, program, e, hruns, he, hsink⟩
    · rw [hone] at hran
      exact absurd hran (by decide)
    · exact absurd hrun hother
  · intro ⟨options, program, e, hruns, he, _⟩
    obtain ⟨r', hr', -, hcode⟩ := hruns.exists_report he
    cases h.symm.trans hr'
    rw [hcode]
    exact e.exitCode_eq_zero_or

theorem listed_iff (h : report world arguments fuel = some r)
    (hlist : arguments.head? = some "disassemble") :
    r.code = 0 ↔ Lists world.read arguments r.stdout := by
  constructor
  · intro hzero
    by_cases hlists : ∃ listing, Lists world.read arguments listing
    · obtain ⟨listing, hlists⟩ := hlists
      obtain ⟨stderr, hdone⟩ := launch_of_lists hlists
      cases h.symm.trans (report_of_done hdone fuel)
      exact hlists
    · obtain ⟨rest, rfl⟩ := List.head?_eq_some_iff.mp hlist
      obtain ⟨stderr, hdone⟩ := launch_disassemble_of_not_lists (not_exists.mp hlists)
      cases h.symm.trans (report_of_done hdone fuel)
      exact absurd hzero (show (1 : UInt32) ≠ 0 by decide)
  · intro hlists
    obtain ⟨stderr, hdone⟩ := launch_of_lists hlists
    exact congrArg Report.code (Option.some.inj (h.symm.trans (report_of_done hdone fuel)))

end

/-- **The exit code and the standard output of a command.** -/
theorem report_codes (world : World) (arguments : List String) (fuel : Nat) :
    -- A command ends, unless it runs a program that does not end within the fuel.
    (report world arguments fuel = none ↔ ∃ options program,
      Runs world.read arguments options program ∧ program.ending? options.limits fuel = none) ∧
    -- There are three codes. The code 3 is that of a run that fails.
    (∀ r, report world arguments fuel = some r → r.code = 0 ∨ r.code = 1 ∨ r.code = 3) ∧
    ((∃ r, report world arguments fuel = some r ∧ r.code = 3) ↔ ∃ options program e error,
      Runs world.read arguments options program ∧
        program.ending? options.limits fuel = some e ∧ e.result = .error error) ∧
    -- With the code 1, nothing is shown.
    (∀ r, report world arguments fuel = some r → r.code = 1 → r.stdout = "") ∧
    -- With the other codes, `run` shows what the program has printed,
    (∀ r, report world arguments fuel = some r → arguments.head? = some "run" →
      (r.code = 0 ∨ r.code = 3 ↔ ∃ options program e,
        Runs world.read arguments options program ∧
          program.ending? options.limits fuel = some e ∧ r.stdout = e.sink)) ∧
    -- and `disassemble` shows the listing.
    (∀ r, report world arguments fuel = some r → arguments.head? = some "disassemble" →
      (r.code = 0 ↔ Lists world.read arguments r.stdout)) ∧
    -- The setting of the log has no part in this, nor in what is shown while a program runs.
    ∀ setting,
      shown { world with logSetting := setting } arguments fuel = shown world arguments fuel ∧
      (report { world with logSetting := setting } arguments fuel).map Report.outcome =
        (report world arguments fuel).map Report.outcome := by
  refine ⟨report_eq_none_iff, fun r hr => ?_, exists_code_eq_three_iff, fun r hr hone => ?_,
    fun r hr hrun => ran_iff hr hrun, fun r hr hlist => listed_iff hr hlist, fun setting => ?_⟩
  · rcases report_cases hr with ⟨options, program, e, -, -, -, hcode⟩ | ⟨hcode, -⟩ | ⟨hcode, -⟩
    · rw [hcode]
      exact e.exitCode_eq_zero_or.imp_right .inr
    · exact .inr (.inl hcode)
    · exact .inl hcode
  · rcases report_cases hr with ⟨options, program, e, -, -, -, hcode⟩ | ⟨-, hempty⟩ | ⟨hcode, -⟩
    · have hcases := e.exitCode_eq_zero_or
      rw [← hcode, hone] at hcases
      exact absurd hcases (by decide)
    · exact hempty
    · exact absurd (hcode.symm.trans hone) (by decide)
  · have hshown := shown_logSetting world setting arguments fuel
    refine ⟨hshown, ?_⟩
    rw [outcome_report, outcome_report, hshown]

/-- Prints a value, and then finds none to print. -/
def halfway : String := "DEF main LOAD_CONST 4 PRINT_ITEM PRINT_ITEM ENDDEF"

/-- A run that fails after some output, a run without end, a listing, and a program that cannot be
listed. -/
theorem report_codes_halfway :
    (∃ options program e error,
      Runs (World.holding halfway).read ["run", "p.cspc"] options program ∧
        program.ending? options.limits 9 = some e ∧ e.result = .error error) ∧
    (∃ options program e, Runs (World.holding halfway).read ["run", "p.cspc"] options program ∧
      program.ending? options.limits 9 = some e ∧ "4" = e.sink) ∧
    (∀ setting, (report { World.holding halfway with logSetting := setting }
      ["run", "p.cspc"] 9).map Report.outcome = some ("4", 3)) ∧
    (∃ options program, Runs (World.holding endless).read ["run", "p.cspc"] options program ∧
      program.ending? options.limits 9 = none) ∧
    (∃ listing, Lists (World.holding halfway).read ["disassemble", "p.cspc"] listing) ∧
    ∃ r, report (.holding strayReturn) ["disassemble", "p.cspc"] 0 = some r ∧ r.code = 1 ∧
      r.stdout = "" := by
  obtain ⟨-, -, hthree, -, hran, -, hsetting⟩ := report_codes (.holding halfway) ["run", "p.cspc"] 9
  obtain ⟨hendless, -⟩ := report_codes (.holding endless) ["run", "p.cspc"] 9
  obtain ⟨-, -, -, -, -, hlisted, -⟩ := report_codes (.holding halfway) ["disassemble", "p.cspc"] 0
  obtain ⟨-, -, -, hone, -⟩ := report_codes (.holding strayReturn) ["disassemble", "p.cspc"] 0
  refine ⟨hthree.mp ⟨_, rfl, rfl⟩, (hran _ rfl rfl).mp (.inr rfl), fun setting => ?_,
    hendless.mp rfl, ⟨_, (hlisted _ rfl rfl).mp rfl⟩, ⟨_, rfl, rfl, hone _ rfl rfl⟩⟩
  exact (hsetting setting).2

end CommandLine

end PoolMachine
