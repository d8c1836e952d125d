import ByteGrammar.CommandLine.Run
import ByteGrammar.Proofs.DocumentSaving
import ByteGrammar.Proofs.ValidNaming

/-!
# Runs of the command

A run goes through four stages: it loads the naming, loads the grammar, lowers it, and saves the document.
`RunsTo` says how far a run can come, and what it reports and leaves behind in each case. From it
`exit_status_and_files` follows for every list of arguments and every file system: the exit status is zero
exactly when the first three stages succeed, and a run changes nothing but its output, which then holds
the document of what the files held before.
-/

namespace ByteGrammar.CommandLine

/-! ## What the files hold -/

/-- The file at a path holds a text. -/
def HoldsText (files : FileSystem) (path text : String) : Prop :=
  ∃ content, files.read path = .ok content ∧ String.fromUTF8? content = some text

/-- The file at a path spells a grammar. -/
def HoldsGrammar (files : FileSystem) (path : String) (grammar : Grammar) : Prop :=
  ∃ source, HoldsText files path source ∧ Grammar.ofJson? source = .ok grammar

/-- The naming that a run uses: the default one, or the one that a file spells, if it is accepted. -/
inductive UsesNaming (files : FileSystem) : Option String → Naming → Prop where
  | default : UsesNaming files none {}
  | file (path source naming) :
      HoldsText files path source → Naming.read.run source = .ok naming →
      naming.validate = .ok () → UsesNaming files (some path) naming

/-- The files hold what a run asks for, and a document comes of it. -/
def Makes (files : FileSystem) (options : Options) (text : String) : Prop :=
  ∃ naming grammar, UsesNaming files options.config naming ∧
    HoldsGrammar files options.grammar grammar ∧
    (renderDocument naming grammar.productions).1 = .ok text

/-! ## Loading -/

variable {files : FileSystem}

/-- The text of a file, or why it cannot be had. -/
def textAt (files : FileSystem) (path : String) : Except FileError String :=
  match files.read path with
  | .error cause => .error cause
  | .ok content =>
      match String.fromUTF8? content with
      | some text => .ok text
      | none => .error .invalidUtf8

/-- The naming of a run, or why it cannot be had. -/
def namingAt (files : FileSystem) : Option String → Except Naming.FileError Naming
  | none => .ok {}
  | some path =>
      match textAt files path with
      | .error cause => .error (.unreadable path cause)
      | .ok source =>
          match Naming.ofJson? source with
          | .error error => .error (.refused error)
          | .ok naming => .ok naming

/-- The grammar in a file, or why it cannot be had. -/
def grammarAt (files : FileSystem) (path : String) : Except GrammarError Grammar :=
  match textAt files path with
  | .error cause => .error (.unreadable path cause)
  | .ok source => Grammar.parse source path

/-- A step whose result is known is carried out. -/
theorem run_bind_of_run {α β : Type} {x : StateM FileSystem α} {f : α → StateM FileSystem β}
    {value : α} {after : FileSystem} (h : x.run files = (value, after)) :
    (x >>= f).run files = (f value).run after := by
  rw [StateT.run_bind, h]
  rfl

/-- Reading a text gives that of the file and changes nothing. -/
theorem read_text_run (files : FileSystem) (path : String) :
    (readText path : StateM FileSystem (Except FileError String)).run files =
      (textAt files path, files) := by
  cases hread : files.read path with
  | error cause =>
      simp [readText, MonadFiles.readFile, textAt, hread]
      rfl
  | ok content =>
      cases htext : String.fromUTF8? content <;>
        simp [readText, MonadFiles.readFile, textAt, hread, htext] <;> rfl

/-- Loading a naming changes nothing. -/
theorem load_naming_run (files : FileSystem) (config : Option String) :
    (loadNaming config : StateM FileSystem (Except Naming.FileError Naming)).run files =
      (namingAt files config, files) := by
  cases config with
  | none => rfl
  | some path =>
      rw [loadNaming, Naming.load, run_bind_of_run (read_text_run files path), namingAt]
      cases textAt files path with
      | error cause => rfl
      | ok source =>
          cases hnaming : Naming.ofJson? source <;> simp only [hnaming] <;> rfl

/-- Loading a grammar changes nothing. -/
theorem load_grammar_run (files : FileSystem) (path : String) :
    (Grammar.load path : StateM FileSystem (Except GrammarError Grammar)).run files =
      (grammarAt files path, files) := by
  rw [Grammar.load, run_bind_of_run (read_text_run files path), grammarAt]
  cases textAt files path <;> rfl

/-- A text can be had exactly when the file holds it. -/
theorem text_at_eq_ok_iff {path text : String} :
    textAt files path = .ok text ↔ HoldsText files path text := by
  rw [textAt, HoldsText]
  cases files.read path with
  | error cause => simp
  | ok content => cases htext : String.fromUTF8? content <;> simp [htext]

/-- A grammar can be had exactly when the file spells it. -/
theorem grammar_at_eq_ok_iff {path : String} {grammar : Grammar} :
    grammarAt files path = .ok grammar ↔ HoldsGrammar files path grammar := by
  simp only [HoldsGrammar, ← text_at_eq_ok_iff, grammarAt]
  cases textAt files path with
  | error cause => simp
  | ok source => cases hgrammar : Grammar.ofJson? source <;> simp [Grammar.parse, hgrammar]

/-- A naming can be had exactly when the run is to use it. -/
theorem naming_at_eq_ok_iff {config : Option String} {naming : Naming} :
    namingAt files config = .ok naming ↔ UsesNaming files config naming := by
  constructor
  · intro h
    cases config with
    | none =>
        obtain rfl : {} = naming := Except.ok.inj h
        exact .default
    | some path =>
        simp only [namingAt] at h
        split at h
        · cases h
        · next source hsource =>
          split at h
          · cases h
          · next found hfound =>
            obtain rfl : found = naming := Except.ok.inj h
            obtain ⟨hread, hvalid⟩ := Naming.of_json_eq_ok_iff.mp hfound
            exact .file path source found (text_at_eq_ok_iff.mp hsource) hread hvalid
  · rintro (_ | ⟨path, source, naming, hsource, hread, hvalid⟩)
    · rfl
    · simp [namingAt, text_at_eq_ok_iff.mpr hsource, Naming.of_json_eq_ok_iff.mpr ⟨hread, hvalid⟩]

/-! ## The stages of a run -/

/-- The files after a document has been saved: with a file that holds it where the destination opens, and
as before where it does not. -/
def savedTo (files : FileSystem) (destination : Destination) (text : String) : FileSystem :=
  match destination with
  | .nowhere => files
  | .file path =>
      match files.open? path with
      | .ok (some location) => files.set location (.file text.toUTF8)
      | _ => files

/-- What a run reports and which files it leaves, by the stage that it comes to. -/
inductive RunsTo (files : FileSystem) (options : Options) : Report → FileSystem → Prop where
  | namingRefused (error) :
      namingAt files options.config = .error error →
      RunsTo files options
        { exitCode := 1, complaint := some ("invalid lowering configuration: " ++ error.message) } files
  | grammarRefused (naming error) :
      namingAt files options.config = .ok naming → grammarAt files options.grammar = .error error →
      RunsTo files options { exitCode := 1, complaint := some error.message } files
  | notLowered (naming grammar cause log) :
      namingAt files options.config = .ok naming → grammarAt files options.grammar = .ok grammar →
      (renderDocument naming grammar.productions).1 = .error cause →
      RunsTo files options
        { exitCode := 1, log,
          complaint := some ("failed to lower " ++ options.grammar ++ ": " ++ cause.message) } files
  | lowered (naming grammar text log) :
      namingAt files options.config = .ok naming → grammarAt files options.grammar = .ok grammar →
      (renderDocument naming grammar.productions).1 = .ok text →
      RunsTo files options { exitCode := 0, log } (savedTo files options.output text)

/-- A document is saved, or its destination is reported, and either way the files are those of `savedTo`. -/
theorem dump_on_of_ok (files : FileSystem) {naming : Naming} {grammar : Grammar} {text : String}
    (destination : Destination) (h : (renderDocument naming grammar.productions).1 = .ok text) :
    (dumpOn files naming grammar destination).2 = savedTo files destination text ∧
      ∀ cause, (dumpOn files naming grammar destination).1 ≠ .error (.lowering cause) := by
  cases destination with
  | nowhere =>
      rw [dump_on_nowhere files h]
      exact ⟨rfl, by simp⟩
  | file path =>
      rw [dump_on_file files path h, savedTo]
      obtain ⟨cause, hopen, hsave⟩ | ⟨hopen, hsave⟩ | ⟨location, hopen, hsave⟩ :=
        save_cases files path (is_empty_of_render_document h)
      all_goals
        rw [hsave, hopen]
        exact ⟨rfl, by simp⟩

/-- Every run comes to one of the stages. -/
theorem runs_to_of_run_options (files : FileSystem) (options : Options) :
    ∃ report after, (runOptions options : StateM FileSystem Report).run files = (report, after) ∧
      RunsTo files options report after := by
  rw [runOptions, run_bind_of_run (load_naming_run files options.config)]
  cases hnaming : namingAt files options.config with
  | error error => exact ⟨_, _, rfl, .namingRefused error hnaming⟩
  | ok naming =>
      simp only
      rw [run_bind_of_run (load_grammar_run files options.grammar)]
      cases hgrammar : grammarAt files options.grammar with
      | error error => exact ⟨_, _, rfl, .grammarRefused naming error hnaming hgrammar⟩
      | ok grammar =>
          simp only
          rcases hdump : (dump naming grammar options.output : StateM FileSystem _).run files with
            ⟨⟨outcome, events⟩, after⟩
          have hon : dumpOn files naming grammar options.output = (outcome, after) := by
            simp only [dumpOn, hdump]
          rw [run_bind_of_run hdump]
          cases hdocument : (renderDocument naming grammar.productions).1 with
          | error cause =>
              rw [dump_on_of_error files options.output hdocument] at hon
              cases hon
              exact ⟨_, _, rfl, .notLowered naming grammar cause _ hnaming hgrammar hdocument⟩
          | ok text =>
              obtain ⟨hafter, houtcome⟩ := dump_on_of_ok files options.output hdocument
              rw [hon] at hafter houtcome
              have hlowered (log) : RunsTo files options { exitCode := 0, log }
                  (savedTo files options.output text) :=
                .lowered naming grammar text log hnaming hgrammar hdocument
              subst hafter
              cases outcome with
              | ok saved => cases saved <;> exact ⟨_, _, rfl, hlowered _⟩
              | error error =>
                  cases error with
                  | lowering cause => exact absurd rfl (houtcome cause)
                  | writing => exact ⟨_, _, rfl, hlowered _⟩

/-! ## Exit status and files -/

/-- A file has been created or replaced by one that holds a text, and nothing else has changed. -/
def Replaced (files : FileSystem) (path text : String) (after : FileSystem) : Prop :=
  ∃ location, files.open? path = .ok (some location) ∧
    FileSystem.SameExcept location files after ∧
    after.node? location = some (.file text.toUTF8) ∧ after.read path = .ok text.toUTF8

/-- Where a destination opens, the document replaces what was there. -/
theorem replaced_saved_to {path text : String} {location : Location}
    (h : files.open? path = .ok (some location)) :
    Replaced files path text (savedTo files (.file path) text) := by
  obtain ⟨hnode, hsame⟩ := FileSystem.node_set_of_open h (.file text.toUTF8)
  have hread := FileSystem.read_set h text.toUTF8
  simp only [savedTo, h]
  exact ⟨location, h, hsame, hnode, hread⟩

/-- Saving changes nothing, or replaces the file at the destination. -/
theorem saved_to_cases (files : FileSystem) (destination : Destination) (text : String) :
    savedTo files destination text = files ∨
      ∃ path, destination = .file path ∧
        Replaced files path text (savedTo files destination text) := by
  cases destination with
  | nowhere => exact .inl rfl
  | file path =>
      cases hopen : files.open? path with
      | error cause => exact .inl (by simp only [savedTo, hopen])
      | ok found =>
          cases found with
          | none => exact .inl (by simp only [savedTo, hopen])
          | some location => exact .inr ⟨path, rfl, replaced_saved_to hopen⟩

namespace RunsTo

variable {options : Options} {report : Report} {after : FileSystem}

/-- A run succeeds exactly when a document comes of it. -/
theorem exit_code_eq_zero_iff (h : RunsTo files options report after) :
    report.exitCode = 0 ↔ ∃ text, Makes files options text := by
  simp only [Makes, ← naming_at_eq_ok_iff, ← grammar_at_eq_ok_iff]
  cases h with
  | namingRefused error hnaming => simp [hnaming]
  | grammarRefused naming error hnaming hgrammar => simp [hnaming, hgrammar]
  | notLowered naming grammar cause log hnaming hgrammar hdocument =>
      simp [hnaming, hgrammar, hdocument]
  | lowered naming grammar text log hnaming hgrammar hdocument =>
      simp [hnaming, hgrammar, hdocument]

/-- The exit status of a run is zero or one. -/
theorem exit_code_cases (h : RunsTo files options report after) :
    report.exitCode = 0 ∨ report.exitCode = 1 := by
  cases h <;> simp

/-- A run writes nothing to its output stream. -/
theorem output_eq (h : RunsTo files options report after) : report.output = "" := by
  cases h <;> rfl

/-- A run that fails leaves the files as they are. -/
theorem files_of_failure (h : RunsTo files options report after) (hexit : report.exitCode ≠ 0) :
    after = files := by
  cases h with
  | lowered => exact absurd rfl hexit
  | _ => rfl

/-- A run that makes a document leaves the files with that document saved. -/
theorem files_of_makes (h : RunsTo files options report after) {text : String}
    (hmakes : Makes files options text) : after = savedTo files options.output text := by
  obtain ⟨naming, grammar, hnaming, hgrammar, hdocument⟩ := hmakes
  rw [← naming_at_eq_ok_iff] at hnaming
  rw [← grammar_at_eq_ok_iff] at hgrammar
  cases h with
  | namingRefused error hrefused => simp [hnaming] at hrefused
  | grammarRefused naming' error hnaming' hrefused => simp [hgrammar] at hrefused
  | notLowered naming' grammar' cause log hnaming' hgrammar' hfailed =>
      obtain rfl : naming = naming' := Except.ok.inj (hnaming.symm.trans hnaming')
      obtain rfl : grammar = grammar' := Except.ok.inj (hgrammar.symm.trans hgrammar')
      simp [hdocument] at hfailed
  | lowered naming' grammar' text' log hnaming' hgrammar' hdocument' =>
      obtain rfl : naming = naming' := Except.ok.inj (hnaming.symm.trans hnaming')
      obtain rfl : grammar = grammar' := Except.ok.inj (hgrammar.symm.trans hgrammar')
      obtain rfl : text = text' := Except.ok.inj (hdocument.symm.trans hdocument')
      rfl

/-- When the naming is refused, the report says so and nothing else. -/
theorem report_of_refused (h : RunsTo files options report after) {error : Naming.FileError}
    (hnaming : namingAt files options.config = .error error) :
    report =
      { exitCode := 1, complaint := some ("invalid lowering configuration: " ++ error.message) } := by
  cases h with
  | namingRefused error' hnaming' =>
      obtain rfl : error = error' := Except.error.inj (hnaming.symm.trans hnaming')
      rfl
  | grammarRefused naming error' hnaming' | notLowered naming grammar cause log hnaming'
  | lowered naming grammar text log hnaming' => simp [hnaming] at hnaming'

end RunsTo

/-- The naming of a run depends on its own file only. -/
theorem naming_at_congr {others : FileSystem} {config : Option String}
    (h : ∀ path ∈ config, others.read path = files.read path) :
    namingAt others config = namingAt files config := by
  cases config with
  | none => rfl
  | some path => simp only [namingAt, textAt, h path rfl]

/-- What the command comes to on a file system: its report, and the files afterwards. -/
def runOn (files : FileSystem) (arguments : List String) : Report × FileSystem :=
  (run arguments : StateM FileSystem Report).run files

/-- The command on a request to run. -/
theorem runs_to_of_request {arguments : List String} {options : Options} (files : FileSystem)
    (h : Request.ofArguments arguments = .run options) :
    RunsTo files options (runOn files arguments).1 (runOn files arguments).2 := by
  obtain ⟨report, after, hrun, hruns⟩ := runs_to_of_run_options files options
  rw [runOn, run, h]
  simp only [hrun]
  exact hruns

/-- Exit status and files of the command, for every list of arguments and every file system. A run exits
with zero exactly when its naming is accepted, its grammar is read and a document comes of them, whether
or not the destination can be written, and with one otherwise; when its naming is refused, its report is the
same whatever the grammar, the destination and the other files are. A command that does not exit with zero
changes nothing and has no output. One that does changes at most the file at its destination. That file then
holds the document of what the files held before, also where it is the grammar or the naming itself, and it
does so whenever it can be opened. -/
theorem exit_status_and_files (files : FileSystem) (arguments : List String) :
    let report := (runOn files arguments).1
    let after := (runOn files arguments).2
    (∀ options, Request.ofArguments arguments = .run options →
        (report.exitCode = 0 ↔ ∃ text, Makes files options text) ∧
        (report.exitCode = 0 ∨ report.exitCode = 1) ∧
        ((∀ naming, ¬ UsesNaming files options.config naming) →
          ∀ again other others, Request.ofArguments again = .run other →
            other.config = options.config →
            (∀ path ∈ options.config, others.read path = files.read path) →
            (runOn others again).1 = report)) ∧
      (report.exitCode ≠ 0 → after = files ∧ report.output = "") ∧
      (report.exitCode = 0 → after = files ∨
        ∃ options path text, Request.ofArguments arguments = .run options ∧
          options.output = .file path ∧ Makes files options text ∧ Replaced files path text after) ∧
      ∀ options path text location, Request.ofArguments arguments = .run options →
        options.output = .file path → Makes files options text →
        files.open? path = .ok (some location) → Replaced files path text after := by
  intro report after
  have hruns {options : Options} (hrequest : Request.ofArguments arguments = .run options) :
      RunsTo files options report after := runs_to_of_request files hrequest
  -- A request that is no run changes nothing, and only a fault of the arguments has a status.
  have hother (hrequest : ∀ options, Request.ofArguments arguments ≠ .run options) :
      after = files ∧ (report.exitCode ≠ 0 → report.output = "") := by
    show (runOn files arguments).2 = files ∧
      ((runOn files arguments).1.exitCode ≠ 0 → (runOn files arguments).1.output = "")
    rw [runOn, run]
    cases hcase : Request.ofArguments arguments with
    | help | version => exact ⟨rfl, fun hexit => absurd rfl hexit⟩
    | usageError => exact ⟨rfl, fun _ => rfl⟩
    | run options => exact absurd hcase (hrequest options)
  refine ⟨fun options hrequest => ⟨(hruns hrequest).exit_code_eq_zero_iff,
    (hruns hrequest).exit_code_cases, ?_⟩, ?_, ?_, ?_⟩
  · intro hrefused again other others hagain hconfig hreads
    cases hnaming : namingAt files options.config with
    | ok naming => exact absurd (naming_at_eq_ok_iff.mp hnaming) (hrefused naming)
    | error error =>
        have hnaming' : namingAt others other.config = .error error := by
          rw [hconfig, naming_at_congr hreads, hnaming]
        rw [(hruns hrequest).report_of_refused hnaming,
          (runs_to_of_request others hagain).report_of_refused hnaming']
  · intro hexit
    by_cases hrequest : ∃ options, Request.ofArguments arguments = .run options
    · obtain ⟨options, hrequest⟩ := hrequest
      exact ⟨(hruns hrequest).files_of_failure hexit, (hruns hrequest).output_eq⟩
    · obtain ⟨hfiles, houtput⟩ := hother (not_exists.mp hrequest)
      exact ⟨hfiles, houtput hexit⟩
  · intro hexit
    by_cases hrequest : ∃ options, Request.ofArguments arguments = .run options
    · obtain ⟨options, hrequest⟩ := hrequest
      obtain ⟨text, hmakes⟩ := (hruns hrequest).exit_code_eq_zero_iff.mp hexit
      rw [(hruns hrequest).files_of_makes hmakes]
      refine (saved_to_cases files options.output text).imp_right ?_
      rintro ⟨path, hpath, hreplaced⟩
      exact ⟨options, path, text, hrequest, hpath, hmakes, hreplaced⟩
    · exact .inl (hother (not_exists.mp hrequest)).1
  · intro options path text location hrequest hpath hmakes hopen
    rw [(hruns hrequest).files_of_makes hmakes, hpath]
    exact replaced_saved_to hopen

/-- The text of a grammar with an entry only. -/
def entryGrammar : String :=
  "\x7b\"productions\": [\x7b\"id\": 0\x7d]\x7d"

/-- The text of a naming that renames the entry. -/
def topNaming : String :=
  "\x7b\"entry_name\": \"Top\"\x7d"

/-- The document of `entryGrammar` under `topNaming`. -/
def topDocument : String :=
  accessors ++ "\n" ++ "def Top = \n  block\n    let len = Len\n    \n\n\n\n"

/-- A working directory with a grammar and a naming. -/
def entryFiles : FileSystem :=
  (FileSystem.empty.addFile "g.json" entryGrammar.toUTF8).addFile "c.json" topNaming.toUTF8

/-- A run whose output is its own grammar replaces the grammar by its document. -/
theorem run_replaces_its_grammar :
    let arguments := ["g.json", "-og.json", "--config", "c.json"]
    let options : Options := ⟨"g.json", .file "g.json", some "c.json"⟩
    Request.ofArguments arguments = .run options ∧ Makes entryFiles options topDocument ∧
      (runOn entryFiles arguments).1.exitCode = 0 ∧
      Replaced entryFiles "g.json" topDocument (runOn entryFiles arguments).2 := by
  intro arguments options
  have hrequest : Request.ofArguments arguments = .run options := by decide +kernel
  have hgrammar : HoldsText entryFiles "g.json" entryGrammar :=
    ⟨entryGrammar.toUTF8, by decide +kernel, by decide +kernel⟩
  have hnaming : HoldsText entryFiles "c.json" topNaming :=
    ⟨topNaming.toUTF8, by decide +kernel, by decide +kernel⟩
  have huses : UsesNaming entryFiles options.config { entryName := "Top" } :=
    .file "c.json" topNaming _ hnaming (by decide +kernel) (by decide +kernel)
  have hmakes : Makes entryFiles options topDocument :=
    ⟨_, ⟨[{ id := 0 }]⟩, huses, ⟨entryGrammar, hgrammar, by decide +kernel⟩, by decide +kernel⟩
  have hopen : entryFiles.open? "g.json" = .ok (some ["work", "g.json"]) := by decide +kernel
  obtain ⟨hrun, -, -, hreplaced⟩ := exit_status_and_files entryFiles arguments
  exact ⟨hrequest, hmakes, (hrun options hrequest).1.mpr ⟨topDocument, hmakes⟩,
    hreplaced options "g.json" topDocument _ hrequest rfl hmakes hopen⟩

end ByteGrammar.CommandLine
