import ByteGrammar.Document.Destination
import ByteGrammar.Proofs.DocumentText

/-!
# Saving touches the destination only

A document is lowered before its destination is opened, so `dump` changes files in one case only: when the
destination is a file or can become one, it is replaced as a whole. `dump_changes_destination_only` says so
for every file system, and which outcome goes with which change. Before it stand the laws of a path that
has been opened: it still leads to the same place when a file has been put there.
-/

namespace ByteGrammar

namespace FileSystem

/-- Two file systems that differ at one location at most. -/
structure SameExcept (location : Location) (before after : FileSystem) : Prop where
  current : after.current = before.current
  node : ∀ other, other ≠ location → after.node? other = before.node? other

variable {files : FileSystem} {location : Location} {node : Node}

/-- Setting a node changes its location only. -/
theorem same_except_set (hroot : location ≠ []) :
    SameExcept location files (files.set location node) where
  current := rfl
  node other hother := by rw [files.node_set node hroot, if_neg hother]

/-- A name that a directory can hold is looked up as a node. -/
theorem entry_eq_ok_iff {parent : Location} {name : String} {found : Option Node} :
    files.entry? parent name = .ok found ↔
      ¬ nameLimit < name.utf8ByteSize ∧ files.node? (parent ++ [name]) = found := by
  unfold entry?
  by_cases hname : nameLimit < name.utf8ByteSize <;> simp [hname]

/-- A walk goes through directories, so a change of what is no directory does not stop it. -/
theorem SameExcept.walk {after : FileSystem} (h : SameExcept location files after)
    (hnode : files.node? location ≠ some .directory) {names : List String} {here there : Location}
    (hwalk : files.walk here names = .ok there) : after.walk here names = .ok there := by
  induction names generalizing here with
  | nil => exact hwalk
  | cons name names ih =>
      rw [FileSystem.walk] at hwalk ⊢
      by_cases hdot : name = "."
      · rw [if_pos hdot] at hwalk ⊢
        exact ih hwalk
      · rw [if_neg hdot] at hwalk ⊢
        by_cases hparent : name = ".."
        · rw [if_pos hparent] at hwalk ⊢
          exact ih hwalk
        · rw [if_neg hparent] at hwalk ⊢
          cases hentry : files.entry? here name with
          | error cause => simp [hentry] at hwalk
          | ok found =>
              match found with
              | none => simp [hentry] at hwalk
              | some (.file _) | some .full => simp [hentry] at hwalk
              | some .directory =>
                  obtain ⟨hname, hfound⟩ := entry_eq_ok_iff.mp hentry
                  have hother : here ++ [name] ≠ location := by
                    rintro rfl
                    exact hnode hfound
                  have hafter : after.entry? here name = .ok (some .directory) :=
                    entry_eq_ok_iff.mpr ⟨hname, (h.node _ hother).trans hfound⟩
                  simp only [hentry] at hwalk
                  simp only [hafter]
                  exact ih hwalk

/-- A path leads to the same place after a change of what is no directory. -/
theorem SameExcept.locate {after : FileSystem} (h : SameExcept location files after)
    (hnode : files.node? location ≠ some .directory) {path : String} {target : Target}
    (hlocate : files.locate path = .ok target) : after.locate path = .ok target := by
  simp only [FileSystem.locate, h.current] at hlocate ⊢
  -- The checks of the path itself do not look at the files.
  iterate 3
    split at hlocate
    · cases hlocate
    rename_i hcheck
    rw [if_neg hcheck]
  cases hlast : (pathNames path).getLast? with
  | none =>
      rw [hlast] at hlocate
      exact hlocate
  | some name =>
      simp only [hlast] at hlocate ⊢
      split at hlocate
      · cases hlocate
      · rename_i here hwalk
        rw [h.walk hnode hwalk]
        exact hlocate

/-- A path that opens as a file names an entry of a directory that is no directory itself. -/
theorem open_eq_some {path : String} (hopen : files.open? path = .ok (some location)) :
    ∃ parent name, location = parent ++ [name] ∧
      files.locate path = .ok (.entry parent name false) ∧ ¬ nameLimit < name.utf8ByteSize ∧
      files.node? location ≠ some .directory := by
  simp only [open?, bind_eq_ok_iff] at hopen
  obtain ⟨target, hlocate, hopen⟩ := hopen
  match target, hopen with
  | .entry parent name false, hopen =>
      simp only [bind_eq_ok_iff] at hopen
      obtain ⟨found, hentry, hopen⟩ := hopen
      obtain ⟨hname, hfound⟩ := entry_eq_ok_iff.mp hentry
      match found, hopen with
      | none, hopen | some (.file _), hopen =>
          obtain rfl : parent ++ [name] = location := Option.some.inj (pure_eq_ok_iff.mp hopen)
          exact ⟨parent, name, rfl, hlocate, hname, by simp [hfound]⟩

/-- What is put where a path opens is there afterwards, and nothing else has changed. -/
theorem node_set_of_open {path : String} (hopen : files.open? path = .ok (some location))
    (node : Node) : (files.set location node).node? location = some node ∧
      SameExcept location files (files.set location node) := by
  obtain ⟨parent, name, rfl, -⟩ := open_eq_some hopen
  have hroot : parent ++ [name] ≠ [] := by simp
  exact ⟨by rw [files.node_set node hroot, if_pos rfl], same_except_set hroot⟩

/-- What has been put where a path opens is read back along the path. -/
theorem read_set {path : String} (hopen : files.open? path = .ok (some location))
    (content : ByteArray) : (files.set location (.file content)).read path = .ok content := by
  obtain ⟨hset, hsame⟩ := node_set_of_open hopen (.file content)
  obtain ⟨parent, name, rfl, hlocate, hname, hnode⟩ := open_eq_some hopen
  have hagain := hsame.locate hnode hlocate
  have hentry : entry? (files.set (parent ++ [name]) (.file content)) parent name =
      .ok (some (.file content)) := entry_eq_ok_iff.mpr ⟨hname, hset⟩
  simp only [read, bind_eq_ok_iff]
  exact ⟨_, hagain, bind_eq_ok_iff.mpr ⟨_, hentry, rfl⟩⟩

end FileSystem

/-- A document has at least the accessors in it. -/
theorem document_text_ne_empty (definitions : List Definition) : documentText definitions ≠ "" := by
  intro h
  rw [documentText, accessors, String.append_assoc, String.append_assoc, String.append_assoc,
    String.append_eq_empty_iff] at h
  exact absurd h.1 (by decide)

/-- The device takes no document. -/
theorem is_empty_of_render_document {naming : Naming} {productions : List Production} {text : String}
    (h : (renderDocument naming productions).1 = .ok text) : text.toUTF8.isEmpty = false := by
  obtain ⟨definitions, last, -, rfl⟩ := lower_all_of_render_document h
  refine beq_eq_false_iff_ne.mpr fun hzero => document_text_ne_empty definitions ?_
  exact String.utf8ByteSize_eq_zero_iff.mp hzero

/-- What `dump` comes to on a file system: its outcome, and the files afterwards. -/
def dumpOn (files : FileSystem) (naming : Naming) (grammar : Grammar) (destination : Destination) :
    Except DumpError WriteOutcome × FileSystem :=
  let ((outcome, _), after) :=
    (dump naming grammar destination : StateM FileSystem (Except DumpError WriteOutcome × List Event)).run
      files
  (outcome, after)

variable (files : FileSystem) {naming : Naming} {grammar : Grammar}

/-- Without a document nothing is opened. -/
theorem dump_on_of_error (destination : Destination) {cause : LoweringError}
    (h : (renderDocument naming grammar.productions).1 = .error cause) :
    dumpOn files naming grammar destination = (.error (.lowering cause), files) := by
  rcases hrender : renderDocument naming grammar.productions with ⟨document, events⟩
  obtain rfl : document = .error cause := by rw [hrender] at h; exact h
  simp only [dumpOn, dump, hrender]
  rfl

/-- A document that goes nowhere changes nothing. -/
theorem dump_on_nowhere {text : String}
    (h : (renderDocument naming grammar.productions).1 = .ok text) :
    dumpOn files naming grammar .nowhere = (.ok .notPersisted, files) := by
  rcases hrender : renderDocument naming grammar.productions with ⟨document, events⟩
  obtain rfl : document = .ok text := by rw [hrender] at h; exact h
  simp only [dumpOn, dump, hrender]
  rfl

/-- A document goes to a file as a whole, or not at all. -/
theorem dump_on_file {text : String} (path : String)
    (h : (renderDocument naming grammar.productions).1 = .ok text) :
    dumpOn files naming grammar (.file path) =
      match files.save path text.toUTF8 with
      | .ok after => (.ok (.written path text.utf8ByteSize), after)
      | .error cause => (.error (.writing ⟨path, cause⟩), files) := by
  rcases hrender : renderDocument naming grammar.productions with ⟨document, events⟩
  obtain rfl : document = .ok text := by rw [hrender] at h; exact h
  rw [String.toUTF8_eq_toByteArray]
  cases hsave : files.save path text.toByteArray with
  | error cause =>
      simp [dumpOn, dump, hrender, writeDocument, MonadFiles.saveFile, hsave]
      rfl
  | ok after =>
      simp [dumpOn, dump, hrender, writeDocument, MonadFiles.saveFile, hsave]
      rfl

/-- The four outcomes of opening and filling a file with something, and the files after each. -/
theorem save_cases (files : FileSystem) (path : String) {content : ByteArray}
    (hcontent : content.isEmpty = false) :
    (∃ cause, files.open? path = .error cause ∧
        files.save path content = .error (.opening cause)) ∨
      (files.open? path = .ok none ∧ files.save path content = .error (.writing .noSpace)) ∨
      ∃ location, files.open? path = .ok (some location) ∧
        files.save path content = .ok (files.set location (.file content)) := by
  rw [FileSystem.save]
  cases hopen : files.open? path with
  | error cause => exact .inl ⟨cause, rfl, rfl⟩
  | ok found =>
      cases found with
      | none => exact .inr (.inl ⟨rfl, by simp [hcontent]⟩)
      | some location => exact .inr (.inr ⟨location, rfl, rfl⟩)

/-- `dump` changes its destination only, and that only after lowering is complete. It reports a lowering
error exactly when there is no document, and then, as well as when the destination cannot be opened or is
nowhere, the files are as before. When it reports so many bytes written, these are the bytes of the
document, the path holds them and nothing else, whatever it held before, and no other node has changed.
When writing fails, the destination is a device that keeps nothing, and the files are as before, too. -/
theorem dump_changes_destination_only (files : FileSystem) (naming : Naming) (grammar : Grammar)
    (destination : Destination) :
    let document := (renderDocument naming grammar.productions).1
    let outcome := (dumpOn files naming grammar destination).1
    let after := (dumpOn files naming grammar destination).2
    (∀ cause, outcome = .error (.lowering cause) ↔ document = .error cause) ∧
      (∀ cause, outcome = .error (.lowering cause) → after = files) ∧
      (∀ path cause, outcome = .error (.writing ⟨path, .opening cause⟩) →
        destination = .file path ∧ files.open? path = .error cause ∧ after = files) ∧
      (outcome = .ok .notPersisted → destination = .nowhere ∧ after = files) ∧
      (∀ path bytes, outcome = .ok (.written path bytes) →
        destination = .file path ∧ ∃ text location, document = .ok text ∧
          files.open? path = .ok (some location) ∧ bytes = text.toUTF8.size ∧
          after.read path = .ok text.toUTF8 ∧
          after.node? location = some (.file text.toUTF8) ∧
          FileSystem.SameExcept location files after) ∧
      ∀ path cause, outcome = .error (.writing ⟨path, .writing cause⟩) →
        destination = .file path ∧ files.open? path = .ok none ∧ after = files := by
  intro document outcome after
  cases hdocument : document with
  | error cause =>
      have hdump := dump_on_of_error files destination hdocument
      have houtcome : outcome = .error (.lowering cause) := congrArg Prod.fst hdump
      have hafter : after = files := congrArg Prod.snd hdump
      simp [houtcome, hafter]
  | ok text =>
      have hcontent := is_empty_of_render_document hdocument
      cases destination with
      | nowhere =>
          have hdump := dump_on_nowhere files hdocument
          have houtcome : outcome = .ok .notPersisted := congrArg Prod.fst hdump
          have hafter : after = files := congrArg Prod.snd hdump
          simp [houtcome, hafter]
      | file path =>
          have hdump := dump_on_file files path hdocument
          obtain ⟨cause, hopen, hsave⟩ | ⟨hopen, hsave⟩ | ⟨location, hopen, hsave⟩ :=
            save_cases files path hcontent
          · rw [hsave] at hdump
            have houtcome : outcome = .error (.writing ⟨path, .opening cause⟩) :=
              congrArg Prod.fst hdump
            have hafter : after = files := congrArg Prod.snd hdump
            simp +contextual [houtcome, hafter, hopen]
          · rw [hsave] at hdump
            have houtcome : outcome = .error (.writing ⟨path, .writing .noSpace⟩) :=
              congrArg Prod.fst hdump
            have hafter : after = files := congrArg Prod.snd hdump
            simp +contextual [houtcome, hafter, hopen]
          · rw [hsave] at hdump
            have houtcome : outcome = .ok (.written path text.utf8ByteSize) := congrArg Prod.fst hdump
            have hafter : after = files.set location (.file text.toUTF8) := congrArg Prod.snd hdump
            have hread := FileSystem.read_set hopen text.toUTF8
            obtain ⟨hnode, hsame⟩ := FileSystem.node_set_of_open hopen (.file text.toUTF8)
            rw [← hafter] at hread hnode hsame
            refine ⟨by simp [houtcome], by simp [houtcome], by simp [houtcome], by simp [houtcome], ?_,
              by simp [houtcome]⟩
            intro written bytes hwritten
            obtain ⟨rfl, rfl⟩ : path = written ∧ text.utf8ByteSize = bytes := by
              simpa [houtcome] using hwritten
            exact ⟨rfl, text, location, rfl, hopen, rfl, hread, hnode, hsame⟩

/-- A working directory with a file that is longer than the document of `sharedBounds`. -/
def longerFile : FileSystem :=
  FileSystem.empty.addFile "out.ddl" (String.ofList (List.replicate 1000 'x')).toUTF8

/-- The document of `sharedBounds` takes the place of a longer file. -/
theorem dump_over_longer_file :
    (dumpOn longerFile {} ⟨sharedBounds⟩ (.file "out.ddl")).1 = .ok (.written "out.ddl" 644) ∧
      ∃ text location, (renderDocument {} sharedBounds).1 = .ok text ∧
        longerFile.open? "out.ddl" = .ok (some location) ∧ 644 = text.toUTF8.size ∧
        (dumpOn longerFile {} ⟨sharedBounds⟩ (.file "out.ddl")).2.read "out.ddl" = .ok text.toUTF8 ∧
        FileSystem.SameExcept location longerFile
          (dumpOn longerFile {} ⟨sharedBounds⟩ (.file "out.ddl")).2 := by
  have houtcome : (dumpOn longerFile {} ⟨sharedBounds⟩ (.file "out.ddl")).1 =
      .ok (.written "out.ddl" 644) := by
    decide +kernel
  obtain ⟨-, -, -, -, hwritten, -⟩ :=
    dump_changes_destination_only longerFile {} ⟨sharedBounds⟩ (.file "out.ddl")
  obtain ⟨-, text, location, htext, hopen, hbytes, hread, -, hsame⟩ := hwritten _ _ houtcome
  exact ⟨houtcome, text, location, htext, hopen, hbytes, hread, hsame⟩

end ByteGrammar
