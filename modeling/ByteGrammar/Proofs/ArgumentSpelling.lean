import ByteGrammar.CommandLine.Arguments
import Mathlib

/-!
# Spellings of arguments

The grammar is an argument by itself, and the value of an option is attached to the option or follows it.
`Spelled` says which arguments spell a list of settings. `of_arguments_eq_run_iff` says that the arguments
ask for a run exactly when they spell one grammar and each option at most once, in any order, and that the
output and the naming of the run are then those of its options.
-/

namespace ByteGrammar.CommandLine

/-! ## Spellings -/

/-- The name of an option. -/
def Valued.name : Valued → String
  | output => "output"
  | config => "config"

/-- An argument that stands for itself: a single dash, or one that begins with anything else. -/
def IsValue (argument : String) : Prop :=
  argument = "-" ∨ argument.toList.head? ≠ some '-'

/-- The arguments that name an option and leave its value to the next argument. -/
inductive Names : String → Valued → Prop where
  | short : Names "-o" .output
  | long (option) : Names ("--" ++ option.name) option

/-- The arguments that name an option together with its value. -/
inductive Attaches : String → Valued → String → Prop where
  | short (value) : value ≠ "" → value.toList.head? ≠ some '=' → Attaches ("-o" ++ value) .output value
  | shortEquals (value) : Attaches ("-o=" ++ value) .output value
  | longEquals (option value) : Attaches ("--" ++ option.name ++ "=" ++ value) option value

/-- What arguments set: the grammar, or the value of an option. -/
inductive Setting where
  | grammar (path : String)
  | option (option : Valued) (value : String)
  deriving DecidableEq, Repr, Inhabited

namespace Setting

/-- The arguments for one setting. -/
inductive SpelledBy : Setting → List String → Prop where
  | grammar (path) : IsValue path → SpelledBy (.grammar path) [path]
  | attached (argument option value) :
      Attaches argument option value → SpelledBy (.option option value) [argument]
  | detached (argument option value) :
      Names argument option → IsValue value → SpelledBy (.option option value) [argument, value]

/-- The grammar that is set. -/
def grammar? : Setting → Option String
  | grammar path => some path
  | option _ _ => none

/-- The value that is set for an option. -/
def value? (wanted : Valued) : Setting → Option String
  | grammar _ => none
  | option given value => if given = wanted then some value else none

end Setting

/-- The arguments for a list of settings, in order. Behind a double dash, every argument is a grammar. -/
inductive Spelled : List Setting → List String → Prop where
  | nil : Spelled [] []
  | cons (setting settings arguments rest) : setting.SpelledBy arguments → Spelled settings rest →
      Spelled (setting :: settings) (arguments ++ rest)
  | separator (paths) : Spelled (paths.map .grammar) ("--" :: paths)

/-- What a run with some settings does: there is one grammar, and each option is set once or not at all. Only
the output may be empty, and it is nowhere when it is not set. -/
structure Describes (settings : List Setting) (options : Options) : Prop where
  grammar : settings.filterMap Setting.grammar? = [options.grammar]
  grammar_ne_empty : options.grammar ≠ ""
  output : ∃ output : Option String, settings.filterMap (Setting.value? .output) = output.toList ∧
    options.output = .ofText (output.getD "-")
  config : settings.filterMap (Setting.value? .config) = options.config.toList
  config_ne_empty : options.config ≠ some ""

/-! ## Forms -/

/-- What an argument is like when it has a form. -/
inductive Form.Reads (argument : String) : Form → Prop where
  | separator : argument = "--" → Reads argument .separator
  | help : Reads argument .help
  | version : Reads argument .version
  | strange : Reads argument .strange
  | plain : IsValue argument → Reads argument (.plain argument)
  | detached (option) : Names argument option → Reads argument (.detached option)
  | attached (option value) : Attaches argument option value → Reads argument (.attached option value)

/-- A long option reads as its form says. -/
theorem reads_long_form {argument : String} {text : List Char}
    (h : argument.toList = '-' :: '-' :: text) : Form.Reads argument (longForm text) := by
  have hparts := List.takeWhile_append_dropWhile (p := (· ≠ '=')) (l := text)
  have hequals := List.head?_dropWhile_not (· ≠ '=') text
  rw [longForm]
  generalize text.takeWhile (· ≠ '=') = name at hparts ⊢
  split
  next hrest =>
    have hargument : argument = "--" ++ String.ofList name := by
      rw [← String.toList_inj, h, ← hparts, hrest]
      simp
    split
    next => exact .help
    split
    next => exact .version
    split
    next houtput => exact .detached .output (by rw [hargument, houtput]; exact .long .output)
    split
    next hconfig => exact .detached .config (by rw [hargument, hconfig]; exact .long .config)
    next => exact .strange
  next c value hrest =>
    obtain rfl : c = '=' := by
      rw [hrest] at hequals
      simpa using hequals
    have hargument : argument = "--" ++ String.ofList name ++ "=" ++ String.ofList value := by
      rw [← String.toList_inj, h, ← hparts, hrest]
      simp
    split
    next houtput =>
      exact .attached .output _ (by rw [hargument, houtput]; exact .longEquals .output _)
    split
    next hconfig =>
      exact .attached .config _ (by rw [hargument, hconfig]; exact .longEquals .config _)
    next => exact .strange

/-- A group of short options reads as its form says. -/
theorem reads_short_form {argument : String} {text : List Char}
    (h : argument.toList = '-' :: text) : Form.Reads argument (shortForm text) := by
  unfold shortForm
  split
  next => exact .help
  next => exact .version
  next =>
    obtain rfl : argument = "-o" := String.toList_inj.mp h
    exact .detached .output .short
  next value =>
    obtain rfl : argument = "-o=" ++ String.ofList value := String.toList_inj.mp (by simp [h])
    exact .attached .output _ (.shortEquals _)
  next value hnone hequals =>
    obtain rfl : argument = "-o" ++ String.ofList value := String.toList_inj.mp (by simp [h])
    refine .attached .output _ (.short _ (fun hempty => hnone (by simpa using hempty)) fun hhead => ?_)
    obtain ⟨rest, hrest⟩ := List.head?_eq_some_iff.mp hhead
    exact hequals rest (String.toList_ofList.symm.trans hrest)
  next => exact .strange

/-- Every argument reads as its form says. -/
theorem reads_of_argument (argument : String) : Form.Reads argument (.ofArgument argument) := by
  unfold Form.ofArgument
  split
  next h => exact .plain (.inl (String.toList_inj.mp h))
  next h => exact .separator (String.toList_inj.mp h)
  next text _ h => exact reads_long_form h
  next text _ _ h => exact reads_short_form h
  next hother =>
    refine .plain (.inr fun hhead => ?_)
    obtain ⟨rest, hrest⟩ := List.head?_eq_some_iff.mp hhead
    exact hother rest hrest

section Forms

variable {argument value : String} {option : Valued}

/-- A value stands for itself. -/
theorem form_of_is_value (h : IsValue argument) : Form.ofArgument argument = .plain argument := by
  rcases h with rfl | h
  · rfl
  · unfold Form.ofArgument
    split <;> simp_all

/-- The form of an argument that names an option. -/
theorem form_of_names (h : Names argument option) : Form.ofArgument argument = .detached option := by
  cases h with
  | short => rfl
  | long => cases option <;> rfl

/-- The form of an argument that names an option together with its value. -/
theorem form_of_attaches (h : Attaches argument option value) :
    Form.ofArgument argument = .attached option value := by
  cases h with
  | short value hvalue hhead =>
      have htext : ("-o" ++ value).toList = '-' :: 'o' :: value.toList := by simp
      rw [Form.ofArgument, htext]
      show shortForm ('o' :: value.toList) = _
      cases hlist : value.toList with
      | nil => exact absurd (String.toList_eq_nil_iff.mp hlist) hvalue
      | cons c rest =>
          have hc : c ≠ '=' := fun heq => hhead (by rw [hlist, heq]; rfl)
          rw [shortForm, ← hlist, String.ofList_toList]
          · simp
          · simpa using fun hequals => absurd hequals hc
  | shortEquals value =>
      have htext : ("-o=" ++ value).toList = '-' :: 'o' :: '=' :: value.toList := by simp
      rw [Form.ofArgument, htext]
      exact congrArg (Form.attached .output) String.ofList_toList
  | longEquals option value =>
      have htext : ("--" ++ option.name ++ "=" ++ value).toList =
          '-' :: '-' :: (option.name.toList ++ '=' :: value.toList) := by simp
      have hlong : longForm (option.name.toList ++ '=' :: value.toList) =
          .attached option (String.ofList value.toList) := by cases option <;> rfl
      rw [String.ofList_toList] at hlong
      rw [Form.ofArgument, htext]
      cases option <;> exact hlong

end Forms

/-! ## Collecting settings -/

namespace Collected

/-- Takes what a setting says. -/
def set (collected : Collected) : Setting → Option Collected
  | .grammar path => collected.takeGrammar path
  | .option option value => collected.take option value

/-- Takes what settings say, one after the other. -/
def setAll (collected : Collected) (settings : List Setting) : Option Collected :=
  settings.foldlM set collected

/-- The arguments behind a double dash ask for a run when they can all be taken as the grammar. -/
theorem positional_eq_run_iff {collected : Collected} {paths : List String} {options : Options} :
    collected.positional paths = .run options ↔
      ∃ last, collected.setAll (paths.map .grammar) = some last ∧ last.finish = .run options := by
  induction paths generalizing collected with
  | nil => simp [positional, setAll]
  | cons path paths ih =>
      rw [positional, List.map_cons, setAll, List.foldlM_cons]
      simp only [set]
      cases collected.takeGrammar path with
      | none => simp
      | some next => exact ih

end Collected

/-- One setting more in front. -/
theorem Spelled.exists_cons {collected next : Collected} {setting : Setting} {arguments rest : List String}
    {options : Options} (hsetting : setting.SpelledBy arguments) (hset : collected.set setting = some next)
    (hrest : ∃ settings, Spelled settings rest ∧
      ∃ last, next.setAll settings = some last ∧ last.finish = .run options) :
    ∃ settings, Spelled settings (arguments ++ rest) ∧
      ∃ last, collected.setAll settings = some last ∧ last.finish = .run options := by
  obtain ⟨settings, hspelled, last, hlast, hfinish⟩ := hrest
  refine ⟨setting :: settings, .cons _ _ _ _ hsetting hspelled, last, ?_, hfinish⟩
  rw [Collected.setAll, List.foldlM_cons, hset]
  exact hlast

/-- Arguments that ask for a run spell settings that can be taken. -/
theorem spelled_of_collect {collected : Collected} {arguments : List String} {options : Options}
    (h : collect collected arguments = .run options) :
    ∃ settings, Spelled settings arguments ∧
      ∃ last, collected.setAll settings = some last ∧ last.finish = .run options := by
  fun_induction collect collected arguments with
  | case1 collected => exact ⟨[], .nil, collected, rfl, h⟩
  | case2 collected argument arguments hform =>
      have hreads := reads_of_argument argument
      rw [hform] at hreads
      obtain ⟨rfl⟩ := hreads
      exact ⟨_, .separator arguments, Collected.positional_eq_run_iff.mp h⟩
  | case7 collected argument arguments value hform next hnext ih =>
      have hreads := reads_of_argument argument
      rw [hform] at hreads
      cases hreads with
      | plain hvalue => exact Spelled.exists_cons (.grammar argument hvalue) hnext (ih h)
  | case9 collected argument arguments option value hform next hnext ih =>
      have hreads := reads_of_argument argument
      rw [hform] at hreads
      cases hreads with
      | attached _ _ hattaches =>
          exact Spelled.exists_cons (.attached argument option value hattaches) hnext (ih h)
  | case12 collected argument option hform value arguments text hvalue next hnext ih =>
      have hreads := reads_of_argument argument
      have hreadsValue := reads_of_argument value
      rw [hform] at hreads
      rw [hvalue] at hreadsValue
      cases hreads with
      | detached _ hnames =>
          cases hreadsValue with
          | plain hplain =>
              exact Spelled.exists_cons (.detached argument option value hnames hplain) hnext (ih h)
  -- In all other cases there is no run.
  | _ => cases h

/-- Arguments that spell settings which can be taken, with a grammar among them, ask for a run. -/
theorem collect_of_spelled {collected last : Collected} {settings : List Setting}
    {arguments : List String} {options : Options} (hspelled : Spelled settings arguments)
    (hset : collected.setAll settings = some last) (hfinish : last.finish = .run options) :
    collect collected arguments = .run options := by
  induction hspelled generalizing collected with
  | nil =>
      obtain rfl := Option.some.inj hset
      exact hfinish
  | separator paths =>
      rw [collect]
      exact Collected.positional_eq_run_iff.mpr ⟨last, hset, hfinish⟩
  | cons setting settings arguments rest hsetting _ ih =>
      rw [Collected.setAll, List.foldlM_cons] at hset
      obtain ⟨next, hnext, hlater⟩ := Option.bind_eq_some_iff.mp hset
      have hrest := ih hlater
      cases hsetting with
      | grammar path hvalue =>
          rw [List.singleton_append, collect, form_of_is_value hvalue]
          simpa only [show collected.takeGrammar path = some next from hnext] using hrest
      | attached argument option value hattaches =>
          rw [List.singleton_append, collect, form_of_attaches hattaches]
          simpa only [show collected.take option value = some next from hnext] using hrest
      | detached argument option value hnames hvalue =>
          rw [List.cons_append, List.singleton_append, collect, form_of_names hnames]
          simp only [form_of_is_value hvalue]
          simpa only [show collected.take option value = some next from hnext] using hrest

/-! ## What settings describe -/

namespace Collected

/-- How a state goes on when some settings are taken: what they set is put behind what has been met. -/
@[mk_iff]
structure Gathers (collected : Collected) (settings : List Setting) (last : Collected) : Prop where
  grammar : collected.grammar.toList ++ settings.filterMap Setting.grammar? = last.grammar.toList
  output : collected.output.toList ++ settings.filterMap (Setting.value? .output) =
    last.output.toList
  config : collected.config.toList ++ settings.filterMap (Setting.value? .config) =
    last.config.toList

/-- The settings in which only an output may be empty. -/
def Filled (settings : List Setting) : Prop :=
  (∀ path ∈ settings.filterMap Setting.grammar?, path ≠ "") ∧
    ∀ path ∈ settings.filterMap (Setting.value? .config), path ≠ ""

/-- At most one value, as a list, determines what it is. -/
theorem to_list_inj {α : Type} {first second : Option α} :
    first.toList = second.toList ↔ first = second := by
  cases first <;> cases second <;> simp

/-- One more value makes at most one when there was none. -/
theorem append_singleton_eq_to_list_iff {α : Type} {first second : Option α} {value : α} :
    first.toList ++ [value] = second.toList ↔ first = none ∧ some value = second := by
  cases first <;> cases second <;> simp

/-- What is at the beginning of at most one value is itself at most one. -/
theorem exists_to_list_eq {α : Type} {held : Option α} {front rest : List α}
    (h : front ++ rest = held.toList) : ∃ first : Option α, front = first.toList := by
  cases front with
  | nil => exact ⟨none, rfl⟩
  | cons a front =>
      cases held with
      | none => simp at h
      | some b =>
          obtain ⟨-, hnil⟩ := List.cons.inj h
          obtain ⟨rfl, -⟩ := List.append_eq_nil_iff.mp hnil
          exact ⟨some a, rfl⟩

/-- Without settings, nothing is gathered. -/
theorem gathers_nil_iff {collected last : Collected} :
    collected.Gathers [] last ↔ collected = last := by
  obtain ⟨grammar, output, config⟩ := collected
  obtain ⟨grammar', output', config'⟩ := last
  simp [gathers_iff, to_list_inj]

/-- Taking some settings and then others is taking all of them. -/
theorem gathers_append_iff {collected last : Collected} {first second : List Setting} :
    collected.Gathers (first ++ second) last ↔
      ∃ next : Collected, collected.Gathers first next ∧ next.Gathers second last := by
  constructor
  · rintro ⟨hgrammar, houtput, hconfig⟩
    rw [List.filterMap_append, ← List.append_assoc] at hgrammar houtput hconfig
    obtain ⟨grammar, hgrammars⟩ := exists_to_list_eq hgrammar
    obtain ⟨output, houtputs⟩ := exists_to_list_eq houtput
    obtain ⟨config, hconfigs⟩ := exists_to_list_eq hconfig
    refine ⟨⟨grammar, output, config⟩, ⟨hgrammars, houtputs, hconfigs⟩, ?_, ?_, ?_⟩
    · rw [← hgrammars, hgrammar]
    · rw [← houtputs, houtput]
    · rw [← hconfigs, hconfig]
  · rintro ⟨next, hfirst, hsecond⟩
    constructor
    · rw [← hsecond.grammar, ← hfirst.grammar, List.filterMap_append, List.append_assoc]
    · rw [← hsecond.output, ← hfirst.output, List.filterMap_append, List.append_assoc]
    · rw [← hsecond.config, ← hfirst.config, List.filterMap_append, List.append_assoc]

/-- A setting can be taken when it is not set before and not empty, an output excepted. -/
theorem set_eq_some_iff {collected next : Collected} {setting : Setting} :
    collected.set setting = some next ↔ collected.Gathers [setting] next ∧ Filled [setting] := by
  obtain ⟨grammar, output, config⟩ := collected
  obtain ⟨grammar', output', config'⟩ := next
  cases setting with
  | grammar path =>
      simp only [gathers_iff, Filled, List.filterMap_cons, List.filterMap_nil, Setting.grammar?,
        Setting.value?, List.append_nil, to_list_inj, append_singleton_eq_to_list_iff]
      cases grammar <;> by_cases hpath : path = "" <;> simp [set, takeGrammar, hpath]
  | option option value =>
      cases option with
      | output =>
          simp only [gathers_iff, Filled, List.filterMap_cons, List.filterMap_nil, Setting.grammar?,
            Setting.value?, reduceCtorEq, if_true, if_false, List.append_nil, to_list_inj,
            append_singleton_eq_to_list_iff]
          cases output <;> simp [set, take]
      | config =>
          simp only [gathers_iff, Filled, List.filterMap_cons, List.filterMap_nil, Setting.grammar?,
            Setting.value?, reduceCtorEq, if_true, if_false, List.append_nil, to_list_inj,
            append_singleton_eq_to_list_iff]
          cases config <;> by_cases hvalue : value = "" <;> simp [set, take, hvalue]

/-- Settings can be taken when nothing is set twice and only an output is empty. -/
theorem set_all_eq_some_iff {collected last : Collected} {settings : List Setting} :
    collected.setAll settings = some last ↔ collected.Gathers settings last ∧ Filled settings := by
  induction settings generalizing collected with
  | nil => simp [setAll, gathers_nil_iff, Filled]
  | cons setting settings ih =>
      have hfilled : Filled (setting :: settings) ↔ Filled [setting] ∧ Filled settings := by
        rw [← List.singleton_append]
        simp only [Filled, List.filterMap_append, List.forall_mem_append]
        tauto
      rw [setAll, List.foldlM_cons, hfilled, ← List.singleton_append, gathers_append_iff]
      show (collected.set setting >>= fun next : Collected => next.setAll settings) = some last ↔ _
      simp only [Option.bind_eq_bind, Option.bind_eq_some_iff, set_eq_some_iff, ih]
      tauto

end Collected

/-- Settings that can be taken with a grammar among them describe the run. -/
theorem describes_iff {settings : List Setting} {options : Options} :
    Describes settings options ↔
      ∃ last, Collected.setAll {} settings = some last ∧ last.finish = .run options := by
  simp only [Collected.set_all_eq_some_iff]
  constructor
  · rintro ⟨hgrammar, hnonempty, ⟨output, houtput, hdestination⟩, hconfig, hfilled⟩
    refine ⟨⟨some options.grammar, output, options.config⟩, ⟨⟨hgrammar, houtput, hconfig⟩, ?_, ?_⟩, ?_⟩
    · rw [hgrammar]
      simpa using hnonempty
    · rw [hconfig]
      rintro path hpath rfl
      exact hfilled (Option.mem_toList.mp hpath)
    · rw [Collected.finish, Destination.dash, ← hdestination]
  · rintro ⟨⟨grammar, output, config⟩, ⟨⟨hgrammar, houtput, hconfig⟩, hgrammars, hconfigs⟩, hfinish⟩
    cases grammar with
    | none => cases hfinish
    | some path =>
        obtain rfl := Request.run.inj hfinish
        have hpath : settings.filterMap Setting.grammar? = [path] := hgrammar
        have hvalue : settings.filterMap (Setting.value? .config) = config.toList := hconfig
        rw [hpath] at hgrammars
        rw [hvalue] at hconfigs
        exact {
          grammar := hpath
          grammar_ne_empty := hgrammars path (List.mem_singleton_self path)
          output := ⟨output, houtput, rfl⟩
          config := hvalue
          config_ne_empty := fun hempty => hconfigs "" (Option.mem_toList.mpr hempty) rfl }

/-- Which arguments ask for a run, and for what. They spell settings with one grammar and each option at most
once, in any order; behind a double dash, no option is recognised. The run then lowers this grammar, and its
output and naming are what the options say. -/
theorem of_arguments_eq_run_iff {arguments : List String} {options : Options} :
    Request.ofArguments arguments = .run options ↔
      ∃ settings, Spelled settings arguments ∧ Describes settings options := by
  simp only [describes_iff]
  constructor
  · exact spelled_of_collect
  · rintro ⟨settings, hspelled, last, hset, hfinish⟩
    exact collect_of_spelled hspelled hset hfinish

/-- An output that is attached to its option, and a grammar behind a double dash that looks like an
option. -/
example : Request.ofArguments ["--config", "c.json", "-oout", "--", "-g"] =
    .run ⟨"-g", .file "out", some "c.json"⟩ := by
  decide +kernel

end ByteGrammar.CommandLine
