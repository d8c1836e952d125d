import ByteGrammar.Naming.Basic
import ByteGrammar.Proofs.InfixGrammar
import ByteGrammar.Text.Hexadecimal
import Mathlib

/-!
# Texts of infix expressions

A text is split at spaces and parentheses, and a word is a decimal or hexadecimal number, a sign or an
identifier. `Lexes` says which tokens a text contributes whatever follows it, as long as the last word
ends there. `ReadsAs` says what reading a text amounts to: a `Line` of operands with signs between them,
whatever stands to its left. Texts with a sign between them read as lines with that sign between them,
which is how a text without parentheses of its own can be taken apart by what surrounds it.
-/

namespace ByteGrammar.Infix

/-! ## Words -/

/-- The sign that a word is. -/
def sign? : List Char → Option Operator
  | ['+'] => some .plus
  | ['-'] => some .minus
  | ['*'] => some .times
  | _ => none

/-- The value of a word of decimal digits. -/
def natural? (digits : List Char) : Option Nat :=
  if digits ≠ [] ∧ digits.all Char.isDigit then some (Nat.ofDigitChars 10 digits 0) else none

/-- The value of a word of decimal digits, which may be negative. -/
def integer? : List Char → Option Int
  | '-' :: digits => (natural? digits).map fun (value : Nat) => -(value : Int)
  | digits => (natural? digits).map fun (value : Nat) => (value : Int)

/-- Reads a hexadecimal digit after a value. -/
def hexadecimalStep (value : Nat) (digit : Char) : Option Nat :=
  (Text.digitValue? digit).map fun last => 16 * value + last

/-- The value of a word of hexadecimal digits after `0x`. -/
def hexadecimal? : List Char → Option Nat
  | '0' :: 'x' :: digit :: digits => (digit :: digits).foldlM hexadecimalStep 0
  | _ => none

/-- The token that a word is. -/
def word? (word : List Char) : Option Token :=
  match integer? word with
  | some value => some (.number value)
  | none =>
    match hexadecimal? word with
    | some value => some (.number value)
    | none =>
      match sign? word with
      | some op => some (.sign op)
      | none => if isIdentifier (String.ofList word) then some (.name (String.ofList word)) else none

/-- Decimal digits are read back. -/
theorem natural_to_digits (value : Nat) : natural? (Nat.toDigits 10 value) = some value := by
  have hdigits : (Nat.toDigits 10 value).all Char.isDigit = true :=
    List.all_eq_true.mpr fun _ h => Nat.isDigit_of_mem_toDigits (by decide) (by decide) h
  rw [natural?, if_pos ⟨Nat.toDigits_ne_nil, hdigits⟩, Nat.ofDigitChars_ten_toDigits]

/-- A word that is a number is not taken for a negative one. -/
theorem integer_of_natural {digits : List Char} {value : Nat} (h : natural? digits = some value) :
    integer? digits = some (value : Int) := by
  unfold integer?
  split
  · simp [natural?, Char.isDigit] at h
  · simp [h]

/-- The text of an integer is read back. -/
theorem integer_to_string (value : Int) : integer? (toString value).toList = some value := by
  rw [Int.toString_eq_repr, Int.repr_eq_if]
  split
  · rw [Nat.toList_repr, integer_of_natural (natural_to_digits _)]
    simp only [Option.some.injEq]
    omega
  · have hminus : "-".toList = ['-'] := by simp
    rw [String.toList_append, Nat.toList_repr, hminus, List.singleton_append, integer?,
      natural_to_digits, Option.map_some]
    simp only [Option.some.injEq]
    omega

/-- Upper-case digits add their value to what was read before them. -/
theorem fold_upper_digits (count value start : Nat) :
    (Text.upperDigits count value).foldlM hexadecimalStep start =
      some (16 ^ count * start + value % 16 ^ count) := by
  induction count generalizing value with
  | zero => simp [Text.upperDigits, Nat.mod_one]
  | succ count ih =>
      have hdigit := Text.digit_value_upper_digit (Nat.mod_lt value (by decide : 0 < 16))
      rw [Text.upperDigits, List.foldlM_append, ih]
      simp only [Option.bind_eq_bind, Option.bind_some, List.foldlM_cons, List.foldlM_nil,
        hexadecimalStep, hdigit, Option.map_some, Option.pure_def]
      congr 1
      rw [Nat.pow_succ, Nat.mul_comm (16 ^ count) 16, Nat.mod_mul, Nat.mul_add, Nat.mul_assoc]
      omega

/-- The text of a 64-bit pattern is a number. -/
theorem word_hexadecimal {value : Nat} (h : value < 2 ^ 64) :
    word? ('0' :: 'x' :: Text.upperDigits 16 value) = some (.number value) := by
  have hinteger : integer? ('0' :: 'x' :: Text.upperDigits 16 value) = none := by
    simp [integer?, natural?]
  have hfits : value % 16 ^ 16 = value := Nat.mod_eq_of_lt h
  have hvalue : hexadecimal? ('0' :: 'x' :: Text.upperDigits 16 value) = some value := by
    have hfold := fold_upper_digits 16 value 0
    have hlength := Text.length_upper_digits 16 value
    cases hdigits : Text.upperDigits 16 value with
    | nil => simp [hdigits] at hlength
    | cons digit digits =>
        rw [hdigits, hfits, Nat.mul_zero, Nat.zero_add] at hfold
        exact hfold
  rw [word?, hinteger, hvalue]

/-- The text of an integer is a number. -/
theorem word_integer (value : Int) : word? (toString value).toList = some (.number value) := by
  rw [word?, integer_to_string]

/-- An identifier does not start with a digit. -/
theorem is_digit_of_identifier_start {c : Char} (h : isIdentifierStart c = true) :
    c.isDigit = false := by
  rw [Bool.eq_false_iff]
  intro hdigit
  simp only [isIdentifierStart, Char.isAlpha, Char.isUpper, Char.isLower, Char.isDigit,
    Bool.or_eq_true, Bool.and_eq_true, decide_eq_true_eq, beq_iff_eq, ge_iff_le,
    UInt32.le_iff_toNat_le, Char.reduceVal, UInt32.reduceToNat] at h hdigit
  rcases h with h | rfl
  · omega
  · exact absurd hdigit.2 (by decide)

/-- An identifier is taken neither for a number nor for a sign. -/
theorem word_identifier {name : String} (h : isIdentifier name = true) :
    word? name.toList = some (.name name) := by
  have hchars := h
  unfold isIdentifier at hchars
  cases htext : name.toList with
  | nil => simp [htext] at hchars
  | cons first rest =>
      rw [htext, Bool.and_eq_true] at hchars
      have hdigit := is_digit_of_identifier_start hchars.1
      have hfirst (c : Char) (hc : isIdentifierStart c = false) : first ≠ c := by
        rintro rfl
        exact absurd hchars.1 (Bool.eq_false_iff.mp hc)
      have hinteger : integer? (first :: rest) = none := by
        unfold integer?
        split
        next heq => exact absurd (List.cons.inj heq).1 (hfirst '-' (by decide))
        next => simp [natural?, hdigit]
      have hhexadecimal : hexadecimal? (first :: rest) = none := by
        unfold hexadecimal?
        split
        next heq => exact absurd (List.cons.inj heq).1 (hfirst '0' (by decide))
        next => rfl
      have hsign : sign? (first :: rest) = none := by
        unfold sign?
        split
        next heq => exact absurd (List.cons.inj heq).1 (hfirst '+' (by decide))
        next heq => exact absurd (List.cons.inj heq).1 (hfirst '-' (by decide))
        next heq => exact absurd (List.cons.inj heq).1 (hfirst '*' (by decide))
        next => rfl
      rw [word?, hinteger, hhexadecimal, hsign, ← htext, String.ofList_toList, if_pos h]

/-- A sign is read back. -/
theorem word_symbol (op : Operator) : word? op.symbol.toList = some (.sign op) := by
  cases op <;> decide

/-! ## Splitting a text -/

/-- What a character that ends a word contributes itself. -/
def delimiter? : Char → Option (List Token)
  | ' ' => some []
  | '(' => some [.opening]
  | ')' => some [.closing]
  | _ => none

/-- The token of a word that has ended, if there is one. -/
def flush? : List Char → Option (List Token)
  | [] => some []
  | word => (word? word).map fun token => [token]

/-- The tokens of a text that follows the beginning of a word. -/
def tokens? (pending : List Char) : List Char → Option (List Token)
  | [] => flush? pending
  | c :: rest =>
    match delimiter? c with
    | some token => do
        let word ← flush? pending
        let tokens ← tokens? [] rest
        return word ++ (token ++ tokens)
    | none => tokens? (pending ++ [c]) rest

/-- The expression that a text reads as. -/
def read (text : String) : Option Expr :=
  tokens? [] text.toList >>= readTokens

/-- A text reads as an expression exactly when the grammar derives its tokens. -/
theorem read_eq_some_iff {text : String} {expr : Expr} :
    read text = some expr ↔
      ∃ tokens, tokens? [] text.toList = some tokens ∧ Derives .sum tokens expr := by
  rw [read, Option.bind_eq_bind, Option.bind_eq_some_iff]
  simp only [read_tokens_eq_some_iff]

/-- Characters in front of which a word has ended. -/
def Delimited (rest : List Char) : Prop :=
  ∀ c ∈ rest.head?, delimiter? c ≠ none

/-- `Lexes text tokens` says that a text contributes these tokens wherever its last word ends with it. -/
def Lexes (text : List Char) (tokens : List Token) : Prop :=
  ∀ rest, Delimited rest →
    tokens? [] (text ++ rest) = (tokens? [] rest).map fun following => tokens ++ following

/-- Characters that end no word are collected. -/
theorem tokens_append_word {word : List Char} (hword : ∀ c ∈ word, delimiter? c = none)
    (pending rest : List Char) :
    tokens? pending (word ++ rest) = tokens? (pending ++ word) rest := by
  induction word generalizing pending with
  | nil => simp
  | cons c word ih =>
      rw [List.cons_append, tokens?, hword c List.mem_cons_self]
      show tokens? (pending ++ [c]) (word ++ rest) = _
      rw [ih (fun d hd => hword d (List.mem_cons_of_mem c hd)), List.append_assoc,
        List.singleton_append]

/-- A delimiter ends the word before it. -/
theorem tokens_delimiter {c : Char} {delimiter : List Token}
    (hdelimiter : delimiter? c = some delimiter) (pending rest : List Char) :
    tokens? pending (c :: rest) = (flush? pending).bind fun word =>
      (tokens? [] rest).map fun tokens => word ++ (delimiter ++ tokens) := by
  rw [tokens?, hdelimiter]
  cases flush? pending <;> cases tokens? [] rest <;> rfl

/-- A delimiter after a delimiter contributes only its own token. -/
theorem tokens_nil_delimiter {c : Char} {delimiter : List Token}
    (hdelimiter : delimiter? c = some delimiter) (rest : List Char) :
    tokens? [] (c :: rest) = (tokens? [] rest).map fun tokens => delimiter ++ tokens :=
  tokens_delimiter hdelimiter [] rest

/-- A delimiter ends every word. -/
theorem delimited_cons {c : Char} {delimiter : List Token}
    (hdelimiter : delimiter? c = some delimiter) (rest : List Char) : Delimited (c :: rest) := by
  intro d hd
  cases hd
  simp [hdelimiter]

/-- A word contributes its token. -/
theorem lexes_word {word : List Char} {token : Token} (htoken : word? word = some token)
    (hword : ∀ c ∈ word, delimiter? c = none) : Lexes word [token] := by
  intro rest hrest
  have hflush : flush? word = some [token] := by
    cases word with
    | nil =>
        have hempty : word? [] = none := by decide
        rw [hempty] at htoken
        cases htoken
    | cons c word => simp [flush?, htoken]
  rw [tokens_append_word hword, List.nil_append]
  -- The word ends with the text or in front of a delimiter, which flushes it.
  cases rest with
  | nil =>
      rw [tokens?, hflush]
      rfl
  | cons c rest =>
      obtain ⟨delimiter, hdelimiter⟩ := Option.ne_none_iff_exists'.mp (hrest c rfl)
      rw [tokens_delimiter hdelimiter, tokens_nil_delimiter hdelimiter, hflush, Option.map_map]
      rfl

/-- A space between two texts separates their tokens. -/
theorem Lexes.space {left right : List Char} {leftTokens rightTokens : List Token}
    (hleft : Lexes left leftTokens) (hright : Lexes right rightTokens) :
    Lexes (left ++ ' ' :: right) (leftTokens ++ rightTokens) := by
  intro rest hrest
  have hspace : delimiter? ' ' = some [] := rfl
  rw [List.append_assoc, List.cons_append, hleft _ (delimited_cons hspace _),
    tokens_nil_delimiter hspace, hright rest hrest, Option.map_map, Option.map_map]
  simp [Function.comp_def]

/-- Parentheses around a text enclose its tokens. -/
theorem Lexes.group {text : List Char} {tokens : List Token} (h : Lexes text tokens) :
    Lexes ('(' :: (text ++ [')'])) (.opening :: (tokens ++ [.closing])) := by
  intro rest hrest
  have hopening : delimiter? '(' = some [.opening] := rfl
  have hclosing : delimiter? ')' = some [.closing] := rfl
  rw [List.cons_append, List.append_assoc, List.singleton_append, tokens_nil_delimiter hopening,
    h _ (delimited_cons hclosing _), tokens_nil_delimiter hclosing, Option.map_map,
    Option.map_map]
  simp [Function.comp_def]

/-- A whole text splits into the tokens that it contributes. -/
theorem Lexes.tokens {text : List Char} {tokens : List Token} (h : Lexes text tokens) :
    tokens? [] text = some tokens := by
  have hend : Delimited [] := by
    intro c hc
    cases hc
  have htokens := h [] hend
  rw [List.append_nil] at htokens
  simpa [tokens?, flush?] using htokens

/-- Characters that satisfy a test which no delimiter passes end no word. -/
theorem delimiter_eq_none {test : Char → Bool} (hspace : test ' ' = false)
    (hopening : test '(' = false) (hclosing : test ')' = false) {c : Char} (h : test c = true) :
    delimiter? c = none := by
  unfold delimiter?
  split
  next => exact absurd h (Bool.eq_false_iff.mp hspace)
  next => exact absurd h (Bool.eq_false_iff.mp hopening)
  next => exact absurd h (Bool.eq_false_iff.mp hclosing)
  next => rfl

/-- Hexadecimal digits end no word. -/
theorem delimiter_upper_digits (count value : Nat) :
    ∀ c ∈ Text.upperDigits count value, delimiter? c = none := by
  have hdigit : ∀ digit < 16, delimiter? (Text.upperDigit digit) = none := by decide
  induction count generalizing value with
  | zero => simp [Text.upperDigits]
  | succ count ih =>
      intro c hc
      rw [Text.upperDigits, List.mem_append, List.mem_singleton] at hc
      rcases hc with hc | rfl
      · exact ih (value / 16) c hc
      · exact hdigit _ (Nat.mod_lt value (by decide))

/-- Decimal digits and the minus sign end no word. -/
theorem delimiter_integer (value : Int) : ∀ c ∈ (toString value).toList, delimiter? c = none := by
  have hdigits (number : Nat) : ∀ c ∈ Nat.toDigits 10 number, delimiter? c = none := by
    intro c hc
    have hdigit := Nat.isDigit_of_mem_toDigits (by decide) (by decide) hc
    exact delimiter_eq_none (by decide) (by decide) (by decide) hdigit
  rw [Int.toString_eq_repr, Int.repr_eq_if]
  split
  · rw [Nat.toList_repr]
    exact hdigits _
  · have hminus : "-".toList = ['-'] := by simp
    rw [String.toList_append, Nat.toList_repr, hminus, List.singleton_append]
    exact List.forall_mem_cons.mpr ⟨by decide, hdigits _⟩

/-- The character of a sign ends no word. -/
theorem delimiter_symbol (op : Operator) : ∀ c ∈ op.symbol.toList, delimiter? c = none := by
  cases op <;> simp [Operator.symbol, delimiter?]

/-- The characters of an identifier end no word. -/
theorem delimiter_identifier {name : String} (h : isIdentifier name = true) :
    ∀ c ∈ name.toList, delimiter? c = none := by
  unfold isIdentifier at h
  cases htext : name.toList with
  | nil => simp
  | cons first rest =>
      rw [htext, Bool.and_eq_true, List.all_eq_true] at h
      refine List.forall_mem_cons.mpr ⟨?_, fun c hc => ?_⟩
      · exact delimiter_eq_none (by decide) (by decide) (by decide) h.1
      · exact delimiter_eq_none (by decide) (by decide) (by decide) (h.2 c hc)

/-! ## Lines -/

/-- The operands of a text with the signs between them, as values. -/
structure Line where
  first : Int
  rest : List (Operator × Int)
  deriving DecidableEq, Repr

namespace Line

/-- A single operand. -/
def single (value : Int) : Line :=
  ⟨value, []⟩

/-- Two lines with a sign between them. -/
def append (op : Operator) (left right : Line) : Line :=
  ⟨left.first, left.rest ++ (op, right.first) :: right.rest⟩

/-- The tally after a line, from the tally after its first operand. -/
def tally (start : Tally) (line : Line) : Tally :=
  line.rest.foldl (fun tally step => tally.advance step.1 step.2) start

/-- The value that a line is read as when nothing stands to its left. -/
def total (line : Line) : Int :=
  (line.tally ⟨0, line.first⟩).total

/-- The second of two lines starts from the tally of the first. -/
theorem tally_append (start : Tally) (op : Operator) (left right : Line) :
    (left.append op right).tally start =
      right.tally ((left.tally start).advance op right.first) := by
  simp [tally, append]

end Line

/-- `ReadsAs env text line` says that reading the text, whatever stands to its left, amounts to the
operands and signs of the line under an assignment. -/
def ReadsAs (env : Assignment) (text : String) (line : Line) : Prop :=
  ∃ tokens, Lexes text.toList tokens ∧ ∀ here outer, ∃ left factor,
    run (.operand here outer) tokens = some (.operator left factor outer) ∧
    left.tally env (factor.eval env) = line.tally (here.tally env line.first)

namespace ReadsAs

variable {env : Assignment}

/-- A number is read as its value. -/
theorem number {text : String} {value : Int} (hword : word? text.toList = some (.number value))
    (hchars : ∀ c ∈ text.toList, delimiter? c = none) : ReadsAs env text (.single value) :=
  ⟨_, lexes_word hword hchars, fun here _ => ⟨here, .literal value, rfl, rfl⟩⟩

/-- A decimal number is read as its value. -/
theorem integer (value : Int) : ReadsAs env (toString value) (.single value) :=
  number (word_integer value) (delimiter_integer value)

/-- A 64-bit pattern is read as its value. -/
theorem pattern {value : Nat} (h : value < 2 ^ 64) :
    ReadsAs env ("0x" ++ String.ofList (Text.upperDigits 16 value)) (.single value) := by
  have htext : ("0x" ++ String.ofList (Text.upperDigits 16 value)).toList =
      '0' :: 'x' :: Text.upperDigits 16 value := by simp
  refine number (by rw [htext, word_hexadecimal h]) ?_
  rw [htext]
  exact List.forall_mem_cons.mpr ⟨by decide,
    List.forall_mem_cons.mpr ⟨by decide, delimiter_upper_digits 16 value⟩⟩

/-- An identifier is read as what it is assigned. -/
theorem name {text : String} (h : isIdentifier text = true) :
    ReadsAs env text (.single (env.constant text)) :=
  ⟨_, lexes_word (word_identifier h) (delimiter_identifier h),
    fun here _ => ⟨here, .name text, rfl, rfl⟩⟩

/-- A selection is read as the byte at its index. -/
theorem select (index : Int) :
    ReadsAs env ("(Select " ++ toString index ++ ")") (.single (env.byte index)) := by
  have hname : Lexes "Select".toList [.name "Select"] :=
    lexes_word (word_identifier (by decide)) (delimiter_identifier (by decide))
  have hindex : Lexes (toString index).toList [.number index] :=
    lexes_word (word_integer index) (delimiter_integer index)
  refine ⟨[.opening, .name "Select", .number index, .closing], ?_,
    fun here outer => ⟨here, .byte index, ?_, rfl⟩⟩
  · have htext : ("(Select " ++ toString index ++ ")").toList =
        '(' :: (("Select".toList ++ ' ' :: (toString index).toList) ++ [')']) := by simp
    rw [htext]
    exact (hname.space hindex).group
  · simp [run, step, Left.close, Left.multiply]

/-- Texts with a sign between them are read as lines with that sign between them. -/
theorem sign (op : Operator) {left right : String} {leftLine rightLine : Line}
    (hleft : ReadsAs env left leftLine) (hright : ReadsAs env right rightLine) :
    ReadsAs env (left ++ (" " ++ op.symbol ++ " ") ++ right) (leftLine.append op rightLine) := by
  obtain ⟨leftTokens, hleftLexes, hleftRun⟩ := hleft
  obtain ⟨rightTokens, hrightLexes, hrightRun⟩ := hright
  have hsign : Lexes op.symbol.toList [.sign op] :=
    lexes_word (word_symbol op) (delimiter_symbol op)
  refine ⟨leftTokens ++ ([.sign op] ++ rightTokens), ?_, fun here outer => ?_⟩
  · have htext : (left ++ (" " ++ op.symbol ++ " ") ++ right).toList =
        left.toList ++ ' ' :: (op.symbol.toList ++ ' ' :: right.toList) := by simp
    rw [htext]
    exact hleftLexes.space (hsign.space hrightLexes)
  · obtain ⟨before, factor, hrun, htally⟩ := hleftRun here outer
    obtain ⟨after, last, hlast, hafter⟩ := hrightRun (before.extend factor op) outer
    refine ⟨after, last, ?_, ?_⟩
    · rw [run_append, hrun]
      exact hlast
    · rw [hafter, Left.tally_extend, htally, Line.tally_append]
      rfl

/-- A text in parentheses is read as a single operand. -/
theorem group {text : String} {line : Line} (h : ReadsAs env text line) :
    ReadsAs env ("(" ++ text ++ ")") (.single line.total) := by
  obtain ⟨tokens, hlexes, hrun⟩ := h
  refine ⟨.opening :: (tokens ++ [.closing]), ?_, fun here outer => ?_⟩
  · have htext : ("(" ++ text ++ ")").toList = '(' :: (text.toList ++ [')']) := by simp
    rw [htext]
    exact hlexes.group
  · obtain ⟨left, factor, htokens, htally⟩ := hrun {} (here :: outer)
    refine ⟨here, left.close factor, ?_, ?_⟩
    · show run (.operand {} (here :: outer)) (tokens ++ [.closing]) = _
      rw [run_append, htokens]
      rfl
    · rw [Left.eval_close, htally]
      rfl

/-- A whole text has a reading, and its value is the total of the line. -/
theorem read {text : String} {line : Line} (h : ReadsAs env text line) :
    ∃ expr, Infix.read text = some expr ∧ expr.eval env = line.total := by
  obtain ⟨tokens, hlexes, hrun⟩ := h
  obtain ⟨left, factor, htokens, htally⟩ := hrun {} []
  refine ⟨left.close factor, ?_, ?_⟩
  · rw [Infix.read, hlexes.tokens, Option.bind_eq_bind, Option.bind_some, readTokens, htokens]
    rfl
  · rw [Left.eval_close, htally]
    rfl

/-- Texts joined by a sign are read as their lines joined by that sign, from left to right. -/
theorem intercalate (op : Operator) {text : String} {line : Line} {texts : List String}
    {lines : List Line} (hfirst : ReadsAs env text line)
    (hrest : List.Forall₂ (ReadsAs env) texts lines) :
    ReadsAs env ((" " ++ op.symbol ++ " ").intercalate (text :: texts))
      (lines.foldl (Line.append op) line) := by
  induction hrest generalizing text line with
  | nil => simpa using hfirst
  | @cons next _ texts _ hnext _ ih =>
      have htext : (" " ++ op.symbol ++ " ").intercalate (text :: next :: texts) =
          (" " ++ op.symbol ++ " ").intercalate
            ((text ++ (" " ++ op.symbol ++ " ") ++ next) :: texts) := by
        rw [String.intercalate_cons_cons, String.intercalate_cons_append]
      rw [htext]
      exact ih (hfirst.sign op hnext)

end ReadsAs

end ByteGrammar.Infix
