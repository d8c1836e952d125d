import ByteGrammar.Json.Shape
import ByteGrammar.Proofs.JsonText
import Mathlib

/-!
# Reading texts of JSON trees

`Reads` follows a reader over a text that can only be nested too deeply: it says when there are brackets
enough, which value is read then and where it stops, and that it is the nesting that is reported otherwise.
`Decodes` says that a family of readers, one for every number of brackets, reads all texts of a tree as a
value. This module proves it for the values without brackets.
-/

namespace ByteGrammar.Json

namespace Reader

variable {α β : Type}

/-- A reader gets from `text` to `rest` with a value if `fits` holds. If not, it reports the nesting. -/
structure Reads (reader : Reader α) (text rest : List Char) (fits : Prop) (value : α) : Prop where
  accepts : fits → reader text = .ok (value, rest)
  refuses : ¬ fits → ∃ remaining, reader text = .error (.placed .recursionLimit remaining)

variable {text middle rest : List Char} {fits other : Prop} {value : α} {result : β}

/-- A reader that opens no bracket. -/
theorem reads_of_eq {reader : Reader α} (h : reader text = .ok (value, rest)) :
    Reads reader text rest True value :=
  ⟨fun _ => h, fun hfits => absurd trivial hfits⟩

/-- A value that is there without reading. -/
theorem reads_pure (value : α) (rest : List Char) : Reads (pure value) rest rest True value :=
  reads_of_eq rfl

/-- The condition may be stated in another way. -/
theorem Reads.congr {reader : Reader α} (h : Reads reader text rest fits value)
    (hiff : other ↔ fits) : Reads reader text rest other value :=
  ⟨fun hfits => h.accepts (hiff.mp hfits), fun hfits => h.refuses (hfits ∘ hiff.mpr)⟩

/-- What a reader goes on with after a step that succeeds. -/
theorem bind_of_ok {first : Reader α} {next : α → Reader β} (h : first text = .ok (value, middle)) :
    (first >>= next) text = next value middle := by
  show (first text).bind (fun found => next found.1 found.2) = _
  rw [h]
  rfl

/-- A step that fails is the last one. -/
theorem bind_of_error {first : Reader α} {next : α → Reader β} {failure : Failure}
    (h : first text = .error failure) : (first >>= next) text = .error failure := by
  show (first text).bind (fun found => next found.1 found.2) = _
  rw [h]
  rfl

/-- A character that has been seen is dropped. -/
theorem advance_cons (c : Char) (text : List Char) : advance (c :: text) = .ok ((), text) :=
  rfl

/-- The next character is seen and left. -/
theorem peek_eq (text : List Char) : peek text = .ok (text.head?, text) :=
  rfl

/-- A reader and one that goes on with its value. -/
theorem Reads.bind {first : Reader α} {next : α → Reader β}
    (hfirst : Reads first text middle fits value) (hnext : Reads (next value) middle rest other result) :
    Reads (first >>= next) text rest (fits ∧ other) result := by
  constructor
  · rintro ⟨hfits, hother⟩
    rw [bind_of_ok (hfirst.accepts hfits)]
    exact hnext.accepts hother
  · intro hboth
    by_cases hfits : fits
    · rw [bind_of_ok (hfirst.accepts hfits)]
      exact hnext.refuses fun hother => hboth ⟨hfits, hother⟩
    · obtain ⟨remaining, hremaining⟩ := hfirst.refuses hfits
      exact ⟨remaining, bind_of_error hremaining⟩

/-- A token in front of a reader. -/
theorem Reads.step {first : Reader α} {next : α → Reader β} (hfirst : first text = .ok (value, middle))
    (hnext : Reads (next value) middle rest fits result) :
    Reads (first >>= next) text rest fits result :=
  ((reads_of_eq hfirst).bind hnext).congr (by rw [true_and])

/-- A reader in front of one that opens no bracket. -/
theorem Reads.bind_free {first : Reader α} {next : α → Reader β}
    (hfirst : Reads first text middle fits value) (hnext : Reads (next value) middle rest True result) :
    Reads (first >>= next) text rest fits result :=
  (hfirst.bind hnext).congr (by rw [and_true])

/-- A reader whose value is changed at the end. -/
theorem Reads.map {reader : Reader α} (h : Reads reader text rest fits value) (change : α → β) :
    Reads (change <$> reader) text rest fits (change value) := by
  rw [← bind_pure_comp]
  exact h.bind_free (reads_pure (change value) rest)

/-- Leaving a bracket changes neither a value nor a report of the nesting. -/
theorem Reads.leave {reader : Reader α} (h : Reads reader text rest fits value)
    (close : List Char → List Char) : Reads (leave close reader) text rest fits value := by
  constructor
  · intro hfits
    rw [Reader.leave, h.accepts hfits]
  · intro hfits
    obtain ⟨remaining, hremaining⟩ := h.refuses hfits
    rw [Reader.leave, hremaining]
    exact ⟨remaining, rfl⟩

/-- The reader of the inside of a bracket when so many brackets may be opened. -/
def within {γ : Type} (inside : Nat → γ) : Nat → Option γ
  | 0 => none
  | nesting + 1 => some (inside nesting)

/-- A bracket is opened if there is one left, and leaves one less for its inside. -/
theorem reads_enter {inside : Nat → Reader α} {depth nesting : Nat} (bracket : Char)
    (h : ∀ nesting, Reads (inside nesting) text rest (depth ≤ nesting) value) :
    Reads (enter (within inside nesting)) (bracket :: text) rest (depth + 1 ≤ nesting) value := by
  cases nesting with
  | zero => exact ⟨fun hfits => absurd hfits (Nat.not_succ_le_zero _), fun _ => ⟨_, rfl⟩⟩
  | succ nesting =>
      exact (Reads.step (advance_cons bracket text) (h nesting)).congr Nat.add_le_add_iff_right

/-! ## Tokens -/

/-- Blanks in front of a token are dropped. -/
theorem peek_token_append {blanks : List Char} (h : Blank blanks) {c : Char} (hc : isBlank c = false)
    (text : List Char) : peekToken (blanks ++ c :: text) = .ok (some c, c :: text) := by
  have hdrop : (blanks ++ c :: text).dropWhile isBlank = c :: text := by
    rw [List.dropWhile_append_of_pos h, List.dropWhile_cons_of_neg (by simp [hc])]
  rw [peekToken, hdrop]
  rfl

/-- Only blanks are left. -/
theorem peek_token_blank {blanks : List Char} (h : Blank blanks) :
    peekToken blanks = .ok (none, []) := by
  have hdrop : blanks.dropWhile isBlank = [] := List.dropWhile_eq_nil_iff.mpr h
  rw [peekToken, hdrop]
  rfl

/-- The letters of a fixed word are passed over. -/
theorem letters_append (word rest : List Char) : letters word (word ++ rest) = .ok ((), rest) := by
  induction word with
  | nil => rfl
  | cons c word ih =>
      show (if c = c then (advance >>= fun _ => letters word) else failNext .expectedIdent)
        (c :: (word ++ rest)) = _
      rw [if_pos rfl]
      exact ih

/-- A fixed word is passed over after its first letter, which a reader has seen. -/
theorem pass_word (c : Char) (word rest : List Char) (value : α) :
    (do advance; letters word; return value : Reader α) (c :: (word ++ rest)) = .ok (value, rest) := by
  rw [bind_of_ok (advance_cons _ _)]
  exact bind_of_ok (letters_append word rest)

/-- A character that needs no escape stands for itself. -/
theorem string_body_cons {c : Char} (rest : List Char) (hcontrol : ¬ c.toNat < 0x20) (hquote : c ≠ '"')
    (hslash : c ≠ '\\') : stringBody (c :: rest) = consChar c (stringBody rest) := by
  rw [stringBody]
  · rw [if_neg hcontrol]
  all_goals simp_all

/-- Four hexadecimal digits for a control character. -/
theorem hex_code_control {code : Nat} (h : code < 0x20) :
    hexCode? '0' '0' (Text.lowerDigit (code / 16)) (Text.lowerDigit (code % 16)) = some code := by
  have hzero : Text.digitValue? '0' = some 0 := by decide
  rw [hexCode?, hzero, Text.digit_value_lower_digit (show code / 16 < 16 by omega),
    Text.digit_value_lower_digit (Nat.mod_lt code (by decide))]
  show some _ = _
  rw [Option.some.injEq]
  omega

/-- An escaped character is read back. -/
theorem string_body_escape_char (c : Char) (rest : List Char) :
    stringBody (escapeChar c ++ rest) = consChar c (stringBody rest) := by
  unfold escapeChar
  split_ifs with hquote hslash hback hfeed hline hreturn htab hcontrol
  -- seven characters have an escape of their own
  iterate 7
    · subst c
      simp [stringBody, simpleEscape?]
  · have hcode := hex_code_control hcontrol
    have hlow : isLowSurrogate c.toNat = false := by simp [isLowSurrogate]; omega
    have hhigh : isHighSurrogate c.toNat = false := by simp [isHighSurrogate]; omega
    simp only [List.cons_append, List.nil_append]
    rw [stringBody.eq_def]
    simp [hcode, hlow, hhigh]
  · exact string_body_cons rest hcontrol hquote hslash

/-- A quoted text is read back. -/
theorem string_rest_quote (text : String) (rest : List Char) :
    stringRest (text.toList.flatMap escapeChar ++ '"' :: rest) = .ok (text, rest) := by
  have hbody (chars : List Char) :
      stringBody (chars.flatMap escapeChar ++ '"' :: rest) = .ok (chars, rest) := by
    induction chars with
    | nil => simp [stringBody]
    | cons c chars ih =>
        rw [List.flatMap_cons, List.append_assoc, string_body_escape_char, ih]
        rfl
  rw [stringRest, hbody]
  show Except.ok (String.ofList text.toList, rest) = _
  rw [String.ofList_toList]

/-- What stands behind the opening quote of a text. -/
theorem quote_append (text rest : List Char) :
    quote text ++ rest = '"' :: (text.flatMap escapeChar ++ '"' :: rest) := by
  simp [quote]

/-- What ends a value continues no number. -/
theorem not_digit_of_ends {rest : List Char} (h : Ends rest) :
    ∀ c ∈ rest.head?, c.isDigit = false ∧ c ≠ '.' ∧ c ≠ 'e' ∧ c ≠ 'E' := by
  intro c hc
  rcases h c hc with hblank | hclose
  · simp only [isBlank, Bool.or_eq_true, beq_iff_eq] at hblank
    obtain ((rfl | rfl) | rfl) | rfl := hblank <;> decide
  · simp only [List.mem_cons, List.not_mem_nil, or_false] at hclose
    obtain rfl | rfl | rfl := hclose <;> decide

/-- Reading digits never makes a value smaller. -/
theorem le_of_digit_chars (digits : List Char) (start : Nat) :
    start ≤ Nat.ofDigitChars 10 digits start := by
  induction digits generalizing start with
  | nil => exact Nat.le_refl start
  | cons digit digits ih =>
      rw [Nat.ofDigitChars_cons]
      have := ih (10 * start + (digit.toNat - '0'.toNat))
      omega

/-- Digits whose value stays within a limit are all appended. -/
theorem append_digits_eq {limit : Nat} (digits : List Char) {start : Nat}
    (h : Nat.ofDigitChars 10 digits start ≤ limit) :
    appendDigits limit start digits = (Nat.ofDigitChars 10 digits start, 0) := by
  induction digits generalizing start with
  | nil => rfl
  | cons digit digits ih =>
      have hzero : '0'.toNat = 48 := rfl
      rw [Nat.ofDigitChars_cons, hzero, Nat.mul_comm] at h ⊢
      rw [appendDigits, if_pos ((le_of_digit_chars digits _).trans h), ih h]

/-- Only zero is written with a zero in front. -/
theorem head_to_digits {value : Nat} (h : 0 < value) : ∀ c ∈ (Nat.toDigits 10 value).head?, c ≠ '0' := by
  induction value using Nat.strong_induction_on with
  | _ value ih =>
      rcases Nat.lt_or_ge value 10 with hlt | hge
      · rw [Nat.toDigits_of_lt_base hlt]
        intro c hc
        obtain rfl : value.digitChar = c := by simpa using hc
        exact (by decide : ∀ value < 10, 0 < value → Nat.digitChar value ≠ '0') value hlt h
      · rw [Nat.toDigits_of_base_le (by decide) hge, List.head?_append_of_ne_nil _ Nat.toDigits_ne_nil]
        exact ih (value / 10) (by omega) (by omega)

/-- The digits of a number are read up to its end. -/
theorem digits_to_digits (value : Nat) {rest : List Char} (h : Ends rest) :
    digits (Nat.toDigits 10 value ++ rest) = .ok (Nat.toDigits 10 value, rest) := by
  have hall : ∀ c ∈ Nat.toDigits 10 value, c.isDigit = true :=
    fun c hc => Nat.isDigit_of_mem_toDigits (by decide) (by decide) hc
  have hstop : rest.takeWhile Char.isDigit = [] ∧ rest.dropWhile Char.isDigit = rest := by
    cases rest with
    | nil => exact ⟨rfl, rfl⟩
    | cons c rest => simp [(not_digit_of_ends h c rfl).1]
  rw [digits, List.takeWhile_append_of_pos hall, List.dropWhile_append_of_pos hall, hstop.1, hstop.2,
    List.append_nil]

/-- A number after its sign is read up to its end. -/
theorem unsigned_number_to_digits (negative : Bool) (value : Nat) {rest : List Char} (h : Ends rest) :
    unsignedNumber negative (Nat.toDigits 10 value ++ rest) =
      numberTail negative (Nat.toDigits 10 value) rest := by
  rcases Nat.eq_zero_or_pos value with rfl | hpos
  · -- A zero in front is taken alone, and no digit may follow it.
    have hzero : Nat.toDigits 10 0 = ['0'] := by decide
    rw [hzero]
    cases rest with
    | nil => rfl
    | cons c rest =>
        have hc : c.isDigit = false := (not_digit_of_ends h c rfl).1
        show (if c.isDigit = true then failNext .invalidNumber else numberTail negative ['0'])
          (c :: rest) = _
        rw [if_neg (by rw [hc]; decide)]
  · obtain ⟨c, more, htext, hdigit⟩ := to_digits_eq_cons value
    have hhead : c ≠ '0' := head_to_digits hpos c (by rw [htext]; rfl)
    have hpeek : peek (Nat.toDigits 10 value ++ rest) =
        .ok (some c, Nat.toDigits 10 value ++ rest) := by
      rw [htext]
      rfl
    rw [unsignedNumber, bind_of_ok hpeek]
    generalize hnext : some c = next
    split
    · contradiction
    · exact absurd (Option.some.inj hnext) hhead
    · rw [← Option.some.inj hnext, if_pos hdigit]
      exact bind_of_ok (digits_to_digits value h)

/-- A number without fraction and exponent that fits its sign is an integer. -/
theorem number_tail_to_digits (negative : Bool) {value : Nat} {rest : List Char} (h : Ends rest)
    (hfits : if negative then 0 < value ∧ value ≤ 2 ^ 63 else value < 2 ^ 64) :
    numberTail negative (Nat.toDigits 10 value) rest =
      .ok (.integer (if negative then -value else value), rest) := by
  have happend : appendDigits (UInt64.size - 1) 0 (Nat.toDigits 10 value) = (value, 0) := by
    have hlimit : Nat.ofDigitChars 10 (Nat.toDigits 10 value) 0 ≤ UInt64.size - 1 := by
      rw [Nat.ofDigitChars_ten_toDigits]
      have : UInt64.size = 2 ^ 64 := rfl
      split at hfits <;> omega
    rw [append_digits_eq _ hlimit, Nat.ofDigitChars_ten_toDigits]
  have hnext (mark : Char) (hmark : mark = '.' ∨ mark = 'e' ∨ mark = 'E') : rest.head? ≠ some mark := by
    intro hhead
    have := not_digit_of_ends h mark hhead
    tauto
  have hintegral : 0 = 0 ∧ rest.head? ≠ some '.' ∧ rest.head? ≠ some 'e' ∧ rest.head? ≠ some 'E' :=
    ⟨rfl, hnext '.' (by decide), hnext 'e' (by decide), hnext 'E' (by decide)⟩
  rw [numberTail, happend]
  show (peek >>= _) rest = _
  rw [bind_of_ok (peek_eq _)]
  cases negative with
  | false =>
      rw [if_pos ⟨hintegral, rfl⟩]
      rfl
  | true =>
      rw [if_neg (by simp), if_pos ⟨hintegral, hfits⟩]
      rfl

/-- A number that is written as an integer of 64 bits is read as that integer. -/
theorem number_to_string {value : Int} (hlow : -2 ^ 63 ≤ value) (hhigh : value < 2 ^ 64)
    {rest : List Char} (h : Ends rest) :
    number ((toString value).toList ++ rest) = .ok (.integer value, rest) := by
  rw [to_list_to_string]
  split
  · have hvalue : value = -(value.natAbs : Int) := by omega
    show unsignedNumber true (Nat.toDigits 10 value.natAbs ++ rest) = _
    rw [unsigned_number_to_digits _ _ h, number_tail_to_digits _ h (by rw [if_pos rfl]; omega),
      if_pos rfl, ← hvalue]
  · have hvalue : value = (value.natAbs : Int) := by omega
    obtain ⟨c, more, htext, hdigit⟩ := to_digits_eq_cons value.natAbs
    have hunsigned : number (Nat.toDigits 10 value.natAbs ++ rest) =
        unsignedNumber false (Nat.toDigits 10 value.natAbs ++ rest) := by
      rw [htext, number, bind_of_ok (peek_eq _)]
      generalize hnext : (c :: more ++ rest).head? = next
      split
      · obtain rfl : c = '-' := Option.some.inj hnext
        exact absurd hdigit (by decide)
      · rfl
    have hfits : if false = true then 0 < value.natAbs ∧ value.natAbs ≤ 2 ^ 63
        else value.natAbs < 2 ^ 64 := by
      rw [if_neg Bool.false_ne_true]
      omega
    rw [List.nil_append, hunsigned, unsigned_number_to_digits _ _ h, number_tail_to_digits _ h hfits,
      if_neg Bool.false_ne_true, ← hvalue]

end Reader

open Reader

/-- Readers, one for every number of brackets that may be opened, that read all texts of a tree as a
value, if the tree does not nest deeper. -/
def Decodes {α : Type} (read : Nat → Reader α) (tree : Json) (value : α) : Prop :=
  ∀ ⦃text blanks rest : List Char⦄ (nesting : Nat), tree.Spells text → Blank blanks → Ends rest →
    (read nesting).Reads (blanks ++ text ++ rest) rest (tree.depth ≤ nesting) value

/-- Readers that agree for every number of brackets read the same texts. -/
theorem Decodes.congr {α : Type} {read other : Nat → Reader α} {tree : Json} {value : α}
    (h : Decodes read tree value) (heq : ∀ nesting, other nesting = read nesting) :
    Decodes other tree value :=
  funext heq ▸ h

/-- The value that has been read may be changed at the end. -/
theorem Decodes.map {α β : Type} {read : Nat → Reader α} {tree : Json} {value : α}
    (h : Decodes read tree value) (change : α → β) :
    Decodes (fun nesting => change <$> read nesting) tree (change value) :=
  fun _ _ _ nesting htext hblanks hrest => (h nesting htext hblanks hrest).map change

/-- A text without blanks in front. -/
theorem Decodes.reads {α : Type} {read : Nat → Reader α} {tree : Json} {value : α}
    (h : Decodes read tree value) {text rest : List Char} (htext : tree.Spells text) (hrest : Ends rest)
    (nesting : Nat) : (read nesting).Reads (text ++ rest) rest (tree.depth ≤ nesting) value :=
  h nesting htext blank_nil hrest

/-- A reader that needs no bracket for a tree without any. -/
theorem decodes_of_eq {α : Type} {read : Nat → Reader α} {tree : Json} {value : α}
    (hdepth : tree.depth = 0)
    (h : ∀ ⦃text blanks rest⦄ (nesting), tree.Spells text → Blank blanks → Ends rest →
      read nesting (blanks ++ text ++ rest) = .ok (value, rest)) : Decodes read tree value := by
  intro text blanks rest nesting htext hblanks hrest
  exact (reads_of_eq (h nesting htext hblanks hrest)).congr (by simp [hdepth])

/-- A string is read back. -/
theorem decodes_string (text : String) : Decodes (fun _ => Reader.string) (.string text) text := by
  refine decodes_of_eq rfl fun written blanks rest _ hwritten hblanks _ => ?_
  cases hwritten with
  | string =>
      rw [List.append_assoc, quote_append, Reader.string,
        bind_of_ok (peek_token_append hblanks (by decide) _)]
      exact string_rest_quote text rest

/-- A truth value is read back. -/
theorem decodes_boolean (value : Bool) : Decodes (fun _ => boolean) (.bool value) value := by
  refine decodes_of_eq rfl fun written blanks rest _ hwritten hblanks _ => ?_
  cases hwritten with
  | bool =>
      rw [List.append_assoc]
      cases value with
      | true =>
          show (peekToken >>= _) (blanks ++ 't' :: (['r', 'u', 'e'] ++ rest)) = _
          rw [bind_of_ok (peek_token_append hblanks (by decide) _)]
          exact pass_word 't' ['r', 'u', 'e'] rest true
      | false =>
          show (peekToken >>= _) (blanks ++ 'f' :: (['a', 'l', 's', 'e'] ++ rest)) = _
          rw [bind_of_ok (peek_token_append hblanks (by decide) _)]
          exact pass_word 'f' ['a', 'l', 's', 'e'] rest false

/-- An integer of 64 bits that a reader accepts is read back. -/
theorem decodes_integer_of {α : Type} {accept : Int → Option α} (expected : String) {value : Int}
    {result : α} (hlow : -2 ^ 63 ≤ value) (hhigh : value < 2 ^ 64) (haccept : accept value = some result) :
    Decodes (fun _ => integerOf accept expected) (.int value) result := by
  refine decodes_of_eq rfl fun written blanks rest _ hwritten hblanks hrest => ?_
  cases hwritten with
  | int =>
      obtain ⟨c, more, htext, hc⟩ := to_string_eq_cons value
      have hnumber := number_to_string hlow hhigh hrest
      rw [List.append_assoc]
      rw [htext, List.cons_append] at hnumber ⊢
      rw [integerOf, bind_of_ok (peek_token_append hblanks (not_blank_of_number hc).1 _)]
      show (if c = '-' ∨ c.isDigit = true then number >>= _ else _ : Reader α) _ = _
      rw [if_pos hc, bind_of_ok hnumber]
      dsimp only
      rw [haccept]
      rfl

/-- A number of 32 bits is read back. -/
theorem decodes_unsigned32 (value : UInt32) :
    Decodes (fun _ => unsigned32) (.int value.toNat) value := by
  have hvalue := value.toNat_lt
  refine decodes_integer_of "u32" (by omega) (by omega) ?_
  rw [if_pos ⟨Int.natCast_nonneg _, by exact_mod_cast hvalue⟩, Int.toNat_natCast, UInt32.ofNat_toNat]

/-- An unsigned number of 64 bits is read back. -/
theorem decodes_unsigned64 (value : UInt64) :
    Decodes (fun _ => unsigned64) (.int value.toNat) value := by
  have hvalue := value.toNat_lt
  refine decodes_integer_of "u64" (by omega) (by omega) ?_
  rw [if_pos ⟨Int.natCast_nonneg _, by exact_mod_cast hvalue⟩, Int.toNat_natCast, UInt64.ofNat_toNat]

/-- A signed number of 64 bits is read back. -/
theorem decodes_signed64 (value : Int64) : Decodes (fun _ => signed64) (.int value.toInt) value := by
  have hlow := value.minValue_le_toInt
  have hhigh := value.toInt_le
  have hmin : Int64.minValue.toInt = -2 ^ 63 := rfl
  have hmax : Int64.maxValue.toInt = 2 ^ 63 - 1 := rfl
  refine decodes_integer_of "i64" (by omega) (by omega) ?_
  rw [if_pos ⟨hlow, hhigh⟩, Int64.ofInt_toInt]

end ByteGrammar.Json
