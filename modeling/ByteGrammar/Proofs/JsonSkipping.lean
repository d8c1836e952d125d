import ByteGrammar.Proofs.JsonShapes

/-!
# Passing over values

`WellFormed` is the notation of JSON values of any kind: numbers with fractions and exponents, strings with
every escape, and brackets of any depth. `skip_value_append` says that a value in this notation is passed
over as a whole. The open brackets are a stack, and what `skipInside` does with the inside of one bracket
leaves the stack below it alone.

`Denotes` relates the inside of a string to the characters that it stands for, so that a name may be
written with any escapes.
-/

namespace ByteGrammar.Json

open Reader (isBlank)

/-! ## Notation -/

/-- A run of decimal digits. -/
structure Digits (text : List Char) : Prop where
  ne_nil : text ≠ []
  all : ∀ c ∈ text, c.isDigit = true

/-- The digits before the point: no zero in front of others. -/
inductive IntegerPart : List Char → Prop where
  | zero : IntegerPart ['0']
  | digits (text) : Digits text → text.head? ≠ some '0' → IntegerPart text

/-- The point and the digits behind it, if there are any. -/
inductive FractionPart : List Char → Prop where
  | none : FractionPart []
  | digits (text) : Digits text → FractionPart ('.' :: text)

/-- The exponent, if there is one. -/
inductive ExponentPart : List Char → Prop where
  | none : ExponentPart []
  | digits (mark sign text) : mark ∈ ['e', 'E'] → sign ∈ [[], ['+'], ['-']] → Digits text →
      ExponentPart (mark :: (sign ++ text))

/-- The notation of a number behind its sign. -/
inductive NumberText : List Char → Prop where
  | parts (integer fraction exponent) : IntegerPart integer → FractionPart fraction →
      ExponentPart exponent → NumberText (integer ++ (fraction ++ exponent))

/-- The letters that stand behind a backslash, with the characters that they stand for. -/
def escapes : List (Char × Char) :=
  [('"', '"'), ('\\', '\\'), ('/', '/'), ('b', '\x08'), ('f', '\x0c'), ('n', '\n'), ('r', '\r'),
    ('t', '\t')]

/-- A character that stands for itself in a string. -/
structure Plain (c : Char) : Prop where
  not_control : ¬ c.toNat < 0x20
  ne_quote : c ≠ '"'
  ne_backslash : c ≠ '\\'

/-- The notation of the inside of a string. -/
inductive StringText : List Char → Prop where
  | nil : StringText []
  | plain (c text) : Plain c → StringText text → StringText (c :: text)
  | escape (c char text) : (c, char) ∈ escapes → StringText text → StringText ('\\' :: c :: text)
  | code (a b c d code text) : Reader.hexCode? a b c d = some code → StringText text →
      StringText ('\\' :: 'u' :: a :: b :: c :: d :: text)

/-- `Denotes text chars` says that the inside of a string stands for these characters. The two codes of a
character beyond 16 bits stand together: half of them alone stands for none. -/
inductive Denotes : List Char → List Char → Prop where
  | nil : Denotes [] []
  | plain (c text chars) : Plain c → Denotes text chars → Denotes (c :: text) (c :: chars)
  | escape (c char text chars) : (c, char) ∈ escapes → Denotes text chars →
      Denotes ('\\' :: c :: text) (char :: chars)
  | code (a b c d code text chars) : Reader.hexCode? a b c d = some code →
      ¬ (0xd800 ≤ code ∧ code ≤ 0xdfff) → Denotes text chars →
      Denotes ('\\' :: 'u' :: a :: b :: c :: d :: text) (Char.ofNat code :: chars)
  | pair (a b c d a' b' c' d' high low text chars) : Reader.hexCode? a b c d = some high →
      0xd800 ≤ high → high ≤ 0xdbff → Reader.hexCode? a' b' c' d' = some low →
      0xdc00 ≤ low → low ≤ 0xdfff → Denotes text chars →
      Denotes ('\\' :: 'u' :: a :: b :: c :: d :: '\\' :: 'u' :: a' :: b' :: c' :: d' :: text)
        (Char.ofNat (0x10000 + (high - 0xd800) * 0x400 + (low - 0xdc00)) :: chars)

/-- The character that opens a bracket. -/
def Bracket.opening : Bracket → Char
  | square => '['
  | curly => '\x7b'

/-- What stands in front of a value inside a bracket: nothing in an array, a name and a colon in an
object. -/
inductive KeyText : Bracket → List Char → Prop where
  | item : KeyText .square []
  | name (text before behind) : StringText text → Blank before → Blank behind →
      KeyText .curly ('"' :: (text ++ '"' :: (before ++ ':' :: behind)))

mutual
/-- The notation of a value, with how deep its brackets nest. -/
inductive WellFormed : Nat → List Char → Prop where
  | null : WellFormed 0 ['n', 'u', 'l', 'l']
  | isTrue : WellFormed 0 ['t', 'r', 'u', 'e']
  | isFalse : WellFormed 0 ['f', 'a', 'l', 's', 'e']
  | number (text) : NumberText text → WellFormed 0 text
  | negative (text) : NumberText text → WellFormed 0 ('-' :: text)
  | string (text) : StringText text → WellFormed 0 ('"' :: (text ++ ['"']))
  | bracket (kind depth body) : WellFormedInside kind true depth body →
      WellFormed (depth + 1) (kind.opening :: body)

/-- The notation of the inside of a bracket up to its end. The flag says that no value precedes. -/
inductive WellFormedInside : Bracket → Bool → Nat → List Char → Prop where
  | close (kind first blanks) : Blank blanks →
      WellFormedInside kind first 0 (blanks ++ [kind.close])
  | next (kind first blanks gap key text rest depth further) : Blank blanks → Blank gap →
      KeyText kind key → WellFormed depth text → WellFormedInside kind false further rest →
      WellFormedInside kind first (max depth further)
        (blanks ++ separator first ++ gap ++ key ++ text ++ rest)
end

/-- A digit stands in front of what begins with digits. -/
theorem Digits.head {text : List Char} (h : Digits text) (rest : List Char) :
    ∃ c, (text ++ rest).head? = some c ∧ c.isDigit = true := by
  obtain ⟨c, more, rfl⟩ := List.exists_cons_of_ne_nil h.ne_nil
  exact ⟨c, rfl, h.all c List.mem_cons_self⟩

/-- A number begins with a digit behind its sign. -/
theorem NumberText.head {text : List Char} (h : NumberText text) :
    ∃ c more, text = c :: more ∧ c.isDigit = true := by
  obtain ⟨integer, fraction, exponent, hinteger, -, -⟩ := h
  cases hinteger with
  | zero => exact ⟨'0', _, rfl, by decide⟩
  | digits _ hdigits =>
      obtain ⟨c, more, rfl⟩ := List.exists_cons_of_ne_nil hdigits.ne_nil
      exact ⟨c, _, rfl, hdigits.all c List.mem_cons_self⟩

/-- What closes a bracket is no blank. -/
theorem Bracket.close_not_blank (kind : Bracket) : isBlank kind.close = false := by
  cases kind <;> decide

/-- A value begins with a character that neither is blank nor closes a bracket. -/
theorem WellFormed.starts {depth : Nat} {text : List Char} (h : WellFormed depth text)
    (kind : Bracket) : ∃ c rest, text = c :: rest ∧ isBlank c = false ∧ c ≠ kind.close := by
  have hclose (c : Char) (hsquare : c ≠ ']') (hcurly : c ≠ '\x7d') : c ≠ kind.close := by
    cases kind with
    | square => exact hsquare
    | curly => exact hcurly
  cases h with
  | null | isTrue | isFalse | negative | string =>
      exact ⟨_, _, rfl, by decide, hclose _ (by decide) (by decide)⟩
  | number _ hnumber =>
      obtain ⟨c, more, rfl, hdigit⟩ := hnumber.head
      obtain ⟨hblank, hsquare⟩ := not_blank_of_number (.inr hdigit)
      refine ⟨c, more, rfl, hblank, hclose c hsquare ?_⟩
      rintro rfl
      exact absurd hdigit (by decide)
  | bracket inner =>
      cases inner with
      | square => exact ⟨_, _, rfl, by decide, hclose _ (by decide) (by decide)⟩
      | curly => exact ⟨_, _, rfl, by decide, hclose _ (by decide) (by decide)⟩

/-- A value ends where the text of the next ones starts. -/
theorem WellFormedInside.ends {kind : Bracket} {depth : Nat} {text : List Char}
    (h : WellFormedInside kind false depth text) (rest : List Char) : Ends (text ++ rest) := by
  cases h with
  | close _ _ blanks hblanks =>
      rw [List.append_assoc, List.singleton_append]
      exact hblanks.ends rest (by cases kind <;> decide)
  | next _ _ blanks gap key text more depth further hblanks =>
      simp only [List.append_assoc]
      exact hblanks.ends _ (by decide)

/-! ## Strings -/

namespace Reader

/-- The letters behind a backslash are read as what they stand for. -/
theorem simple_escape_of_mem {c char : Char} (h : (c, char) ∈ escapes) :
    simpleEscape? c = some char ∧ c ≠ 'u' := by
  simp only [escapes, List.mem_cons, Prod.mk.injEq, List.not_mem_nil, or_false] at h
  obtain ⟨rfl, rfl⟩ | ⟨rfl, rfl⟩ | ⟨rfl, rfl⟩ | ⟨rfl, rfl⟩ | ⟨rfl, rfl⟩ | ⟨rfl, rfl⟩ |
    ⟨rfl, rfl⟩ | ⟨rfl, rfl⟩ := h <;> decide

/-- A string is passed over up to its quote. -/
theorem skip_string_body_append {text : List Char} (h : StringText text) (rest : List Char) :
    skipStringBody (text ++ '"' :: rest) = .ok ((), rest) := by
  induction h with
  | nil => simp [skipStringBody]
  | plain c text hplain _ ih =>
      obtain ⟨hcontrol, hquote, hslash⟩ := hplain
      rw [List.cons_append, skipStringBody]
      · rw [if_neg hcontrol, ih]
      all_goals simp_all
  | escape c char text hescape _ ih =>
      obtain ⟨hsimple, hu⟩ := simple_escape_of_mem hescape
      rw [List.cons_append, List.cons_append, skipStringBody]
      · rw [hsimple]
        exact ih
      all_goals simp_all
  | code a b c d code text hcode _ ih =>
      simp only [List.cons_append]
      rw [skipStringBody.eq_def]
      simpa [hcode] using ih

/-- A string is read as the characters that it stands for. -/
theorem string_rest_denotes {text chars : List Char} (h : Denotes text chars) (rest : List Char) :
    stringRest (text ++ '"' :: rest) = .ok (String.ofList chars, rest) := by
  suffices hbody : stringBody (text ++ '"' :: rest) = .ok (chars, rest) by
    rw [stringRest, hbody]
    rfl
  induction h with
  | nil => simp [stringBody]
  | plain c text chars hplain _ ih =>
      rw [List.cons_append, string_body_cons _ hplain.not_control hplain.ne_quote
        hplain.ne_backslash, ih]
      rfl
  | escape c char text chars hescape _ ih =>
      obtain ⟨hsimple, hu⟩ := simple_escape_of_mem hescape
      rw [List.cons_append, List.cons_append, stringBody]
      · rw [hsimple]
        show consChar char (stringBody (text ++ '"' :: rest)) = _
        rw [ih]
        rfl
      all_goals simp_all
  | code a b c d code text chars hcode hsurrogate _ ih =>
      have hlow : isLowSurrogate code = false := by simp [isLowSurrogate]; omega
      have hhigh : isHighSurrogate code = false := by simp [isHighSurrogate]; omega
      simp only [List.cons_append]
      rw [stringBody.eq_def]
      simp [hcode, hlow, hhigh, ih, consChar, Except.map]
  | pair a b c d a' b' c' d' high low text chars hcode hleast hgreatest hcode' hleast' hgreatest' _
      ih =>
      have hlow : isLowSurrogate high = false := by simp [isLowSurrogate]; omega
      have hhigh : isHighSurrogate high = true := by simp [isHighSurrogate]; omega
      have hlow' : isLowSurrogate low = true := by simp [isLowSurrogate]; omega
      simp only [List.cons_append]
      rw [stringBody.eq_def]
      simp [hcode, hcode', hlow, hhigh, hlow', ih, consChar, Except.map]

/-! ## Numbers -/

/-- Digits are dropped up to their end. -/
theorem skip_digits_append {text rest : List Char} (h : Digits text)
    (hrest : ∀ c ∈ rest.head?, c.isDigit = false) : skipDigits (text ++ rest) = .ok ((), rest) := by
  have hstop : rest.dropWhile Char.isDigit = rest := by
    cases rest with
    | nil => rfl
    | cons c rest => simp [hrest c rfl]
  rw [skipDigits, List.dropWhile_append_of_pos h.all, hstop]

/-- A digit is no sign. -/
theorem not_sign_of_digit {c : Char} (hdigit : c.isDigit = true) :
    ¬ (some c = some '+' ∨ some c = some '-') := by
  rintro (hc | hc) <;> obtain rfl := Option.some.inj hc <;> exact absurd hdigit (by decide)

/-- The digits of an exponent without a sign are passed over. -/
theorem skip_exponent_digits {text rest : List Char} (h : Digits text)
    (hrest : ∀ c ∈ rest.head?, c.isDigit = false) :
    skipExponent (text ++ rest) = .ok ((), rest) := by
  obtain ⟨c, hhead, hdigit⟩ := h.head rest
  rw [skipExponent, bind_of_ok (peek_eq _), hhead, if_neg (not_sign_of_digit hdigit)]
  show (peek >>= _) (text ++ rest) = _
  rw [bind_of_ok (peek_eq _), hhead]
  show (if c.isDigit = true then skipDigits else _ : Reader Unit) _ = _
  rw [if_pos hdigit]
  exact skip_digits_append h hrest

/-- A sign in front of the digits of an exponent makes no difference. -/
theorem skip_exponent_sign {sign : Char} {text : List Char}
    (hsign : some sign = some '+' ∨ some sign = some '-') (h : Digits text) (rest : List Char) :
    skipExponent (sign :: (text ++ rest)) = skipExponent (text ++ rest) := by
  obtain ⟨c, hhead, hdigit⟩ := h.head rest
  rw [skipExponent, bind_of_ok (peek_eq (sign :: _)), List.head?_cons, if_pos hsign,
    bind_of_ok (advance_cons _ _), bind_of_ok (peek_eq (text ++ rest)), hhead,
    if_neg (not_sign_of_digit hdigit)]

/-- An exponent is passed over behind its letter. -/
theorem skip_exponent_append {sign text rest : List Char} (hsign : sign ∈ [[], ['+'], ['-']])
    (h : Digits text) (hrest : ∀ c ∈ rest.head?, c.isDigit = false) :
    skipExponent (sign ++ text ++ rest) = .ok ((), rest) := by
  simp only [List.mem_cons, List.not_mem_nil, or_false] at hsign
  obtain rfl | rfl | rfl := hsign
  · exact skip_exponent_digits h hrest
  · exact (skip_exponent_sign (.inl rfl) h rest).trans (skip_exponent_digits h hrest)
  · exact (skip_exponent_sign (.inr rfl) h rest).trans (skip_exponent_digits h hrest)

/-- What begins with something else than a mark of a number is left alone. -/
def NoMark (rest : List Char) : Prop :=
  ∀ c ∈ rest.head?, c.isDigit = false ∧ c ≠ '.' ∧ c ≠ 'e' ∧ c ≠ 'E'

/-- What stands behind the fraction of a number: the rest, or a letter and an exponent. -/
theorem exponent_cases {exponent rest : List Char} (h : ExponentPart exponent) (hrest : Ends rest) :
    exponent ++ rest = rest ∧ NoMark rest ∨
      ∃ mark more, (mark = 'e' ∨ mark = 'E') ∧ exponent ++ rest = mark :: more ∧
        skipExponent more = .ok ((), rest) := by
  cases h with
  | none => exact .inl ⟨rfl, not_digit_of_ends hrest⟩
  | digits mark sign text hmark hsign htext =>
      refine .inr ⟨mark, sign ++ text ++ rest, by simpa using hmark, by simp, ?_⟩
      exact skip_exponent_append hsign htext fun c hc => (not_digit_of_ends hrest c hc).1

/-- The exponent is passed over, if there is one. -/
theorem skip_exponent_part {exponent rest : List Char} (h : ExponentPart exponent)
    (hrest : Ends rest) :
    (do
      match ← peek with
      | some 'e' | some 'E' =>
          advance
          skipExponent
      | _ => return () : Reader Unit) (exponent ++ rest) = .ok ((), rest) := by
  rcases exponent_cases h hrest with ⟨htext, hmark⟩ | ⟨mark, more, rfl | rfl, htext, hskip⟩
  · rw [htext, bind_of_ok (peek_eq _)]
    generalize hhead : rest.head? = next
    split
    · exact absurd rfl (hmark 'e' hhead).2.2.1
    · exact absurd rfl (hmark 'E' hhead).2.2.2
    · rfl
  · rw [htext]
    exact hskip
  · rw [htext]
    exact hskip

/-- What follows the integer digits of a number is passed over. -/
theorem skip_number_tail_append {fraction exponent rest : List Char}
    (hfraction : FractionPart fraction) (hexponent : ExponentPart exponent) (hrest : Ends rest) :
    skipNumberTail (fraction ++ exponent ++ rest) = .ok ((), rest) := by
  cases hfraction with
  | none =>
      rw [List.nil_append, skipNumberTail]
      rcases exponent_cases hexponent hrest with ⟨htext, hmark⟩ | ⟨mark, more, rfl | rfl, htext, hskip⟩
      · rw [htext, bind_of_ok (peek_eq _)]
        generalize hhead : rest.head? = next
        split
        · exact absurd rfl (hmark '.' hhead).2.1
        · exact absurd rfl (hmark 'e' hhead).2.2.1
        · exact absurd rfl (hmark 'E' hhead).2.2.2
        · rfl
      · rw [htext]
        exact hskip
      · rw [htext]
        exact hskip
  | digits text htext =>
      obtain ⟨c, hhead, hdigit⟩ := htext.head (exponent ++ rest)
      have hstop : ∀ d ∈ (exponent ++ rest).head?, d.isDigit = false := by
        intro d hd
        rcases exponent_cases hexponent hrest with ⟨htext, hmark⟩ | ⟨mark, more, hmark, htext, -⟩
        · exact (hmark d (htext ▸ hd)).1
        · obtain rfl : mark = d := by simpa [htext] using hd
          rcases hmark with rfl | rfl <;> decide
      rw [skipNumberTail, bind_of_ok (peek_eq _)]
      show (advance >>= _) ('.' :: (text ++ exponent ++ rest)) = _
      rw [bind_of_ok (advance_cons _ _), bind_of_ok (peek_eq _), List.append_assoc, hhead]
      show (if (!c.isDigit) = true then _ else _ : Reader Unit) _ = _
      rw [if_neg (by simp [hdigit]), bind_of_ok (skip_digits_append htext hstop)]
      exact skip_exponent_part hexponent hrest

/-- What stands behind the integer digits of a number is no digit. -/
theorem head_of_number_tail {fraction exponent rest : List Char} (hfraction : FractionPart fraction)
    (hexponent : ExponentPart exponent) (hrest : Ends rest) :
    ∀ c ∈ (fraction ++ exponent ++ rest).head?, c.isDigit = false := by
  intro c hc
  cases hfraction with
  | none =>
      rw [List.nil_append] at hc
      rcases exponent_cases hexponent hrest with ⟨htext, hmark⟩ | ⟨mark, more, hmark, htext, -⟩
      · exact (hmark c (htext ▸ hc)).1
      · obtain rfl : mark = c := by simpa [htext] using hc
        rcases hmark with rfl | rfl <;> decide
  | digits text htext =>
      obtain rfl : '.' = c := by simpa using hc
      decide

/-- A number is passed over behind its sign. -/
theorem skip_number_append {text rest : List Char} (h : NumberText text) (hrest : Ends rest) :
    skipNumber (text ++ rest) = .ok ((), rest) := by
  obtain ⟨integer, fraction, exponent, hinteger, hfraction, hexponent⟩ := h
  have htail := skip_number_tail_append hfraction hexponent hrest
  have hstop := head_of_number_tail hfraction hexponent hrest
  rw [List.append_assoc, skipNumber, bind_of_ok (peek_eq _)]
  generalize fraction ++ exponent ++ rest = tail at htail hstop
  cases hinteger with
  | zero =>
      show (advance >>= _) ('0' :: tail) = _
      rw [bind_of_ok (advance_cons _ _), bind_of_ok (peek_eq _)]
      cases tail with
      | nil => exact htail
      | cons c tail =>
          show (if c.isDigit = true then _ else _ : Reader Unit) _ = _
          rw [if_neg (by rw [hstop c rfl]; decide)]
          exact htail
  | digits text hdigits hzero =>
      obtain ⟨c, hhead, hdigit⟩ := hdigits.head tail
      have hfirst : c ≠ '0' := by
        rintro rfl
        apply hzero
        rwa [List.head?_append_of_ne_nil _ hdigits.ne_nil] at hhead
      rw [hhead]
      generalize hnext : some c = next
      split
      · contradiction
      · exact absurd (Option.some.inj hnext) hfirst
      · rw [← Option.some.inj hnext, if_pos hdigit, bind_of_ok (skip_digits_append hdigits hstop)]
        exact htail

/-! ## Values -/

/-- The start of a value: the whole of a simple one, the bracket of another one. -/
theorem skip_start_append {depth : Nat} {text blanks rest : List Char} (h : WellFormed depth text)
    (hblanks : Blank blanks) (hrest : Ends rest) :
    skipStart (blanks ++ text ++ rest) = .ok (none, rest) ∨
      ∃ kind body inner, WellFormedInside kind true inner body ∧ text = kind.opening :: body ∧
        skipStart (blanks ++ text ++ rest) = .ok (some kind, body ++ rest) := by
  rw [List.append_assoc]
  cases h with
  | null =>
      refine .inl ?_
      rw [skipStart, List.cons_append, bind_of_ok (peek_token_append hblanks (by decide) _)]
      exact pass_word 'n' ['u', 'l', 'l'] rest none
  | isTrue =>
      refine .inl ?_
      rw [skipStart, List.cons_append, bind_of_ok (peek_token_append hblanks (by decide) _)]
      exact pass_word 't' ['r', 'u', 'e'] rest none
  | isFalse =>
      refine .inl ?_
      rw [skipStart, List.cons_append, bind_of_ok (peek_token_append hblanks (by decide) _)]
      exact pass_word 'f' ['a', 'l', 's', 'e'] rest none
  | negative text hnumber =>
      refine .inl ?_
      rw [skipStart, List.cons_append, bind_of_ok (peek_token_append hblanks (by decide) _)]
      show (advance >>= _) _ = _
      rw [bind_of_ok (advance_cons _ _)]
      exact bind_of_ok (skip_number_append hnumber hrest)
  | string text htext =>
      refine .inl ?_
      rw [skipStart, List.cons_append, bind_of_ok (peek_token_append hblanks (by decide) _)]
      show (advance >>= _) _ = _
      rw [bind_of_ok (advance_cons _ _), List.append_assoc, List.singleton_append]
      exact bind_of_ok (skip_string_body_append htext rest)
  | bracket kind inner body hbody =>
      refine .inr ⟨kind, body, inner, hbody, rfl, ?_⟩
      cases kind with
      | square =>
          rw [skipStart, List.cons_append, bind_of_ok (peek_token_append hblanks (by decide) _)]
          rfl
      | curly =>
          rw [skipStart, List.cons_append, bind_of_ok (peek_token_append hblanks (by decide) _)]
          rfl
  | number _ hnumber =>
      obtain ⟨c, more, rfl, hdigit⟩ := hnumber.head
      refine .inl ?_
      rw [skipStart, List.cons_append,
        bind_of_ok (peek_token_append hblanks (not_blank_of_number (.inr hdigit)).1 _)]
      generalize hnext : some c = next
      split
      -- A digit is none of the characters that start a value of another kind.
      case h_9 =>
        rw [← Option.some.inj hnext, if_pos hdigit]
        exact bind_of_ok (skip_number_append hnumber hrest)
      case h_1 => contradiction
      all_goals
        obtain rfl := Option.some.inj hnext
        exact absurd hdigit (by decide)

/-- A name and its colon are passed over. -/
theorem skip_key_append {blanks text before behind rest : List Char} (hblanks : Blank blanks)
    (htext : StringText text) (hbefore : Blank before) :
    skipKey (blanks ++ '"' :: (text ++ '"' :: (before ++ ':' :: behind)) ++ rest) =
      .ok ((), behind ++ rest) := by
  rw [List.append_assoc, List.cons_append, skipKey,
    bind_of_ok (peek_token_append hblanks (by decide) _)]
  show (advance >>= _) _ = _
  rw [bind_of_ok (advance_cons _ _), List.append_assoc, List.cons_append,
    bind_of_ok (skip_string_body_append htext _), List.append_assoc, List.cons_append]
  exact colon_append hbefore _

/-- What stands in front of a value inside a bracket is passed over, up to blanks. -/
theorem skip_key_part {α : Type} {kind : Bracket} {gap key : List Char} (hgap : Blank gap)
    (hkey : KeyText kind key) (next : Reader α) (rest : List Char) :
    ∃ front, Blank front ∧
      (if kind = .curly then (do skipKey; next) else next) (gap ++ key ++ rest) =
        next (front ++ rest) := by
  cases hkey with
  | item => exact ⟨gap, hgap, by rw [if_neg (by decide), List.append_nil]⟩
  | name text before behind htext hbefore hbehind =>
      refine ⟨behind, hbehind, ?_⟩
      rw [if_pos rfl]
      exact bind_of_ok (skip_key_append hgap htext hbefore)

/-- What goes on inside a bracket behind the start of a value. -/
def skipOn (bound : List Char) (kind : Bracket) (enclosing : List Bracket) : Reader Unit := do
  match ← skipStart with
  | some inner => skipInside bound false (inner :: kind :: enclosing)
  | none => skipInside bound true (kind :: enclosing)

/-- A value inside a bracket is reached behind the comma and the name in front of it. -/
theorem skip_inside_next {kind : Bracket} (first : Bool) {blanks gap key text : List Char} {depth : Nat}
    (hblanks : Blank blanks) (hgap : Blank gap) (hkey : KeyText kind key)
    (htext : WellFormed depth text) (c : Char) (bound rest : List Char) (enclosing : List Bracket) :
    ∃ front, Blank front ∧
      skipInside (c :: bound) (!first) (kind :: enclosing)
          (blanks ++ separator first ++ gap ++ key ++ text ++ rest) =
        skipOn bound kind enclosing (front ++ text ++ rest) := by
  obtain ⟨d, more, hentry, hblank, hclose⟩ : ∃ d more, key ++ (text ++ rest) = d :: more ∧
      isBlank d = false ∧ d ≠ kind.close := by
    cases hkey with
    | item =>
        obtain ⟨d, more, rfl, hblank, hclose⟩ := htext.starts .square
        exact ⟨d, more ++ rest, rfl, hblank, hclose⟩
    | name => exact ⟨_, _, rfl, by decide, by decide⟩
  rw [List.append_assoc _ text, List.append_assoc _ key, skipInside]
  cases first with
  | true =>
      obtain ⟨front, hfront, hskip⟩ := skip_key_part blank_nil hkey (skipOn bound kind enclosing)
        (text ++ rest)
      refine ⟨front, hfront, ?_⟩
      rw [List.append_assoc front, separator_true, hentry,
        bind_of_ok (peek_token_append (hblanks.append hgap) hblank _)]
      show (if d = kind.close then _ else _ : Reader Unit) _ = _
      rw [if_neg hclose, if_neg (by simp), if_neg (by simp), ← hentry]
      exact hskip
  | false =>
      obtain ⟨front, hfront, hskip⟩ := skip_key_part hgap hkey (skipOn bound kind enclosing)
        (text ++ rest)
      refine ⟨front, hfront, ?_⟩
      rw [List.append_assoc front, separator_false, List.append_assoc, List.cons_append,
        bind_of_ok (peek_token_append hblanks (by decide) _)]
      show (if ',' = kind.close then _ else _ : Reader Unit) _ = _
      rw [if_neg (by cases kind <;> decide), if_neg (by simp), if_pos (by simp),
        bind_of_ok (advance_cons _ _), ← List.append_assoc]
      exact hskip

/-- The values inside a bracket are passed over up to its end, with the brackets around it still open. There
are enough steps left for what follows. -/
theorem skip_inside_append {kind : Bracket} {first : Bool} {depth : Nat} {body : List Char}
    (h : WellFormedInside kind first depth body) (enclosing : List Bracket) (bound rest : List Char)
    (hbound : body.length ≤ bound.length) :
    ∃ left, bound.length ≤ left.length + body.length ∧
      skipInside bound (!first) (kind :: enclosing) (body ++ rest) =
        skipInside left true enclosing rest := by
  -- What stands inside an inner bracket and behind a value is shorter than the whole inside.
  induction hlength : body.length using Nat.strong_induction_on
    generalizing kind first depth body enclosing bound rest with
  | _ length ih =>
  subst hlength
  cases h with
  | close _ _ blanks hblanks =>
      rw [List.length_append, List.length_singleton] at hbound
      obtain ⟨c, bound, rfl⟩ := List.exists_cons_of_length_pos (show 0 < bound.length by omega)
      refine ⟨bound, by simp, ?_⟩
      rw [skipInside, List.append_assoc, List.singleton_append,
        bind_of_ok (peek_token_append hblanks kind.close_not_blank rest)]
      show (if kind.close = kind.close then _ else _ : Reader Unit) _ = _
      rw [if_pos rfl]
      exact bind_of_ok (advance_cons _ _)
  | next _ _ blanks gap key text more depth further hblanks hgap hkey hvalue hmore =>
      have hpositive : 0 < text.length := by
        obtain ⟨d, tail, rfl, -⟩ := hvalue.starts kind
        exact Nat.succ_pos _
      have hlength : (blanks ++ separator first ++ gap ++ key ++ text ++ more).length =
          (blanks ++ separator first ++ gap ++ key).length + text.length + more.length := by
        simp only [List.length_append]
      obtain ⟨c, bound, rfl⟩ := List.exists_cons_of_length_pos (show 0 < bound.length by omega)
      rw [List.length_cons] at hbound
      obtain ⟨front, hfront, hnext⟩ := skip_inside_next first hblanks hgap hkey hvalue c
        bound (more ++ rest) enclosing
      rw [List.append_assoc _ more, hnext, skipOn]
      rcases skip_start_append hvalue hfront (hmore.ends rest) with
        hsimple | ⟨inner, body, within, hbody, htext, hopen⟩
      · obtain ⟨left, hleft, heq⟩ := ih more.length (by omega) hmore enclosing bound rest (by omega) rfl
        refine ⟨left, ?_, ?_⟩
        · rw [List.length_cons]
          omega
        · rw [bind_of_ok hsimple]
          exact heq
      · have hinner : text.length = body.length + 1 := by rw [htext, List.length_cons]
        obtain ⟨middle, hmiddle, heqInner⟩ := ih body.length (by omega) hbody (kind :: enclosing) bound
          (more ++ rest) (by omega) rfl
        obtain ⟨left, hleft, heqMore⟩ := ih more.length (by omega) hmore enclosing middle rest
          (by omega) rfl
        refine ⟨left, ?_, ?_⟩
        · rw [List.length_cons]
          omega
        · rw [bind_of_ok hopen]
          exact heqInner.trans heqMore

/-- No bracket is left to go on in. -/
theorem skip_inside_nil (bound : List Char) (behind : Bool) (rest : List Char) :
    skipInside bound behind [] rest = .ok ((), rest) := by
  cases bound <;> rfl

/-- A value in any notation is passed over as a whole. -/
theorem skip_value_append {depth : Nat} {text blanks rest : List Char} (h : WellFormed depth text)
    (hblanks : Blank blanks) (hrest : Ends rest) :
    skipValue (blanks ++ text ++ rest) = .ok ((), rest) := by
  have hremaining : remaining (blanks ++ text ++ rest) =
      .ok (blanks ++ text ++ rest, blanks ++ text ++ rest) := rfl
  rw [skipValue, bind_of_ok hremaining]
  rcases skip_start_append h hblanks hrest with hsimple | ⟨kind, body, inner, hbody, rfl, hopen⟩
  · exact bind_of_ok hsimple
  · rw [bind_of_ok hopen]
    have hbound : body.length ≤ (blanks ++ kind.opening :: body ++ rest).length := by
      simp only [List.length_append, List.length_cons]
      omega
    obtain ⟨left, -, heq⟩ := skip_inside_append hbody [] _ rest hbound
    exact heq.trans (skip_inside_nil left true rest)

end Reader

end ByteGrammar.Json
