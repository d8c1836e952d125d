import ByteGrammar.Proofs.ReadingDepth

/-!
# Levels of brackets

The brackets in a value are closed where it ends, and the commas in it stand inside of them. So from where a
value begins, its reader gets no further than the first comma or closing bracket of the same level. `levelEnd`
is what stands from there on, and `Follows` says of a reader that it leaves this as it is, whatever the text
is and whatever the reader makes of it. This module proves it for the values without brackets, and for values
of any kind that are passed over.
-/

namespace ByteGrammar.Json

open Reader (isBlank)

/-- Where a character stands: outside of strings, in a string, or behind a backslash in one. -/
inductive Spot where
  | outside
  | quoted
  | escaped
  deriving DecidableEq, Repr, Inhabited

/-- The rest of a text from the first comma or closing bracket outside of all brackets but `depth` open
ones. -/
def levelEnd : Spot → (depth : Nat) → List Char → List Char
  | _, _, [] => []
  | .escaped, depth, _ :: text => levelEnd .quoted depth text
  | .quoted, depth, c :: text =>
      levelEnd (if c = '\\' then .escaped else if c = '"' then .outside else .quoted) depth text
  | .outside, depth, c :: text =>
      if c = '"' then levelEnd .quoted depth text
      else if c = '[' ∨ c = '\x7b' then levelEnd .outside (depth + 1) text
      else if c = ',' ∨ c = ']' ∨ c = '\x7d' then
        if depth = 0 then c :: text
        else levelEnd .outside (if c = ',' then depth else depth - 1) text
      else levelEnd .outside depth text

/-- A character that has no meaning of its own outside of strings. -/
def Ordinary (c : Char) : Prop :=
  c ∉ ['"', '[', '\x7b', ',', ']', '\x7d']

instance : DecidablePred Ordinary :=
  fun c => inferInstanceAs (Decidable (c ∉ ['"', '[', '\x7b', ',', ']', '\x7d']))

/-- A blank is ordinary. -/
theorem ordinary_of_blank {c : Char} (h : isBlank c = true) : Ordinary c := by
  simp only [isBlank, Bool.or_eq_true, beq_iff_eq] at h
  obtain ((rfl | rfl) | rfl) | rfl := h <;> decide

/-- A digit is ordinary. -/
theorem ordinary_of_digit {c : Char} (h : c.isDigit = true) : Ordinary c := by
  intro hmem
  simp only [List.mem_cons, List.not_mem_nil, or_false] at hmem
  obtain rfl | rfl | rfl | rfl | rfl | rfl := hmem <;> exact absurd h (by decide)

/-- The level of a text ends at `tail`, and the text is not longer than `bound`. -/
structure EndsAt (spot : Spot) (depth : Nat) (tail : List Char) (bound : Nat) (text : List Char) :
    Prop where
  level : levelEnd spot depth text = tail
  short : text.length ≤ bound

namespace EndsAt

variable {depth bound : Nat} {tail text : List Char} {c : Char}

/-- A text that is short enough is so for a larger bound. -/
theorem mono {spot : Spot} (h : EndsAt spot depth tail bound text) {other : Nat} (hle : bound ≤ other) :
    EndsAt spot depth tail other text :=
  ⟨h.level, h.short.trans hle⟩

/-- A text with a first character has a bound with a predecessor. -/
theorem exists_bound {spot : Spot} (h : EndsAt spot depth tail bound (c :: text)) :
    ∃ less, bound = less + 1 :=
  Nat.exists_eq_add_one_of_ne_zero (Nat.ne_zero_of_lt h.short)

/-- An ordinary character belongs to the level. -/
theorem ordinary (h : EndsAt .outside depth tail (bound + 1) (c :: text)) (hc : Ordinary c) :
    EndsAt .outside depth tail bound text := by
  simp only [Ordinary, List.mem_cons, List.not_mem_nil, or_false, not_or] at hc
  have hlevel := h.level
  rw [levelEnd, if_neg hc.1, if_neg (by tauto), if_neg (by tauto)] at hlevel
  exact ⟨hlevel, Nat.le_of_succ_le_succ h.short⟩

/-- A quote opens a string. -/
theorem quote (h : EndsAt .outside depth tail (bound + 1) ('"' :: text)) :
    EndsAt .quoted depth tail bound text :=
  ⟨h.level, Nat.le_of_succ_le_succ h.short⟩

/-- A bracket opens a level. -/
theorem opening (h : EndsAt .outside depth tail (bound + 1) (c :: text)) (hc : c = '[' ∨ c = '\x7b') :
    EndsAt .outside (depth + 1) tail bound text := by
  refine ⟨?_, Nat.le_of_succ_le_succ h.short⟩
  obtain rfl | rfl := hc <;> exact h.level

/-- A bracket closes a level. -/
theorem closing (h : EndsAt .outside (depth + 1) tail (bound + 1) (c :: text))
    (hc : c = ']' ∨ c = '\x7d') : EndsAt .outside depth tail bound text := by
  refine ⟨?_, Nat.le_of_succ_le_succ h.short⟩
  obtain rfl | rfl := hc <;> simpa [levelEnd] using h.level

/-- A comma inside of a bracket belongs to the level of that bracket. -/
theorem comma (h : EndsAt .outside (depth + 1) tail (bound + 1) (',' :: text)) :
    EndsAt .outside (depth + 1) tail bound text :=
  ⟨by simpa [levelEnd] using h.level, Nat.le_of_succ_le_succ h.short⟩

/-- Ordinary characters at the front may be dropped. -/
theorem drop_while (h : EndsAt .outside depth tail bound text) {p : Char → Bool}
    (hp : ∀ c, p c = true → Ordinary c) : EndsAt .outside depth tail bound (text.dropWhile p) := by
  induction text generalizing bound with
  | nil => exact h
  | cons c text ih =>
      rw [List.dropWhile_cons]
      split
      case isTrue hc =>
        obtain ⟨less, rfl⟩ := h.exists_bound
        exact (ih (h.ordinary (hp c hc))).mono (Nat.le_succ less)
      case isFalse => exact h

/-- The closing quote leaves a string. -/
theorem quoted_end (h : EndsAt .quoted depth tail bound ('"' :: text)) :
    EndsAt .outside depth tail bound text :=
  ⟨h.level, (Nat.le_succ _).trans h.short⟩

/-- Any other character that is no backslash belongs to the string. -/
theorem quoted_next (h : EndsAt .quoted depth tail bound (c :: text)) (hquote : c ≠ '"')
    (hslash : c ≠ '\\') : EndsAt .quoted depth tail bound text := by
  have hlevel := h.level
  rw [levelEnd, if_neg hslash, if_neg hquote] at hlevel
  exact ⟨hlevel, (Nat.le_succ _).trans h.short⟩

/-- A backslash belongs to the string with the character behind it. -/
theorem quoted_escape (h : EndsAt .quoted depth tail bound ('\\' :: c :: text)) :
    EndsAt .quoted depth tail bound text :=
  ⟨h.level, ((Nat.le_succ _).trans (Nat.le_succ _)).trans h.short⟩

end EndsAt

namespace Reader

variable {α β γ σ τ : Type} {depth bound : Nat} {tail : List Char}

/-! ## Conditions in front of and behind readers -/

/-- From a text with a property, a reader that succeeds gives a value and a rest with another. -/
def Ensures (P : List Char → Prop) (reader : Reader α) (Q : α → List Char → Prop) : Prop :=
  ∀ ⦃text value rest⦄, P text → reader text = .ok (value, rest) → Q value rest

variable {P R : List Char → Prop} {Q : α → List Char → Prop} {S : β → List Char → Prop}

/-- More may be known of the text, and less asked of the rest. -/
theorem Ensures.weaken {reader : Reader α} {Q' : α → List Char → Prop} (h : Ensures R reader Q')
    (hpre : ∀ text, P text → R text) (hpost : ∀ value rest, Q' value rest → Q value rest) :
    Ensures P reader Q :=
  fun _ _ _ htext hread => hpost _ _ (h (hpre _ htext) hread)

/-- More may be known of the text. -/
theorem Ensures.pre {reader : Reader α} (h : Ensures R reader Q) (hpre : ∀ text, P text → R text) :
    Ensures P reader Q :=
  h.weaken hpre fun _ _ => id

/-- A reader that gives nothing ensures everything. -/
theorem ensures_of_yields {reader : Reader α} (h : Yields reader fun _ => False) :
    Ensures P reader Q :=
  fun _ _ _ _ hread => (h hread).elim

/-- A reader that finds a fault in a text. -/
def Fails (reader : Reader α) (text : List Char) : Prop :=
  ∃ failure, reader text = .error failure

/-- A reader that could ensure anything finds a fault. -/
theorem fails_of_ensures {reader : Reader α} {text : List Char} (htext : P text)
    (h : Ensures P reader fun _ _ => False) : Fails reader text := by
  cases hread : reader text with
  | error failure => exact ⟨failure, hread⟩
  | ok found => exact (h htext hread).elim

/-- A value that is there without reading. -/
theorem ensures_pure {value : α} (h : ∀ text, P text → Q value text) : Ensures P (pure value) Q := by
  intro text result rest htext hread
  cases hread
  exact h text htext

/-- A reader and one that goes on with its value. -/
theorem Ensures.bind {first : Reader α} {next : α → Reader β} (hfirst : Ensures P first Q)
    (hnext : ∀ value, Ensures (Q value) (next value) S) : Ensures P (first >>= next) S := by
  intro text result rest htext hread
  change (first text).bind (fun found => next found.1 found.2) = _ at hread
  cases hvalue : first text with
  | error failure =>
      rw [hvalue] at hread
      cases hread
  | ok found =>
      rw [hvalue] at hread
      exact hnext found.1 (hfirst htext hvalue) hread

/-- A reader whose value is changed at the end. -/
theorem Ensures.map {reader : Reader α} {change : α → β} {R : List Char → Prop}
    (h : Ensures P reader fun _ => R) : Ensures P (change <$> reader) fun _ => R := by
  rw [← bind_pure_comp]
  exact h.bind fun _ => ensures_pure fun _ => id

/-- Leaving a bracket changes nothing. -/
theorem Ensures.leave {reader : Reader α} (h : Ensures P reader Q) (close : List Char → List Char) :
    Ensures P (leave close reader) Q := by
  intro text value rest htext hread
  unfold Reader.leave at hread
  split at hread
  · cases hread
  · exact h htext hread

/-- The next character is seen and left. -/
theorem ensures_peek : Ensures P peek fun next rest => rest.head? = next ∧ P rest := by
  intro text value rest htext hread
  cases hread
  exact ⟨rfl, htext⟩

/-- A character that has been seen is dropped. -/
theorem ensures_advance {c : Char} :
    Ensures (fun text => text.head? = some c ∧ P text) advance fun _ rest => P (c :: rest) := by
  rintro text value rest ⟨hhead, htext⟩ hread
  cases hread
  obtain ⟨more, rfl⟩ := List.head?_eq_some_iff.mp hhead
  exact htext

/-- The blanks in front of the next token belong to the level. -/
theorem ensures_peek_token : Ensures (EndsAt .outside depth tail bound) peekToken
    fun next rest => rest.head? = next ∧ EndsAt .outside depth tail bound rest := by
  intro text value rest htext hread
  cases hread
  exact ⟨rfl, htext.drop_while fun c => ordinary_of_blank⟩

/-- A reader of a value leaves the end of its level as it is. -/
def Follows (reader : Reader α) : Prop :=
  ∀ depth tail bound, Ensures (EndsAt .outside depth tail bound) reader
    fun _ => EndsAt .outside depth tail bound

/-- A reader that gives nothing follows everything. -/
theorem follows_of_yields {reader : Reader α} (h : Yields reader fun _ => False) : Follows reader :=
  fun _ _ _ => ensures_of_yields h

/-- A value that is there without reading. -/
theorem follows_pure (value : α) : Follows (pure value) :=
  fun _ _ _ => ensures_pure fun _ => id

/-- A reader and one that goes on with its value. -/
theorem Follows.bind {first : Reader α} {next : α → Reader β} (hfirst : Follows first)
    (hnext : ∀ value, Follows (next value)) : Follows (first >>= next) :=
  fun depth tail bound => (hfirst depth tail bound).bind fun value => hnext value depth tail bound

/-- A reader whose value is changed at the end. -/
theorem Follows.map {reader : Reader α} (h : Follows reader) (change : α → β) :
    Follows (change <$> reader) :=
  fun depth tail bound => (h depth tail bound).map

/-- What is read behind a character that has been seen, of which it has one less. -/
theorem Ensures.beyond {spot : Spot} {inner : Nat} {c : Char} {next : Reader α}
    (hstep : ∀ {text : List Char}, EndsAt .outside depth tail (bound + 1) (c :: text) →
      EndsAt spot inner tail bound text)
    (h : Ensures (EndsAt spot inner tail bound) next Q) :
    Ensures (fun text => text.head? = some c ∧ EndsAt .outside depth tail (bound + 1) text)
      (advance >>= fun _ => next) Q :=
  ensures_advance.bind fun _ => h.pre fun _ => hstep

/-- What is read behind a character that has been seen. -/
theorem Ensures.past {spot : Spot} {inner : Nat} {c : Char} {next : Reader α}
    (hstep : ∀ {text : List Char}, EndsAt .outside depth tail (bound + 1) (c :: text) →
      EndsAt spot inner tail bound text)
    (h : Ensures (EndsAt spot inner tail bound) next Q) :
    Ensures (fun text => text.head? = some c ∧ EndsAt .outside depth tail bound text)
      (advance >>= fun _ => next) Q :=
  (h.beyond hstep).pre fun _ htext => ⟨htext.1, htext.2.mono (Nat.le_succ bound)⟩

/-- What is read behind an ordinary character that has been seen. -/
theorem Ensures.ordinary {c : Char} {next : Reader α} (hc : Ordinary c)
    (h : Ensures (EndsAt .outside depth tail bound) next Q) :
    Ensures (fun text => text.head? = some c ∧ EndsAt .outside depth tail bound text)
      (advance >>= fun _ => next) Q :=
  .past (fun htext => htext.ordinary hc) h

/-- It does not matter which character comes next. -/
theorem Ensures.unseen {next : Option Char} {reader : Reader α} (h : Ensures P reader Q) :
    Ensures (fun text => text.head? = next ∧ P text) reader Q :=
  h.pre fun _ htext => htext.2

/-! ## Strings -/

/-- A hexadecimal digit is neither a quote nor a backslash. -/
theorem quotable_of_digit_value {c : Char} {value : Nat} (h : Text.digitValue? c = some value) :
    c ≠ '"' ∧ c ≠ '\\' := by
  have hquote : Text.digitValue? '"' = none := by decide
  have hslash : Text.digitValue? '\\' = none := by decide
  constructor <;> rintro rfl
  · cases hquote.symm.trans h
  · cases hslash.symm.trans h

/-- A code of four digits belongs to the string. -/
theorem ends_at_of_code {a b c d : Char} {code : Nat} {text : List Char}
    (h : EndsAt .quoted depth tail bound ('\\' :: 'u' :: a :: b :: c :: d :: text))
    (hcode : hexCode? a b c d = some code) : EndsAt .quoted depth tail bound text := by
  simp only [hexCode?, Option.bind_eq_bind, Option.bind_eq_some_iff] at hcode
  obtain ⟨_, ha, _, hb, _, hc, _, hd, -⟩ := hcode
  obtain ⟨⟨ha, ha'⟩, hb, hb'⟩ := And.intro (quotable_of_digit_value ha) (quotable_of_digit_value hb)
  obtain ⟨⟨hc, hc'⟩, hd, hd'⟩ := And.intro (quotable_of_digit_value hc) (quotable_of_digit_value hd)
  exact ((((h.quoted_escape).quoted_next ha ha').quoted_next hb hb').quoted_next hc hc').quoted_next
    hd hd'

/-- Prepending a character changes nothing of the rest. -/
theorem exists_of_cons_char {c : Char} {result : Except Failure (List Char × List Char)}
    {chars rest : List Char} (h : consChar c result = .ok (chars, rest)) :
    ∃ more, result = .ok (more, rest) := by
  cases result with
  | error => cases h
  | ok found =>
      obtain ⟨-, rfl⟩ := Prod.mk.inj (Except.ok.inj h)
      exact ⟨found.1, rfl⟩

/-- A string is read up to the quote that leaves it. -/
theorem ends_at_of_string_body {text chars rest : List Char}
    (htext : EndsAt .quoted depth tail bound text) (h : stringBody text = .ok (chars, rest)) :
    EndsAt .outside depth tail bound rest := by
  fun_induction stringBody text generalizing chars
  case case2 rest' =>
    obtain ⟨-, rfl⟩ := Prod.mk.inj (Except.ok.inj h)
    exact htext.quoted_end
  case case9 high hhigh _ _ _ _ _ _ _ low hlow _ ih =>
    obtain ⟨more, hmore⟩ := exists_of_cons_char h
    exact ih (ends_at_of_code (ends_at_of_code htext hhigh) hlow) hmore
  case case14 code hcode _ _ ih =>
    obtain ⟨more, hmore⟩ := exists_of_cons_char h
    exact ih (ends_at_of_code htext hcode) hmore
  case case16 _ _ _ _ ih =>
    obtain ⟨more, hmore⟩ := exists_of_cons_char h
    exact ih htext.quoted_escape hmore
  case case19 c rest' hquote hslash _ _ _ ih =>
    obtain ⟨more, hmore⟩ := exists_of_cons_char h
    have hne : c ≠ '\\' := by
      rintro rfl
      cases rest' <;> simp_all
    exact ih (htext.quoted_next hquote hne) hmore
  all_goals cases h

/-- A string is passed over up to the quote that leaves it. -/
theorem ends_at_of_skip_string_body {text rest : List Char} {value : Unit}
    (htext : EndsAt .quoted depth tail bound text) (h : skipStringBody text = .ok (value, rest)) :
    EndsAt .outside depth tail bound rest := by
  fun_induction skipStringBody text
  case case2 rest' =>
    obtain ⟨-, rfl⟩ := Prod.mk.inj (Except.ok.inj h)
    exact htext.quoted_end
  case case5 _ hcode ih => exact ih (ends_at_of_code htext hcode) h
  case case7 _ _ ih => exact ih htext.quoted_escape h
  case case10 c rest' hquote hslash _ _ _ ih =>
    have hne : c ≠ '\\' := by
      rintro rfl
      cases rest' <;> simp_all
    exact ih (htext.quoted_next hquote hne) h
  all_goals cases h

/-- A string that is read behind its opening quote. -/
theorem ensures_string_rest : Ensures (EndsAt .quoted depth tail bound) stringRest
    fun _ => EndsAt .outside depth tail bound := by
  intro text value rest htext hread
  rw [stringRest] at hread
  cases hbody : stringBody text with
  | error failure =>
      rw [hbody] at hread
      cases hread
  | ok found =>
      rw [hbody] at hread
      obtain ⟨-, rfl⟩ := Prod.mk.inj (Except.ok.inj hread)
      exact ends_at_of_string_body htext hbody

/-- A string that is passed over behind its opening quote. -/
theorem ensures_skip_string_body : Ensures (EndsAt .quoted depth tail bound) skipStringBody
    fun _ => EndsAt .outside depth tail bound :=
  fun _ _ _ => ends_at_of_skip_string_body

/-- The remaining letters of a fixed word belong to the level. -/
theorem follows_letters {word : List Char} (h : ∀ c ∈ word, Ordinary c) : Follows (letters word) := by
  intro depth tail bound
  induction word with
  | nil => exact ensures_pure fun _ => id
  | cons c word ih =>
      rw [List.forall_mem_cons] at h
      refine ensures_peek.bind fun next => ?_
      split
      · exact ensures_of_yields (yields_fail_here _)
      · split
        case isTrue heq => exact heq ▸ .ordinary (heq ▸ h.1) (ih h.2)
        case isFalse => exact ensures_of_yields (yields_fail_next _)

/-! ## Numbers -/

/-- Digits belong to the level. -/
theorem follows_digits : Follows digits := by
  intro depth tail bound text value rest htext hread
  cases hread
  exact htext.drop_while fun c => ordinary_of_digit

/-- Scaling reads nothing. -/
theorem follows_scaled (negative : Bool) (significand : Nat) (exponent : Int) :
    Follows (scaled negative significand exponent) := by
  unfold scaled
  split
  · exact follows_pure _
  · exact follows_of_yields (yields_fail_here _)

/-- The sign of an exponent belongs to the level, if there is one. -/
theorem ensures_sign {sign : Option Char} {next : Reader α}
    (h : Ensures (EndsAt .outside depth tail bound) next Q) :
    Ensures (fun text => text.head? = sign ∧ EndsAt .outside depth tail bound text)
      (if sign = some '+' ∨ sign = some '-' then (do advance; next) else next) Q := by
  split
  case isTrue hsign => obtain rfl | rfl := hsign <;> exact .ordinary (by decide) h
  case isFalse => exact h.unseen

/-- The exponent of a number belongs to the level. -/
theorem follows_exponent_part (negative : Bool) (significand : Nat) (exponent : Int) :
    Follows (exponentPart negative significand exponent) := by
  intro depth tail bound
  unfold exponentPart
  refine ensures_peek.bind fun sign => ensures_sign (ensures_peek.bind fun next => ?_)
  split
  · exact ensures_of_yields (yields_fail_here _)
  · split
    · exact ensures_of_yields (yields_fail_next _)
    · refine ((follows_digits _ _ _).bind fun text => ?_).unseen
      dsimp only
      split
      · exact follows_scaled _ _ _ _ _ _
      · split
        · exact ensures_of_yields (yields_of_error fun _ => ⟨_, rfl⟩)
        · exact follows_pure _ _ _ _

/-- What follows the integer digits of a number belongs to the level. -/
theorem follows_fraction_part (negative : Bool) (significand : Nat) (exponent : Int) :
    Follows (fractionPart negative significand exponent) := by
  intro depth tail bound
  have hexponent (significand : Nat) (exponent : Int) :=
    follows_exponent_part negative significand exponent depth tail bound
  have hscaled (significand : Nat) (exponent : Int) :=
    follows_scaled negative significand exponent depth tail bound
  unfold fractionPart
  refine ensures_peek.bind fun next => ?_
  split
  · refine .ordinary (by decide) ((follows_digits _ _ _).bind fun text => ?_)
    split
    · refine ensures_peek.bind fun next => ?_
      split <;> exact ensures_of_yields (yields_fail_next _)
    · dsimp only
      refine ensures_peek.bind fun next => ?_
      split
      · exact .ordinary (by decide) (hexponent _ _)
      · exact .ordinary (by decide) (hexponent _ _)
      · exact (hscaled _ _).unseen
  · exact .ordinary (by decide) (hexponent _ _)
  · exact .ordinary (by decide) (hexponent _ _)
  · exact (hscaled _ _).unseen

/-- A number whose integer digits have been read belongs to the level. -/
theorem follows_number_tail (negative : Bool) (text : List Char) : Follows (numberTail negative text) := by
  intro depth tail bound
  unfold numberTail
  dsimp only
  refine ensures_peek.bind fun next => Ensures.unseen ?_
  split
  · exact follows_pure _ _ _ _
  · split
    · exact follows_pure _ _ _ _
    · exact follows_fraction_part _ _ _ _ _ _

/-- A number after its sign belongs to the level. -/
theorem follows_unsigned_number (negative : Bool) : Follows (unsignedNumber negative) := by
  intro depth tail bound
  have htail (text : List Char) := follows_number_tail negative text depth tail bound
  unfold unsignedNumber
  refine ensures_peek.bind fun next => ?_
  split
  · exact ensures_of_yields (yields_fail_here _)
  · refine .ordinary (by decide) (ensures_peek.bind fun next => Ensures.unseen ?_)
    split
    · split
      · exact ensures_of_yields (yields_fail_next _)
      · exact htail _
    · exact htail _
  · split
    · exact ((follows_digits _ _ _).bind fun text => htail text).unseen
    · exact ensures_of_yields (yields_fail_next _)

/-- A number belongs to the level. -/
theorem follows_number : Follows number := by
  intro depth tail bound
  refine ensures_peek.bind fun next => ?_
  split
  · exact .ordinary (by decide) (follows_unsigned_number _ _ _ _)
  · exact (follows_unsigned_number _ _ _ _).unseen

/-- A value of another type is not read. -/
theorem follows_mismatch (expected : String) : Follows (mismatch expected : Reader α) :=
  follows_of_yields (yields_mismatch expected)

/-- An integer belongs to the level. -/
theorem follows_integer_of (accept : Int → Option α) (expected : String) :
    Follows (integerOf accept expected) := by
  intro depth tail bound
  refine ensures_peek_token.bind fun next => Ensures.unseen ?_
  split
  · exact ensures_of_yields (yields_fail_next _)
  · split
    · refine (follows_number _ _ _).bind fun value => ?_
      split
      · split
        · exact follows_pure _ _ _ _
        · exact ensures_of_yields (yields_fail_here _)
      · exact ensures_of_yields (yields_fail_here _)
    · exact follows_mismatch _ _ _ _

/-- A fixed word belongs to the level, behind its first letter. -/
theorem ensures_word {c : Char} {word : List Char} (hc : Ordinary c) (hword : ∀ c ∈ word, Ordinary c)
    (value : α) :
    Ensures (fun text => text.head? = some c ∧ EndsAt .outside depth tail bound text)
      (do advance; letters word; return value) fun _ => EndsAt .outside depth tail bound :=
  .ordinary hc ((follows_letters hword _ _ _).bind fun _ => follows_pure value _ _ _)

/-- A truth value belongs to the level. -/
theorem follows_boolean : Follows boolean := by
  intro depth tail bound
  refine ensures_peek_token.bind fun next => ?_
  split
  · exact ensures_of_yields (yields_fail_next _)
  · exact ensures_word (by decide) (by simp [Ordinary]) true
  · exact ensures_word (by decide) (by simp [Ordinary]) false
  · exact (follows_mismatch _ _ _ _).unseen

/-- A string belongs to the level. -/
theorem follows_string : Follows Reader.string := by
  intro depth tail bound
  refine ensures_peek_token.bind fun next => ?_
  split
  · exact ensures_of_yields (yields_fail_next _)
  · exact .past EndsAt.quote ensures_string_rest
  · exact (follows_mismatch _ _ _ _).unseen

/-- The colon behind a key belongs to the level. -/
theorem follows_colon : Follows colon := by
  intro depth tail bound
  refine ensures_peek_token.bind fun next => ?_
  split
  · rw [← bind_pure advance]
    exact .ordinary (by decide) (follows_pure () _ _ _)
  · exact ensures_of_yields (yields_fail_next _)
  · exact ensures_of_yields (yields_fail_next _)

/-! ## Passing over values -/

/-- Digits that are passed over belong to the level. -/
theorem follows_skip_digits : Follows skipDigits := by
  intro depth tail bound text value rest htext hread
  cases hread
  exact htext.drop_while fun c => ordinary_of_digit

/-- Digits that are passed over are at least the one that has been seen. -/
theorem ensures_skip_digits {c : Char} (hc : c.isDigit = true) :
    Ensures (fun text => text.head? = some c ∧ EndsAt .outside depth tail (bound + 1) text) skipDigits
      fun _ => EndsAt .outside depth tail bound := by
  rintro text value rest ⟨hhead, htext⟩ hread
  cases hread
  obtain ⟨more, rfl⟩ := List.head?_eq_some_iff.mp hhead
  rw [List.dropWhile_cons_of_pos hc]
  exact (htext.ordinary (ordinary_of_digit hc)).drop_while fun c => ordinary_of_digit

/-- An exponent that is passed over belongs to the level. -/
theorem follows_skip_exponent : Follows skipExponent := by
  intro depth tail bound
  unfold skipExponent
  refine ensures_peek.bind fun sign => ensures_sign (ensures_peek.bind fun next => Ensures.unseen ?_)
  split
  · exact ensures_of_yields (yields_fail_here _)
  · split
    · exact follows_skip_digits _ _ _
    · exact ensures_of_yields (yields_fail_next _)

/-- What follows the integer digits of a number and is passed over belongs to the level. -/
theorem follows_skip_number_tail : Follows skipNumberTail := by
  intro depth tail bound
  have hexponent := follows_skip_exponent depth tail bound
  unfold skipNumberTail
  refine ensures_peek.bind fun next => ?_
  split
  · refine .ordinary (by decide) (ensures_peek.bind fun next => Ensures.unseen ?_)
    split
    · exact ensures_of_yields (yields_fail_next _)
    · split
      · exact ensures_of_yields (yields_fail_next _)
      · refine (follows_skip_digits _ _ _).bind fun _ => ensures_peek.bind fun next => ?_
        split
        · exact .ordinary (by decide) hexponent
        · exact .ordinary (by decide) hexponent
        · exact (follows_pure () _ _ _).unseen
  · exact .ordinary (by decide) hexponent
  · exact .ordinary (by decide) hexponent
  · exact (follows_pure () _ _ _).unseen

/-- A number that is passed over belongs to the level, and is not empty. -/
theorem ensures_skip_number : Ensures (EndsAt .outside depth tail (bound + 1)) skipNumber
    fun _ => EndsAt .outside depth tail bound := by
  have htail := follows_skip_number_tail depth tail bound
  unfold skipNumber
  refine ensures_peek.bind fun next => ?_
  split
  · exact ensures_of_yields (yields_fail_here _)
  · refine .beyond (fun htext => htext.ordinary (by decide)) ?_
    refine ensures_peek.bind fun next => Ensures.unseen ?_
    split
    · split
      · exact ensures_of_yields (yields_fail_next _)
      · exact htail
    · exact htail
  · split
    case isTrue hdigit => exact (ensures_skip_digits hdigit).bind fun _ => htail
    case isFalse => exact ensures_of_yields (yields_fail_next _)

/-- A key that is passed over belongs to the level, with its colon. -/
theorem follows_skip_key : Follows skipKey := by
  intro depth tail bound
  refine ensures_peek_token.bind fun next => ?_
  split
  · exact ensures_of_yields (yields_fail_next _)
  · exact .past EndsAt.quote (ensures_skip_string_body.bind fun _ => follows_colon _ _ _)
  · exact ensures_of_yields (yields_fail_next _)

/-- The start of a value that is passed over is not empty, and opens a level if it is a bracket. -/
theorem ensures_skip_start : Ensures (EndsAt .outside depth tail (bound + 1)) skipStart
    fun inner => EndsAt .outside (inner.elim depth fun _ => depth + 1) tail bound := by
  have hword {c : Char} {word : List Char} (hc : Ordinary c) (hword : ∀ c ∈ word, Ordinary c) :
      Ensures (fun text => text.head? = some c ∧ EndsAt .outside depth tail (bound + 1) text)
        (do advance; letters word; return (none : Option Bracket))
        fun inner => EndsAt .outside (inner.elim depth fun _ => depth + 1) tail bound :=
    .beyond (fun htext => htext.ordinary hc)
      ((follows_letters hword _ _ _).bind fun _ => ensures_pure fun _ => id)
  have hnumber : Ensures (EndsAt .outside depth tail (bound + 1))
      (do skipNumber; return (none : Option Bracket))
      fun inner => EndsAt .outside (inner.elim depth fun _ => depth + 1) tail bound :=
    ensures_skip_number.bind fun _ => ensures_pure fun _ => id
  refine ensures_peek_token.bind fun next => ?_
  split
  · exact ensures_of_yields (yields_fail_next _)
  · exact hword (by decide) (by simp [Ordinary])
  · exact hword (by decide) (by simp [Ordinary])
  · exact hword (by decide) (by simp [Ordinary])
  · refine .beyond (fun htext => htext.ordinary (by decide)) ?_
    exact hnumber.pre fun _ htext => htext.mono (Nat.le_succ bound)
  · exact .beyond EndsAt.quote (ensures_skip_string_body.bind fun _ => ensures_pure fun _ => id)
  · exact .beyond (fun htext => htext.opening (.inl rfl)) (ensures_pure fun _ => id)
  · exact .beyond (fun htext => htext.opening (.inr rfl)) (ensures_pure fun _ => id)
  · split
    · exact hnumber.unseen
    · exact ensures_of_yields (yields_fail_next _)

/-- A step that is taken under a condition only. -/
theorem ensures_when {p : Prop} [Decidable p] {first : Reader Unit} {next : Reader α}
    (hfirst : p → Ensures P (first >>= fun _ => next) Q) (hnext : ¬p → Ensures P next Q) :
    Ensures P (if p then (do first; next) else next) Q := by
  split
  case isTrue hp => exact hfirst hp
  case isFalse hp => exact hnext hp

/-- A text whose next character has been seen is not empty. -/
theorem ensures_seen {c : Char} {reader : Reader α}
    (h : ∀ less, bound = less + 1 → Ensures
      (fun text => text.head? = some c ∧ EndsAt .outside depth tail (less + 1) text) reader Q) :
    Ensures (fun text => text.head? = some c ∧ EndsAt .outside depth tail bound text) reader Q := by
  rintro text value rest ⟨hhead, htext⟩ hread
  obtain ⟨more, rfl⟩ := List.head?_eq_some_iff.mp hhead
  obtain ⟨less, rfl⟩ := htext.exists_bound
  exact h less rfl ⟨hhead, htext⟩ hread

/-- What is passed over inside of open brackets closes all of them, if the limit is long enough. -/
theorem ensures_skip_inside {limit : List Char} (hlimit : limit.length = bound + 1) (behind : Bool)
    (enclosing : List Bracket) :
    Ensures (EndsAt .outside (depth + enclosing.length) tail bound) (skipInside limit behind enclosing)
      fun _ => EndsAt .outside depth tail bound := by
  induction limit generalizing bound behind enclosing with
  | nil => cases hlimit
  | cons c limit ih =>
      cases enclosing with
      | nil => exact ensures_pure fun _ => id
      | cons bracket enclosing =>
          rw [skipInside]
          refine ensures_peek_token.bind fun next => ?_
          split
          · exact ensures_of_yields (yields_fail_next _)
          · refine ensures_seen ?_
            rintro less rfl
            have hless : limit.length = less + 1 := Nat.succ.inj hlimit
            -- What the rest of the inside leaves is shorter by at least one character.
            have hinside (behind : Bool) (enclosing : List Bracket) :
                Ensures (EndsAt .outside (depth + enclosing.length) tail less)
                  (skipInside limit behind enclosing)
                  fun _ => EndsAt .outside depth tail (less + 1) :=
              (ih hless behind enclosing).weaken (fun _ => id)
                fun _ _ htext => htext.mono (Nat.le_succ less)
            split
            case isTrue hclose =>
              refine .beyond (fun htext => htext.closing ?_) (hinside true enclosing)
              rw [hclose]
              cases bracket <;> simp [Bracket.close]
            case isFalse =>
              split
              case isTrue => exact ensures_of_yields (yields_fail_next _)
              case isFalse hcomma =>
                have hstart : Ensures
                    (EndsAt .outside (depth + (bracket :: enclosing).length) tail (less + 1))
                    (skipOn limit bracket enclosing) fun _ => EndsAt .outside depth tail (less + 1) := by
                  refine ensures_skip_start.bind fun inner => ?_
                  cases inner with
                  | none => exact hinside true (bracket :: enclosing)
                  | some inner => exact hinside false (inner :: bracket :: enclosing)
                have hkey := ensures_when (fun _ : bracket = .curly => (follows_skip_key _ _ _).bind
                  fun _ => hstart) fun _ => hstart
                refine ensures_when (fun hbehind => ?_) fun _ => hkey.unseen
                obtain rfl := not_not.mp fun hne => hcomma ⟨hbehind, hne⟩
                exact .past (fun htext => htext.comma) hkey

/-- A fact that does not depend on the text. -/
theorem Ensures.given {p : Prop} {reader : Reader α} (h : p → Ensures P reader Q) :
    Ensures (fun text => p ∧ P text) reader Q :=
  fun _ _ _ htext => h htext.1 htext.2

/-- A value that is passed over belongs to the level. -/
theorem follows_skip_value : Follows skipValue := by
  intro depth tail bound text value rest htext hread
  cases text with
  | nil => cases hread
  | cons c text =>
      have hskip : Ensures
          (fun left => left = c :: text ∧ EndsAt .outside depth tail (text.length + 1) left) skipValue
          fun _ => EndsAt .outside depth tail text.length := by
        refine Ensures.bind (Q := fun limit left =>
          limit.length = text.length + 1 ∧ EndsAt .outside depth tail (text.length + 1) left)
          ?_ fun limit => Ensures.given fun hlimit => ensures_skip_start.bind fun inner => ?_
        · rintro left limit rest ⟨rfl, hleft⟩ hremaining
          cases hremaining
          exact ⟨rfl, hleft⟩
        · cases inner with
          | none => exact ensures_pure fun _ => id
          | some bracket => exact ensures_skip_inside hlimit false [bracket]
      have hrest := hskip ⟨rfl, htext.level, Nat.le_refl _⟩ hread
      exact hrest.mono ((Nat.le_succ _).trans htext.short)

end Reader

end ByteGrammar.Json
