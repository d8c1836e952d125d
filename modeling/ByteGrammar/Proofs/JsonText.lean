import ByteGrammar.Json.Basic
import ByteGrammar.Json.Reader

/-!
# Texts of JSON trees

`Json.Spells` relates a tree to its texts: the tokens are fixed, and any blanks may stand between them.
The indented text of a tree is one of them. `Json.depth` counts the brackets around the innermost value.
-/

namespace ByteGrammar.Json

open Reader (isBlank)

mutual
/-- How deep the arrays and objects of a value nest. -/
def depth : Json → Nat
  | .array items => depthOfItems items + 1
  | .object members => depthOfMembers members + 1
  | _ => 0

/-- The depth of the deepest item. -/
def depthOfItems : List Json → Nat
  | [] => 0
  | item :: items => max item.depth (depthOfItems items)

/-- The depth of the deepest member. -/
def depthOfMembers : List (String × Json) → Nat
  | [] => 0
  | (_, value) :: members => max value.depth (depthOfMembers members)
end

/-- A text that may stand between tokens. -/
def Blank (text : List Char) : Prop :=
  ∀ c ∈ text, isBlank c = true

/-- What separates an item or a member from the one in front of it, if there is one. -/
def separator (first : Bool) : List Char :=
  if first then [] else [',']

/-- Nothing separates a first item, so the blanks around it run together. -/
theorem separator_true (blanks gap : List Char) : blanks ++ separator true ++ gap = blanks ++ gap := by
  rw [separator, if_pos rfl, List.append_nil]

/-- A comma separates every other item. -/
theorem separator_false (blanks gap : List Char) :
    blanks ++ separator false ++ gap = blanks ++ ',' :: gap := by
  rw [separator, if_neg Bool.false_ne_true, List.append_assoc, List.singleton_append]

mutual
/-- The texts of a value. -/
inductive Spells : Json → List Char → Prop where
  | null : Spells .null ['n', 'u', 'l', 'l']
  | bool (value) : Spells (.bool value)
      (if value then ['t', 'r', 'u', 'e'] else ['f', 'a', 'l', 's', 'e'])
  | int (value) : Spells (.int value) (toString value).toList
  | string (text) : Spells (.string text) (quote text.toList)
  | array (items body) : SpellsItems true items body → Spells (.array items) ('[' :: body)
  | object (members body) : SpellsMembers true members body → Spells (.object members) ('\x7b' :: body)

/-- The texts of the items of an array, up to its bracket. The flag says that no item precedes them. -/
inductive SpellsItems : Bool → List Json → List Char → Prop where
  | close (first blanks) : Blank blanks → SpellsItems first [] (blanks ++ [']'])
  | next (first item items blanks gap text rest) : Blank blanks → Blank gap → Spells item text →
      SpellsItems false items rest →
      SpellsItems first (item :: items) (blanks ++ separator first ++ gap ++ text ++ rest)

/-- The texts of the members of an object, up to its brace. The flag says that no member precedes
them. -/
inductive SpellsMembers : Bool → List (String × Json) → List Char → Prop where
  | close (first blanks) : Blank blanks → SpellsMembers first [] (blanks ++ ['\x7d'])
  | next (first key value members blanks gap before behind text rest) : Blank blanks → Blank gap →
      Blank before → Blank behind → Spells value text → SpellsMembers false members rest →
      SpellsMembers first ((key, value) :: members)
        (blanks ++ separator first ++ gap ++ quote key.toList ++ before ++ [':'] ++ behind ++ text ++
          rest)
end

/-- Nothing is a blank text. -/
theorem blank_nil : Blank [] :=
  fun _ h => absurd h List.not_mem_nil

/-- Two blank texts in a row. -/
theorem Blank.append {left right : List Char} (hleft : Blank left) (hright : Blank right) :
    Blank (left ++ right) := by
  intro c hc
  rcases List.mem_append.mp hc with hc | hc
  · exact hleft c hc
  · exact hright c hc

/-- A space is a blank text. -/
theorem blank_space : Blank [' '] := by
  intro c hc
  rw [List.mem_singleton.mp hc]
  rfl

/-- A line break with its indentation is a blank text. -/
theorem blank_line_break (depth : Nat) : Blank (lineBreak depth) := by
  intro c hc
  rcases List.mem_cons.mp hc with rfl | hc
  · rfl
  · rw [List.eq_of_mem_replicate hc]
    rfl

mutual
/-- The indented text of a value is one of its texts. -/
theorem spells_pretty (depth : Nat) : (value : Json) → value.Spells (value.pretty depth)
  | .null => .null
  | .bool true => .bool true
  | .bool false => .bool false
  | .int value => .int value
  | .string text => .string text
  | .array [] => .array [] [']'] (.close true [] blank_nil)
  | .array (item :: items) => by
      have hbody := SpellsItems.next true item items [] _ _ _ blank_nil (blank_line_break (depth + 1))
        (spells_pretty (depth + 1) item) (spells_pretty_items (depth + 1) depth items)
      simpa [pretty, separator] using Spells.array _ _ hbody
  | .object [] => .object [] ['\x7d'] (.close true [] blank_nil)
  | .object ((key, value) :: members) => by
      have hbody := SpellsMembers.next true key value members [] _ [] _ _ _ blank_nil
        (blank_line_break (depth + 1)) blank_nil blank_space (spells_pretty (depth + 1) value)
        (spells_pretty_members (depth + 1) depth members)
      simpa [pretty, prettyMember, separator] using Spells.object _ _ hbody

/-- The indented items behind another one, and the bracket on a line of its own. -/
theorem spells_pretty_items (depth outer : Nat) : (items : List Json) →
    SpellsItems false items (prettyItems depth items ++ lineBreak outer ++ [']'])
  | [] => .close false (lineBreak outer) (blank_line_break outer)
  | item :: items => by
      have h := SpellsItems.next false item items [] _ _ _ blank_nil (blank_line_break depth)
        (spells_pretty depth item) (spells_pretty_items depth outer items)
      simpa [prettyItems, separator] using h

/-- The indented members behind another one, and the brace on a line of its own. -/
theorem spells_pretty_members (depth outer : Nat) : (members : List (String × Json)) →
    SpellsMembers false members (prettyMembers depth members ++ lineBreak outer ++ ['\x7d'])
  | [] => .close false (lineBreak outer) (blank_line_break outer)
  | (key, value) :: members => by
      have h := SpellsMembers.next false key value members [] _ [] _ _ _ blank_nil
        (blank_line_break depth) blank_nil blank_space (spells_pretty depth value)
        (spells_pretty_members depth outer members)
      simpa [prettyMembers, prettyMember, separator] using h
end

/-- The text of an integer: a sign in front of its decimal digits. -/
theorem to_list_to_string (value : Int) : (toString value).toList =
    (if value < 0 then ['-'] else []) ++ Nat.toDigits 10 value.natAbs := by
  rw [Int.toString_eq_repr, Int.repr_eq_if]
  rcases Int.lt_or_le value 0 with hneg | hpos
  · have hminus : "-".toList = ['-'] := by simp
    rw [if_neg (by omega), if_pos hneg, String.toList_append, Nat.toList_repr, hminus,
      show (-value).toNat = value.natAbs by omega]
  · rw [if_pos hpos, if_neg (by omega), Nat.toList_repr, List.nil_append,
      show value.toNat = value.natAbs by omega]

/-- Decimal digits start with a digit. -/
theorem to_digits_eq_cons (value : Nat) :
    ∃ c rest, Nat.toDigits 10 value = c :: rest ∧ c.isDigit = true := by
  obtain ⟨c, rest, hdigits⟩ := List.exists_cons_of_ne_nil
    (Nat.toDigits_ne_nil : Nat.toDigits 10 value ≠ [])
  exact ⟨c, rest, hdigits,
    Nat.isDigit_of_mem_toDigits (by decide) (by decide) (hdigits ▸ List.mem_cons_self)⟩

/-- The text of an integer starts with a sign or a digit. -/
theorem to_string_eq_cons (value : Int) :
    ∃ c rest, (toString value).toList = c :: rest ∧ (c = '-' ∨ c.isDigit = true) := by
  obtain ⟨c, rest, hdigits, hdigit⟩ := to_digits_eq_cons value.natAbs
  rw [to_list_to_string, hdigits]
  split
  · exact ⟨'-', c :: rest, rfl, .inl rfl⟩
  · exact ⟨c, rest, rfl, .inr hdigit⟩

/-- What starts a number is neither a blank nor the end of an array. -/
theorem not_blank_of_number {c : Char} (h : c = '-' ∨ c.isDigit = true) :
    isBlank c = false ∧ c ≠ ']' := by
  rcases h with rfl | hdigit
  · decide
  · simp only [isBlank, Bool.or_eq_false_iff, beq_eq_false_iff_ne]
    refine ⟨⟨⟨⟨?_, ?_⟩, ?_⟩, ?_⟩, ?_⟩ <;> rintro rfl <;> exact absurd hdigit (by decide)

/-- A text of a value starts with a character that neither is blank nor closes an array. -/
theorem Spells.starts {value : Json} {text : List Char} (h : value.Spells text) :
    ∃ c rest, text = c :: rest ∧ isBlank c = false ∧ c ≠ ']' := by
  cases h with
  | int value =>
      obtain ⟨c, rest, htext, hc⟩ := to_string_eq_cons value
      exact ⟨c, rest, htext, not_blank_of_number hc⟩
  | bool value => cases value <;> exact ⟨_, _, rfl, by decide, by decide⟩
  | _ => exact ⟨_, _, rfl, by decide, by decide⟩

/-- What may follow a value: nothing, a blank, a comma, or the end of what is around it. -/
def Ends (rest : List Char) : Prop :=
  ∀ c ∈ rest.head?, isBlank c = true ∨ c ∈ [',', ']', '\x7d']

/-- A blank text in front of a character that ends a value. -/
theorem Blank.ends {blanks : List Char} (h : Blank blanks) {c : Char} (rest : List Char)
    (hc : c ∈ [',', ']', '\x7d']) : Ends (blanks ++ c :: rest) := by
  intro d hd
  cases blanks with
  | nil =>
      obtain rfl : c = d := by simpa using hd
      exact .inr hc
  | cons blank blanks =>
      obtain rfl : blank = d := by simpa using hd
      exact .inl (h blank List.mem_cons_self)

/-- An item ends where the text of the next ones starts. -/
theorem SpellsItems.ends {items : List Json} {text : List Char} (h : SpellsItems false items text)
    (rest : List Char) : Ends (text ++ rest) := by
  cases h with
  | close _ blanks hblanks =>
      rw [List.append_assoc, List.singleton_append]
      exact hblanks.ends rest (by decide)
  | next _ item items blanks gap text behind hblanks =>
      simp only [List.append_assoc]
      exact hblanks.ends _ (by decide)

/-- A member ends where the text of the next ones starts. -/
theorem SpellsMembers.ends {members : List (String × Json)} {text : List Char}
    (h : SpellsMembers false members text) (rest : List Char) : Ends (text ++ rest) := by
  cases h with
  | close _ blanks hblanks =>
      rw [List.append_assoc, List.singleton_append]
      exact hblanks.ends rest (by decide)
  | next _ key value members blanks gap before behind text tail hblanks =>
      simp only [List.append_assoc, List.cons_append]
      exact hblanks.ends _ (by decide)

/-- There are fewer items than characters in their text. -/
theorem SpellsItems.length_lt {first : Bool} {items : List Json} {text : List Char}
    (h : SpellsItems first items text) : items.length < text.length := by
  induction items generalizing first text with
  | nil =>
      cases h with
      | close _ blanks hblanks => simp
  | cons item items ih =>
      cases h with
      | next _ item items blanks gap text rest hblanks hgap hitem hrest =>
          obtain ⟨c, body, rfl, -⟩ := hitem.starts
          have := ih hrest
          simp only [List.length_append, List.length_cons]
          omega

/-- There are fewer members than characters in their text. -/
theorem SpellsMembers.length_lt {first : Bool} {members : List (String × Json)} {text : List Char}
    (h : SpellsMembers first members text) : members.length < text.length := by
  induction members generalizing first text with
  | nil =>
      cases h with
      | close _ blanks hblanks => simp
  | cons entry members ih =>
      cases h with
      | next _ key value members blanks gap before behind text rest hblanks hgap hbefore hbehind hvalue
          hrest =>
          have := ih hrest
          simp only [List.length_append, List.length_cons]
          omega

end ByteGrammar.Json
