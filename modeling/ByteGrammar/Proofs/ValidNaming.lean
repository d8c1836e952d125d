import ByteGrammar.Naming.Reader
import Mathlib

/-!
# Names under an accepted naming

Every name that an accepted naming gives is an identifier, and the names of definitions tell productions
apart: numbered rules by their number, and the entry from all of them, because its name does not read as a
numbered rule.
-/

namespace ByteGrammar

/-- Decimal digits are digits. -/
theorem is_digit_of_mem_number {number : Nat} {c : Char} (h : c ∈ (toString number).toList) :
    c.isDigit = true := by
  rw [show toString number = number.repr from rfl, Nat.toList_repr] at h
  exact Nat.isDigit_of_mem_toDigits (by decide) (by decide) h

/-- A number has at least one digit. -/
theorem number_ne_nil (number : Nat) : (toString number).toList ≠ [] := by
  rw [show toString number = number.repr from rfl, Nat.toList_repr]
  exact Nat.toDigits_ne_nil

/-- A digit may stand inside an identifier. -/
theorem is_identifier_rest_of_digit {c : Char} (h : c.isDigit = true) : isIdentifierRest c = true := by
  simp [isIdentifierRest, Char.isAlphanum, h]

/-- What starts an identifier may stand inside one. -/
theorem is_identifier_rest_of_start {c : Char} (h : isIdentifierStart c = true) :
    isIdentifierRest c = true := by
  simp only [isIdentifierStart, Bool.or_eq_true] at h
  rcases h with h | h <;> simp [isIdentifierRest, Char.isAlphanum, h]

/-- An identifier has nothing in it but what may stand inside one. -/
theorem is_identifier_rest_of_mem {text : String} (h : isIdentifier text = true) {c : Char}
    (hc : c ∈ text.toList) : isIdentifierRest c = true := by
  rw [isIdentifier] at h
  cases htext : text.toList with
  | nil => simp [htext] at hc
  | cons first rest =>
      rw [htext] at h hc
      simp only [Bool.and_eq_true, List.all_eq_true] at h
      rcases List.mem_cons.mp hc with rfl | hc
      · exact is_identifier_rest_of_start h.1
      · exact h.2 c hc

/-- An identifier with a number behind it is one. -/
theorem is_identifier_append_number {stem : String} (h : isIdentifier stem = true) (number : Nat) :
    isIdentifier (stem ++ toString number) = true := by
  rw [isIdentifier] at h ⊢
  rw [String.toList_append]
  cases hstem : stem.toList with
  | nil => simp [hstem] at h
  | cons first rest =>
      rw [hstem] at h
      simp only [Bool.and_eq_true] at h
      simp only [List.cons_append, List.all_append, Bool.and_eq_true, List.all_eq_true]
      exact ⟨h.1, List.all_eq_true.mp h.2, fun c hc =>
        is_identifier_rest_of_digit (is_digit_of_mem_number hc)⟩

namespace Naming

variable {naming : Naming}

/-- A naming is accepted when its parts are identifiers and its entry does not read as a rule. -/
theorem validate_eq_ok_iff : naming.validate = .ok () ↔
    isIdentifier naming.entryName = true ∧ isIdentifier naming.ruleStem = true ∧
      isIdentifier naming.indexStem = true ∧ naming.entryShadowsRule = false := by
  rw [validate]
  cases isIdentifier naming.entryName <;> cases isIdentifier naming.ruleStem <;>
    cases isIdentifier naming.indexStem <;> cases naming.entryShadowsRule <;>
    simp [throw, throwThe, MonadExceptOf.throw, bind, Except.bind, pure, Except.pure]

/-- A text gives a naming exactly when it spells one that is accepted. -/
theorem of_json_eq_ok_iff {source : String} :
    Naming.ofJson? source = .ok naming ↔
      Naming.read.run source = .ok naming ∧ naming.validate = .ok () := by
  rw [Naming.ofJson?]
  cases Naming.read.run source with
  | error error => simp
  | ok found =>
      cases hvalid : found.validate with
      | error error =>
          refine iff_of_false (by simp [hvalid]) ?_
          rintro ⟨hfound, hnaming⟩
          obtain rfl : found = naming := Except.ok.inj hfound
          rw [hvalid] at hnaming
          cases hnaming
      | ok =>
          simp only [hvalid, Except.ok.injEq, iff_self_and]
          rintro rfl
          exact hvalid

/-- Rules with different numbers have different names. -/
theorem rule_name_injective (naming : Naming) : Function.Injective naming.ruleName := by
  intro first second h
  exact UInt32.toNat_inj.mp (Nat.repr_injective ((String.append_right_inj _).mp h))

/-- The entry is not named like a rule. -/
theorem entry_name_ne_rule_name (h : naming.validate = .ok ()) (id : UInt32) :
    naming.entryName ≠ naming.ruleName id := by
  intro hname
  obtain ⟨-, -, -, hshadow⟩ := validate_eq_ok_iff.mp h
  have hafter : afterStem? naming.ruleStem.toList naming.entryName.toList =
      some (toString id.toNat).toList := by
    rw [after_stem_eq_some_iff, hname, ruleName, String.toList_append]
  have hdigits : (toString id.toNat).toList.all Char.isDigit = true :=
    List.all_eq_true.mpr fun c hc => is_digit_of_mem_number hc
  simp only [entryShadowsRule, hafter, hdigits, Bool.and_true, Bool.not_eq_false',
    List.isEmpty_iff] at hshadow
  exact number_ne_nil id.toNat hshadow

/-- Definitions of different productions have different names. -/
theorem definition_name_eq_iff (h : naming.validate = .ok ()) {first second : Production} :
    naming.definitionName first = naming.definitionName second ↔ first.id = second.id := by
  constructor
  · intro hname
    rw [definitionName, definitionName] at hname
    by_cases hfirst : first.isEntry = true
    · by_cases hsecond : second.isEntry = true
      · exact (beq_iff_eq.mp hfirst).trans (beq_iff_eq.mp hsecond).symm
      · rw [if_pos hfirst, if_neg hsecond] at hname
        exact absurd hname (entry_name_ne_rule_name h second.id)
    · by_cases hsecond : second.isEntry = true
      · rw [if_neg hfirst, if_pos hsecond] at hname
        exact absurd hname.symm (entry_name_ne_rule_name h first.id)
      · rw [if_neg hfirst, if_neg hsecond] at hname
        exact rule_name_injective naming hname
  · intro hid
    rw [definitionName, definitionName, Production.isEntry, Production.isEntry, hid]

/-- The name of a rule is an identifier. -/
theorem is_identifier_rule_name (h : naming.validate = .ok ()) (id : UInt32) :
    isIdentifier (naming.ruleName id) = true :=
  is_identifier_append_number (validate_eq_ok_iff.mp h).2.1 id.toNat

/-- The name of a definition is an identifier. -/
theorem is_identifier_definition_name (h : naming.validate = .ok ()) (production : Production) :
    isIdentifier (naming.definitionName production) = true := by
  rw [definitionName]
  split
  · exact (validate_eq_ok_iff.mp h).1
  · exact is_identifier_rule_name h production.id

end Naming

end ByteGrammar
