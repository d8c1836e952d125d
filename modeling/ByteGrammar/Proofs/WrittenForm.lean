import ByteGrammar.Proofs.Replacement
import ByteGrammar.Term.Render

/-!
# What a written form looks like

`Term.Written` relates a term to its text, one rule for each shape, in terms of the texts of the parts.
`written_iff` says that it is the relation that `Term.render` computes, so that a successful rendering is
taken apart by cases. `render_eq_empty_iff` is the first use: only blank terms have the empty text.
-/

namespace ByteGrammar

/-- A sequence of two computations succeeds exactly when both do. -/
theorem bind_eq_ok_iff {ε α β : Type} {x : Except ε α} {f : α → Except ε β} {result : β} :
    (x >>= f) = .ok result ↔ ∃ value, x = .ok value ∧ f value = .ok result := by
  cases x <;> simp [Bind.bind, Except.bind]

/-- Returning a value returns that value only. -/
theorem pure_eq_ok_iff {ε α : Type} {value result : α} :
    (pure value : Except ε α) = .ok result ↔ value = result := by
  simp [Pure.pure, Except.pure]

/-- Writing a list of terms succeeds exactly when writing each of them does. -/
theorem render_all_eq_ok_iff {terms : List Term} {texts : List String} :
    renderAll terms = .ok texts ↔ terms.map Term.render = texts.map .ok := by
  induction terms generalizing texts with
  | nil => cases texts <;> simp [renderAll]
  | cons term terms ih =>
      simp only [renderAll, bind_eq_ok_iff, pure_eq_ok_iff, ih]
      cases texts with
      | nil => simp
      | cons text texts =>
          simp only [List.map_cons, List.cons.injEq]
          constructor
          · rintro ⟨_, hterm, _, hterms, rfl, rfl⟩
            exact ⟨hterm, hterms⟩
          · rintro ⟨hterm, hterms⟩
            exact ⟨text, hterm, texts, hterms, rfl, rfl⟩

/-- `Written term text` says that `text` is the written form of `term`, by the shape of the term and the
texts of its parts. -/
inductive Term.Written : Term → String → Prop where
  | num (value) : Written (.num value) value.hex
  | bool (value) : Written (.bool value) (if value then "true" else "false")
  | arith (op args texts) :
      renderAll args = .ok texts → Written (.arith op args) (infixed op.symbol texts)
  | logic (op args texts) :
      renderAll args = .ok texts → Written (.logic op args) (infixed op.symbol texts)
  | cmp (op lhs rhs left right) :
      lhs.render = .ok left → rhs.render = .ok right →
      Written (.cmp op lhs rhs) (infixed op.symbol [left, right])
  | naming (lhs rhs) : Written (.eq lhs rhs true) ""
  | eq (lhs rhs left right) :
      lhs.render = .ok left → rhs.render = .ok right →
      Written (.eq lhs rhs false) (left ++ " == " ++ right)
  | distinct (lhs rhs left right) :
      lhs.render = .ok left → rhs.render = .ok right →
      Written (.distinct lhs rhs) (left ++ " != " ++ right)
  | not (arg text) : arg.render = .ok text → Written (.not arg) ("!(" ++ text ++ ")")
  | neg (arg text) : arg.render = .ok text → Written (.neg arg) ("-" ++ text)
  | byte (array value) :
      Written (.select array (.num value)) ("(Select " ++ toString value.toInt ++ ")")
  | select (array index text) :
      index.numeral? = none → index.render = .ok text →
      Written (.select array index) ("(Select " ++ text ++ ")")
  | concat (bytes texts) :
      renderAll (bytes.dropWhile Term.isZeroNumeral) = .ok texts →
      Written (.concat bytes) (polynomial texts)
  | extract (args params texts) :
      (args.isEmpty && params.isEmpty) = false → renderAll args = .ok texts →
      Written (.extract args params)
        ("(Extract " ++ " ".intercalate (texts ++ params.map Param.render) ++ ")")
  | constant (name) : Written (.app name [] []) name
  | app (name args params texts) :
      (args.isEmpty && params.isEmpty) = false → renderAll args = .ok texts →
      Written (.app name args params)
        (name ++ "(" ++ ", ".intercalate (texts ++ params.map Param.render) ++ ")")

/-- A text related to a term is what rendering gives. -/
theorem Term.render_of_written {term : Term} {text : String} (h : term.Written text) :
    term.render = .ok text := by
  cases h with
  | num | bool | naming | byte | constant => rfl
  | arith _ _ _ hargs | logic _ _ _ hargs =>
      simp only [Term.render, bind_eq_ok_iff, pure_eq_ok_iff]
      exact ⟨_, hargs, rfl⟩
  | cmp _ _ _ _ _ hleft hright | distinct _ _ _ _ hleft hright =>
      simp only [Term.render, bind_eq_ok_iff, pure_eq_ok_iff]
      exact ⟨_, hleft, _, hright, rfl⟩
  | eq _ _ _ _ hleft hright =>
      simp only [Term.render, Bool.false_eq_true, if_false, bind_eq_ok_iff, pure_eq_ok_iff]
      exact ⟨_, hleft, _, hright, rfl⟩
  | not _ _ harg | neg _ _ harg =>
      simp only [Term.render, bind_eq_ok_iff, pure_eq_ok_iff]
      exact ⟨_, harg, rfl⟩
  | select _ _ _ hindex htext =>
      simp only [Term.render, hindex, bind_eq_ok_iff, pure_eq_ok_iff]
      exact ⟨_, htext, rfl⟩
  | concat _ _ htexts =>
      simp only [Term.render, render_significant_eq, bind_eq_ok_iff, pure_eq_ok_iff]
      exact ⟨_, htexts, rfl⟩
  | extract _ _ _ hoperands hargs | app _ _ _ _ hoperands hargs =>
      simp only [Term.render, hoperands, Bool.false_eq_true, if_false, bind_eq_ok_iff,
        pure_eq_ok_iff]
      exact ⟨_, hargs, rfl⟩

/-- What rendering gives is related to the term. -/
theorem Term.written_of_render {term : Term} {text : String} (h : term.render = .ok text) :
    term.Written text := by
  cases term with
  | num value =>
      cases h
      exact .num value
  | bool value =>
      cases h
      exact .bool value
  | arith op args =>
      simp only [Term.render, bind_eq_ok_iff, pure_eq_ok_iff] at h
      obtain ⟨texts, hargs, rfl⟩ := h
      exact .arith op args texts hargs
  | logic op args =>
      simp only [Term.render, bind_eq_ok_iff, pure_eq_ok_iff] at h
      obtain ⟨texts, hargs, rfl⟩ := h
      exact .logic op args texts hargs
  | cmp op lhs rhs =>
      simp only [Term.render, bind_eq_ok_iff, pure_eq_ok_iff] at h
      obtain ⟨left, hleft, right, hright, rfl⟩ := h
      exact .cmp op lhs rhs left right hleft hright
  | eq lhs rhs naming =>
      cases naming with
      | true =>
          cases h
          exact .naming lhs rhs
      | false =>
          simp only [Term.render, Bool.false_eq_true, if_false, bind_eq_ok_iff,
            pure_eq_ok_iff] at h
          obtain ⟨left, hleft, right, hright, rfl⟩ := h
          exact .eq lhs rhs left right hleft hright
  | distinct lhs rhs =>
      simp only [Term.render, bind_eq_ok_iff, pure_eq_ok_iff] at h
      obtain ⟨left, hleft, right, hright, rfl⟩ := h
      exact .distinct lhs rhs left right hleft hright
  | not arg =>
      simp only [Term.render, bind_eq_ok_iff, pure_eq_ok_iff] at h
      obtain ⟨inner, harg, rfl⟩ := h
      exact .not arg inner harg
  | neg arg =>
      simp only [Term.render, bind_eq_ok_iff, pure_eq_ok_iff] at h
      obtain ⟨inner, harg, rfl⟩ := h
      exact .neg arg inner harg
  | select array index =>
      cases hindex : index.numeral? with
      | some value =>
          simp only [Term.render, hindex] at h
          cases h
          cases index <;> cases hindex
          exact .byte array value
      | none =>
          simp only [Term.render, hindex, bind_eq_ok_iff, pure_eq_ok_iff] at h
          obtain ⟨inner, htext, rfl⟩ := h
          exact .select array index inner hindex htext
  | concat bytes =>
      simp only [Term.render, render_significant_eq, bind_eq_ok_iff, pure_eq_ok_iff] at h
      obtain ⟨texts, htexts, rfl⟩ := h
      exact .concat bytes texts htexts
  | extract args params =>
      cases hoperands : args.isEmpty && params.isEmpty with
      | true => simp [Term.render, hoperands] at h
      | false =>
          simp only [Term.render, hoperands, Bool.false_eq_true, if_false, bind_eq_ok_iff,
            pure_eq_ok_iff] at h
          obtain ⟨texts, hargs, rfl⟩ := h
          exact .extract args params texts hoperands hargs
  | app name args params =>
      cases hoperands : args.isEmpty && params.isEmpty with
      | true =>
          simp only [Bool.and_eq_true, List.isEmpty_iff] at hoperands
          obtain ⟨rfl, rfl⟩ := hoperands
          cases h
          exact .constant _
      | false =>
          simp only [Term.render, hoperands, Bool.false_eq_true, if_false, bind_eq_ok_iff,
            pure_eq_ok_iff] at h
          obtain ⟨texts, hargs, rfl⟩ := h
          exact .app name args params texts hoperands hargs

/-- `Written` is the relation that rendering computes. -/
theorem Term.written_iff {term : Term} {text : String} :
    term.Written text ↔ term.render = .ok text :=
  ⟨Term.render_of_written, Term.written_of_render⟩

/-- The children of a term that are written in its text. The sides of a naming equality, the array of a
byte read, a literal index and the leading zeros of bytes are not. -/
def Term.writtenChildren : Term → List Term
  | .eq _ _ true => []
  | .select _ index => if index.numeral?.isSome then [] else [index]
  | .concat bytes => bytes.dropWhile Term.isZeroNumeral
  | term => term.children

/-- A term that is written as the empty text: a naming equality, a constant without a name, or bytes of
which all but the last are suppressed zeros and the last is blank. -/
inductive Term.Blank : Term → Prop where
  | naming (lhs rhs) : Blank (.eq lhs rhs true)
  | nameless : Blank (.app "" [] [])
  | bytes (bytes byte) :
      bytes.dropWhile Term.isZeroNumeral = [byte] → Blank byte → Blank (.concat bytes)

/-- Of the texts of bytes only a single empty one has an empty polynomial. -/
theorem polynomial_eq_empty_iff (texts : List String) : polynomial texts = "" ↔ texts = [""] := by
  match texts with
  | [] => simp [polynomial]
  | [text] => simp [polynomial, weighted]
  | first :: second :: rest => simp [polynomial, weighted]

/-- A blank term has the empty text. -/
theorem Term.Blank.render {term : Term} (h : term.Blank) : term.render = .ok "" := by
  induction h with
  | naming | nameless => rfl
  | bytes bytes byte hbyte _ ih =>
      refine Term.render_of_written (.concat bytes [""] ?_)
      rw [hbyte, render_all_eq_ok_iff, List.map_singleton, ih, List.map_singleton]

/-- A term with the empty text is blank. -/
theorem Term.blank_of_render {term : Term} (h : term.render = .ok "") : term.Blank := by
  induction term using Term.induct_children with
  | node term ih =>
      generalize htext : "" = text at h
      cases Term.written_of_render h with
      | naming lhs rhs => exact .naming lhs rhs
      | constant => exact htext ▸ .nameless
      | concat bytes texts htexts =>
          obtain rfl := (polynomial_eq_empty_iff texts).mp htext.symm
          obtain ⟨byte, hbyte, hrender⟩ : ∃ byte,
              bytes.dropWhile Term.isZeroNumeral = [byte] ∧ byte.render = .ok "" := by
            simpa [render_all_eq_ok_iff, List.map_eq_singleton_iff] using htexts
          have hmem : byte ∈ bytes :=
            (List.dropWhile_sublist _).subset (hbyte ▸ List.mem_singleton_self byte)
          exact .bytes bytes byte hbyte (ih byte hmem hrender)
      | bool value => cases value <;> simp at htext
      -- Every other text has a sign or a parenthesis in it.
      | _ => simp [Numeral.hex, infixed] at htext

/-- A term is written as the empty text exactly when it is blank. -/
theorem Term.render_eq_empty_iff (term : Term) : term.render = .ok "" ↔ term.Blank :=
  ⟨Term.blank_of_render, Term.Blank.render⟩

end ByteGrammar
