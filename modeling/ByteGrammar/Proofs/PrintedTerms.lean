import ByteGrammar.Proofs.Congruence
import ByteGrammar.Proofs.Notation

/-!
# What the written form of a term determines

`Term.Readable` delimits the terms whose text is of the notation: no naming, no concatenation, no operator
with too few operands, and no equality beside a sign that binds more tightly. `Term.form` is what such a term
shows in its text, and `Term.Alike` relates the terms that differ only in what no text shows: the spelling of
an operator, the signedness of a literal, the array of a `select`.
`render_eq_iff_alike` is the result: readable terms have the same text exactly when they are alike.
-/

namespace ByteGrammar

/-! ## Readable terms -/

/-- Whether a term is an equality or its negation, which are written without parentheses. -/
def Term.isRelation : Term → Bool
  | .eq _ _ _ | .distinct _ _ => true
  | _ => false

/-- The names that are no free constants in a text: the literals and the helpers. -/
def reservedNames : List String :=
  ["true", "false", "Select", "Extract"]

/-- The terms whose text can be read back. Parameters are integers. -/
inductive Term.Readable : Term → Prop where
  | num (value) : Readable (.num value)
  | bool (value) : Readable (.bool value)
  | constant (name) : isIdentifier name = true → name ∉ reservedNames → Readable (.app name [] [])
  | app (name args) (values : List Int64) :
      isIdentifier name = true → args ≠ [] ∨ values ≠ [] → (∀ arg ∈ args, Readable arg) →
      Readable (.app name args (values.map .int))
  | arith (op args) : 2 ≤ args.length → (∀ arg ∈ args, Readable arg) → Readable (.arith op args)
  | logic (op args) : 2 ≤ args.length → (∀ arg ∈ args, Readable arg) → Readable (.logic op args)
  | cmp (op lhs rhs) : Readable lhs → Readable rhs → Readable (.cmp op lhs rhs)
  | eq (lhs rhs) :
      lhs.isRelation = false → rhs.isRelation = false → Readable lhs → Readable rhs →
      Readable (.eq lhs rhs false)
  | distinct (lhs rhs) :
      lhs.isRelation = false → rhs.isRelation = false → Readable lhs → Readable rhs →
      Readable (.distinct lhs rhs)
  | not (arg) : Readable arg → Readable (.not arg)
  | neg (arg) : arg.isRelation = false → Readable arg → Readable (.neg arg)
  | select (array index) : Readable index → Readable (.select array index)
  | extract (args) (values : List Int64) :
      args ≠ [] ∨ values ≠ [] → (∀ arg ∈ args, Readable arg) →
      Readable (.extract args (values.map .int))

/-- Terms that are the same tree up to what no text shows. A literal index is written with its sign, any
other literal as its pattern. -/
inductive Term.Alike : Term → Term → Prop where
  | num (value other : Numeral) : value.bits = other.bits → Alike (.num value) (.num other)
  | bool (value) : Alike (.bool value) (.bool value)
  | arith (op other : ArithOp) (args others) :
      op.symbol = other.symbol → args.length = others.length →
      (∀ pair ∈ args.zip others, Alike pair.1 pair.2) → Alike (.arith op args) (.arith other others)
  | logic (op other : LogicOp) (args others) :
      op.symbol = other.symbol → args.length = others.length →
      (∀ pair ∈ args.zip others, Alike pair.1 pair.2) → Alike (.logic op args) (.logic other others)
  | cmp (op other : CmpOp) (lhs rhs left right) :
      op.symbol = other.symbol → Alike lhs left → Alike rhs right →
      Alike (.cmp op lhs rhs) (.cmp other left right)
  | eq (lhs rhs left right naming) :
      Alike lhs left → Alike rhs right → Alike (.eq lhs rhs naming) (.eq left right naming)
  | distinct (lhs rhs left right) :
      Alike lhs left → Alike rhs right → Alike (.distinct lhs rhs) (.distinct left right)
  | not (arg other) : Alike arg other → Alike (.not arg) (.not other)
  | neg (arg other) : Alike arg other → Alike (.neg arg) (.neg other)
  | byte (array unread) (value other : Numeral) :
      value.toInt = other.toInt → Alike (.select array (.num value)) (.select unread (.num other))
  | select (array unread index other) :
      index.numeral? = none → other.numeral? = none → Alike index other →
      Alike (.select array index) (.select unread other)
  | concat (bytes others) :
      bytes.length = others.length → (∀ pair ∈ bytes.zip others, Alike pair.1 pair.2) →
      Alike (.concat bytes) (.concat others)
  | extract (args others params) :
      args.length = others.length → (∀ pair ∈ args.zip others, Alike pair.1 pair.2) →
      Alike (.extract args params) (.extract others params)
  | app (name args others params) :
      args.length = others.length → (∀ pair ∈ args.zip others, Alike pair.1 pair.2) →
      Alike (.app name args params) (.app name others params)

/-! ## The form of a term -/

/-- The text of a form. -/
def Form.text (form : Form) : String :=
  String.ofList form.chars

/-- What a parameter shows in a text. -/
def Param.form : Param → Form
  | .int value => .decimal value.toInt
  | .double _ | .rational _ _ | .symbol _ | .sort _ | .term _ | .funcDecl _ => .word "?"

mutual
/-- What a term shows in its text. The sum that a concatenation is written as is not of the notation, and
an empty word stands in its place. -/
def Term.form : Term → Form
  | .num value => .pattern value.bits
  | .bool value => .word (if value then "true" else "false")
  | .arith op args => .infixed op.symbol (formAll args)
  | .logic op args => .infixed op.symbol (formAll args)
  | .cmp op lhs rhs => .infixed op.symbol [lhs.form, rhs.form]
  | .eq lhs rhs _ => .compared "==" lhs.form rhs.form
  | .distinct lhs rhs => .compared "!=" lhs.form rhs.form
  | .not arg => .not arg.form
  | .neg arg => .neg arg.form
  | .select _ index =>
      .spaced "Select" [
        match index.numeral? with
        | some value => .decimal value.toInt
        | none => index.form]
  | .concat _ => .word ""
  | .extract args params => .spaced "Extract" (formAll args ++ params.map Param.form)
  | .app name args params =>
      if args.isEmpty && params.isEmpty then .word name
      else .call name (formAll args ++ params.map Param.form)

/-- What the terms of a list show. -/
def formAll : List Term → List Form
  | [] => []
  | term :: terms => term.form :: formAll terms
end

/-- The forms of a list are the forms of its members. -/
theorem form_all_eq_map (terms : List Term) : formAll terms = terms.map Term.form := by
  induction terms with
  | nil => rfl
  | cons term terms ih => rw [formAll, ih, List.map_cons]

/-- No term is written as a decimal. -/
theorem Term.is_decimal_form (term : Term) : term.form.isDecimal = false := by
  cases term with
  | app name args params =>
      rw [Term.form]
      split <;> rfl
  | _ => rfl

/-- The form of a term is a comparison if the term is. -/
theorem Term.is_comparison_form (term : Term) : term.form.isComparison = term.isRelation := by
  cases term with
  | app name args params =>
      rw [Term.form]
      split <;> rfl
  | _ => rfl

/-! ## Written forms are texts of forms -/

/-- Texts with a separator between them, character by character. -/
theorem to_list_intercalate_append (separator : String) (forms : List Form) (rest : List Char) :
    (separator.intercalate (forms.map Form.text)).toList ++ rest =
      separated separator.toList (Form.charsAll forms) rest := by
  induction forms with
  | nil => simp [Form.charsAll, separated]
  | cons form forms ih =>
      cases forms with
      | nil => simp [Form.charsAll, separated, Form.text]
      | cons next forms =>
          rw [List.map_cons] at ih
          rw [List.map_cons, List.map_cons, String.intercalate_cons_cons, String.toList_append,
            String.toList_append, List.append_assoc, List.append_assoc, ih]
          simp [Form.charsAll, separated, Form.text]

/-- Operands around a sign are written as the form says. -/
theorem infixed_text (sign : String) (operands : List Form) :
    infixed sign (operands.map Form.text) = (Form.infixed sign operands).text := by
  have hseparator : (" " ++ sign ++ " ").toList = Form.around sign := by simp [Form.around]
  rw [← String.toList_inj, infixed, Form.text, String.toList_ofList, Form.chars, ← hseparator,
    String.toList_append, String.toList_append, List.append_assoc]
  have hoperands := to_list_intercalate_append (" " ++ sign ++ " ") operands ")".toList
  rw [hoperands]
  simp

/-- A group is written as the form says. -/
theorem spaced_text (name : String) (operands : List Form) :
    "(" ++ name ++ " " ++ " ".intercalate (operands.map Form.text) ++ ")" =
      (Form.spaced name operands).text := by
  have hoperands := to_list_intercalate_append " " operands ")".toList
  rw [← String.toList_inj, Form.text, String.toList_ofList, Form.chars]
  simp only [String.toList_append, List.append_assoc, hoperands]
  simp [Form.space]

/-- A call is written as the form says. -/
theorem call_text (name : String) (operands : List Form) :
    name ++ "(" ++ ", ".intercalate (operands.map Form.text) ++ ")" =
      (Form.call name operands).text := by
  have hoperands := to_list_intercalate_append ", " operands ")".toList
  rw [← String.toList_inj, Form.text, String.toList_ofList, Form.chars]
  simp only [String.toList_append, List.append_assoc, hoperands]
  simp [Form.comma]

/-- A parameter is written as its form says. -/
theorem Param.form_text (param : Param) : param.form.text = param.render := by
  cases param <;> simp [Param.form, Param.render, Form.text, Form.chars]

/-- The texts of operands and parameters are those of their forms. -/
theorem operands_text (forms : List Form) (params : List Param) :
    (forms ++ params.map Param.form).map Form.text =
      forms.map Form.text ++ params.map Param.render := by
  rw [List.map_append, List.map_map]
  congr 1
  exact List.map_congr_left fun param _ => param.form_text

/-- Terms that are written as their forms say are so as a list. -/
theorem render_all_form {args : List Term} (h : ∀ arg ∈ args, arg.render = .ok arg.form.text) :
    renderAll args = .ok ((formAll args).map Form.text) := by
  rw [render_all_eq_ok_iff, form_all_eq_map, List.map_map, List.map_map]
  exact List.map_congr_left h

/-- There is an operand or a parameter to be written. -/
theorem has_operands {args : List Term} {values : List Int64} (h : args ≠ [] ∨ values ≠ []) :
    (args.isEmpty && (values.map Param.int).isEmpty) = false := by
  rw [Bool.and_eq_false_iff]
  simpa using h

/-- A literal is written as its pattern. -/
theorem Numeral.pattern_text (value : Numeral) : (Form.pattern value.bits).text = value.hex := by
  rw [← String.toList_inj, Form.text, String.toList_ofList, Form.chars, Numeral.hex]
  simp

/-- An index is written as the form says. -/
theorem select_text (index : Form) :
    "(Select " ++ index.text ++ ")" = (Form.spaced "Select" [index]).text := by
  rw [← spaced_text, List.map_singleton, String.intercalate_singleton]
  rfl

/-- The sides of a comparison are written as their forms say. -/
theorem compared_text (sign : String) (lhs rhs : Form) :
    (Form.compared sign lhs rhs).text = lhs.text ++ (" " ++ sign ++ " ") ++ rhs.text := by
  simp [← String.toList_inj, Form.text, Form.chars, Form.around]

/-- A readable term is written as its form says. -/
theorem Term.Readable.render {term : Term} (h : term.Readable) : term.render = .ok term.form.text := by
  induction h with
  | num value => rw [Term.form, value.pattern_text, Term.render]
  | bool value => simp [Term.render, Term.form, Form.text, Form.chars]
  | constant name => simp [Term.render, Term.form, Form.text, Form.chars]
  | app name args values _ hoperands _ ih =>
      rw [Term.form, has_operands hoperands, if_neg Bool.false_ne_true, ← call_text, operands_text]
      exact Term.render_of_written
        (.app name args _ _ (has_operands hoperands) (render_all_form ih))
  | arith op args _ _ ih =>
      rw [Term.form, ← infixed_text]
      exact Term.render_of_written (.arith op args _ (render_all_form ih))
  | logic op args _ _ ih =>
      rw [Term.form, ← infixed_text]
      exact Term.render_of_written (.logic op args _ (render_all_form ih))
  | cmp op lhs rhs _ _ ihLhs ihRhs =>
      rw [Term.form, ← infixed_text]
      exact Term.render_of_written (.cmp op lhs rhs _ _ ihLhs ihRhs)
  | eq lhs rhs _ _ _ _ ihLhs ihRhs =>
      rw [Term.form, compared_text]
      exact Term.render_of_written (.eq lhs rhs _ _ ihLhs ihRhs)
  | distinct lhs rhs _ _ _ _ ihLhs ihRhs =>
      rw [Term.form, compared_text]
      exact Term.render_of_written (.distinct lhs rhs _ _ ihLhs ihRhs)
  | not arg _ ih =>
      have htext : arg.form.not.text = "!(" ++ arg.form.text ++ ")" := by
        simp [← String.toList_inj, Form.text, Form.chars]
      rw [Term.form, htext]
      exact Term.render_of_written (.not arg _ ih)
  | neg arg _ _ ih =>
      have htext : arg.form.neg.text = "-" ++ arg.form.text := by
        simp [Form.text, Form.chars]
      rw [Term.form, htext]
      exact Term.render_of_written (.neg arg _ ih)
  | select array index _ ih =>
      cases hindex : index.numeral? with
      | some value =>
          cases index <;> cases hindex
          have htext : (Form.decimal value.toInt).text = toString value.toInt := by
            simp [Form.text, Form.chars]
          rw [Term.form, Term.numeral?, ← select_text, htext]
          exact Term.render_of_written (.byte array value)
      | none =>
          rw [Term.form, hindex, ← select_text]
          exact Term.render_of_written (.select array index _ hindex ih)
  | extract args values hoperands _ ih =>
      rw [Term.form, ← spaced_text, operands_text]
      exact Term.render_of_written
        (.extract args _ _ (has_operands hoperands) (render_all_form ih))

/-! ## Readable terms have legible forms -/

/-- The sign of an arithmetic operator. -/
theorem ArithOp.symbol_mem (op : ArithOp) : op.symbol ∈ Form.arithmeticSigns := by
  cases op <;> decide

/-- The sign of a connective. -/
theorem LogicOp.symbol_mem (op : LogicOp) : op.symbol ∈ Form.connectiveSigns := by
  cases op <;> decide

/-- The sign of an order comparison. -/
theorem CmpOp.symbol_mem (op : CmpOp) : op.symbol ∈ Form.orderSigns := by
  cases op <;> decide

/-- The form of an application with operands. -/
theorem app_form (name : String) {args : List Term} {values : List Int64}
    (h : args ≠ [] ∨ values ≠ []) :
    (Term.app name args (values.map .int)).form =
      .call name (formAll args ++ (values.map Param.int).map Param.form) := by
  rw [Term.form, has_operands h, if_neg Bool.false_ne_true]

/-- Operands of a readable term have legible forms. -/
theorem operands_legible {args : List Term} (values : List Int64)
    (h : ∀ arg ∈ args, arg.form.Legible) :
    ∀ form ∈ formAll args ++ (values.map Param.int).map Param.form, form.Legible := by
  rw [form_all_eq_map, List.forall_mem_append]
  constructor
  · simpa using h
  · intro form hform
    obtain ⟨value, -, rfl⟩ : ∃ value ∈ values, Param.form (.int value) = form := by
      simpa using hform
    exact .decimal value.toInt

/-- There is an operand. -/
theorem operands_ne_nil {args : List Term} {values : List Int64} (h : args ≠ [] ∨ values ≠ []) :
    formAll args ++ (values.map Param.int).map Param.form ≠ [] := by
  rw [form_all_eq_map]
  simpa [imp_iff_not_or] using h

/-- Two or more operands around a sign have a legible form. -/
theorem infixed_legible {sign : String} {args : List Term} (hsign : sign ∈ Form.infixSigns)
    (hlength : 2 ≤ args.length) (h : ∀ arg ∈ args, arg.form.Legible) :
    (Form.infixed sign (formAll args)).Legible := by
  refine .infixed _ _ hsign ?_ ?_ <;> rw [form_all_eq_map]
  · rwa [List.length_map]
  · simpa using h

/-- The form of a readable term is legible. -/
theorem Term.Readable.legible {term : Term} (h : term.Readable) : term.form.Legible := by
  induction h with
  | num value => exact .pattern value.bits
  | bool value => cases value <;> exact .word _ (by decide) (by decide)
  | constant name hname hreserved =>
      have hsubset : Form.headNames ⊆ reservedNames := by decide
      exact .word name hname fun hhead => hreserved (hsubset hhead)
  | app name args values hname hoperands _ ih =>
      rw [app_form name hoperands]
      exact .call name _ hname (operands_ne_nil hoperands) (operands_legible values ih)
  | arith op args hlength _ ih =>
      have hsign := List.mem_append_left Form.connectiveSigns op.symbol_mem
      exact infixed_legible (List.mem_append_left _ hsign) hlength ih
  | logic op args hlength _ ih =>
      have hsign := List.mem_append_right Form.arithmeticSigns op.symbol_mem
      exact infixed_legible (List.mem_append_left _ hsign) hlength ih
  | cmp op lhs rhs _ _ ihLhs ihRhs =>
      have hsign : op.symbol ∈ Form.infixSigns := List.mem_append_right _ op.symbol_mem
      exact .infixed _ _ hsign le_rfl (by simp [ihLhs, ihRhs])
  | eq lhs rhs hlhs hrhs _ _ ihLhs ihRhs =>
      exact .compared _ _ _ (by decide) (by rw [lhs.is_comparison_form, hlhs])
        (by rw [rhs.is_comparison_form, hrhs]) ihLhs ihRhs
  | distinct lhs rhs hlhs hrhs _ _ ihLhs ihRhs =>
      exact .compared _ _ _ (by decide) (by rw [lhs.is_comparison_form, hlhs])
        (by rw [rhs.is_comparison_form, hrhs]) ihLhs ihRhs
  | not arg _ ih => exact .not _ ih
  | neg arg harg _ ih =>
      exact .neg _ (by rw [arg.is_comparison_form, harg]) arg.is_decimal_form ih
  | select array index _ ih =>
      refine .spaced _ _ (by decide) (List.cons_ne_nil _ _) ?_
      rw [List.forall_mem_singleton]
      split
      · exact .decimal _
      · exact ih
  | extract args values hoperands _ ih =>
      exact .spaced _ _ (by decide) (operands_ne_nil hoperands) (operands_legible values ih)

/-! ## Equal forms -/

/-- Operands are told from parameters, which are the decimals among them. -/
theorem operands_inj {args others : List Term} {values numbers : List Int64}
    (h : formAll args ++ (values.map Param.int).map Param.form =
      formAll others ++ (numbers.map Param.int).map Param.form) :
    formAll args = formAll others ∧ values = numbers := by
  have hterms (terms : List Term) : ∀ form ∈ formAll terms, (!form.isDecimal) = true := by
    simp [form_all_eq_map, Term.is_decimal_form]
  have hparams (integers : List Int64) :
      ∀ form ∈ ((integers.map Param.int).map Param.form).head?, (!form.isDecimal) = false := by
    cases integers <;> simp [Param.form, Form.isDecimal]
  have hcut := Form.append_cut (hterms args) (hterms others) (hparams values) (hparams numbers) h
  refine ⟨hcut.1, ?_⟩
  have hinjective : Function.Injective (Param.form ∘ Param.int) := by
    intro value number hform
    exact Int64.toInt_inj.mp (Form.decimal.inj hform)
  exact List.map_injective_iff.mpr hinjective (by simpa using hcut.2)

/-- Lists of terms with equal forms are alike one by one, if each term of the first list is alike whatever
has its form. -/
theorem alike_all {args others : List Term}
    (hargs : ∀ arg ∈ args, ∀ {other : Term}, other.Readable → arg.form = other.form →
      arg.Alike other)
    (hothers : ∀ other ∈ others, other.Readable) (h : formAll args = formAll others) :
    args.length = others.length ∧ ∀ pair ∈ args.zip others, pair.1.Alike pair.2 := by
  induction args generalizing others with
  | nil =>
      cases others with
      | nil => simp
      | cons other others => cases h
  | cons arg args ih =>
      cases others with
      | nil => cases h
      | cons other others =>
          rw [formAll, formAll, List.cons.injEq] at h
          obtain ⟨hlength, halike⟩ := ih (fun term hterm => hargs term (.tail _ hterm))
            (fun term hterm => hothers term (.tail _ hterm)) h.2
          refine ⟨by rw [List.length_cons, List.length_cons, hlength], ?_⟩
          rw [List.zip_cons_cons, List.forall_mem_cons]
          exact ⟨hargs arg List.mem_cons_self (hothers other List.mem_cons_self) h.1, halike⟩

/-- A list of signs that leaves out another tells its operators from the other ones. -/
theorem sign_ne {signs others : List String} (hdisjoint : ∀ sign ∈ signs, sign ∉ others)
    {sign other : String} (hsign : sign ∈ signs) (hother : other ∈ others) : sign ≠ other := by
  rintro rfl
  exact hdisjoint sign hsign hother

/-- A readable term that is written as operands around a sign is a sum, a connective or a comparison with
that sign. -/
theorem Term.Readable.of_infixed {term : Term} (hterm : term.Readable) {sign : String}
    {forms : List Form} (h : .infixed sign forms = term.form) :
    (∃ op args, term = .arith op args ∧ (∀ arg ∈ args, arg.Readable) ∧ sign = op.symbol ∧
      forms = formAll args) ∨
    (∃ op args, term = .logic op args ∧ (∀ arg ∈ args, arg.Readable) ∧ sign = op.symbol ∧
      forms = formAll args) ∨
    (∃ op lhs rhs, term = .cmp op lhs rhs ∧ lhs.Readable ∧ rhs.Readable ∧ sign = op.symbol ∧
      forms = [lhs.form, rhs.form]) := by
  cases hterm with
  | arith op args _ hargs =>
      exact .inl ⟨op, args, rfl, hargs, (Form.infixed.inj h).1, (Form.infixed.inj h).2⟩
  | logic op args _ hargs =>
      exact .inr (.inl ⟨op, args, rfl, hargs, (Form.infixed.inj h).1, (Form.infixed.inj h).2⟩)
  | cmp op lhs rhs hlhs hrhs =>
      exact .inr (.inr
        ⟨op, lhs, rhs, rfl, hlhs, hrhs, (Form.infixed.inj h).1, (Form.infixed.inj h).2⟩)
  | app name _ _ _ hoperands => cases h.trans (app_form name hoperands)
  | _ => cases h

/-- What an index shows: a literal its integer, any other term its form. -/
def Term.indexForm (index : Term) : Form :=
  match index.numeral? with
  | some value => .decimal value.toInt
  | none => index.form

/-- The form of a `select`. -/
theorem select_form (array index : Term) :
    (Term.select array index).form = .spaced "Select" [index.indexForm] :=
  rfl

/-- A literal index is told from the other ones, since no term is written as a decimal. -/
theorem index_form_inj {index other : Term} (h : index.indexForm = other.indexForm) :
    (∃ value number, index = .num value ∧ other = .num number ∧ value.toInt = number.toInt) ∨
    (index.numeral? = none ∧ other.numeral? = none ∧ index.form = other.form) := by
  have hnumeral {term : Term} {value : Numeral} (hterm : term.numeral? = some value) :
      term = .num value := by
    cases term with
    | num other =>
        cases hterm
        rfl
    | _ => cases hterm
  cases hindex : index.numeral? with
  | some value =>
      cases hother : other.numeral? with
      | some number =>
          simp only [Term.indexForm, hindex, hother] at h
          exact .inl ⟨value, number, hnumeral hindex, hnumeral hother, Form.decimal.inj h⟩
      | none =>
          simp only [Term.indexForm, hindex, hother] at h
          exact absurd (h ▸ other.is_decimal_form) Bool.noConfusion
  | none =>
      cases hother : other.numeral? with
      | some number =>
          simp only [Term.indexForm, hindex, hother] at h
          exact absurd (h ▸ index.is_decimal_form) Bool.noConfusion
      | none =>
          simp only [Term.indexForm, hindex, hother] at h
          exact .inr ⟨rfl, rfl, h⟩

/-- Readable terms with the same form are alike. -/
theorem Term.Readable.alike {first second : Term} (hfirst : first.Readable)
    (hsecond : second.Readable) (h : first.form = second.form) : first.Alike second := by
  induction hfirst generalizing second with
  | num value =>
      cases hsecond with
      | num other => exact .num value other (Form.pattern.inj h)
      | app name _ _ _ hoperands => cases h.trans (app_form name hoperands)
      | _ => cases h
  | bool value =>
      cases hsecond with
      | bool other =>
          have hname := Form.word.inj h
          obtain rfl : value = other := by cases value <;> cases other <;> simp at hname ⊢
          exact .bool value
      | constant name _ hreserved =>
          obtain rfl := Form.word.inj h
          exact absurd (by cases value <;> decide) hreserved
      | app name _ _ _ hoperands => cases h.trans (app_form name hoperands)
      | _ => cases h
  | constant name _ hreserved =>
      cases hsecond with
      | bool other =>
          obtain rfl := Form.word.inj h
          exact absurd (by cases other <;> decide) hreserved
      | constant other =>
          obtain rfl := Form.word.inj h
          exact .app name [] [] [] rfl (by simp)
      | app other _ _ _ hoperands => cases h.trans (app_form other hoperands)
      | _ => cases h
  | app name args values _ hoperands _ ih =>
      rw [app_form name hoperands] at h
      cases hsecond with
      | app other others numbers _ hothers hreadable =>
          rw [app_form other hothers] at h
          obtain ⟨rfl, hforms⟩ := Form.call.inj h
          obtain ⟨hargs, rfl⟩ := operands_inj hforms
          obtain ⟨hlength, halike⟩ := alike_all ih hreadable hargs
          exact .app name args others _ hlength halike
      | _ => cases h
  | arith op args _ _ ih =>
      rcases hsecond.of_infixed h with ⟨other, others, rfl, hothers, hsign, hforms⟩ |
        ⟨other, _, -, -, hsign, -⟩ | ⟨other, _, _, -, -, -, hsign, -⟩
      · obtain ⟨hlength, halike⟩ := alike_all ih hothers hforms
        exact .arith op other args others hsign hlength halike
      · exact absurd hsign (sign_ne (by decide) op.symbol_mem other.symbol_mem)
      · exact absurd hsign (sign_ne (by decide) op.symbol_mem other.symbol_mem)
  | logic op args _ _ ih =>
      rcases hsecond.of_infixed h with ⟨other, _, -, -, hsign, -⟩ |
        ⟨other, others, rfl, hothers, hsign, hforms⟩ | ⟨other, _, _, -, -, -, hsign, -⟩
      · exact absurd hsign (sign_ne (by decide) op.symbol_mem other.symbol_mem)
      · obtain ⟨hlength, halike⟩ := alike_all ih hothers hforms
        exact .logic op other args others hsign hlength halike
      · exact absurd hsign (sign_ne (by decide) op.symbol_mem other.symbol_mem)
  | cmp op lhs rhs _ _ ihLhs ihRhs =>
      rcases hsecond.of_infixed h with ⟨other, _, -, -, hsign, -⟩ | ⟨other, _, -, -, hsign, -⟩ |
        ⟨other, left, right, rfl, hleft, hright, hsign, hforms⟩
      · exact absurd hsign (sign_ne (by decide) op.symbol_mem other.symbol_mem)
      · exact absurd hsign (sign_ne (by decide) op.symbol_mem other.symbol_mem)
      · obtain ⟨hlhs, hrhs⟩ : lhs.form = left.form ∧ rhs.form = right.form := by simpa using hforms
        exact .cmp op other lhs rhs left right hsign (ihLhs hleft hlhs) (ihRhs hright hrhs)
  | eq lhs rhs _ _ _ _ ihLhs ihRhs =>
      cases hsecond with
      | eq left right _ _ hleft hright =>
          obtain ⟨-, hlhs, hrhs⟩ := Form.compared.inj h
          exact .eq lhs rhs left right false (ihLhs hleft hlhs) (ihRhs hright hrhs)
      | distinct => exact absurd (Form.compared.inj h).1 (by decide)
      | app name _ _ _ hoperands => cases h.trans (app_form name hoperands)
      | _ => cases h
  | distinct lhs rhs _ _ _ _ ihLhs ihRhs =>
      cases hsecond with
      | distinct left right _ _ hleft hright =>
          obtain ⟨-, hlhs, hrhs⟩ := Form.compared.inj h
          exact .distinct lhs rhs left right (ihLhs hleft hlhs) (ihRhs hright hrhs)
      | eq => exact absurd (Form.compared.inj h).1 (by decide)
      | app name _ _ _ hoperands => cases h.trans (app_form name hoperands)
      | _ => cases h
  | not arg _ ih =>
      cases hsecond with
      | not other hother => exact .not arg other (ih hother (Form.not.inj h))
      | app name _ _ _ hoperands => cases h.trans (app_form name hoperands)
      | _ => cases h
  | neg arg _ _ ih =>
      cases hsecond with
      | neg other _ hother => exact .neg arg other (ih hother (Form.neg.inj h))
      | app name _ _ _ hoperands => cases h.trans (app_form name hoperands)
      | _ => cases h
  | select array index _ ih =>
      cases hsecond with
      | select unread other hother =>
          rw [select_form, select_form] at h
          obtain ⟨hindex, -⟩ := List.cons.inj (Form.spaced.inj h).2
          rcases index_form_inj hindex with ⟨value, number, rfl, rfl, hvalue⟩ |
            ⟨hindex, hnumeral, hform⟩
          · exact .byte array unread value number hvalue
          · exact .select array unread index other hindex hnumeral (ih hother hform)
      | extract => exact absurd (Form.spaced.inj h).1 (by decide)
      | app name _ _ _ hoperands => cases h.trans (app_form name hoperands)
      | _ => cases h
  | extract args values _ _ ih =>
      cases hsecond with
      | extract others numbers _ hreadable =>
          obtain ⟨hargs, rfl⟩ := operands_inj (Form.spaced.inj h).2
          obtain ⟨hlength, halike⟩ := alike_all ih hreadable hargs
          exact .extract args others _ hlength halike
      | select => exact absurd (Form.spaced.inj h).1 (by decide)
      | app name _ _ _ hoperands => cases h.trans (app_form name hoperands)
      | _ => cases h

/-! ## Alike terms -/

/-- Connectives with the same sign are the same. -/
theorem LogicOp.eq_of_symbol_eq {op other : LogicOp} (h : op.symbol = other.symbol) : op = other := by
  cases op <;> cases other <;> simp [LogicOp.symbol] at h <;> rfl

/-- Alike terms are congruent: they differ in less than a text ignores. -/
theorem Term.Alike.congruent {first second : Term} (h : first.Alike second) :
    first.Congruent second := by
  induction h with
  | num value other hbits => exact .num value other hbits
  | bool value => exact .refl _
  | arith op other args others hsymbol hlength _ ih =>
      exact .trans _ _ _ (.arith op other args hsymbol) (.node _ _ rfl nofun hlength ih)
  | logic op other args others hsymbol hlength _ ih =>
      obtain rfl := LogicOp.eq_of_symbol_eq hsymbol
      exact .node _ _ rfl nofun hlength ih
  | cmp op other lhs rhs left right hsymbol _ _ ihLhs ihRhs =>
      exact .trans _ _ _ (.cmp op other lhs rhs hsymbol) (.binary _ _ rfl nofun rfl rfl ihLhs ihRhs)
  | eq lhs rhs left right naming _ _ ihLhs ihRhs => exact .binary _ _ rfl nofun rfl rfl ihLhs ihRhs
  | distinct lhs rhs left right _ _ ihLhs ihRhs => exact .binary _ _ rfl nofun rfl rfl ihLhs ihRhs
  | not arg other _ ih => exact .unary _ _ rfl nofun rfl rfl ih
  | neg arg other _ ih => exact .unary _ _ rfl nofun rfl rfl ih
  | byte array unread value other hvalue => exact .byte array unread value other hvalue
  | select array unread index other hindex hother _ ih =>
      exact .select array unread index other hindex hother ih
  | concat bytes others hlength _ ih => exact .node _ _ rfl nofun hlength ih
  | extract args others params hlength _ ih => exact .node _ _ rfl nofun hlength ih
  | app name args others params hlength _ ih => exact .node _ _ rfl nofun hlength ih

/-- Alike terms are written alike, also where there is no text. -/
theorem Term.Alike.render_eq {first second : Term} (h : first.Alike second) :
    first.render = second.render :=
  h.congruent.seen_alike.render

/-- A readable term has a text, and another readable term has the same one exactly when it is alike: the
text determines everything but the spelling of operators, the signedness of literals and the arrays. -/
theorem render_eq_iff_alike {first second : Term} (hfirst : first.Readable)
    (hsecond : second.Readable) :
    (∃ text, first.render = .ok text) ∧ (first.render = second.render ↔ first.Alike second) := by
  refine ⟨⟨_, hfirst.render⟩, fun h => ?_, Term.Alike.render_eq⟩
  rw [hfirst.render, hsecond.render, Except.ok.injEq] at h
  have hchars : first.form.chars = second.form.chars := String.ofList_inj.mp h
  exact hfirst.alike hsecond (Form.form_eq_of_chars_eq hfirst.legible hsecond.legible hchars)

/-- A difference beside a call, in spellings for signed numbers. -/
def signedSample : Term :=
  .equals
    (.arith .sub [.neg (.ofSigned (-1)), .select (.constant "input") (.ofSigned 2)])
    (.app "f" [.distinct (.constant "x") (.bool true)] [.int (-5)])

/-- The same expression in spellings for unsigned numbers, over another array. -/
def unsignedSample : Term :=
  .equals
    (.arith .bvSub [.neg (.ofUnsigned (-1)), .select (.constant "buffer") (.ofUnsigned 2)])
    (.app "f" [.distinct (.constant "x") (.bool true)] [.int (-5)])

/-- An expression of the shape of the samples is readable. -/
theorem readable_sample (op : ArithOp) (value index : Numeral) (array : Term) :
    (Term.equals (.arith op [.neg (.num value), .select array (.num index)])
      (.app "f" [.distinct (.constant "x") (.bool true)] [.int (-5)])).Readable := by
  have hcall : (Term.app "f" [.distinct (.constant "x") (.bool true)] [.int (-5)]).Readable := by
    refine .app "f" _ [-5] (by decide) (.inl (List.cons_ne_nil _ _)) ?_
    rw [List.forall_mem_singleton]
    exact .distinct _ _ rfl rfl (.constant "x" (by decide) (by decide)) (.bool true)
  refine .eq _ _ rfl rfl (.arith op _ le_rfl ?_) hcall
  rw [List.forall_mem_cons, List.forall_mem_singleton]
  exact ⟨.neg _ rfl (.num value), .select array _ (.num index)⟩

/-- The two samples have one text, and are alike. -/
theorem samples_share_a_text :
    (signedSample.Readable ∧ unsignedSample.Readable) ∧
    signedSample.render = .ok "(-0xFFFFFFFFFFFFFFFF - (Select 2)) == f(x != true, -5)" ∧
    signedSample.Alike unsignedSample :=
  have hsigned := readable_sample .sub (.signed (-1)) (.signed 2) (.constant "input")
  have hunsigned := readable_sample .bvSub (.unsigned (-1)) (.unsigned 2) (.constant "buffer")
  ⟨⟨hsigned, hunsigned⟩, by decide,
    (render_eq_iff_alike hsigned hunsigned).2.mp (by decide)⟩

end ByteGrammar
