import ByteGrammar.Proofs.WrittenForm
import Mathlib

/-!
# What the written form of a term ignores

`Term.Congruent` is the least congruence on terms that identifies what the output language has no words
for: the spelling of an operator, the signedness of a literal, the array of a `select`, the sides of a naming
equality, and a parameter that is no integer. `render_eq_of_congruent` says that congruent terms have the
same text, or fail alike. `Term.render_eq_of_children` carries the proof through a node: what is written for
it depends on its children only through their texts and on which of them are literal zeros.
-/

namespace ByteGrammar

/-- Parameters that are written alike: the same integer, or any two of the kinds that have no form of their
own. -/
inductive Param.Congruent : Param → Param → Prop where
  | int (value) : Congruent (.int value) (.int value)
  | formless (param other) :
      (∀ value, param ≠ .int value) → (∀ value, other ≠ .int value) → Congruent param other

/-- The least congruence on terms that identifies what no text shows. A `select` shows a literal index as an
integer, and any other index by its text. -/
inductive Term.Congruent : Term → Term → Prop where
  | refl (term) : Congruent term term
  | symm (first second) : Congruent first second → Congruent second first
  | trans (first second third) : Congruent first second → Congruent second third → Congruent first third
  | node (first second) :
      first.head = second.head → first.head ≠ .select →
      first.children.length = second.children.length →
      (∀ pair ∈ first.children.zip second.children, Congruent pair.1 pair.2) → Congruent first second
  | num (value other : Numeral) : value.bits = other.bits → Congruent (.num value) (.num other)
  | arith (op other : ArithOp) (args) :
      op.symbol = other.symbol → Congruent (.arith op args) (.arith other args)
  | cmp (op other : CmpOp) (lhs rhs) :
      op.symbol = other.symbol → Congruent (.cmp op lhs rhs) (.cmp other lhs rhs)
  | byte (array unread) (value other : Numeral) :
      value.toInt = other.toInt → Congruent (.select array (.num value)) (.select unread (.num other))
  | select (array unread index other) :
      index.numeral? = none → other.numeral? = none → Congruent index other →
      Congruent (.select array index) (.select unread other)
  | naming (lhs rhs left right) : Congruent (.eq lhs rhs true) (.eq left right true)
  | extract (args params others) :
      params.length = others.length → (∀ pair ∈ params.zip others, pair.1.Congruent pair.2) →
      Congruent (.extract args params) (.extract args others)
  | app (name args params others) :
      params.length = others.length → (∀ pair ∈ params.zip others, pair.1.Congruent pair.2) →
      Congruent (.app name args params) (.app name args others)

/-! ## Parameters -/

/-- Congruent parameters have the same text. -/
theorem Param.Congruent.render_eq {param other : Param} (h : param.Congruent other) :
    param.render = other.render := by
  have hformless {param : Param} (h : ∀ value, param ≠ .int value) : param.render = "?" := by
    cases param with
    | int value => exact absurd rfl (h value)
    | _ => rfl
  cases h with
  | int value => rfl
  | formless _ _ hparam hother => rw [hformless hparam, hformless hother]

/-- Congruent parameters have the same texts. -/
theorem render_params_congr {params others : List Param} (hlength : params.length = others.length)
    (h : ∀ pair ∈ params.zip others, pair.1.Congruent pair.2) :
    params.map Param.render = others.map Param.render := by
  calc params.map Param.render
      = (params.zip others).map fun pair => pair.1.render := by
        rw [← Function.comp_def Param.render, ← List.map_map, List.map_fst_zip hlength.le]
    _ = (params.zip others).map fun pair => pair.2.render :=
        List.map_congr_left fun pair hpair => (h pair hpair).render_eq
    _ = others.map Param.render := by
        rw [← Function.comp_def Param.render, ← List.map_map, List.map_snd_zip hlength.ge]

/-! ## Nodes -/

/-- What the text of a node takes from a child: the text of the child or its failure, and whether it is a
literal zero. -/
structure Term.SeenAlike (first second : Term) : Prop where
  render : first.render = second.render
  zero : first.isZeroNumeral = second.isZeroNumeral

/-- The head of a term says whether it is a literal zero. -/
theorem Term.is_zero_numeral_of_head {first second : Term} (h : first.head = second.head) :
    first.isZeroNumeral = second.isZeroNumeral := by
  cases first with
  | num value =>
      cases second with
      | num other => rw [Head.num.inj h]
      | _ => cases h
  | _ =>
      cases second with
      | num other => cases h
      | _ => rfl

/-- Numerals with the same pattern are zero together. -/
theorem Term.is_zero_numeral_of_bits {value other : Numeral} (h : value.bits = other.bits) :
    (Term.num value).isZeroNumeral = (Term.num other).isZeroNumeral := by
  simp [isZeroNumeral, numeral?, Numeral.isZero, h]

/-- Lists of the same length are empty together. -/
theorem is_empty_congr {α : Type} {elements others : List α} (h : elements.length = others.length) :
    elements.isEmpty = others.isEmpty := by
  rw [Bool.eq_iff_iff, List.isEmpty_iff_length_eq_zero, List.isEmpty_iff_length_eq_zero, h]

/-- Lists of terms that are seen alike one by one are written alike. -/
theorem render_all_congr {args others : List Term} (hlength : args.length = others.length)
    (h : ∀ pair ∈ args.zip others, pair.1.SeenAlike pair.2) : renderAll args = renderAll others := by
  induction args generalizing others with
  | nil =>
      obtain rfl := List.length_eq_zero_iff.mp hlength.symm
      rfl
  | cons arg args ih =>
      cases others with
      | nil => cases hlength
      | cons other others =>
          rw [List.zip_cons_cons, List.forall_mem_cons] at h
          rw [renderAll, renderAll, h.1.render, ih (Nat.succ.inj hlength) h.2]

/-- Lists of terms that are seen alike one by one are written alike without their leading zeros. -/
theorem render_significant_congr {bytes others : List Term} (hlength : bytes.length = others.length)
    (h : ∀ pair ∈ bytes.zip others, pair.1.SeenAlike pair.2) :
    renderSignificant bytes = renderSignificant others := by
  induction bytes generalizing others with
  | nil =>
      obtain rfl := List.length_eq_zero_iff.mp hlength.symm
      rfl
  | cons byte bytes ih =>
      cases others with
      | nil => cases hlength
      | cons other others =>
          have hrest := List.forall_mem_cons.mp h
          rw [renderSignificant, renderSignificant, hrest.1.zero, hrest.1.render,
            ih (Nat.succ.inj hlength) hrest.2, render_all_congr (Nat.succ.inj hlength) hrest.2]

/-- Nodes other than `select` with the same head, and with children that are seen alike, are written
alike. -/
theorem Term.render_eq_of_children {first second : Term} (hhead : first.head = second.head)
    (hselect : first.head ≠ .select) (hlength : first.children.length = second.children.length)
    (h : ∀ pair ∈ first.children.zip second.children, pair.1.SeenAlike pair.2) :
    first.render = second.render := by
  cases first with
  | num value =>
      cases second with
      | num other => rw [Head.num.inj hhead]
      | _ => cases hhead
  | bool value =>
      cases second with
      | bool other => rw [Head.bool.inj hhead]
      | _ => cases hhead
  | arith op args =>
      cases second with
      | arith other others =>
          have hargs : renderAll args = renderAll others := render_all_congr hlength h
          rw [Term.render, Term.render, Head.arith.inj hhead, hargs]
      | _ => cases hhead
  | logic op args =>
      cases second with
      | logic other others =>
          have hargs : renderAll args = renderAll others := render_all_congr hlength h
          rw [Term.render, Term.render, Head.logic.inj hhead, hargs]
      | _ => cases hhead
  | cmp op lhs rhs =>
      cases second with
      | cmp other left right =>
          obtain ⟨hlhs, hrhs⟩ : lhs.SeenAlike left ∧ rhs.SeenAlike right := by
            simpa [children] using h
          rw [Term.render, Term.render, Head.cmp.inj hhead, hlhs.render, hrhs.render]
      | _ => cases hhead
  | eq lhs rhs naming =>
      cases second with
      | eq left right other =>
          obtain ⟨hlhs, hrhs⟩ : lhs.SeenAlike left ∧ rhs.SeenAlike right := by
            simpa [children] using h
          rw [Term.render, Term.render, Head.eq.inj hhead, hlhs.render, hrhs.render]
      | _ => cases hhead
  | distinct lhs rhs =>
      cases second with
      | distinct left right =>
          obtain ⟨hlhs, hrhs⟩ : lhs.SeenAlike left ∧ rhs.SeenAlike right := by
            simpa [children] using h
          rw [Term.render, Term.render, hlhs.render, hrhs.render]
      | _ => cases hhead
  | not arg =>
      cases second with
      | not other =>
          have harg : arg.SeenAlike other := by simpa [children] using h
          rw [Term.render, Term.render, harg.render]
      | _ => cases hhead
  | neg arg =>
      cases second with
      | neg other =>
          have harg : arg.SeenAlike other := by simpa [children] using h
          rw [Term.render, Term.render, harg.render]
      | _ => cases hhead
  | select array index => exact absurd rfl hselect
  | concat bytes =>
      cases second with
      | concat others =>
          have hbytes : renderSignificant bytes = renderSignificant others :=
            render_significant_congr hlength h
          rw [Term.render, Term.render, hbytes]
      | _ => cases hhead
  | extract args params =>
      cases second with
      | extract others unread =>
          have hargs : renderAll args = renderAll others := render_all_congr hlength h
          have hempty : args.isEmpty = others.isEmpty := is_empty_congr hlength
          rw [Term.render, Term.render, Head.extract.inj hhead, hargs, hempty]
      | _ => cases hhead
  | app name args params =>
      cases second with
      | app other others unread =>
          obtain ⟨hname, hparams⟩ := Head.app.inj hhead
          have hargs : renderAll args = renderAll others := render_all_congr hlength h
          have hempty : args.isEmpty = others.isEmpty := is_empty_congr hlength
          rw [Term.render, Term.render, hname, hparams, hargs, hempty]
      | _ => cases hhead

/-! ## Congruent terms -/

namespace Term.Congruent

variable {first second lhs rhs left right arg other : Term}

/-- Nodes with the same head and congruent single children are congruent. -/
theorem unary (first second : Term) (hhead : first.head = second.head)
    (hselect : first.head ≠ .select) (hfirst : first.children = [arg])
    (hsecond : second.children = [other]) (h : arg.Congruent other) : first.Congruent second := by
  refine .node first second hhead hselect (by rw [hfirst, hsecond]; rfl) ?_
  rw [hfirst, hsecond]
  exact List.forall_mem_singleton.mpr h

/-- Nodes with the same head and two congruent children each are congruent. -/
theorem binary (first second : Term) (hhead : first.head = second.head)
    (hselect : first.head ≠ .select) (hfirst : first.children = [lhs, rhs])
    (hsecond : second.children = [left, right]) (hlhs : lhs.Congruent left)
    (hrhs : rhs.Congruent right) : first.Congruent second := by
  refine .node first second hhead hselect (by rw [hfirst, hsecond]; rfl) ?_
  rw [hfirst, hsecond]
  exact List.forall_mem_cons.mpr ⟨hlhs, List.forall_mem_singleton.mpr hrhs⟩

end Term.Congruent

/-- Congruent terms are seen alike wherever they stand. -/
theorem Term.Congruent.seen_alike {first second : Term} (h : first.Congruent second) :
    first.SeenAlike second := by
  induction h with
  | refl term => exact ⟨rfl, rfl⟩
  | symm first second _ ih => exact ⟨ih.render.symm, ih.zero.symm⟩
  | trans first second third _ _ ihFirst ihSecond =>
      exact ⟨ihFirst.render.trans ihSecond.render, ihFirst.zero.trans ihSecond.zero⟩
  | node first second hhead hselect hlength _ ih =>
      exact ⟨render_eq_of_children hhead hselect hlength ih, is_zero_numeral_of_head hhead⟩
  | num value other hbits =>
      exact ⟨by rw [Term.render, Term.render, Numeral.hex, Numeral.hex, hbits],
        is_zero_numeral_of_bits hbits⟩
  | arith op other args hsymbol => exact ⟨by rw [Term.render, Term.render, hsymbol], rfl⟩
  | cmp op other lhs rhs hsymbol => exact ⟨by rw [Term.render, Term.render, hsymbol], rfl⟩
  | byte array unread value other hvalue =>
      exact ⟨by simp only [Term.render, numeral?, hvalue], rfl⟩
  | select array unread index other hindex hother _ ih =>
      exact ⟨by simp only [Term.render, hindex, hother, ih.render], rfl⟩
  | naming lhs rhs left right => exact ⟨rfl, rfl⟩
  | extract args params others hlength hparams =>
      exact ⟨by rw [Term.render, Term.render, is_empty_congr hlength,
        render_params_congr hlength hparams], rfl⟩
  | app name args params others hlength hparams =>
      exact ⟨by rw [Term.render, Term.render, is_empty_congr hlength,
        render_params_congr hlength hparams], rfl⟩

/-- Congruent terms have the same text, or have none for the same reason. So nothing that stands in the array
of a `select`, on a side of a naming equality or in a parameter other than an integer can be told from a
text, and neither can the spelling of an operator or the signedness of a literal. -/
theorem render_eq_of_congruent {first second : Term} (h : first.Congruent second) :
    first.render = second.render :=
  h.seen_alike.render

/-- A comparison in spellings for signed numbers. A naming equality, an array and a parameter hold nodes
without a text. -/
def signedComparison : Term :=
  .all [.names (.extract [] []) (.constant "kind"),
    .cmp .sGe (.select (.extract [] []) (.ofSigned 3))
      (.app "f" [.concat [.ofSigned 0, .ofSigned (-1)]] [.term (.extract [] []), .int 2])]

/-- The same comparison in spellings for unsigned numbers, with other terms where no text shows any. -/
def unsignedComparison : Term :=
  .all [.names (.constant "size") (.ofUnsigned 8),
    .cmp .uGe (.select (.constant "B") (.ofUnsigned 3))
      (.app "f" [.concat [.ofUnsigned 0, .ofUnsigned (-1)]] [.sort "Int", .int 2])]

/-- The two comparisons are congruent. -/
theorem congruent_comparisons : signedComparison.Congruent unsignedComparison := by
  have hbytes : (Term.concat [.ofSigned 0, .ofSigned (-1)]).Congruent
      (.concat [.ofUnsigned 0, .ofUnsigned (-1)]) :=
    .binary _ _ rfl nofun rfl rfl (.num _ _ rfl) (.num _ _ rfl)
  have hparams : ∀ pair ∈ [Param.term (.extract [] []), .int 2].zip [.sort "Int", .int 2],
      pair.1.Congruent pair.2 :=
    List.forall_mem_cons.mpr ⟨.formless _ _ nofun nofun, List.forall_mem_singleton.mpr (.int 2)⟩
  have hcall : (Term.app "f" [.concat [.ofSigned 0, .ofSigned (-1)]]
        [.term (.extract [] []), .int 2]).Congruent
      (.app "f" [.concat [.ofUnsigned 0, .ofUnsigned (-1)]] [.sort "Int", .int 2]) :=
    .trans _ _ _ (.app "f" _ [.term (.extract [] []), .int 2] [.sort "Int", .int 2] rfl hparams)
      (.unary _ _ rfl nofun rfl rfl hbytes)
  have hbyte : (Term.select (.extract [] []) (.ofSigned 3)).Congruent
      (.select (.constant "B") (.ofUnsigned 3)) := .byte _ _ _ _ rfl
  exact .binary _ _ rfl nofun rfl rfl (.naming _ _ _ _)
    (.trans _ _ _ (.cmp _ .uGe _ _ rfl) (.binary _ _ rfl nofun rfl rfl hbyte hcall))

/-- The two comparisons share a text. -/
theorem comparisons_share_a_text :
    signedComparison.Congruent unsignedComparison ∧
      signedComparison.render = .ok "( && ((Select 3) >= f(0xFFFFFFFFFFFFFFFF, ?, 2)))" ∧
      unsignedComparison.render = .ok "( && ((Select 3) >= f(0xFFFFFFFFFFFFFFFF, ?, 2)))" := by
  have hsigned : signedComparison.render =
      .ok "( && ((Select 3) >= f(0xFFFFFFFFFFFFFFFF, ?, 2)))" := by decide +kernel
  have hsame := render_eq_of_congruent congruent_comparisons
  exact ⟨congruent_comparisons, hsigned, hsame.symm.trans hsigned⟩

end ByteGrammar
