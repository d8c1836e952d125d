import ByteGrammar.Proofs.WrittenForm

/-!
# Terms without a written form

The text of a node is made from the texts of its children, except that a naming equality has no text and
the array of a `select` is not written. `Term.Reaches` follows child steps that go into no hidden child.
`render_fails_iff_child` says where a failure comes from in one step, and
`render_fails_iff_reaches_malformed` where it comes from in the end: a term has no text exactly when an
`extract` without operands is reached from its root.
-/

namespace ByteGrammar

namespace Term

/-- Whether the text of a node does without its child at a place: a naming equality does without both,
and a `select` without its array. -/
def hides (term : Term) (place : Nat) : Bool :=
  match term with
  | .eq _ _ naming => naming
  | .select _ _ => place == 0
  | _ => false

/-- `term.Reaches sub` says that child steps lead from a term to `sub`, none of them into a hidden
child. -/
inductive Reaches : Term → Term → Prop where
  | here (term) : Reaches term term
  | child (term place child sub) :
      term.children[place]? = some child → term.hides place = false → Reaches child sub →
      Reaches term sub

variable {term child : Term} {place : Nat}

/-- A written child stands at a place that is not hidden. -/
theorem exists_place_of_mem_written (h : child ∈ term.writtenChildren) :
    ∃ place, term.children[place]? = some child ∧ term.hides place = false := by
  cases term with
  | eq lhs rhs naming =>
      cases naming with
      | true => cases h
      | false =>
          obtain ⟨place, hplace⟩ := List.mem_iff_getElem?.mp h
          exact ⟨place, hplace, rfl⟩
  | select array index =>
      rw [writtenChildren] at h
      split at h
      next => cases h
      next =>
        obtain rfl := List.mem_singleton.mp h
        exact ⟨1, rfl, rfl⟩
  | concat bytes =>
      obtain ⟨place, hplace⟩ := List.mem_iff_getElem?.mp ((List.dropWhile_sublist _).subset h)
      exact ⟨place, hplace, rfl⟩
  | _ =>
      obtain ⟨place, hplace⟩ := List.mem_iff_getElem?.mp h
      exact ⟨place, hplace, rfl⟩

/-- A child that is not hidden is written, unless it is a literal. -/
theorem mem_written_or_numeral (hchild : term.children[place]? = some child)
    (hshown : term.hides place = false) :
    child ∈ term.writtenChildren ∨ child.numeral?.isSome = true := by
  have hmem : child ∈ term.children := List.mem_of_getElem? hchild
  cases term with
  | eq lhs rhs naming =>
      obtain rfl : naming = false := hshown
      exact .inl hmem
  | select array index =>
      match place with
      | 0 => cases hshown
      | 1 =>
          obtain rfl : index = child := Option.some.inj hchild
          cases hindex : index.numeral?.isSome with
          | true => exact .inr rfl
          | false => exact .inl (by simp [writtenChildren, hindex])
      | place + 2 => cases hchild
  | concat bytes =>
      have hsplit : child ∈ bytes.takeWhile isZeroNumeral ++ bytes.dropWhile isZeroNumeral := by
        rwa [List.takeWhile_append_dropWhile]
      rcases List.mem_append.mp hsplit with hzero | hwritten
      · have hzero : child.isZeroNumeral = true :=
          List.all_eq_true.mp List.all_takeWhile child hzero
        cases child with
        | num value => exact .inr rfl
        | _ => cases hzero
      · exact .inl hwritten
  | _ => exact .inl hmem

/-- A literal reaches no other term. -/
theorem Reaches.eq_of_numeral {sub : Term} (h : term.Reaches sub)
    (hterm : term.numeral?.isSome = true) : sub = term := by
  cases h with
  | here => rfl
  | child _ place child _ hchild =>
      cases term with
      | num value => cases hchild
      | _ => cases hterm

/-- A term reaches one that is no literal exactly when it is that term or a written child of it reaches
that term. -/
theorem reaches_iff {sub : Term} (hsub : sub.numeral? = none) :
    term.Reaches sub ↔ term = sub ∨ ∃ child ∈ term.writtenChildren, child.Reaches sub := by
  constructor
  · intro h
    cases h with
    | here => exact .inl rfl
    | child _ place child _ hchild hshown hreaches =>
        rcases mem_written_or_numeral hchild hshown with hwritten | hnumeral
        · exact .inr ⟨child, hwritten, hreaches⟩
        · rw [← hreaches.eq_of_numeral hnumeral, hsub] at hnumeral
          cases hnumeral
  · rintro (rfl | ⟨child, hwritten, hreaches⟩)
    · exact .here term
    · obtain ⟨place, hchild, hshown⟩ := exists_place_of_mem_written hwritten
      exact .child term place child sub hchild hshown hreaches

end Term

/-- A result is a failure or a success, and there is one failure only. -/
theorem ok_iff_not_fails {α : Type} {result : Except RenderError α} :
    (∃ value, result = .ok value) ↔ ¬ result = .error .malformedExtract := by
  rcases result with ⟨⟨⟩⟩ | value <;> simp

/-- A sequence fails when its first part does, or when what follows does whatever the first part gives. -/
theorem bind_fails_iff {α β : Type} {x : Except RenderError α} {f : α → Except RenderError β}
    {Rest : Prop} (h : ∀ value, f value = .error .malformedExtract ↔ Rest) :
    (x >>= f) = .error .malformedExtract ↔ x = .error .malformedExtract ∨ Rest := by
  rcases x with ⟨⟨⟩⟩ | value
  · simp [Bind.bind, Except.bind]
  · simpa [Bind.bind, Except.bind] using h value

/-- Returning a value does not fail. -/
theorem pure_fails_iff {α : Type} {value : α} :
    (pure value : Except RenderError α) = .error .malformedExtract ↔ False := by
  simp [Pure.pure, Except.pure]

/-- A result with something made of it fails when the result does. -/
theorem bind_pure_fails_iff {α β : Type} {x : Except RenderError α} {f : α → β} :
    (do let value ← x; return f value) = (.error .malformedExtract : Except RenderError β) ↔
      x = .error .malformedExtract := by
  rw [bind_fails_iff fun value => pure_fails_iff, or_false]

/-- Two results with something made of them fail when either of them does. -/
theorem bind_two_fails_iff {α β γ : Type} {x : Except RenderError α} {y : Except RenderError β}
    {f : α → β → γ} :
    (do let left ← x; let right ← y; return f left right) =
        (.error .malformedExtract : Except RenderError γ) ↔
      x = .error .malformedExtract ∨ y = .error .malformedExtract :=
  bind_fails_iff fun _ => bind_pure_fails_iff

/-- Writing a list of terms fails when writing one of them does. -/
theorem render_all_fails_iff (terms : List Term) :
    renderAll terms = .error .malformedExtract ↔
      ∃ term ∈ terms, term.render = .error .malformedExtract := by
  induction terms with
  | nil => simp [renderAll]
  | cons term terms ih =>
      rw [renderAll, bind_two_fails_iff, ih]
      simp only [List.mem_cons, exists_eq_or_imp]

/-- A term has no text exactly when it is an `extract` without operands or one of its written children has
no text. -/
theorem Term.render_fails_iff_child (term : Term) :
    term.render = .error .malformedExtract ↔
      term = .extract [] [] ∨
        ∃ child ∈ term.writtenChildren, child.render = .error .malformedExtract := by
  cases term with
  | num value | bool value => simp [Term.render, writtenChildren, children]
  | arith op args | logic op args =>
      rw [Term.render, bind_pure_fails_iff, render_all_fails_iff]
      simp [writtenChildren, children]
  | cmp _ lhs rhs | distinct lhs rhs =>
      rw [Term.render, bind_two_fails_iff]
      simp [writtenChildren, children]
  | eq lhs rhs naming =>
      cases naming with
      | true => simp [Term.render, writtenChildren]
      | false =>
          rw [Term.render, if_neg Bool.false_ne_true, bind_two_fails_iff]
          simp [writtenChildren, children]
  | not arg | neg arg =>
      rw [Term.render, bind_pure_fails_iff]
      simp [writtenChildren, children]
  | select array index =>
      cases hindex : index.numeral? with
      | some value => simp [Term.render, writtenChildren, hindex]
      | none =>
          simp only [Term.render, hindex, bind_pure_fails_iff]
          simp [writtenChildren, hindex]
  | concat bytes =>
      rw [Term.render, render_significant_eq, bind_pure_fails_iff, render_all_fails_iff]
      simp [writtenChildren]
  | extract args params =>
      cases hoperands : args.isEmpty && params.isEmpty with
      | true =>
          obtain ⟨rfl, rfl⟩ : args = [] ∧ params = [] := by simpa using hoperands
          simp [Term.render]
      | false =>
          have hne : ¬ Term.extract args params = .extract [] [] := by
            rintro ⟨⟩
            cases hoperands
          rw [Term.render, hoperands, if_neg Bool.false_ne_true, bind_pure_fails_iff,
            render_all_fails_iff, or_iff_right hne]
          rfl
  | app name args params =>
      cases hoperands : args.isEmpty && params.isEmpty with
      | true =>
          obtain ⟨rfl, rfl⟩ : args = [] ∧ params = [] := by simpa using hoperands
          simp [Term.render, writtenChildren, children]
      | false =>
          rw [Term.render, hoperands, if_neg Bool.false_ne_true, bind_pure_fails_iff,
            render_all_fails_iff]
          simp [writtenChildren, children]

/-- A term has no text exactly when an `extract` without operands is reached from its root, and otherwise
it has a text. What stands under a naming equality, in the array of a `select` or in a parameter does not
count. -/
theorem render_fails_iff_reaches_malformed (term : Term) :
    (term.render = .error .malformedExtract ↔ term.Reaches (.extract [] [])) ∧
      ((∃ text, term.render = .ok text) ↔ ¬ term.Reaches (.extract [] [])) := by
  have hfails : term.render = .error .malformedExtract ↔ term.Reaches (.extract [] []) := by
    induction term using Term.induct_children with
    | node term ih =>
        rw [term.render_fails_iff_child, Term.reaches_iff rfl]
        refine or_congr_right (exists_congr fun child => and_congr_right fun hwritten => ?_)
        obtain ⟨place, hchild, -⟩ := Term.exists_place_of_mem_written hwritten
        exact ih child (List.mem_of_getElem? hchild)
  exact ⟨hfails, by rw [ok_iff_not_fails, hfails]⟩

/-- Four malformed nodes in places that no text shows. -/
example :
    (Term.all [.names (.extract [] []) (.constant "kind"),
      .ge (.select (.extract [] []) (.ofUnsigned 3)) (.app "f" [] [.term (.extract [] [])]),
      .concat [.ofSigned 0, .select (.neg (.extract [] [])) (.constant "n")]]).render =
      .ok "( && ((Select 3) >= f(?)) && (Select n))" :=
  rfl

end ByteGrammar
