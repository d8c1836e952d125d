import ByteGrammar.Proofs.GrammarLayout

/-!
# How deep a grammar nests that has been read

A reader opens a bracket only while the nesting allows it, so what it gives nests no deeper than the text
did, apart from the empty lists that are written for operands which the text left out. `Yields` states what
holds of every value that a reader gives, shape by shape, and `rereads_iff_depth_le` says what follows for
reading a grammar back that has been read before.
-/

namespace ByteGrammar

namespace Json.Reader

variable {α β γ σ τ : Type}

/-- A reader gives only values with a property. -/
def Yields (reader : Reader α) (P : α → Prop) : Prop :=
  ∀ ⦃text rest : List Char⦄ ⦃value : α⦄, reader text = .ok (value, rest) → P value

variable {P : α → Prop} {Q : β → Prop} {I : σ → Prop}

/-- Nothing is known of the values of a reader. -/
theorem yields_true (reader : Reader α) : Yields reader fun _ => True :=
  fun _ _ _ _ => trivial

/-- A weaker property holds as well. -/
theorem Yields.mono {R : α → Prop} {reader : Reader α} (h : Yields reader R)
    (himp : ∀ value, R value → P value) : Yields reader P :=
  fun _ _ _ hread => himp _ (h hread)

/-- A reader that fails gives nothing. -/
theorem yields_of_error {reader : Reader α} (h : ∀ text, ∃ failure, reader text = .error failure) :
    Yields reader P := by
  intro text rest value hread
  obtain ⟨failure, hfailure⟩ := h text
  rw [hfailure] at hread
  cases hread

/-- A fault at the place reached. -/
theorem yields_fail_here (cause : Cause) : Yields (failHere cause : Reader α) P :=
  yields_of_error fun _ => ⟨_, rfl⟩

/-- A fault one byte further. -/
theorem yields_fail_next (cause : Cause) : Yields (failNext cause : Reader α) P :=
  yields_of_error fun _ => ⟨_, rfl⟩

/-- A fault without a place. -/
theorem yields_fail_pending (cause : Cause) : Yields (failPending cause : Reader α) P :=
  yields_of_error fun _ => ⟨_, rfl⟩

/-- A value that is there without reading. -/
theorem yields_pure {value : α} (h : P value) : Yields (pure value) P := by
  intro text rest result hread
  cases hread
  exact h

/-- A reader and one that goes on with its value. -/
theorem Yields.bind {first : Reader α} {next : α → Reader β} (hfirst : Yields first P)
    (hnext : ∀ value, P value → Yields (next value) Q) : Yields (first >>= next) Q := by
  intro text rest result hread
  change (first text).bind (fun found => next found.1 found.2) = _ at hread
  cases hvalue : first text with
  | error failure =>
      rw [hvalue] at hread
      cases hread
  | ok found =>
      rw [hvalue] at hread
      exact hnext found.1 (hfirst hvalue) hread

/-- A reader whose value does not matter for what follows. -/
theorem Yields.after {first : Reader α} {next : α → Reader β} (hnext : ∀ value, Yields (next value) Q) :
    Yields (first >>= next) Q :=
  (yields_true first).bind fun value _ => hnext value

/-- A reader whose value is changed at the end. -/
theorem Yields.map {reader : Reader α} {change : α → β} (h : Yields reader P)
    (hchange : ∀ value, P value → Q (change value)) : Yields (change <$> reader) Q := by
  rw [← bind_pure_comp]
  exact h.bind fun value hvalue => yields_pure (hchange value hvalue)

/-- Leaving a bracket changes no value. -/
theorem Yields.leave {reader : Reader α} (h : Yields reader P) (close : List Char → List Char) :
    Yields (leave close reader) P := by
  intro text rest value hread
  unfold Reader.leave at hread
  split at hread
  · cases hread
  · exact h hread

/-- A value of another type gives nothing. -/
theorem yields_mismatch (expected : String) : Yields (mismatch expected : Reader α) P := by
  refine Yields.after fun next => ?_
  split
  case h_7 c =>
    split
    · exact Yields.after fun _ => yields_fail_here _
    · exact yields_fail_next _
  all_goals first
    | exact yields_fail_next _
    | exact yields_fail_here _
    | exact Yields.after fun _ => Yields.after fun _ => yields_fail_here _

/-- A bracket is opened only if there is an inside. -/
theorem yields_enter {inside : Option (Reader α)} (h : ∀ reader ∈ inside, Yields reader P) :
    Yields (enter inside) P := by
  cases inside with
  | none => exact yields_fail_next _
  | some reader => exact Yields.after fun _ => h reader rfl

/-- The items of an array have what its reader gives. -/
theorem yields_items {item : Reader α} (h : Yields item P) (bound : List Char) (first : Bool) :
    Yields (items item bound first) fun values => ∀ value ∈ values, P value := by
  induction bound generalizing first with
  | nil => exact yields_pure (by simp)
  | cons c bound ih =>
      refine Yields.after fun more => ?_
      split
      · refine h.bind fun head hhead => (ih false).bind fun tail htail => yields_pure ?_
        exact List.forall_mem_cons.mpr ⟨hhead, htail⟩
      · exact yields_pure (by simp)

/-- The items of a list have what their reader gives, and there is such a reader. -/
theorem yields_list {item : Option (Reader α)} (h : ∀ reader ∈ item, Yields reader P) :
    Yields (list item) fun values => item.isSome ∧ ∀ value ∈ values, P value := by
  refine Yields.after fun next => ?_
  split
  · exact yields_fail_next _
  · refine Yields.after fun text => yields_enter fun reader hreader => ?_
    obtain ⟨inner, hinner, rfl⟩ := Option.mem_map.mp hreader
    refine Yields.leave ?_ closeArray
    exact (yields_items (h inner hinner) text true).bind fun values hvalues =>
      Yields.after fun _ => yields_pure ⟨Option.isSome_of_mem hinner, hvalues⟩
  · exact yields_mismatch _

/-- Without a bracket nothing is read as a list. -/
theorem yields_list_none {P : List α → Prop} : Yields (list none) P :=
  (yields_list (P := fun _ => True) (by simp)).mono fun _ h => absurd h.1 (by simp)

/-- The part of a tuple at an index. -/
theorem yields_item_at {item : Reader α} (h : Yields item P) (index : Nat) (expected : String) :
    Yields (itemAt index expected item) P := by
  refine Yields.after fun more => ?_
  split
  · exact h
  · exact yields_fail_pending _

/-- The part of a tuple at an index, or what stands for a missing one. -/
theorem yields_item_at_or {item : Reader α} {missing : α} (h : Yields item P) (hmissing : P missing)
    (index : Nat) : Yields (itemAtOr index missing item) P := by
  refine Yields.after fun more => ?_
  split
  · exact h
  · exact yields_pure hmissing

/-- The parts of a pair have what their readers give, and there are such readers. -/
theorem yields_pair {expected : String} {parts : Option (Reader α × Reader β)}
    (h : ∀ readers ∈ parts, Yields readers.1 P ∧ Yields readers.2 Q) :
    Yields (pair expected parts) fun value => parts.isSome ∧ P value.1 ∧ Q value.2 := by
  refine Yields.after fun next => ?_
  split
  · exact yields_fail_next _
  · refine yields_enter fun reader hreader => ?_
    obtain ⟨⟨left, right⟩, hparts, rfl⟩ := Option.mem_map.mp hreader
    obtain ⟨hleft, hright⟩ := h _ hparts
    refine Yields.leave ?_ closeArray
    refine (yields_item_at hleft 0 _).bind fun first hfirst => ?_
    refine (yields_item_at hright 1 _).bind fun second hsecond => ?_
    exact Yields.after fun _ => yields_pure ⟨Option.isSome_of_mem hparts, hfirst, hsecond⟩
  · exact yields_mismatch _

/-- Without a bracket nothing is read as a pair. -/
theorem yields_pair_none {P : α × β → Prop} (expected : String) : Yields (pair expected none) P :=
  (yields_pair (P := fun _ => True) (Q := fun _ => True) (by simp)).mono
    fun _ h => absurd h.1 (by simp)

/-- The parts of a triple have what their readers give, and there are such readers. -/
theorem yields_triple {R : γ → Prop} {expected : String}
    {parts : Option (Reader α × Reader β × Reader γ)}
    (h : ∀ readers ∈ parts, Yields readers.1 P ∧ Yields readers.2.1 Q ∧ Yields readers.2.2 R) :
    Yields (triple expected parts) fun value =>
      parts.isSome ∧ P value.1 ∧ Q value.2.1 ∧ R value.2.2 := by
  refine Yields.after fun next => ?_
  split
  · exact yields_fail_next _
  · refine yields_enter fun reader hreader => ?_
    obtain ⟨⟨left, middle, right⟩, hparts, rfl⟩ := Option.mem_map.mp hreader
    obtain ⟨hleft, hmiddle, hright⟩ := h _ hparts
    refine Yields.leave ?_ closeArray
    refine (yields_item_at hleft 0 _).bind fun first hfirst => ?_
    refine (yields_item_at hmiddle 1 _).bind fun second hsecond => ?_
    refine (yields_item_at hright 2 _).bind fun third hthird => ?_
    exact Yields.after fun _ =>
      yields_pure ⟨Option.isSome_of_mem hparts, hfirst, hsecond, hthird⟩
  · exact yields_mismatch _

/-- Without a bracket nothing is read as a triple. -/
theorem yields_triple_none {P : α × β × γ → Prop} (expected : String) :
    Yields (triple expected none) P :=
  (yields_triple (P := fun _ => True) (Q := fun _ => True) (R := fun _ => True) (by simp)).mono
    fun _ h => absurd h.1 (by simp)

/-- What every step keeps holds after all members of an object. -/
theorem yields_members {step : String → σ → Reader σ}
    (h : ∀ key state, I state → Yields (step key state) I) (bound : List Char) (first : Bool)
    {state : σ} (hstate : I state) : Yields (members step bound first state) I := by
  induction bound generalizing first state with
  | nil => exact yields_pure hstate
  | cons c bound ih =>
      refine Yields.after fun more => ?_
      split
      · refine Yields.after fun _ => Yields.after fun key => ?_
        exact (h key state hstate).bind fun next hnext => ih false hnext
      · exact yields_pure hstate

/-- A field that has been read has what its reader gives. -/
theorem yields_once {value : Reader α} (h : Yields value P) (key : String) (known : Option α) :
    Yields (once key known value) fun read => ∀ result ∈ read, P result := by
  cases known with
  | some _ => exact yields_fail_pending _
  | none =>
      refine Yields.after fun _ => h.bind fun result hresult => yields_pure ?_
      intro other hother
      exact Option.mem_some.mp hother ▸ hresult

/-- A member that is no field leaves the state alone. -/
theorem yields_unknown {state : σ} (h : I state) : Yields (unknown state) I :=
  Yields.after fun _ => Yields.after fun _ => yields_pure h

/-- A field that must be there has what is known of it. -/
theorem yields_required {known : Option α} (h : ∀ value ∈ known, P value) (key : String) :
    Yields (required key known) P := by
  cases known with
  | none => exact yields_fail_pending _
  | some value => exact yields_pure (h value rfl)

/-- A field that may be missing has what is known of it and of what stands for it. -/
theorem holds_of_get {known : Option α} {missing : α} (h : ∀ value ∈ known, P value)
    (hmissing : P missing) : P (known.getD missing) := by
  cases known with
  | none => exact hmissing
  | some value => exact h value rfl

/-- A record has what follows from the fields in either notation. -/
theorem yields_record {expected : String} {fields : Option (Fields σ α)} (I : σ → Prop)
    (hstart : ∀ known ∈ fields, I known.start)
    (hstep : ∀ known ∈ fields, ∀ key state, I state → Yields (known.step key state) I)
    (hfinish : ∀ known ∈ fields, ∀ state, I state → Yields (known.finish state) P)
    (hpositional : ∀ known ∈ fields, Yields known.positional P) :
    Yields (record expected fields) P := by
  refine Yields.after fun next => ?_
  split
  · exact yields_fail_next _
  · refine Yields.after fun text => yields_enter fun reader hreader => ?_
    obtain ⟨known, hknown, rfl⟩ := Option.mem_map.mp hreader
    refine Yields.leave ?_ closeObject
    refine (yields_members (hstep known hknown) text true (hstart known hknown)).bind ?_
    intro state hstate
    exact (hfinish known hknown state hstate).bind fun value hvalue =>
      Yields.after fun _ => yields_pure hvalue
  · refine yields_enter fun reader hreader => ?_
    obtain ⟨known, hknown, rfl⟩ := Option.mem_map.mp hreader
    refine Yields.leave ?_ closeArray
    exact (hpositional known hknown).bind fun value hvalue => Yields.after fun _ => yields_pure hvalue
  · exact yields_mismatch _

/-- Without a bracket nothing is read as a record. -/
theorem yields_record_none {expected : String} :
    Yields (record expected (none : Option (Fields σ α))) P :=
  yields_record (fun _ => True) (by simp) (by simp) (by simp) (by simp)

/-- A tagged value has what the reader behind its tag gives. -/
theorem yields_tagged [Tag τ] {bare : τ → Reader β} {payload : Option (τ → Reader β)}
    (hbare : ∀ tag, Yields (bare tag) Q)
    (hpayload : ∀ read ∈ payload, ∀ tag, Yields (read tag) Q) : Yields (tagged bare payload) Q := by
  refine Yields.after fun next => ?_
  split
  · exact yields_fail_next _
  · refine yields_enter fun reader hreader => ?_
    obtain ⟨read, hread, rfl⟩ := Option.mem_map.mp hreader
    refine Yields.after fun next => ?_
    split
    · exact yields_fail_next _
    · refine Yields.after fun tag => Yields.after fun _ => ?_
      refine (hpayload read hread tag).bind fun value hvalue => Yields.after fun next => ?_
      split
      · exact yields_fail_here _
      · exact Yields.after fun _ => yields_pure hvalue
      · exact yields_fail_here _
    · exact yields_fail_next _
    · exact yields_fail_next _
  · exact Yields.after fun tag => hbare tag
  · exact yields_fail_next _

/-- A value that may be `null` has what its reader gives. -/
theorem yields_optional {value : Reader α} (h : Yields value P) :
    Yields (optional value) fun read => ∀ result ∈ read, P result := by
  refine Yields.after fun next => ?_
  split
  · exact Yields.after fun _ => Yields.after fun _ => yields_pure (by simp)
  · refine h.bind fun result hresult => yields_pure ?_
    intro other hother
    exact Option.mem_some.mp hother ▸ hresult

end Json.Reader

open Json Json.Reader

/-- Items nest within a bound when each of them does. -/
theorem Json.depth_of_items_le_iff {items : List Json} {bound : Nat} :
    depthOfItems items ≤ bound ↔ ∀ item ∈ items, item.depth ≤ bound := by
  induction items with
  | nil => simp [depthOfItems]
  | cons item items ih => rw [depthOfItems, Nat.max_le, ih, List.forall_mem_cons]

/-- What is read as a rational parameter is one. -/
theorem Param.rational_of_read (nesting : Nat) :
    Yields (Param.readRational nesting) fun param => ∃ num den, param = .rational num den := by
  cases nesting with
  | zero => exact yields_record_none
  | succ nesting =>
      refine yields_record (fun _ => True) (by simp) (by rintro _ ⟨⟩ key state _; exact yields_true _) ?_ ?_
      · rintro _ ⟨⟩ state -
        exact Yields.after fun num => Yields.after fun den => yields_pure ⟨num, den, rfl⟩
      · rintro _ ⟨⟩
        exact Yields.after fun num => Yields.after fun den => yields_pure ⟨num, den, rfl⟩

/-- A list of terms whose members nest within a bound. -/
theorem depth_of_terms_le {terms : List Term} {bound : Nat}
    (h : ∀ term ∈ terms, term.toJson.depth ≤ bound) : depthOfItems (termsToJson terms) ≤ bound := by
  rw [terms_to_json_eq_map, Json.depth_of_items_le_iff]
  exact List.forall_mem_map.mpr h

/-- A list of parameters whose members nest within a bound. -/
theorem depth_of_params_le {params : List Param} {bound : Nat}
    (h : ∀ param ∈ params, param.toJson.depth ≤ bound) :
    depthOfItems (paramsToJson params) ≤ bound := by
  rw [params_to_json_eq_map, Json.depth_of_items_le_iff]
  exact List.forall_mem_map.mpr h

/-- The operands of an operator nest as deep as its reader of operands lets them. -/
theorem depth_of_operands {α : Type} {expected : String} {op : Reader α} {terms : Reader (List Term)}
    {bound : Nat} (h : Yields terms fun terms => depthOfItems (termsToJson terms) ≤ bound) :
    Yields (pair expected (some (op, terms))) fun value =>
      depthOfItems (termsToJson value.2) ≤ bound := by
  refine (yields_pair (P := fun _ => True)
    (Q := fun terms => depthOfItems (termsToJson terms) ≤ bound) ?_).mono fun _ hpair => hpair.2.2
  rintro _ ⟨⟩
  exact ⟨yields_true _, h⟩

mutual
/-- A term nests at most one deeper than it was allowed to when it was read. -/
theorem Term.depth_of_read : (nesting : Nat) →
    Yields (Term.read nesting) fun term => term.toJson.depth ≤ nesting + 1
  | 0 => yields_tagged (fun _ => yields_fail_pending _) (by simp)
  | nesting + 1 => by
      -- The tag stands in a bracket of its own, so that what is behind it was read with one less.
      refine yields_tagged (fun _ => yields_fail_pending _) ?_
      rintro _ ⟨⟩ tag
      cases tag with
      | num =>
          refine (yields_true _).map fun value _ => ?_
          cases value <;> simp [Term.toJson, Numeral.toJson, depth_of_tag, Json.depth]
      | bool =>
          refine (yields_true _).map fun value _ => ?_
          simp [Term.toJson, depth_of_tag, Json.depth]
      | arith =>
          refine (depth_of_read_arith nesting).map fun value hvalue => ?_
          simp only [Term.toJson, depth_of_tag, depth, depthOfItems, ofName]
          omega
      | logic =>
          refine (depth_of_read_logic nesting).map fun value hvalue => ?_
          simp only [Term.toJson, depth_of_tag, depth, depthOfItems, ofName]
          omega
      | cmp =>
          refine (depth_of_read_cmp nesting).map fun ⟨op, lhs, rhs⟩ hvalue => ?_
          simp only [Term.toJson, depth_of_tag, depth, depthOfItems, ofName] at hvalue ⊢
          omega
      | distinct =>
          refine (depth_of_read_distinct nesting).map fun ⟨lhs, rhs⟩ hvalue => ?_
          simp only [Term.toJson, depth_of_tag, depth, depthOfItems] at hvalue ⊢
          omega
      | not | neg =>
          refine (Term.depth_of_read nesting).map fun value hvalue => ?_
          simp only [Term.toJson, depth_of_tag]
          omega
      | concat =>
          refine (depth_of_read_terms nesting).map fun value hvalue => ?_
          simp only [Term.toJson, depth_of_tag, depth]
          omega
      | eq => exact depth_of_read_eq nesting
      | select => exact depth_of_read_select nesting
      | extract => exact depth_of_read_extract nesting
      | app => exact depth_of_read_app nesting

/-- The members of a list of terms nest at most as deep as the list was allowed to. -/
theorem depth_of_read_terms : (nesting : Nat) →
    Yields (readTerms nesting) fun terms => depthOfItems (termsToJson terms) ≤ nesting
  | 0 => yields_list_none
  | nesting + 1 => by
      refine (yields_list ?_).mono fun terms hterms => depth_of_terms_le hterms.2
      rintro _ ⟨⟩
      exact Term.depth_of_read nesting

/-- A parameter nests at most one deeper than it was allowed to when it was read. -/
theorem Param.depth_of_read : (nesting : Nat) →
    Yields (Param.read nesting) fun param => param.toJson.depth ≤ nesting + 1
  | 0 => yields_tagged (fun _ => yields_fail_pending _) (by simp)
  | nesting + 1 => by
      refine yields_tagged (fun _ => yields_fail_pending _) ?_
      rintro _ ⟨⟩ tag
      cases tag with
      | int | double | symbol | sort | funcDecl =>
          refine (yields_true _).map fun value _ => ?_
          simp [Param.toJson, depth_of_tag, Json.depth]
      | rational =>
          refine (Param.rational_of_read nesting).mono ?_
          rintro _ ⟨num, den, rfl⟩
          simp [Param.toJson, depth_of_tag, Json.depth, depthOfMembers]
      | term =>
          refine (Term.depth_of_read nesting).map fun value hvalue => ?_
          simp only [Param.toJson, depth_of_tag]
          omega

/-- The members of a list of parameters nest at most as deep as the list was allowed to. -/
theorem depth_of_read_params : (nesting : Nat) →
    Yields (readParams nesting) fun params => depthOfItems (paramsToJson params) ≤ nesting
  | 0 => yields_list_none
  | nesting + 1 => by
      refine (yields_list ?_).mono fun params hparams => depth_of_params_le hparams.2
      rintro _ ⟨⟩
      exact Param.depth_of_read nesting

/-- The operands of an arithmetic operator nest less deep than the pair was allowed to. -/
theorem depth_of_read_arith : (nesting : Nat) →
    Yields (readArith nesting) fun value => depthOfItems (termsToJson value.2) + 1 ≤ nesting
  | 0 => yields_pair_none _
  | nesting + 1 => (depth_of_operands (depth_of_read_terms nesting)).mono fun _ => Nat.succ_le_succ

/-- The operands of a connective nest less deep than the pair was allowed to. -/
theorem depth_of_read_logic : (nesting : Nat) →
    Yields (readLogic nesting) fun value => depthOfItems (termsToJson value.2) + 1 ≤ nesting
  | 0 => yields_pair_none _
  | nesting + 1 => (depth_of_operands (depth_of_read_terms nesting)).mono fun _ => Nat.succ_le_succ

/-- The sides of a comparison nest at most as deep as the triple was allowed to. -/
theorem depth_of_read_cmp : (nesting : Nat) →
    Yields (readCmp nesting) fun value =>
      value.2.1.toJson.depth ≤ nesting ∧ value.2.2.toJson.depth ≤ nesting
  | 0 => yields_triple_none _
  | nesting + 1 => by
      refine (yields_triple (P := fun _ => True) (Q := fun term => term.toJson.depth ≤ nesting + 1)
        (R := fun term => term.toJson.depth ≤ nesting + 1) ?_).mono fun _ h => h.2.2
      rintro _ ⟨⟩
      exact ⟨yields_true _, Term.depth_of_read nesting, Term.depth_of_read nesting⟩

/-- The sides of an inequality nest at most as deep as the pair was allowed to. -/
theorem depth_of_read_distinct : (nesting : Nat) →
    Yields (readDistinct nesting) fun value =>
      value.1.toJson.depth ≤ nesting ∧ value.2.toJson.depth ≤ nesting
  | 0 => yields_pair_none _
  | nesting + 1 => by
      refine (yields_pair (P := fun term => term.toJson.depth ≤ nesting + 1)
        (Q := fun term => term.toJson.depth ≤ nesting + 1) ?_).mono fun _ h => h.2
      rintro _ ⟨⟩
      exact ⟨Term.depth_of_read nesting, Term.depth_of_read nesting⟩

/-- An equality nests at most two deeper than its fields were allowed to. -/
theorem depth_of_read_eq : (nesting : Nat) →
    Yields (readEq nesting) fun term => term.toJson.depth ≤ nesting + 2
  | 0 => yields_record_none
  | nesting + 1 => by
      have hterm := Term.depth_of_read nesting
      have hequality (lhs rhs : Term) (naming : Bool) (hlhs : lhs.toJson.depth ≤ nesting + 1)
          (hrhs : rhs.toJson.depth ≤ nesting + 1) :
          (Term.eq lhs rhs naming).toJson.depth ≤ nesting + 1 + 2 := by
        simp only [Term.toJson, depth_of_tag, depth, depthOfMembers]
        omega
      refine yields_record (fun state => (∀ term ∈ state.1, term.toJson.depth ≤ nesting + 1) ∧
        ∀ term ∈ state.2.1, term.toJson.depth ≤ nesting + 1) ?_ ?_ ?_ ?_
      · rintro _ ⟨⟩
        simp
      · rintro _ ⟨⟩ key ⟨lhs, rhs, naming⟩ ⟨hlhs, hrhs⟩
        dsimp only
        split
        · exact (yields_once hterm _ _).bind fun read hread => yields_pure ⟨hread, hrhs⟩
        · exact (yields_once hterm _ _).bind fun read hread => yields_pure ⟨hlhs, hread⟩
        · exact Yields.after fun read => yields_pure ⟨hlhs, hrhs⟩
        · exact yields_unknown ⟨hlhs, hrhs⟩
      · rintro _ ⟨⟩ ⟨lhs, rhs, naming⟩ ⟨hlhs, hrhs⟩
        refine (yields_required hlhs _).bind fun left hleft => ?_
        refine (yields_required hrhs _).bind fun right hright => yields_pure ?_
        exact hequality left right _ hleft hright
      · rintro _ ⟨⟩
        refine (yields_item_at hterm 0 _).bind fun left hleft => ?_
        refine (yields_item_at hterm 1 _).bind fun right hright => Yields.after fun naming => ?_
        exact yields_pure (hequality left right naming hleft hright)

/-- A byte read nests at most two deeper than its fields were allowed to. -/
theorem depth_of_read_select : (nesting : Nat) →
    Yields (readSelect nesting) fun term => term.toJson.depth ≤ nesting + 2
  | 0 => yields_record_none
  | nesting + 1 => by
      have hterm := Term.depth_of_read nesting
      have hselect (array index : Term) (harray : array.toJson.depth ≤ nesting + 1)
          (hindex : index.toJson.depth ≤ nesting + 1) :
          (Term.select array index).toJson.depth ≤ nesting + 1 + 2 := by
        simp only [Term.toJson, depth_of_tag, depth, depthOfMembers]
        omega
      refine yields_record (fun state => (∀ term ∈ state.1, term.toJson.depth ≤ nesting + 1) ∧
        ∀ term ∈ state.2, term.toJson.depth ≤ nesting + 1) ?_ ?_ ?_ ?_
      · rintro _ ⟨⟩
        simp
      · rintro _ ⟨⟩ key ⟨array, index⟩ ⟨harray, hindex⟩
        dsimp only
        split
        · exact (yields_once hterm _ _).bind fun read hread => yields_pure ⟨hread, hindex⟩
        · exact (yields_once hterm _ _).bind fun read hread => yields_pure ⟨harray, hread⟩
        · exact yields_unknown ⟨harray, hindex⟩
      · rintro _ ⟨⟩ ⟨array, index⟩ ⟨harray, hindex⟩
        refine (yields_required harray _).bind fun source hsource => ?_
        refine (yields_required hindex _).bind fun place hplace => yields_pure ?_
        exact hselect source place hsource hplace
      · rintro _ ⟨⟩
        refine (yields_item_at hterm 0 _).bind fun source hsource => ?_
        refine (yields_item_at hterm 1 _).bind fun place hplace => ?_
        exact yields_pure (hselect source place hsource hplace)

/-- A bit range nests at most two deeper than its fields were allowed to. -/
theorem depth_of_read_extract : (nesting : Nat) →
    Yields (readExtract nesting) fun term => term.toJson.depth ≤ nesting + 2
  | 0 => yields_record_none
  | nesting + 1 => by
      have hterms := depth_of_read_terms nesting
      have hparameters := depth_of_read_params nesting
      have hextract (args : List Term) (params : List Param)
          (hargs : depthOfItems (termsToJson args) ≤ nesting)
          (hparams : depthOfItems (paramsToJson params) ≤ nesting) :
          (Term.extract args params).toJson.depth ≤ nesting + 1 + 2 := by
        simp only [Term.toJson, depth_of_tag, depth, depthOfMembers]
        omega
      refine yields_record (fun state =>
        (∀ args ∈ state.1, depthOfItems (termsToJson args) ≤ nesting) ∧
          ∀ params ∈ state.2, depthOfItems (paramsToJson params) ≤ nesting) ?_ ?_ ?_ ?_
      · rintro _ ⟨⟩
        simp
      · rintro _ ⟨⟩ key ⟨args, params⟩ ⟨hargs, hparams⟩
        dsimp only
        split
        · exact (yields_once hterms _ _).bind fun read hread => yields_pure ⟨hread, hparams⟩
        · exact (yields_once hparameters _ _).bind fun read hread => yields_pure ⟨hargs, hread⟩
        · exact yields_unknown ⟨hargs, hparams⟩
      · rintro _ ⟨⟩ ⟨args, params⟩ ⟨hargs, hparams⟩
        refine (yields_required hargs _).bind fun terms hterms => ?_
        refine (yields_required hparams _).bind fun values hvalues => yields_pure ?_
        exact hextract terms values hterms hvalues
      · rintro _ ⟨⟩
        refine (yields_item_at hterms 0 _).bind fun args hargs => ?_
        refine (yields_item_at hparameters 1 _).bind fun params hparams => ?_
        exact yields_pure (hextract args params hargs hparams)

/-- Any other operator nests at most two deeper than its fields were allowed to, also when operands were
left out. -/
theorem depth_of_read_app : (nesting : Nat) →
    Yields (readApp nesting) fun term => term.toJson.depth ≤ nesting + 2
  | 0 => yields_record_none
  | nesting + 1 => by
      have hterms := depth_of_read_terms nesting
      have hparameters := depth_of_read_params nesting
      have happ (name : String) (args : List Term) (params : List Param)
          (hargs : depthOfItems (termsToJson args) ≤ nesting)
          (hparams : depthOfItems (paramsToJson params) ≤ nesting) :
          (Term.app name args params).toJson.depth ≤ nesting + 1 + 2 := by
        simp only [Term.toJson, depth_of_tag, depth, depthOfMembers]
        omega
      have hnoArgs : depthOfItems (termsToJson []) ≤ nesting := Nat.zero_le nesting
      have hnoParams : depthOfItems (paramsToJson []) ≤ nesting := Nat.zero_le nesting
      refine yields_record (fun state =>
        (∀ args ∈ state.2.1, depthOfItems (termsToJson args) ≤ nesting) ∧
          ∀ params ∈ state.2.2, depthOfItems (paramsToJson params) ≤ nesting) ?_ ?_ ?_ ?_
      · rintro _ ⟨⟩
        simp
      · rintro _ ⟨⟩ key ⟨name, args, params⟩ ⟨hargs, hparams⟩
        dsimp only
        split
        · exact Yields.after fun read => yields_pure ⟨hargs, hparams⟩
        · exact (yields_once hterms _ _).bind fun read hread => yields_pure ⟨hread, hparams⟩
        · exact (yields_once hparameters _ _).bind fun read hread => yields_pure ⟨hargs, hread⟩
        · exact yields_unknown ⟨hargs, hparams⟩
      · rintro _ ⟨⟩ ⟨name, args, params⟩ ⟨hargs, hparams⟩
        refine Yields.after fun found => yields_pure (happ found _ _ ?_ ?_)
        · exact holds_of_get hargs hnoArgs
        · exact holds_of_get hparams hnoParams
      · rintro _ ⟨⟩
        refine Yields.after fun name => ?_
        refine (yields_item_at_or hterms hnoArgs 1).bind fun args hargs => ?_
        refine (yields_item_at_or hparameters hnoParams 2).bind fun params hparams => ?_
        exact yields_pure (happ name args params hargs hparams)
end

/-- A bound nests at most one deeper than it was allowed to when it was read. -/
theorem Bound.depth_of_read (nesting : Nat) :
    Yields (Bound.read nesting) fun bound => bound.toJson.depth ≤ nesting + 1 := by
  cases nesting with
  | zero => exact yields_tagged (fun _ => yields_fail_pending _) (by simp)
  | succ nesting =>
      refine yields_tagged (fun _ => yields_fail_pending _) ?_
      rintro _ ⟨⟩ tag
      cases tag with
      | constant =>
          refine (yields_true _).map fun value _ => ?_
          simp [Bound.toJson, depth_of_tag, Json.depth]
      | symbolic =>
          refine (Term.depth_of_read nesting).map fun term hterm => ?_
          simp only [Bound.toJson, depth_of_tag]
          omega

/-- An edge nests at most one deeper than it was allowed to, also a missing one. -/
theorem depth_of_edge_le {edge : Option Bound} {bound : Nat}
    (h : ∀ found ∈ edge, found.toJson.depth ≤ bound) : (Bound.edgeToJson edge).depth ≤ bound := by
  cases edge with
  | none => exact Nat.zero_le bound
  | some found => exact h found rfl

/-- An interval nests at most one deeper than it was allowed to when it was read. -/
theorem Interval.depth_of_read (nesting : Nat) :
    Yields (Interval.read nesting) fun interval => interval.toJson.depth ≤ nesting + 1 := by
  cases nesting with
  | zero => exact yields_record_none
  | succ nesting =>
      have hedge := yields_optional (Bound.depth_of_read nesting)
      have hinterval (first last : Option Bound)
          (hfirst : ∀ bound ∈ first, bound.toJson.depth ≤ nesting + 1)
          (hlast : ∀ bound ∈ last, bound.toJson.depth ≤ nesting + 1) :
          (Interval.mk first last).toJson.depth ≤ nesting + 1 + 1 := by
        have hfirst := depth_of_edge_le hfirst
        have hlast := depth_of_edge_le hlast
        simp only [Interval.toJson, depth, depthOfMembers]
        omega
      have hjoin (edge : Option (Option Bound))
          (h : ∀ found ∈ edge, ∀ bound ∈ found, bound.toJson.depth ≤ nesting + 1) :
          ∀ bound ∈ edge.join, bound.toJson.depth ≤ nesting + 1 := by
        cases edge with
        | none => simp
        | some found => exact h found rfl
      refine yields_record (fun state =>
        (∀ edge ∈ state.1, ∀ bound ∈ edge, bound.toJson.depth ≤ nesting + 1) ∧
          ∀ edge ∈ state.2, ∀ bound ∈ edge, bound.toJson.depth ≤ nesting + 1) ?_ ?_ ?_ ?_
      · rintro _ ⟨⟩
        simp
      · rintro _ ⟨⟩ key ⟨first, last⟩ ⟨hfirst, hlast⟩
        dsimp only
        split
        · exact (yields_once hedge _ _).bind fun read hread => yields_pure ⟨hread, hlast⟩
        · exact (yields_once hedge _ _).bind fun read hread => yields_pure ⟨hfirst, hread⟩
        · exact yields_unknown ⟨hfirst, hlast⟩
      · rintro _ ⟨⟩ ⟨first, last⟩ ⟨hfirst, hlast⟩
        exact yields_pure (hinterval _ _ (hjoin first hfirst) (hjoin last hlast))
      · rintro _ ⟨⟩
        refine (yields_item_at hedge 0 _).bind fun first hfirst => ?_
        refine (yields_item_at hedge 1 _).bind fun last hlast => ?_
        exact yields_pure (hinterval first last hfirst hlast)

/-- An item of an alternative nests at most one deeper than it was allowed to when it was read. -/
theorem RhsItem.depth_of_read (nesting : Nat) :
    Yields (RhsItem.read nesting) fun item => item.toJson.depth ≤ nesting + 1 := by
  cases nesting with
  | zero => exact yields_tagged (fun _ => yields_fail_pending _) (by simp)
  | succ nesting =>
      refine yields_tagged (fun _ => yields_fail_pending _) ?_
      rintro _ ⟨⟩ tag
      cases tag with
      | production =>
          refine (yields_true _).map fun value _ => ?_
          simp [RhsItem.toJson, depth_of_tag, Json.depth]
      | interval =>
          refine (Interval.depth_of_read nesting).map fun interval hinterval => ?_
          simp only [RhsItem.toJson, depth_of_tag]
          omega

/-- The tree of the alternatives of a production. -/
def alternativesToJson (alternatives : List (List RhsItem)) : List Json :=
  alternatives.map fun items => .array (items.map RhsItem.toJson)

/-- The alternatives of a production nest at most as deep as their list was allowed to. -/
theorem Production.depth_of_read_alternatives (nesting : Nat) :
    Yields (Production.readAlternatives nesting) fun alternatives =>
      depthOfItems (alternativesToJson alternatives) ≤ nesting := by
  cases nesting with
  | zero =>
      exact yields_list_none
  | succ nesting =>
      have hlist {item : Option (Reader RhsItem)} (hitems : Yields (Reader.list item) fun items =>
          (Json.array (items.map RhsItem.toJson)).depth ≤ nesting + 1) :
          Yields (Reader.list (some (Reader.list item))) fun alternatives =>
            depthOfItems (alternativesToJson alternatives) ≤ nesting + 1 := by
        refine (yields_list
          (P := fun items => (Json.array (items.map RhsItem.toJson)).depth ≤ nesting + 1) ?_).mono
            fun alternatives h => ?_
        · rintro _ ⟨⟩
          exact hitems
        · rw [Json.depth_of_items_le_iff]
          exact List.forall_mem_map.mpr h.2
      cases nesting with
      | zero =>
          exact hlist yields_list_none
      | succ nesting =>
          refine hlist ((yields_list (P := fun item => item.toJson.depth ≤ nesting + 1) ?_).mono
            fun items h => ?_)
          · rintro _ ⟨⟩
            exact RhsItem.depth_of_read nesting
          · rw [Json.depth, Nat.add_le_add_iff_right, Json.depth_of_items_le_iff]
            exact List.forall_mem_map.mpr h.2

/-- A production nests at most one deeper than it was allowed to when it was read. -/
theorem Production.depth_of_read (nesting : Nat) :
    Yields (Production.read nesting) fun production => production.toJson.depth ≤ nesting + 1 := by
  cases nesting with
  | zero => exact yields_record_none
  | succ nesting =>
      have hrhs := Production.depth_of_read_alternatives nesting
      have hterms := depth_of_read_terms nesting
      have hproduction (id : UInt32) (alternatives : List (List RhsItem)) (assertions : List Term)
          (halternatives : depthOfItems (alternativesToJson alternatives) ≤ nesting)
          (hassertions : depthOfItems (termsToJson assertions) ≤ nesting) :
          (Production.mk id alternatives assertions).toJson.depth ≤ nesting + 1 + 1 := by
        rw [alternativesToJson] at halternatives
        rw [terms_to_json_eq_map] at hassertions
        simp only [Production.toJson, depth, depthOfMembers]
        omega
      have hnoAlternatives : depthOfItems (alternativesToJson []) ≤ nesting := Nat.zero_le nesting
      have hnoAssertions : depthOfItems (termsToJson []) ≤ nesting := Nat.zero_le nesting
      refine yields_record (fun state =>
        (∀ alternatives ∈ state.2.1, depthOfItems (alternativesToJson alternatives) ≤ nesting) ∧
          ∀ assertions ∈ state.2.2, depthOfItems (termsToJson assertions) ≤ nesting) ?_ ?_ ?_ ?_
      · rintro _ ⟨⟩
        simp
      · rintro _ ⟨⟩ key ⟨id, alternatives, assertions⟩ ⟨halternatives, hassertions⟩
        dsimp only
        split
        · exact Yields.after fun read => yields_pure ⟨halternatives, hassertions⟩
        · exact (yields_once hrhs _ _).bind fun read hread => yields_pure ⟨hread, hassertions⟩
        · exact (yields_once hterms _ _).bind fun read hread => yields_pure ⟨halternatives, hread⟩
        · exact yields_unknown ⟨halternatives, hassertions⟩
      · rintro _ ⟨⟩ ⟨id, alternatives, assertions⟩ ⟨halternatives, hassertions⟩
        refine Yields.after fun found => yields_pure (hproduction found _ _ ?_ ?_)
        · exact holds_of_get halternatives hnoAlternatives
        · exact holds_of_get hassertions hnoAssertions
      · rintro _ ⟨⟩
        refine Yields.after fun id => ?_
        refine (yields_item_at_or hrhs hnoAlternatives 1).bind fun alternatives halternatives => ?_
        refine (yields_item_at_or hterms hnoAssertions 2).bind fun assertions hassertions => ?_
        exact yields_pure (hproduction id alternatives assertions halternatives hassertions)

/-- A grammar nests at most one deeper than it was allowed to when it was read. -/
theorem Grammar.depth_of_read (nesting : Nat) :
    Yields (Grammar.read nesting) fun grammar => grammar.toJson.depth ≤ nesting + 1 := by
  cases nesting with
  | zero => exact yields_record_none
  | succ nesting =>
      have hproductions : Yields (Grammar.readProductions nesting) fun productions =>
          (Grammar.mk productions).toJson.depth ≤ nesting + 1 + 1 := by
        cases nesting with
        | zero =>
            exact yields_list_none
        | succ nesting =>
            refine (yields_list (P := fun production => production.toJson.depth ≤ nesting + 1)
              ?_).mono fun productions h => ?_
            · rintro _ ⟨⟩
              exact Production.depth_of_read nesting
            · have hall : depthOfItems (productions.map Production.toJson) ≤ nesting + 1 :=
                Json.depth_of_items_le_iff.mpr (List.forall_mem_map.mpr h.2)
              simp only [Grammar.toJson, depth, depthOfMembers]
              omega
      refine yields_record (fun state => ∀ productions ∈ state,
        (Grammar.mk productions).toJson.depth ≤ nesting + 1 + 1) ?_ ?_ ?_ ?_
      · rintro _ ⟨⟩
        simp
      · rintro _ ⟨⟩ key state hstate
        dsimp only
        split
        · exact yields_once hproductions _ _
        · exact yields_unknown hstate
      · rintro _ ⟨⟩ state hstate
        exact (yields_required hstate _).bind fun productions h => yields_pure h
      · rintro _ ⟨⟩
        exact (yields_item_at hproductions 0 _).bind fun productions h => yields_pure h

/-- A whole text that is read is read by its reader. -/
theorem Json.Reader.Yields.run {α : Type} {reader : Reader α} {P : α → Prop} (h : Yields reader P)
    {source : String} {value : α} (hrun : reader.run source = .ok value) : P value := by
  simp only [Reader.run] at hrun
  split at hrun
  next found rest hread =>
    cases hrun
    refine (h.bind fun value hvalue => Yields.after fun next => ?_) hread
    split
    · exact yields_pure hvalue
    · exact yields_fail_next _
  next => cases hrun

/-- What has been read from a file nests at most one deeper than a file may. -/
theorem Grammar.depth_le_of_parse {source file : String} {grammar : Grammar}
    (h : Grammar.parse source file = .ok grammar) : grammar.toJson.depth ≤ nestingLimit + 1 := by
  unfold Grammar.parse Grammar.ofJson? at h
  split at h
  next found hrun =>
    cases h
    exact (Grammar.depth_of_read nestingLimit).run hrun
  next => cases h

/-- What is written for a grammar is read as the grammar if it nests no deeper than a file may, and is
refused for its nesting otherwise. -/
theorem Grammar.parse_json_text (grammar : Grammar) (file : String) :
    (grammar.toJson.depth ≤ nestingLimit → Grammar.parse grammar.jsonText file = .ok grammar) ∧
      (nestingLimit < grammar.toJson.depth → ∃ position, Grammar.parse grammar.jsonText file =
        .error (.malformed file grammar.jsonText ⟨.recursionLimit, position⟩)) := by
  have hsource : grammar.jsonText.toList = [] ++ grammar.toJson.pretty 0 ++ [] := by
    rw [Grammar.jsonText, Json.text, String.toList_ofList, List.nil_append, List.append_nil]
  obtain ⟨haccepts, hrefuses⟩ := run_decodes grammar.decodes hsource
    (spells_pretty 0 grammar.toJson) blank_nil blank_nil nestingLimit
  constructor
  · intro hfits
    rw [Grammar.parse, Grammar.ofJson?, haccepts hfits]
  · intro hdeep
    obtain ⟨position, hposition⟩ := hrefuses hdeep
    refine ⟨position, ?_⟩
    rw [Grammar.parse, Grammar.ofJson?, hposition]

/-! ## The deepest texts -/

/-- The grammar of one production that asserts a negation of a negation and so on, of a constant. -/
def negations (count : Nat) : Grammar where
  productions := [{ id := 0, assertions := [Nat.repeat Term.not count (.constant "x")] }]

/-- A text of `negations` in which the operands of the constant are left out. -/
def negationsText (count : Nat) : List Char :=
  '\x7b' :: (quote "productions".toList ++ ':' :: '[' ::
    '\x7b' :: (quote "id".toList ++ ':' :: '0' :: ',' :: (quote "assertions".toList ++ ':' :: '[' ::
      (Nat.repeat notText count (bareText "x") ++ [']', '\x7d', ']', '\x7d']))))

/-- Every negation adds its brackets to those of the constant. -/
theorem spells_repeat_not (count : Nat) :
    (Nat.repeat Term.not count (.constant "x")).layout.Spells (count + 2)
      (Nat.repeat notText count (bareText "x")) := by
  induction count with
  | zero => exact spells_bare "x"
  | succ count ih => exact spells_not ih

/-- The brackets of the grammar, of its productions, of the production and of its assertions are around
them. -/
theorem spells_negations (count : Nat) :
    (negations count).layout.Spells (count + 6) (negationsText count) := by
  -- The text is put together from the inside out.
  have hblank := blank_nil
  let assertion := Nat.repeat Term.not count (.constant "x")
  have hassertions : (Layout.array [assertion.layout]).Spells _ _ :=
    .array _ _ _ (.next true _ _ [] [] _ _ _ _ hblank hblank (spells_repeat_not count)
      (.close _ [] hblank))
  have hid : (Layout.leaf (.int 0)).Spells 0 ['0'] := by
    have hzero : (toString (0 : Int)).toList = ['0'] := by decide
    exact hzero ▸ .leaf _ _ (.int 0)
  have hproduction : (Production.layout { id := 0, assertions := [assertion] }).Spells _ _ :=
    .record _ [⟨"id", .leaf (.int 0), false⟩, ⟨"assertions", .array [assertion.layout], false⟩]
        [⟨"alternatives", .array [], true⟩] _ _ (.cons _ (.swap _ _ _)) (by simp) <|
      .field _ true _ _ [] [] [] [] _ _ _ _ hblank hblank hblank hblank hid <|
        .field _ false _ _ [] [] [] [] _ _ _ _ hblank hblank hblank hblank hassertions
          (.close _ _ [] hblank)
  have hgrammar : (negations count).layout.Spells _ _ :=
    .record _ _ [] _ _ (.refl _) (by simp) <|
      .field _ true _ _ [] [] [] [] _ _ _ _ hblank hblank hblank hblank
        (.array _ _ _ (.next true _ _ [] [] _ _ _ _ hblank hblank hproduction (.close _ [] hblank)))
        (.close _ _ [] hblank)
  obtain ⟨depth, text, hdepth, htext, hspells⟩ : ∃ depth text, depth = count + 6 ∧
      text = negationsText count ∧ (negations count).layout.Spells depth text := by
    refine ⟨_, _, ?_, ?_, hgrammar⟩
    · show max (max (max 0 (max (max (count + 2) 0 + 1) 0) + 1) 0 + 1) 0 + 1 = count + 6
      omega
    · simp [negationsText, separator]
  rwa [hdepth, htext] at hspells

/-- The text is read as long as there are at most 121 negations. -/
theorem parse_negations_text {count : Nat} (h : count ≤ 121) (file : String) :
    Grammar.parse (String.ofList (negationsText count)) file = .ok (negations count) := by
  have hsource : (String.ofList (negationsText count)).toList = [] ++ negationsText count ++ [] := by
    rw [String.toList_ofList, List.nil_append, List.append_nil]
  refine Grammar.parse_of_layout file hsource blank_nil blank_nil (spells_negations count) ?_
  unfold nestingLimit
  omega

/-- Every negation adds one to the depth of the constant. -/
theorem depth_of_repeat_not (count : Nat) :
    (Nat.repeat Term.not count (.constant "x")).toJson.depth = count + 3 := by
  induction count with
  | zero => rfl
  | succ count ih =>
      show (ofTag TermTag.not (Nat.repeat Term.not count (.constant "x")).toJson).depth = _
      rw [depth_of_tag, ih]

/-- The empty lists of operands are written, so that what is written nests one deeper. -/
theorem depth_of_negations (count : Nat) : (negations count).toJson.depth = count + 7 := by
  simp only [negations, Grammar.toJson, Production.toJson, List.map_cons, List.map_nil, depth,
    depthOfMembers, depthOfItems, depth_of_repeat_not]
  omega

/-! ## Reading again -/

/-- Reading back what has been read before. What a file was accepted for nests at most 128 deep when it is
written, because a writer writes the empty lists that the file may have left out. It is read back as the
same grammar exactly if it nests at most 127 deep; at 128 the report is that the limit of the nesting is
exceeded. -/
theorem rereads_iff_depth_le {source file : String} {grammar : Grammar}
    (h : Grammar.parse source file = .ok grammar) :
    grammar.toJson.depth ≤ 128 ∧
      (Grammar.parse grammar.jsonText file = .ok grammar ↔ grammar.toJson.depth ≤ 127) ∧
      (grammar.toJson.depth = 128 → ∃ position, Grammar.parse grammar.jsonText file =
        .error (.malformed file grammar.jsonText ⟨.recursionLimit, position⟩)) := by
  have hlimit : grammar.toJson.depth ≤ 128 := Grammar.depth_le_of_parse h
  obtain ⟨haccepts, hrefuses⟩ := grammar.parse_json_text file
  refine ⟨hlimit, ⟨fun hagain => ?_, haccepts⟩, fun hdeep => hrefuses (by rw [hdeep]; decide)⟩
  by_contra hdeep
  obtain ⟨position, hrefused⟩ := hrefuses (Nat.lt_of_not_le hdeep)
  rw [hrefused] at hagain
  cases hagain

/-- A text of 121 negations nests 127 deep and is read, but what is written for it nests 128 deep. -/
theorem negations_reread_refused :
    Grammar.parse (String.ofList (negationsText 121)) "grammar.json" = .ok (negations 121) ∧
      ∃ position, Grammar.parse (negations 121).jsonText "grammar.json" =
        .error (.malformed "grammar.json" (negations 121).jsonText ⟨.recursionLimit, position⟩) := by
  have hread := parse_negations_text (Nat.le_refl 121) "grammar.json"
  exact ⟨hread, (rereads_iff_depth_le hread).2.2 (depth_of_negations 121)⟩

/-- So not everything that is read can be read back. -/
theorem not_always_reread :
    ¬ ∀ (source file : String) (grammar : Grammar), Grammar.parse source file = .ok grammar →
      Grammar.parse grammar.jsonText file = .ok grammar := by
  intro hreread
  have hagain := hreread _ _ _ (parse_negations_text (Nat.le_refl 121) "grammar.json")
  obtain ⟨position, hrefused⟩ := ((negations 121).parse_json_text "grammar.json").2
    (by rw [depth_of_negations]; decide)
  rw [hrefused] at hagain
  cases hagain

end ByteGrammar
