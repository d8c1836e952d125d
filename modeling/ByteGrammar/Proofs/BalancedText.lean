import ByteGrammar.Proofs.DocumentStructure
import ByteGrammar.Proofs.GuardLines
import ByteGrammar.Proofs.NumeralText

/-!
# Balanced texts

The parentheses in the text of a term are balanced, and the text is on one line, unless a name in the term
has parentheses or line breaks of its own. So the parentheses around a guard belong to each other, which
`guard_parentheses_match` says: reading on from the opening one, the first parenthesis that closes more than
has been opened is the one that stands behind the guard.
-/

namespace ByteGrammar

/-- A text is plain when there are no parentheses and no line breaks in it. -/
def Plain (text : String) : Prop :=
  '(' ∉ text.toList ∧ ')' ∉ text.toList ∧ '\n' ∉ text.toList

instance : DecidablePred Plain :=
  fun text => inferInstanceAs
    (Decidable ('(' ∉ text.toList ∧ ')' ∉ text.toList ∧ '\n' ∉ text.toList))

/-- A text is balanced when no beginning of it closes more parentheses than it opens, and the whole closes
all of them. -/
structure Balanced (text : List Char) : Prop where
  covered : ∀ front, front <+: text → front.count ')' ≤ front.count '('
  closed : text.count ')' = text.count '('

namespace Balanced

/-- A text without parentheses is balanced. -/
theorem of_notMem {text : List Char} (hopen : '(' ∉ text) (hclose : ')' ∉ text) : Balanced text where
  covered front hfront := by
    rw [List.count_eq_zero_of_not_mem fun hmem => hclose (hfront.subset hmem)]
    exact Nat.zero_le _
  closed := by rw [List.count_eq_zero_of_not_mem hclose, List.count_eq_zero_of_not_mem hopen]

/-- A plain text is balanced. -/
theorem plain {text : String} (h : Plain text) : Balanced text.toList :=
  of_notMem h.1 h.2.1

/-- Nothing is balanced. -/
theorem nil : Balanced [] :=
  of_notMem List.not_mem_nil List.not_mem_nil

/-- Balanced texts one after the other are balanced. -/
theorem append {left right : List Char} (hleft : Balanced left) (hright : Balanced right) :
    Balanced (left ++ right) where
  covered front hfront := by
    rcases List.prefix_or_prefix_of_prefix hfront (List.prefix_append left right) with h | h
    · exact hleft.covered front h
    · obtain ⟨part, rfl⟩ := h
      have hpart := hright.covered part ((List.prefix_append_right_inj left).mp hfront)
      rw [List.count_append, List.count_append, hleft.closed]
      exact Nat.add_le_add_left hpart _
  closed := by rw [List.count_append, List.count_append, hleft.closed, hright.closed]

/-- A balanced text in parentheses is balanced. -/
theorem group {text : List Char} (h : Balanced text) : Balanced ('(' :: (text ++ [')'])) where
  covered front hfront := by
    rcases List.prefix_cons_iff.mp hfront with rfl | ⟨part, rfl, hpart⟩
    · exact Nat.le_refl _
    · rcases List.prefix_concat_iff.mp hpart with rfl | hpart
      · simp [h.closed]
      · have hcovered := h.covered part hpart
        rw [List.count_cons_of_ne (by decide), List.count_cons_self]
        omega
  closed := by simp [h.closed]

/-- Balanced texts that are joined are balanced. -/
theorem join {texts : List String} (h : ∀ text ∈ texts, Balanced text.toList) :
    Balanced (String.join texts).toList := by
  induction texts with
  | nil => exact nil
  | cons text texts ih =>
      rw [List.forall_mem_cons] at h
      rw [String.join_cons, String.toList_append]
      exact h.1.append (ih h.2)

/-- Balanced texts with a balanced separator between them are balanced. -/
theorem intercalate {separator : String} {texts : List String} (hseparator : Balanced separator.toList)
    (htexts : ∀ text ∈ texts, Balanced text.toList) :
    Balanced (separator.intercalate texts).toList := by
  cases texts with
  | nil => exact nil
  | cons text texts =>
      rw [List.forall_mem_cons] at htexts
      rw [intercalate_eq_append_join, String.toList_append]
      refine htexts.1.append (join (List.forall_mem_map.mpr fun next hnext => ?_))
      rw [String.toList_append]
      exact hseparator.append (htexts.2 next hnext)

/-- Operands that are balanced are so with a sign between them, in parentheses. -/
theorem infixed {sign : String} {operands : List String} (hsign : Balanced sign.toList)
    (h : ∀ operand ∈ operands, Balanced operand.toList) :
    Balanced (ByteGrammar.infixed sign operands).toList := by
  have hspace : Balanced [' '] := of_notMem (by simp) (by simp)
  have hbetween : Balanced (" " ++ sign ++ " ").toList := by
    simpa using hspace.append (hsign.append hspace)
  simpa [ByteGrammar.infixed] using (intercalate hbetween h).group

/-- A polynomial of balanced bytes is balanced. -/
theorem polynomial {bytes : List String} (h : ∀ byte ∈ bytes, Balanced byte.toList) :
    Balanced (ByteGrammar.polynomial bytes).toList := by
  have hweighted (bytes : List String) (h : ∀ byte ∈ bytes, Balanced byte.toList) :
      ∀ text ∈ weighted bytes, Balanced text.toList := by
    induction bytes with
    | nil => simp [weighted]
    | cons byte bytes ih =>
        rw [List.forall_mem_cons] at h
        refine List.forall_mem_cons.mpr ⟨?_, ih h.2⟩
        have hfactor : Balanced "256 * ".toList := plain (by decide)
        rw [String.toList_append]
        exact (join fun text htext => List.eq_of_mem_replicate htext ▸ hfactor).append h.1
  cases bytes with
  | nil => exact plain (by decide)
  | cons byte bytes => exact intercalate (plain (by decide)) (hweighted _ h)

/-- An integer has no parentheses. -/
theorem integer (value : Int) : Balanced (toString value).toList :=
  of_notMem (not_mem_integer (by decide) (by decide) value)
    (not_mem_integer (by decide) (by decide) value)

/-- A parameter has no parentheses, whatever it holds. -/
theorem param (param : Param) : Balanced param.render.toList := by
  cases param with
  | int value => exact integer value.toInt
  | _ => exact (plain (by decide) : Balanced "?".toList)

/-- A numeral has no parentheses. -/
theorem numeral (numeral : Numeral) : Balanced numeral.hex.toList := by
  have hdigits := upper_digits_subset_alphabet 16 numeral.bits.toNat
  have hplain {c : Char} (hc : c ∉ '0' :: 'x' :: hexAlphabet) : c ∉ numeral.hex.toList := by
    have hnot : c ∉ Text.upperDigits 16 numeral.bits.toNat := fun hmem =>
      hc (List.mem_cons_of_mem _ (List.mem_cons_of_mem _ (hdigits c hmem)))
    simp only [List.mem_cons, not_or] at hc
    simp [Numeral.hex, hc.1, hc.2.1, hnot]
  exact of_notMem (hplain (by decide)) (hplain (by decide))

end Balanced

/-! ## Texts of terms -/

/-- A term is neat when it mentions plain names only. -/
def Term.Neat (term : Term) : Prop :=
  ∀ name, term.Mentions name → Plain name

/-- A term is neat exactly when it avoids the parentheses and the line break. -/
theorem Term.neat_iff {term : Term} :
    term.Neat ↔ term.Avoids '(' ∧ term.Avoids ')' ∧ term.Avoids '\n' :=
  ⟨fun h => ⟨fun name hname => (h name hname).1, fun name hname => (h name hname).2.1,
    fun name hname => (h name hname).2.2⟩,
    fun h name hname => ⟨h.1 name hname, h.2.1 name hname, h.2.2 name hname⟩⟩

/-- A node is neat when its children are, with a plain name of an application. -/
theorem Term.neat_of_children {term : Term}
    (hname : ∀ name args params, term = .app name args params → Plain name)
    (hchildren : ∀ child ∈ term.children, child.Neat) : term.Neat := by
  have havoids {c : Char} (hc : ∀ name, Plain name → c ∉ name.toList) : term.Avoids c :=
    Term.avoids_of_children (fun name args params happ => hc name (hname name args params happ))
      fun child hchild name hmentions => hc name (hchildren child hchild name hmentions)
  exact Term.neat_iff.mpr
    ⟨havoids fun _ h => h.1, havoids fun _ h => h.2.1, havoids fun _ h => h.2.2⟩

/-- A constant with a plain name is neat. -/
theorem Term.neat_constant {name : String} (h : Plain name) : (Term.constant name).Neat :=
  Term.neat_iff.mpr ⟨avoids_constant h.1, avoids_constant h.2.1, avoids_constant h.2.2⟩

/-- The text of a neat term is balanced. -/
theorem Term.Neat.balanced {term : Term} {text : String} (h : term.Neat)
    (hrender : term.render = .ok text) : Balanced text.toList := by
  induction term using Term.induct_children generalizing text with
  | node term ih =>
      have hchild {child : Term} {text : String} (hmem : child ∈ term.children)
          (hrender : child.render = .ok text) : Balanced text.toList :=
        ih child hmem (fun name hname => h name (.inside term child name hmem hname)) hrender
      have hall {terms : List Term} {texts : List String} (hsub : ∀ t ∈ terms, t ∈ term.children)
          (hrender : renderAll terms = .ok texts) : ∀ text ∈ texts, Balanced text.toList := by
        intro text htext
        obtain ⟨child, hmem, hchildText⟩ := exists_of_mem_render_all hrender htext
        exact hchild (hsub child hmem) hchildText
      have hoperands {texts : List String} (params : List Param)
          (htexts : ∀ text ∈ texts, Balanced text.toList) :
          ∀ operand ∈ texts ++ params.map Param.render, Balanced operand.toList :=
        List.forall_mem_append.mpr ⟨htexts, List.forall_mem_map.mpr fun param _ => .param param⟩
      cases Term.written_of_render hrender with
      | num value => exact .numeral value
      | bool value => cases value <;> exact .plain (by decide)
      | arith op args texts hargs =>
          exact .infixed (by cases op <;> exact .plain (by decide)) (hall (fun _ => id) hargs)
      | logic op args texts hargs =>
          exact .infixed (by cases op <;> exact .plain (by decide)) (hall (fun _ => id) hargs)
      | cmp op lhs rhs left right hleft hright =>
          have hboth : ∀ operand ∈ [left, right], Balanced operand.toList := by
            simpa using And.intro (hchild (by simp [Term.children]) hleft)
              (hchild (by simp [Term.children]) hright)
          exact .infixed (by cases op <;> exact .plain (by decide)) hboth
      | naming lhs rhs => exact .nil
      | eq lhs rhs left right hleft hright | distinct lhs rhs left right hleft hright =>
          rw [String.toList_append, String.toList_append]
          exact ((hchild (by simp [Term.children]) hleft).append (.plain (by decide))).append
            (hchild (by simp [Term.children]) hright)
      | not arg inner harg =>
          have hsign : Balanced "!".toList := .plain (by decide)
          simpa using hsign.append (hchild (by simp [Term.children]) harg).group
      | neg arg inner harg =>
          have hsign : Balanced "-".toList := .plain (by decide)
          simpa using hsign.append (hchild (by simp [Term.children]) harg)
      | byte array value =>
          have hword : Balanced "Select ".toList := .plain (by decide)
          simpa using (hword.append (.integer value.toInt)).group
      | select array index inner hindex hinner =>
          have hword : Balanced "Select ".toList := .plain (by decide)
          simpa using (hword.append (hchild (by simp [Term.children]) hinner)).group
      | concat bytes texts htexts =>
          refine .polynomial (hall (fun byte hbyte => ?_) htexts)
          exact (List.dropWhile_sublist _).subset hbyte
      | extract args params texts _ hargs =>
          have hword : Balanced "Extract ".toList := .plain (by decide)
          have hlist := Balanced.intercalate (.plain (by decide : Plain " "))
            (hoperands params (hall (fun _ => id) hargs))
          simpa using (hword.append hlist).group
      | constant => exact .plain (h text (.here text [] []))
      | app name args params texts _ hargs =>
          obtain ⟨hopen, hclose, -⟩ := h name (.here name args params)
          have hlist := Balanced.intercalate (.plain (by decide : Plain ", "))
            (hoperands params (hall (fun _ => id) hargs))
          simpa using (Balanced.of_notMem hopen hclose).append hlist.group

/-! ## The parentheses of guards -/

/-- What a text has in front of the parenthesis that closes one more than `depth` open ones, and what it has
behind this parenthesis. -/
def insideOf : (depth : Nat) → List Char → Option (List Char × List Char)
  | _, [] => none
  | depth, c :: text =>
      if c = ')' ∧ depth = 0 then some ([], text)
      else
        let depth := if c = '(' then depth + 1 else if c = ')' then depth - 1 else depth
        (insideOf depth text).map fun (inside, rest) => (c :: inside, rest)

/-- A text that closes no more than the open parentheses and its own is inside of them as a whole. -/
theorem inside_of_append {depth : Nat} {text : List Char}
    (h : ∀ front, front <+: text → front.count ')' ≤ depth + front.count '(') (rest : List Char) :
    insideOf depth (text ++ rest) =
      (insideOf (depth + text.count '(' - text.count ')') rest).map
        fun (inside, behind) => (text ++ inside, behind) := by
  induction text generalizing depth with
  | nil => simp
  | cons c text ih =>
      -- The depth behind the first character covers the beginnings of what follows.
      let next := if c = '(' then depth + 1 else if c = ')' then depth - 1 else depth
      have hfirst := h [c] (List.prefix_append [c] text)
      have hcons (other : Char) (part : List Char) :
          (c :: part).count other = part.count other + if c = other then 1 else 0 := by
        simp [List.count_cons]
      have hnext : ∀ front, front <+: text → front.count ')' ≤ next + front.count '(' := by
        intro front hfront
        have hpart := h (c :: front) ((List.prefix_cons_inj c).mpr hfront)
        rw [hcons, hcons] at hpart hfirst
        simp only [next]
        grind
      have hdepth : next + text.count '(' - text.count ')' =
          depth + (c :: text).count '(' - (c :: text).count ')' := by
        rw [hcons, hcons]
        rw [hcons, hcons] at hfirst
        simp only [next]
        grind
      have hopen : ¬(c = ')' ∧ depth = 0) := by
        rintro ⟨rfl, rfl⟩
        simp at hfirst
      rw [List.cons_append, insideOf, if_neg hopen]
      simp only [ih hnext, ← hdepth, next, Option.map_map]
      rfl

/-- A balanced text is all that stands in front of the parenthesis behind it. -/
theorem Balanced.inside_of {text : List Char} (h : Balanced text) (rest : List Char) :
    insideOf 0 (text ++ ')' :: rest) = some (text, rest) := by
  have hcovered : ∀ front, front <+: text → front.count ')' ≤ 0 + front.count '(' := by
    simpa using h.covered
  rw [inside_of_append hcovered, h.closed]
  simp [insideOf]

/-- Projecting a neat term gives a neat one, when the variables have plain names. -/
theorem Production.LowersTo.neat_apply {naming : Naming} {production : Production} {start : IndexVars}
    {definition : Definition} {last : Scope} (h : production.LowersTo naming start definition last)
    (hstem : Plain start.stem) {term : Term} (hterm : term.Neat) : (last.table.apply term).Neat := by
  have htable {c : Char} (hc : c ∉ start.stem.toList) (hdigit : c.isDigit = false) :
      ∀ old new, last.table.get? old = some new → new.Avoids c := by
    intro old new hget
    obtain ⟨binding, hpair, rfl⟩ := h.mem_zip_of_get hget
    have hname : binding.name ∈ start.names production.symbolicBounds.length :=
      h.names ▸ List.mem_map_of_mem (List.of_mem_zip hpair).2
    obtain ⟨number, hnumber⟩ := IndexVars.exists_of_mem_names hname
    refine Term.avoids_constant ?_
    rw [hnumber, String.toList_append, List.mem_append]
    rintro (hmem | hmem)
    · exact hc hmem
    · simp [is_digit_of_mem_number hmem] at hdigit
  obtain ⟨hopen, hclose, hbreak⟩ := Term.neat_iff.mp hterm
  exact Term.neat_iff.mpr ⟨hopen.apply (htable hstem.1 (by decide)),
    hclose.apply (htable hstem.2.1 (by decide)), hbreak.apply (htable hstem.2.2 (by decide))⟩

/-- The conjuncts of neat terms are neat. -/
theorem neat_of_mem_conjuncts {terms : List Term} (h : ∀ term ∈ terms, term.Neat) :
    ∀ conjunct ∈ conjunctsAll terms, conjunct.Neat := by
  intro conjunct hconjunct
  rw [conjuncts_all_eq_flat_map] at hconjunct
  obtain ⟨term, hterm, hconjunct⟩ := List.mem_flatMap.mp hconjunct
  obtain ⟨hopen, hclose, hbreak⟩ := Term.neat_iff.mp (h term hterm)
  exact Term.neat_iff.mpr
    ⟨hopen.conjunct hconjunct, hclose.conjunct hconjunct, hbreak.conjunct hconjunct⟩

/-- The lines of a conjunct hold the text of its projection. -/
theorem Lowering.mem_guard_lines {production : UInt32} {table : Substitution} {conjunct : Term}
    {line : String} (h : line ∈ guardLines production table conjunct) :
    ∃ guard, (table.apply conjunct).render = .ok guard ∧ line = Definition.renderGuard guard := by
  rw [guardLines] at h
  rcases hrun : (guards production [conjunct]).run { table := table } with ⟨_ | guardTexts, last⟩
  · simp [hrun] at h
  · obtain ⟨-, texts, htexts, rfl⟩ := guards_ok hrun
    rw [hrun] at h
    obtain ⟨guard, hguard, rfl⟩ := List.mem_map.mp h
    obtain ⟨term, hterm, hrender⟩ := exists_of_mem_render_all htexts (List.mem_filter.mp hguard).1
    obtain ⟨other, hother, rfl⟩ := List.mem_map.mp hterm
    obtain rfl := List.mem_singleton.mp (List.mem_filter.mp hother).1
    exact ⟨guard, hrender, rfl⟩

/-- The parentheses around a guard enclose exactly this guard. A neat term is written on one line, with
balanced parentheses. So in the lines of a production that lowers, behind the opening parenthesis of a guard
whose projection is neat, the matching one is that which the line puts behind the guard, whatever follows;
and all projections are neat when the assertions are and the stem of the variables is plain. -/
theorem guard_parentheses_match :
    (∀ (term : Term) (text : String), term.Neat → term.render = .ok text →
      '\n' ∉ text.toList ∧ Balanced text.toList) ∧
      ∀ (naming : Naming) (production : Production) (scope last : Scope) (definition : Definition),
        (production.lower naming).run scope = (.ok definition, last) →
        let conjuncts := conjunctsAll production.assertions
        let lines := Lowering.guardLines production.id last.table
        definition.render =
            definition.heading ++ String.join (conjuncts.flatMap lines) ++ "\n\n" ∧
          (∀ conjunct ∈ conjuncts, (last.table.apply conjunct).Neat → ∀ line ∈ lines conjunct,
            ∃ guard, (last.table.apply conjunct).render = .ok guard ∧
              line = "\n    (" ++ guard ++ ") is true" ∧ '\n' ∉ guard.toList ∧
              ∀ rest, insideOf 0 (guard.toList ++ ')' :: rest) = some (guard.toList, rest)) ∧
          (Plain scope.vars.stem → (∀ assertion ∈ production.assertions, assertion.Neat) →
            ∀ conjunct ∈ conjuncts, (last.table.apply conjunct).Neat) := by
  have hline {term : Term} {text : String} (hterm : term.Neat) (htext : term.render = .ok text) :
      '\n' ∉ text.toList :=
    (Term.neat_iff.mp hterm).2.2.line_break_not_mem_render htext
  refine ⟨fun term text hterm htext => ⟨hline hterm htext, hterm.balanced htext⟩, ?_⟩
  intro naming production scope last definition hrun conjuncts lines
  have hlowers := Production.lowers_to_of_run hrun
  obtain ⟨texts, htexts, hguards⟩ := hlowers.guards
  have hlines : definition.guards.map Definition.renderGuard = conjuncts.flatMap lines := by
    rw [hguards]
    exact Lowering.map_render_guard_eq_flat_map htexts
  refine ⟨by rw [definition.render_eq_heading, hlines], ?_, ?_⟩
  · intro conjunct _ hneat line hmem
    obtain ⟨guard, hguard, rfl⟩ := Lowering.mem_guard_lines hmem
    exact ⟨guard, hguard, rfl, hline hneat hguard, (hneat.balanced hguard).inside_of⟩
  · intro hstem hassertions conjunct hconjunct
    exact hlowers.neat_apply hstem (neat_of_mem_conjuncts hassertions conjunct hconjunct)

/-- A rule with one bound, which its only assertion mentions inside of parentheses. -/
def nestedGuard : Production :=
  let size := Term.select (.constant "B") (.ofUnsigned 0)
  { id := 9
    alternatives := [[.interval ⟨some (.constant 0), some (.symbolic size)⟩]]
    assertions := [.not (.lt size (.extract [.constant "n"] [.int 7]))] }

/-- The definition of `nestedGuard`. -/
def nestedGuardDefinition : Definition where
  name := "L9"
  bindings := [⟨"ii1", "(Select 0)"⟩]
  alternatives := []
  guards := ["!((ii1 < (Extract n 7)))"]

/-- The guard of a rule ends where the fourth parenthesis is closed. -/
theorem guard_parentheses_match_nested :
    let last := ((nestedGuard.lower {}).run {}).2
    (nestedGuard.lower {}).run {} = (.ok nestedGuardDefinition, last) ∧
      Plain ({} : Scope).vars.stem ∧ (∀ assertion ∈ nestedGuard.assertions, assertion.Neat) ∧
      ∃ conjunct ∈ conjunctsAll nestedGuard.assertions, (last.table.apply conjunct).Neat ∧
        (last.table.apply conjunct).render = .ok "!((ii1 < (Extract n 7)))" ∧
        "\n    (!((ii1 < (Extract n 7)))) is true" ∈
          Lowering.guardLines nestedGuard.id last.table conjunct ∧
        Balanced "!((ii1 < (Extract n 7)))".toList ∧
        insideOf 0 "!((ii1 < (Extract n 7)))) is true".toList =
          some ("!((ii1 < (Extract n 7)))".toList, " is true".toList) := by
  intro last
  let conjunct := Term.not (.lt (.select (.constant "B") (.ofUnsigned 0))
    (.extract [.constant "n"] [.int 7]))
  have hrun : (nestedGuard.lower {}).run {} = (.ok nestedGuardDefinition, last) := by
    refine Prod.ext ?_ rfl
    decide +kernel
  have hneat : ∀ assertion ∈ nestedGuard.assertions, assertion.Neat := by
    have hbyte : (Term.ofUnsigned 0).Neat :=
      Term.neat_of_children (by simp [Term.ofUnsigned]) (by simp [Term.ofUnsigned, Term.children])
    have hbound : (Term.select (.constant "B") (.ofUnsigned 0)).Neat :=
      Term.neat_of_children (by simp)
        (by simp [Term.children, hbyte, Term.neat_constant (by decide : Plain "B")])
    have hpart : (Term.extract [.constant "n"] [.int 7]).Neat :=
      Term.neat_of_children (by simp) (by simp [Term.children, Term.neat_constant (by decide : Plain "n")])
    have hless : (Term.lt (.select (.constant "B") (.ofUnsigned 0))
        (.extract [.constant "n"] [.int 7])).Neat :=
      Term.neat_of_children (by simp [Term.lt]) (by simp [Term.lt, Term.children, hbound, hpart])
    refine List.forall_mem_singleton.mpr ?_
    exact Term.neat_of_children (by simp) (by simp [Term.children, hless])
  have hstem : Plain ({} : Scope).vars.stem := by decide +kernel
  obtain ⟨htext, hmatch⟩ := guard_parentheses_match
  obtain ⟨-, hlines, hprojected⟩ := hmatch {} nestedGuard {} last nestedGuardDefinition hrun
  have hmem : conjunct ∈ conjunctsAll nestedGuard.assertions := List.mem_singleton_self _
  have hneatConjunct := hprojected hstem hneat conjunct hmem
  have hline : "\n    (!((ii1 < (Extract n 7)))) is true" ∈
      Lowering.guardLines nestedGuard.id last.table conjunct := by decide +kernel
  have htextOf : (last.table.apply conjunct).render = .ok "!((ii1 < (Extract n 7)))" := by
    decide +kernel
  obtain ⟨guard, hguard, -, -, hinside⟩ := hlines conjunct hmem hneatConjunct _ hline
  obtain rfl := Except.ok.inj (htextOf.symm.trans hguard)
  exact ⟨hrun, hstem, hneat, conjunct, hmem, hneatConjunct, hguard, hline,
    (htext _ _ hneatConjunct hguard).2, hinside " is true".toList⟩

end ByteGrammar
