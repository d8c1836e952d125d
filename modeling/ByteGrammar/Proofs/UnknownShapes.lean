import ByteGrammar.Proofs.AlteredTexts
import ByteGrammar.Proofs.GrammarRoundTrip
import ByteGrammar.Proofs.ShapeLevels

/-!
# Unknown shapes

A text of a grammar with an unknown shape at one place is refused, however deep the place is and however the
other name or the other member is written. Up to the place the text is read as that of the grammar, so
`Checks` follows a reader on both texts: the one that it reads back and the one that it refuses.
-/

namespace ByteGrammar

namespace Json

namespace Reader

variable {α β τ : Type} {text middle rest : List Char} {fits : Prop} {value : α}

/-! ## Faults -/

/-- A fault of the first reader is one of the whole. -/
theorem Fails.bind {first : Reader α} {next : α → Reader β} (h : Fails first text) :
    Fails (first >>= next) text := by
  obtain ⟨failure, hfailure⟩ := h
  exact ⟨failure, bind_of_error hfailure⟩

/-- A fault of a reader whose value is changed at the end. -/
theorem Fails.map {reader : Reader α} (h : Fails reader text) (change : α → β) :
    Fails (change <$> reader) text := by
  rw [← bind_pure_comp]
  exact h.bind

/-- A fault behind a step that succeeds. -/
theorem fails_of_ok {first : Reader α} {next : α → Reader β} (hfirst : first text = .ok (value, middle))
    (hnext : Fails (next value) middle) : Fails (first >>= next) text := by
  rw [Fails, bind_of_ok hfirst]
  exact hnext

/-- A fault behind a value that is read, unless the value nests too deeply, which is a fault as well. -/
theorem Reads.fails {first : Reader α} {next : α → Reader β} (hfirst : Reads first text middle fits value)
    (hnext : Fails (next value) middle) : Fails (first >>= next) text := by
  by_cases hfits : fits
  · exact fails_of_ok (hfirst.accepts hfits) hnext
  · obtain ⟨remaining, hremaining⟩ := hfirst.refuses hfits
    exact Fails.bind ⟨_, hremaining⟩

/-- A fault inside of a bracket is one of the whole. -/
theorem Fails.leave {reader : Reader α} (h : Fails reader text) (close : List Char → List Char) :
    Fails (leave close reader) text := by
  obtain ⟨failure, hfailure⟩ := h
  rw [Fails, Reader.leave, hfailure]
  cases failure <;> exact ⟨_, rfl⟩

/-- A fault behind a bracket, which may be one too many itself. -/
theorem fails_enter {inside : Nat → Reader α} {nesting : Nat} (bracket : Char)
    (h : ∀ nesting, Fails (inside nesting) text) :
    Fails (enter (within inside nesting)) (bracket :: text) := by
  cases nesting with
  | zero => exact ⟨_, rfl⟩
  | succ nesting => exact fails_of_ok (advance_cons bracket text) (h nesting)

/-- A name that no variant has is refused. -/
theorem fails_tag [Tag τ] {key : List Char} {other : String} (hkey : Denotes key other.toList)
    (hother : other ∉ Tag.names τ) (rest : List Char) :
    Fails (tag : Reader τ) ('"' :: (key ++ '"' :: rest)) := by
  have hname : (Tag.ofName? other : Option τ) = none := by
    rw [Tag.ofName?, List.find?_eq_none]
    intro variant hvariant heq
    exact hother (List.mem_map.mpr ⟨variant, hvariant, eq_of_beq heq⟩)
  have hrest := string_rest_denotes hkey rest
  rw [String.ofList_toList] at hrest
  refine fails_of_ok (advance_cons _ _) (fails_of_ok hrest ?_)
  rw [hname]
  exact ⟨_, rfl⟩

/-! ## Members in front of others -/

/-- What a reader passes over belongs to the level. -/
theorem level_end_of_ok {reader : Reader α} (h : Follows reader) (hread : reader text = .ok (value, rest))
    (depth : Nat) : levelEnd .outside depth text = levelEnd .outside depth rest :=
  ((h depth _ text.length) ⟨rfl, Nat.le_refl _⟩ hread).level.symm

/-- A member ends at the comma behind it. -/
theorem level_end_member {member : List Char} (h : MemberText member) (more : List Char) :
    levelEnd .outside 0 (member ++ ',' :: more) = ',' :: more := by
  obtain ⟨gap, key, value, last, depth, hgap, hkey, hvalue, hlast⟩ := h
  cases hkey with
  | name name before behind hname hbefore hbehind =>
      have hends : Ends (last ++ ',' :: more) := hlast.ends more (by decide)
      have hblanks : Follows peekToken := fun depth tail bound =>
        ensures_peek_token.weaken (fun _ => id) fun _ _ => And.right
      rw [List.append_assoc, List.append_assoc,
        level_end_of_ok follows_skip_key (skip_key_append hgap hname hbefore), ← List.append_assoc,
        level_end_of_ok follows_skip_value (skip_value_append hvalue hbehind hends),
        level_end_of_ok hblanks (peek_token_append hlast (by decide) more)]
      simp [levelEnd]

end Reader

open Reader

variable {α β γ σ τ : Type}

/-- Readers of a tree of a kind that read its texts as a value and refuse its altered texts. -/
structure Checks (read : Nat → Reader α) (kind : Kind) (tree : Json) (value : α) : Prop where
  decodes : Decodes read tree value
  refuses : ∀ ⦃text changed blanks rest⦄ (nesting), Altered kind tree text changed → Blank blanks →
    Fails (read nesting) (blanks ++ changed ++ rest)

/-- Readers that agree for every number of brackets check the same texts. -/
theorem Checks.congr {read other : Nat → Reader α} {kind : Kind} {tree : Json} {value : α}
    (h : Checks read kind tree value) (heq : ∀ nesting, other nesting = read nesting) :
    Checks other kind tree value :=
  funext heq ▸ h

/-- The value that has been read may be changed at the end. -/
theorem Checks.map {read : Nat → Reader α} {kind : Kind} {tree : Json} {value : α}
    (h : Checks read kind tree value) (change : α → β) :
    Checks (fun nesting => change <$> read nesting) kind tree (change value) :=
  ⟨h.decodes.map change, fun _ _ _ _ nesting haltered hblanks =>
    (h.refuses nesting haltered hblanks).map change⟩

/-- A value without names of variants has no altered texts. -/
theorem checks_plain {read : Nat → Reader α} {tree : Json} {value : α} (h : Decodes read tree value) :
    Checks read .plain tree value := by
  refine ⟨h, fun text changed blanks rest nesting haltered _ => ?_⟩
  cases haltered <;> contradiction

/-- An operator is checked. -/
theorem checks_bare_tag [Tag τ] (variant : τ) :
    Checks bareTag (.operator (Tag.names τ)) (.ofName variant) variant := by
  refine ⟨decodes_bare_tag variant, fun text changed blanks rest nesting haltered hblanks => ?_⟩
  cases haltered with
  | operator _ _ key other hkey hother =>
      rw [List.append_assoc, List.cons_append, List.append_assoc, List.singleton_append]
      refine fails_of_ok (peek_token_append hblanks (by decide) _) ?_
      exact (fails_tag hkey hother rest).bind

/-! ## Arrays -/

/-- The items of an array are refused if one of them is. -/
theorem fails_items {item : Nat → Reader α} {part : Kind} {trees : List Json} {values : List α}
    (h : List.Forall₂ (Checks item part) trees values) {first : Bool} {text changed bound : List Char}
    (htext : AlteredItems first (trees.map fun _ => part) trees text changed)
    (hbound : trees.length ≤ bound.length) (rest : List Char) (nesting : Nat) :
    Fails (items (item nesting) bound first) (changed ++ rest) := by
  induction h generalizing first text changed bound with
  | nil => cases htext
  | cons hhead htail ih =>
      obtain ⟨c, bound, rfl⟩ := List.exists_cons_of_length_pos (Nat.zero_lt_of_lt hbound)
      cases htext with
      | here _ _ _ _ _ blanks gap _ altered more hblanks hgap haltered _ =>
          rw [List.append_assoc, items]
          refine fails_of_ok (has_item_next first hblanks hgap haltered.starts _) ?_
          exact (hhead.refuses nesting haltered blank_nil).bind
      | later _ _ _ _ _ blanks gap text _ more hblanks hgap htext haltered =>
          rw [List.append_assoc, items]
          refine fails_of_ok (has_item_next first hblanks hgap htext.starts _) ?_
          refine (hhead.decodes.reads htext (haltered.ends rest) nesting).fails ?_
          exact (ih haltered (Nat.le_of_succ_le_succ hbound)).bind

/-- A list of values is checked if each of them is. -/
theorem checks_list {item : Nat → Reader α} {part : Kind} {trees : List Json} {values : List α}
    (h : List.Forall₂ (Checks item part) trees values) :
    Checks (fun nesting => list (within item nesting)) (.list part) (.array trees) values := by
  refine ⟨decodes_list (h.imp fun _ _ => Checks.decodes),
    fun text changed blanks rest nesting haltered hblanks => ?_⟩
  cases haltered with
  | list _ _ body altered hbody =>
      rw [List.append_assoc]
      refine fails_of_ok (peek_token_append hblanks (by decide) _) ?_
      have hremaining : remaining ('[' :: (altered ++ rest)) = .ok ('[' :: (altered ++ rest), _) := rfl
      refine fails_of_ok hremaining ?_
      rw [map_within]
      refine fails_enter '[' fun nesting => Fails.leave ?_ closeArray
      have hbound : trees.length ≤ ('[' :: (altered ++ rest)).length := by
        have := hbody.length_lt
        rw [List.length_cons, List.length_append]
        omega
      exact (fails_items h hbody hbound rest nesting).bind

/-- A part of a tuple is refused, or the parts behind it are. -/
theorem fails_item_at {read : Nat → Reader α} {kind : Kind} {tree : Json} {value : α}
    (h : Checks read kind tree value) (index : Nat) (expected : String) {kinds : List Kind}
    {trees : List Json} {text changed rest : List Char} {nesting : Nat} {next : α → Reader β}
    (htext : AlteredItems (index == 0) (kind :: kinds) (tree :: trees) text changed)
    (hnext : ∀ text changed, AlteredItems false kinds trees text changed →
      Fails (next value) (changed ++ rest)) :
    Fails (itemAt index expected (read nesting) >>= next) (changed ++ rest) := by
  cases htext with
  | here _ _ _ _ _ blanks gap _ altered more hblanks hgap haltered _ =>
      rw [List.append_assoc]
      refine Fails.bind (fails_of_ok (has_item_next _ hblanks hgap haltered.starts _) ?_)
      exact h.refuses nesting haltered blank_nil
  | later _ _ _ _ _ blanks gap text more altered hblanks hgap htext haltered =>
      rw [List.append_assoc]
      have hitem : Reads (itemAt index expected (read nesting))
          (blanks ++ separator (index == 0) ++ gap ++ text ++ (altered ++ rest)) (altered ++ rest)
          (tree.depth ≤ nesting) value :=
        Reads.step (has_item_next _ hblanks hgap htext.starts _)
          (h.decodes.reads htext (haltered.ends rest) nesting)
      exact hitem.fails (hnext _ _ haltered)

/-- A pair is checked if its parts are. -/
theorem checks_pair {left : Nat → Reader α} {right : Nat → Reader β} {one two : Kind} {lhs rhs : Json}
    {first : α} {second : β} (expected : String) (hleft : Checks left one lhs first)
    (hright : Checks right two rhs second) :
    Checks (fun nesting => pair expected (within (fun nesting => (left nesting, right nesting)) nesting))
      (.tuple [one, two]) (.array [lhs, rhs]) (first, second) := by
  refine ⟨decodes_pair expected hleft.decodes hright.decodes,
    fun text changed blanks rest nesting haltered hblanks => ?_⟩
  cases haltered with
  | tuple _ _ body altered hbody =>
      rw [List.append_assoc]
      refine fails_of_ok (peek_token_append hblanks (by decide) _) ?_
      rw [map_within]
      refine fails_enter '[' fun nesting => Fails.leave ?_ closeArray
      refine fails_item_at hleft 0 _ hbody fun _ _ hbehind => ?_
      refine fails_item_at hright 1 _ hbehind fun _ _ hend => ?_
      cases hend

/-- A triple is checked if its parts are. -/
theorem checks_triple {left : Nat → Reader α} {middle : Nat → Reader β} {right : Nat → Reader γ}
    {one two three : Kind} {lhs mid rhs : Json} {first : α} {second : β} {third : γ} (expected : String)
    (hleft : Checks left one lhs first) (hmiddle : Checks middle two mid second)
    (hright : Checks right three rhs third) :
    Checks (fun nesting =>
        triple expected (within (fun nesting => (left nesting, middle nesting, right nesting)) nesting))
      (.tuple [one, two, three]) (.array [lhs, mid, rhs]) (first, second, third) := by
  refine ⟨decodes_triple expected hleft.decodes hmiddle.decodes hright.decodes,
    fun text changed blanks rest nesting haltered hblanks => ?_⟩
  cases haltered with
  | tuple _ _ body altered hbody =>
      rw [List.append_assoc]
      refine fails_of_ok (peek_token_append hblanks (by decide) _) ?_
      rw [map_within]
      refine fails_enter '[' fun nesting => Fails.leave ?_ closeArray
      refine fails_item_at hleft 0 _ hbody fun _ _ hbehind => ?_
      refine fails_item_at hmiddle 1 _ hbehind fun _ _ hmore => ?_
      refine fails_item_at hright 2 _ hmore fun _ _ hend => ?_
      cases hend

/-! ## Objects -/

/-- What follows the key of a member is refused if its value is altered. -/
def Catches (step : Nat → String → σ → Reader σ) (key : String) (kind : Kind) (tree : Json) (state : σ) :
    Prop :=
  ∀ ⦃text changed before behind rest : List Char⦄ (nesting : Nat), Altered kind tree text changed →
    Blank before → Blank behind →
    Fails (step nesting key state) (before ++ ':' :: (behind ++ changed ++ rest))

/-- The members of an object change a state one after the other, and each of them is refused if its value is
altered. -/
inductive Watches (step : Nat → String → σ → Reader σ) : List (String × Kind) → List (String × Json) → σ →
    σ → Prop where
  | nil (state) : Watches step [] [] state state
  | cons (key kind tree fields members state next last) : Takes step (key, tree) state next →
      Catches step key kind tree state → Watches step fields members next last →
      Watches step ((key, kind) :: fields) ((key, tree) :: members) state last

/-- The members that are watched are read back. -/
theorem Watches.folds {step : Nat → String → σ → Reader σ} {fields : List (String × Kind)}
    {members : List (String × Json)} {state last : σ} (h : Watches step fields members state last) :
    Folds step members state last := by
  induction h with
  | nil state => exact .nil state
  | cons key kind tree fields members state next last htakes _ _ ih =>
      exact .cons _ members state next last htakes ih

/-- A field that has not been read before, and the members behind it. -/
theorem Watches.field {step : Nat → String → σ → Reader σ} {key : String} {read : Nat → Reader α}
    {kind : Kind} {tree : Json} {value : α} {fields : List (String × Kind)}
    {members : List (String × Json)} {state last : σ} {put : Option α → σ}
    (hstep : ∀ nesting, step nesting key state =
      (do return put (← once key none (read nesting)) : Reader σ))
    (h : Checks read kind tree value) (hmembers : Watches step fields members (put (some value)) last) :
    Watches step ((key, kind) :: fields) ((key, tree) :: members) state last := by
  refine .cons _ _ _ _ _ _ _ _ (takes_field hstep h.decodes) ?_ hmembers
  intro text changed before behind rest nesting haltered hbefore hbehind
  rw [hstep]
  refine Fails.bind (fails_of_ok (colon_append hbefore _) ?_)
  exact (h.refuses nesting haltered hbehind).bind

/-- The members of an object are refused if one of them is. -/
theorem fails_members {step : Nat → String → σ → Reader σ} {fields : List (String × Kind)}
    {entries : List (String × Json)} {state last : σ} (h : Watches step fields entries state last)
    {first : Bool} {text changed bound : List Char}
    (htext : AlteredMembers first fields entries text changed) (hbound : entries.length ≤ bound.length)
    (rest : List Char) (nesting : Nat) :
    Fails (members (step nesting) bound first state) (changed ++ rest) := by
  induction h generalizing first text changed bound with
  | nil state => cases htext
  | cons key kind tree fields entries state next last htakes hcatches _ ih =>
      obtain ⟨c, bound, rfl⟩ := List.exists_cons_of_length_pos (Nat.zero_lt_of_lt hbound)
      cases htext with
      | here _ _ _ _ _ _ blanks gap before behind _ altered more hblanks hgap hbefore hbehind haltered _ =>
          rw [member_append, members]
          refine fails_of_ok (has_member_next first hblanks hgap _) ?_
          refine fails_of_ok (advance_cons _ _) (fails_of_ok (string_rest_quote key _) ?_)
          exact (hcatches nesting haltered hbefore hbehind).bind
      | later _ _ _ _ _ _ blanks gap before behind text _ more hblanks hgap hbefore hbehind htext
          haltered =>
          rw [member_append, members]
          refine fails_of_ok (has_member_next first hblanks hgap _) ?_
          refine fails_of_ok (advance_cons _ _) (fails_of_ok (string_rest_quote key _) ?_)
          refine (htakes nesting htext hbefore hbehind (haltered.ends rest)).fails ?_
          exact ih haltered (Nat.le_of_succ_le_succ hbound)

/-- A record is checked if its members are watched. -/
theorem checks_record {read : Nat → Reader α} {fields : Nat → Fields σ α} {kinds : List (String × Kind)}
    {entries : List (String × Json)} {start last : σ} {value : α} {expected : String}
    (hclosed : ∃ (ρ : Type), read 0 = record expected (none : Option (Fields ρ α)))
    (hopen : ∀ nesting, read (nesting + 1) = record expected (some (fields nesting)))
    (hstart : ∀ nesting, (fields nesting).start = start)
    (hwatch : Watches (fun nesting => (fields nesting).step) kinds entries start last)
    (hfinish : ∀ nesting, (fields nesting).finish last = pure value) :
    Checks read (.record kinds) (.object entries) value := by
  refine ⟨decodes_record hclosed hopen hstart hwatch.folds hfinish,
    fun text changed blanks rest nesting haltered hblanks => ?_⟩
  cases haltered with
  | record _ _ body altered hbody =>
      rw [List.append_assoc, read_eq_record hclosed hopen]
      refine fails_of_ok (peek_token_append hblanks (by decide) _) ?_
      have hremaining : remaining ('\x7b' :: (altered ++ rest)) =
          .ok ('\x7b' :: (altered ++ rest), _) := rfl
      refine fails_of_ok hremaining ?_
      rw [map_within]
      refine fails_enter '\x7b' fun nesting => Fails.leave ?_ closeObject
      have hbound : entries.length ≤ ('\x7b' :: (altered ++ rest)).length := by
        have := hbody.length_lt
        rw [List.length_cons, List.length_append]
        omega
      rw [hstart]
      exact (fails_members hwatch hbody hbound rest nesting).bind
  | tag | front | back | inside => contradiction

/-! ## Tagged values -/

/-- A tagged value is refused if what stands from its tag on is. -/
theorem fails_tagged [Tag τ] {bare : τ → Reader α} {payload : Nat → τ → Reader α} {nesting : Nat}
    {blanks gap text : List Char} (hblanks : Blank blanks) (hgap : Blank gap)
    (h : ∀ nesting, Fails (tagAndValue (payload nesting)) ('"' :: text)) :
    Fails (tagged bare (within payload nesting)) (blanks ++ '\x7b' :: (gap ++ '"' :: text)) := by
  refine fails_of_ok (peek_token_append hblanks (by decide) _) ?_
  rw [map_within]
  refine fails_enter '\x7b' fun nesting => ?_
  exact fails_of_ok (peek_token_append hgap (by decide) _) (h nesting)

/-- A tag and its value, with what is around them. -/
theorem object_text_append (blanks gap : List Char) (tag : String)
    (before behind text last rest : List Char) :
    blanks ++ objectText gap (quote tag.toList) before behind text last ++ rest =
      blanks ++ '\x7b' :: (gap ++ '"' :: (tag.toList.flatMap escapeChar ++ '"' ::
        (before ++ ':' :: (behind ++ text ++ (last ++ '\x7d' :: rest))))) := by
  simp [objectText, quote]

/-- A tagged value is checked if what its tag carries is. -/
theorem checks_tagged [Tag τ] {read reader : Nat → Reader α} {kind : Kind} {kindOf : τ → Kind}
    {variant : τ} {tree : Json} {value : α} (hkind : kind.variants = Kind.variantsOf kindOf)
    (hclosed : ∃ bare : τ → Reader α, read 0 = tagged bare none)
    (hopen : ∀ nesting, ∃ (bare payload : τ → Reader α),
      read (nesting + 1) = tagged bare (some payload) ∧ payload variant = reader nesting)
    (hsingle : ∀ nesting, Single (read nesting)) (h : Checks reader (kindOf variant) tree value) :
    Checks read kind (.ofTag variant tree) value := by
  refine ⟨decodes_tagged hclosed hopen h.decodes,
    fun text changed blanks rest nesting haltered hblanks => ?_⟩
  obtain ⟨payload, hvariant, hread⟩ := read_eq_tagged hclosed hopen
  obtain ⟨bare, hbare⟩ := hread nesting
  cases haltered with
  | tag _ _ _ _ gap key other before behind text last _ hgaps _ hkey hother =>
      rw [hkind, Kind.names_of_variants] at hother
      have htext : blanks ++ objectText gap ('"' :: (key ++ ['"'])) before behind text last ++ rest =
          blanks ++ '\x7b' :: (gap ++ '"' :: (key ++ '"' ::
            (before ++ ':' :: (behind ++ text ++ (last ++ '\x7d' :: rest))))) := by
        simp [objectText]
      rw [htext, hbare]
      exact fails_tagged hblanks hgaps.gap fun nesting => (fails_tag hkey hother _).bind
  | front _ _ _ _ gap before behind text last member _ hgaps _ hmember =>
      have htext : blanks ++ objectText (member ++ ',' :: gap) (quote (Tag.name variant).toList) before
          behind text last ++ rest = blanks ++ '\x7b' :: (member ++ ',' ::
            (gap ++ quote (Tag.name variant).toList ++ before ++ ':' ::
              (behind ++ text ++ last ++ '\x7d' :: rest))) := by
        simp [objectText]
      rw [htext]
      exact (hsingle nesting).fails_of_comma hblanks (level_end_member hmember _)
  | back _ _ _ _ gap before behind text last member _ hgaps htext _ =>
      have hends : Ends (last ++ ',' :: (member ++ '\x7d' :: rest)) := hgaps.last.ends _ (by decide)
      rw [object_text_append, List.append_assoc last, List.cons_append, hbare]
      refine fails_tagged hblanks hgaps.gap fun nesting => ?_
      refine fails_of_ok (tag_name variant _) (fails_of_ok (colon_append hgaps.before _) ?_)
      rw [hvariant]
      refine (h.decodes nesting htext hgaps.behind hends).fails ?_
      exact fails_of_ok (peek_token_append hgaps.last (by decide) _) ⟨_, rfl⟩
  | inside _ _ inner _ gap before behind text altered last hinner hgaps haltered =>
      obtain rfl := Kind.mem_variants_of_iff.mp (hkind ▸ hinner)
      rw [object_text_append, hbare]
      refine fails_tagged hblanks hgaps.gap fun nesting => ?_
      refine fails_of_ok (tag_name variant _) (fails_of_ok (colon_append hgaps.before _) ?_)
      rw [hvariant]
      exact (h.refuses nesting haltered hgaps.behind).bind
  | record =>
      -- A record has no tags, so it is of another kind.
      have hmem : (Tag.name variant, kindOf variant) ∈ Kind.variantsOf kindOf :=
        Kind.mem_variants_of_iff.mpr rfl
      rw [← hkind] at hmem
      contradiction

/-- A value that may be missing and is, has no altered texts. -/
theorem checks_optional_none (read : Nat → Reader α) (kind : Kind) :
    Checks (fun nesting => Reader.optional (read nesting)) kind .null none := by
  refine ⟨decodes_optional_none read, fun text changed blanks rest nesting haltered _ => ?_⟩
  cases haltered

/-- A value that may be missing and is there is checked. -/
theorem checks_optional_some {read : Nat → Reader α} {kind : Kind} {entries : List (String × Json)}
    {value : α} (h : Checks read kind (.object entries) value) :
    Checks (fun nesting => Reader.optional (read nesting)) kind (.object entries) (some value) := by
  refine ⟨decodes_optional_some h.decodes, fun text changed blanks rest nesting haltered hblanks => ?_⟩
  have hfails : Fails (read nesting) ([] ++ changed ++ rest) := h.refuses nesting haltered blank_nil
  obtain ⟨more, rfl⟩ : ∃ more, changed = '\x7b' :: more := by
    cases haltered <;> exact ⟨_, rfl⟩
  rw [List.append_assoc]
  exact fails_of_ok (peek_token_append hblanks (by decide) _) hfails.bind

end Json

open Json

/-! ## Grammars -/

/-- A literal is checked. -/
theorem Numeral.checks (value : Numeral) : Checks Numeral.read .numeral value.toJson value := by
  cases value with
  | unsigned value =>
      exact checks_tagged rfl ⟨_, rfl⟩ (fun _ => ⟨_, _, rfl, rfl⟩) Numeral.single_read
        (checks_plain ((decodes_unsigned64 value).map Numeral.unsigned))
  | signed value =>
      exact checks_tagged rfl ⟨_, rfl⟩ (fun _ => ⟨_, _, rfl, rfl⟩) Numeral.single_read
        (checks_plain ((decodes_signed64 value).map Numeral.signed))

/-- A list of values is checked if each of them is. -/
theorem checks_map {α : Type} {item : Nat → Reader α} {part : Kind} {toJson : α → Json} {values : List α}
    (h : ∀ value ∈ values, Checks item part (toJson value) value) :
    Checks (fun nesting => Reader.list (Reader.within item nesting)) (.list part)
      (.array (values.map toJson)) values :=
  checks_list (List.forall₂_map_left_iff.mpr (List.forall₂_same.mpr h))

section Parts

/-! What stands behind the tag of a term is checked if the terms and parameters in it are. -/

variable {lhs rhs : Term} {args : List Term} {params : List Param}

/-- A list of terms is checked. -/
theorem checks_terms (hargs : ∀ arg ∈ args, Checks Term.read .term arg.toJson arg) :
    Checks readTerms (.list .term) (.array (termsToJson args)) args := by
  rw [terms_to_json_eq_map]
  exact (checks_map hargs).congr fun nesting => by cases nesting <;> rfl

/-- A list of parameters is checked. -/
theorem checks_params (hparams : ∀ param ∈ params, Checks Param.read .param param.toJson param) :
    Checks readParams (.list .param) (.array (paramsToJson params)) params := by
  rw [params_to_json_eq_map]
  exact (checks_map hparams).congr fun nesting => by cases nesting <;> rfl

/-- An arithmetic operator with its operands is checked. -/
theorem checks_arith (op : ArithOp) (hargs : ∀ arg ∈ args, Checks Term.read .term arg.toJson arg) :
    Checks readArith (.tuple [.operator (Tag.names ArithOp), .list .term])
      (.array [.ofName op, .array (termsToJson args)]) (op, args) :=
  (checks_pair "tuple variant Term::Arith" (checks_bare_tag op) (checks_terms hargs)).congr
    fun nesting => by cases nesting <;> rfl

/-- A connective with its operands is checked. -/
theorem checks_logic (op : LogicOp) (hargs : ∀ arg ∈ args, Checks Term.read .term arg.toJson arg) :
    Checks readLogic (.tuple [.operator (Tag.names LogicOp), .list .term])
      (.array [.ofName op, .array (termsToJson args)]) (op, args) :=
  (checks_pair "tuple variant Term::Logic" (checks_bare_tag op) (checks_terms hargs)).congr
    fun nesting => by cases nesting <;> rfl

/-- A comparison with its two sides is checked. -/
theorem checks_cmp (op : CmpOp) (hlhs : Checks Term.read .term lhs.toJson lhs)
    (hrhs : Checks Term.read .term rhs.toJson rhs) :
    Checks readCmp (.tuple [.operator (Tag.names CmpOp), .term, .term])
      (.array [.ofName op, lhs.toJson, rhs.toJson]) (op, lhs, rhs) :=
  (checks_triple "tuple variant Term::Cmp" (checks_bare_tag op) hlhs hrhs).congr
    fun nesting => by cases nesting <;> rfl

/-- The two sides of an inequality are checked. -/
theorem checks_distinct (hlhs : Checks Term.read .term lhs.toJson lhs)
    (hrhs : Checks Term.read .term rhs.toJson rhs) :
    Checks readDistinct (.tuple [.term, .term]) (.array [lhs.toJson, rhs.toJson]) (lhs, rhs) :=
  (checks_pair "tuple variant Term::Distinct" hlhs hrhs).congr fun nesting => by cases nesting <;> rfl

/-- The fields of an equality are checked. -/
theorem checks_eq (naming : Bool) (hlhs : Checks Term.read .term lhs.toJson lhs)
    (hrhs : Checks Term.read .term rhs.toJson rhs) :
    Checks readEq (TermTag.kind .eq)
      (.object [("lhs", lhs.toJson), ("rhs", rhs.toJson), ("naming", .bool naming)])
      (.eq lhs rhs naming) :=
  checks_record ⟨_, rfl⟩ (fun _ => rfl) (fun _ => rfl)
    (.field (fun _ => rfl) hlhs <| .field (fun _ => rfl) hrhs <|
      .field (fun _ => rfl) (checks_plain (decodes_boolean naming)) (.nil _))
    (fun _ => rfl)

/-- The fields of a byte read are checked. -/
theorem checks_select (hlhs : Checks Term.read .term lhs.toJson lhs)
    (hrhs : Checks Term.read .term rhs.toJson rhs) :
    Checks readSelect (TermTag.kind .select) (.object [("array", lhs.toJson), ("index", rhs.toJson)])
      (.select lhs rhs) :=
  checks_record ⟨_, rfl⟩ (fun _ => rfl) (fun _ => rfl)
    (.field (fun _ => rfl) hlhs <| .field (fun _ => rfl) hrhs (.nil _)) (fun _ => rfl)

/-- The fields of a bit range are checked. -/
theorem checks_extract (hargs : ∀ arg ∈ args, Checks Term.read .term arg.toJson arg)
    (hparams : ∀ param ∈ params, Checks Param.read .param param.toJson param) :
    Checks readExtract (TermTag.kind .extract)
      (.object [("args", .array (termsToJson args)), ("params", .array (paramsToJson params))])
      (.extract args params) :=
  checks_record ⟨_, rfl⟩ (fun _ => rfl) (fun _ => rfl)
    (.field (fun _ => rfl) (checks_terms hargs) <|
      .field (fun _ => rfl) (checks_params hparams) (.nil _))
    (fun _ => rfl)

/-- The fields of any other operator are checked. -/
theorem checks_app (name : String) (hargs : ∀ arg ∈ args, Checks Term.read .term arg.toJson arg)
    (hparams : ∀ param ∈ params, Checks Param.read .param param.toJson param) :
    Checks readApp (TermTag.kind .app)
      (.object [("name", .string name), ("args", .array (termsToJson args)),
        ("params", .array (paramsToJson params))])
      (.app name args params) :=
  checks_record ⟨_, rfl⟩ (fun _ => rfl) (fun _ => rfl)
    (.field (fun _ => rfl) (checks_plain (decodes_string name)) <|
      .field (fun _ => rfl) (checks_terms hargs) <|
        .field (fun _ => rfl) (checks_params hparams) (.nil _))
    (fun _ => rfl)

/-- What the tag of a parameter carries is checked. -/
theorem Param.checks_of_tag {tag : ParamTag} {reader : Nat → Reader Param} {tree : Json} {param : Param}
    (hopen : ∀ nesting, ∃ (bare payload : ParamTag → Reader Param),
      Param.read (nesting + 1) = Reader.tagged bare (some payload) ∧ payload tag = reader nesting)
    (h : Checks reader tag.kind tree param) : Checks Param.read .param (.ofTag tag tree) param :=
  checks_tagged rfl ⟨_, rfl⟩ hopen Param.single_read h

/-- What the tag of a term carries is checked. -/
theorem Term.checks_of_tag {tag : TermTag} {reader : Nat → Reader Term} {tree : Json} {term : Term}
    (hopen : ∀ nesting, ∃ (bare payload : TermTag → Reader Term),
      Term.read (nesting + 1) = Reader.tagged bare (some payload) ∧ payload tag = reader nesting)
    (h : Checks reader tag.kind tree term) : Checks Term.read .term (.ofTag tag tree) term :=
  checks_tagged rfl ⟨_, rfl⟩ hopen Term.single_read h

end Parts

mutual
/-- A parameter is checked. -/
theorem Param.checks : (param : Param) → Checks Param.read .param param.toJson param
  | .int value =>
      Param.checks_of_tag (fun _ => ⟨_, _, rfl, rfl⟩) (checks_plain ((decodes_signed64 value).map Param.int))
  | .double pattern =>
      Param.checks_of_tag (fun _ => ⟨_, _, rfl, rfl⟩)
        (checks_plain ((decodes_unsigned64 pattern).map Param.double))
  | .rational num den =>
      Param.checks_of_tag (fun _ => ⟨_, _, rfl, rfl⟩)
        (checks_record ⟨_, rfl⟩ (fun _ => rfl) (fun _ => rfl)
          (.field (fun _ => rfl) (checks_plain (decodes_signed64 num)) <|
            .field (fun _ => rfl) (checks_plain (decodes_signed64 den)) (.nil _))
          (fun _ => rfl))
  | .symbol name =>
      Param.checks_of_tag (fun _ => ⟨_, _, rfl, rfl⟩)
        (checks_plain ((decodes_string name).map Param.symbol))
  | .sort name =>
      Param.checks_of_tag (fun _ => ⟨_, _, rfl, rfl⟩) (checks_plain ((decodes_string name).map Param.sort))
  | .term value => Param.checks_of_tag (fun _ => ⟨_, _, rfl, rfl⟩) (value.checks.map Param.term)
  | .funcDecl name =>
      Param.checks_of_tag (fun _ => ⟨_, _, rfl, rfl⟩)
        (checks_plain ((decodes_string name).map Param.funcDecl))

/-- The parameters of a list are checked. -/
theorem checks_of_mem_params : (params : List Param) →
    ∀ param ∈ params, Checks Param.read .param param.toJson param
  | [] => List.forall_mem_nil _
  | first :: params => List.forall_mem_cons.mpr ⟨first.checks, checks_of_mem_params params⟩

/-- A term is checked. -/
theorem Term.checks : (term : Term) → Checks Term.read .term term.toJson term
  | .num value => Term.checks_of_tag (fun _ => ⟨_, _, rfl, rfl⟩) (value.checks.map Term.num)
  | .bool value =>
      Term.checks_of_tag (fun _ => ⟨_, _, rfl, rfl⟩) (checks_plain ((decodes_boolean value).map Term.bool))
  | .arith op args =>
      Term.checks_of_tag (fun _ => ⟨_, _, rfl, rfl⟩)
        ((checks_arith op (checks_of_mem_terms args)).map fun (op, args) => Term.arith op args)
  | .logic op args =>
      Term.checks_of_tag (fun _ => ⟨_, _, rfl, rfl⟩)
        ((checks_logic op (checks_of_mem_terms args)).map fun (op, args) => Term.logic op args)
  | .cmp op lhs rhs =>
      Term.checks_of_tag (fun _ => ⟨_, _, rfl, rfl⟩)
        ((checks_cmp op lhs.checks rhs.checks).map fun (op, lhs, rhs) => Term.cmp op lhs rhs)
  | .eq lhs rhs naming =>
      Term.checks_of_tag (fun _ => ⟨_, _, rfl, rfl⟩) (checks_eq naming lhs.checks rhs.checks)
  | .distinct lhs rhs =>
      Term.checks_of_tag (fun _ => ⟨_, _, rfl, rfl⟩)
        ((checks_distinct lhs.checks rhs.checks).map fun (lhs, rhs) => Term.distinct lhs rhs)
  | .not arg => Term.checks_of_tag (fun _ => ⟨_, _, rfl, rfl⟩) (arg.checks.map Term.not)
  | .neg arg => Term.checks_of_tag (fun _ => ⟨_, _, rfl, rfl⟩) (arg.checks.map Term.neg)
  | .select source index =>
      Term.checks_of_tag (fun _ => ⟨_, _, rfl, rfl⟩) (checks_select source.checks index.checks)
  | .concat bytes =>
      Term.checks_of_tag (fun _ => ⟨_, _, rfl, rfl⟩)
        ((checks_terms (checks_of_mem_terms bytes)).map Term.concat)
  | .extract args params =>
      Term.checks_of_tag (fun _ => ⟨_, _, rfl, rfl⟩)
        (checks_extract (checks_of_mem_terms args) (checks_of_mem_params params))
  | .app name args params =>
      Term.checks_of_tag (fun _ => ⟨_, _, rfl, rfl⟩)
        (checks_app name (checks_of_mem_terms args) (checks_of_mem_params params))

/-- The terms of a list are checked. -/
theorem checks_of_mem_terms : (terms : List Term) →
    ∀ term ∈ terms, Checks Term.read .term term.toJson term
  | [] => List.forall_mem_nil _
  | first :: terms => List.forall_mem_cons.mpr ⟨first.checks, checks_of_mem_terms terms⟩
end

/-- A bound is checked. -/
theorem Bound.checks (bound : Bound) : Checks Bound.read .bound bound.toJson bound := by
  cases bound with
  | constant value =>
      exact checks_tagged rfl ⟨_, rfl⟩ (fun _ => ⟨_, _, rfl, rfl⟩) Bound.single_read
        (checks_plain ((decodes_signed64 value).map Bound.constant))
  | symbolic term =>
      exact checks_tagged rfl ⟨_, rfl⟩ (fun _ => ⟨_, _, rfl, rfl⟩) Bound.single_read
        (term.checks.map Bound.symbolic)

/-- An edge is checked, also a missing one. -/
theorem Bound.checks_edge (edge : Option Bound) :
    Checks (fun nesting => Reader.optional (Bound.read nesting)) .bound (Bound.edgeToJson edge) edge := by
  cases edge with
  | none => exact checks_optional_none Bound.read .bound
  | some bound =>
      have h := bound.checks
      cases bound with
      | constant value => exact checks_optional_some h
      | symbolic term => exact checks_optional_some h

/-- An interval is checked. -/
theorem Interval.checks (interval : Interval) :
    Checks Interval.read (ItemTag.kind .interval) interval.toJson interval :=
  checks_record ⟨_, rfl⟩ (fun _ => rfl) (fun _ => rfl)
    (.field (fun _ => rfl) (Bound.checks_edge interval.first)
      (.field (fun _ => rfl) (Bound.checks_edge interval.last) (.nil _)))
    (fun _ => rfl)

/-- An item is checked. -/
theorem RhsItem.checks (item : RhsItem) : Checks RhsItem.read .item item.toJson item := by
  cases item with
  | production id =>
      exact checks_tagged rfl ⟨_, rfl⟩ (fun _ => ⟨_, _, rfl, rfl⟩) RhsItem.single_read
        (checks_plain ((decodes_unsigned32 id).map RhsItem.production))
  | interval range =>
      exact checks_tagged rfl ⟨_, rfl⟩ (fun _ => ⟨_, _, rfl, rfl⟩) RhsItem.single_read
        (range.checks.map RhsItem.interval)

/-- The alternatives of a production are checked. -/
theorem Production.checks_alternatives (alternatives : List (List RhsItem)) :
    Checks Production.readAlternatives (.list (.list .item))
      (.array (alternatives.map fun rhs => .array (rhs.map RhsItem.toJson))) alternatives := by
  have hitems (rhs : List RhsItem) := checks_map fun item (_ : item ∈ rhs) => item.checks
  exact (checks_map fun rhs _ => hitems rhs).congr fun nesting => by
    rcases nesting with _ | _ | nesting <;> rfl

/-- A production is checked. -/
theorem Production.checks (production : Production) :
    Checks Production.read .production production.toJson production :=
  checks_record ⟨_, rfl⟩ (fun _ => rfl) (fun _ => rfl)
    (.field (fun _ => rfl) (checks_plain (decodes_unsigned32 production.id))
      (.field (fun _ => rfl) (Production.checks_alternatives production.alternatives)
        (.field (fun _ => rfl)
          (by
            have h := checks_terms fun term (_ : term ∈ production.assertions) => term.checks
            rwa [terms_to_json_eq_map] at h) (.nil _))))
    (fun _ => rfl)

/-- A grammar is checked. -/
theorem Grammar.checks (grammar : Grammar) : Checks Grammar.read .grammar grammar.toJson grammar := by
  have hproductions := checks_map fun production (_ : production ∈ grammar.productions) =>
    production.checks
  have hread : Checks Grammar.readProductions (.list .production) _ grammar.productions :=
    hproductions.congr fun nesting => by cases nesting <;> rfl
  exact checks_record ⟨_, rfl⟩ (fun _ => rfl) (fun _ => rfl)
    (.field (fun _ => (bind_pure _).symm) hread (.nil _)) (fun _ => rfl)

/-! ## Whole texts -/

/-- A fault in a value is one of the whole text. -/
theorem Json.Reader.Fails.run {α : Type} {reader : Reader α} {source : String}
    (h : Fails reader source.toList) : ∃ error, reader.run source = .error error := by
  obtain ⟨failure, hfailure⟩ := h
  simp only [Reader.run]
  rw [Reader.bind_of_error hfailure]
  exact ⟨_, rfl⟩

/-- Unknown shapes are not read. All names of variants in the tree of a grammar stand where its kind says,
and a text of the tree in which one of them is no name of its type, or in which the object around a tag has
a second member, is reported as malformed. -/
theorem unknown_shapes_refused {grammar : Grammar} {original source : String}
    (h : Altered .grammar grammar.toJson original.toList source.toList) (file : String) :
    Kind.Fits .grammar grammar.toJson ∧ grammar.toJson.Spells original.toList ∧
      ∃ error, Grammar.parse source file = .error (.malformed file source error) := by
  refine ⟨grammar.fits, spells_of_altered h, ?_⟩
  have hfails : Reader.Fails (Grammar.read nestingLimit) ([] ++ source.toList ++ []) :=
    grammar.checks.refuses nestingLimit h blank_nil
  rw [List.nil_append, List.append_nil] at hfails
  obtain ⟨error, herror⟩ := hfails.run
  exact ⟨error, by rw [Grammar.parse, Grammar.ofJson?, herror]⟩

/-- The text of a grammar with a literal below two terms. -/
def literalText : String :=
  "\x7b\"productions\":[\x7b\"id\":0,\"alternatives\":[],\"assertions\":[\x7b\"not\":\x7b\"num\":" ++
    "\x7b\"unsigned\":1\x7d\x7d\x7d]\x7d]\x7d"

/-- The same text with a second member in front of the tag of the literal. -/
def doubleText : String :=
  "\x7b\"productions\":[\x7b\"id\":0,\"alternatives\":[],\"assertions\":[\x7b\"not\":\x7b\"num\":" ++
    "\x7b\"x\":null,\"unsigned\":1\x7d\x7d\x7d]\x7d]\x7d"

/-- A second member below two terms is found. -/
theorem unknown_shapes_refused_below_terms : ∃ error,
    Grammar.parse doubleText "grammar.json" = .error (.malformed "grammar.json" doubleText error) := by
  have hblank := blank_nil
  have hgaps : Gaps [] [] [] [] := ⟨hblank, hblank, hblank, hblank⟩
  have hmember : MemberText _ :=
    .member [] _ _ [] 0 hblank
      (.name ['x'] [] [] (.plain 'x' [] ⟨by decide, by decide, by decide⟩ .nil) hblank hblank) .null hblank
  have hone : (toString (1 : Int)).toList = ['1'] := by decide
  have hzero : (toString (0 : Int)).toList = ['0'] := by decide
  have hliteral : Altered .numeral (Numeral.unsigned 1).toJson _ _ :=
    .front _ _ _ _ [] [] [] ['1'] [] _ (Kind.mem_variants_of_iff.mpr rfl) hgaps (hone ▸ .int 1) hmember
  have hnum : Altered .term (Term.num (.unsigned 1)).toJson _ _ :=
    .inside _ _ _ _ [] [] [] _ _ [] (Kind.mem_variants_of_iff.mpr rfl) hgaps hliteral
  have hnot : Altered .term (Term.not (.num (.unsigned 1))).toJson _ _ :=
    .inside _ _ _ _ [] [] [] _ _ [] (Kind.mem_variants_of_iff.mpr rfl) hgaps hnum
  have hassertions : Altered (.list .term) (.array [(Term.not (.num (.unsigned 1))).toJson]) _ _ :=
    .list _ _ _ _ (.here true _ _ _ _ [] [] _ _ _ hblank hblank hnot (.close _ [] hblank))
  have hproduction : Altered .production
      (Production.toJson { id := 0, assertions := [.not (.num (.unsigned 1))] }) _ _ :=
    .record _ _ _ _ <|
      .later true _ _ _ _ _ [] [] [] [] ['0'] _ _ hblank hblank hblank hblank (hzero ▸ .int 0) <|
        .later false _ _ _ _ _ [] [] [] [] _ _ _ hblank hblank hblank hblank
          (.array [] _ (.close true [] hblank)) <|
          .here false _ _ _ _ _ [] [] [] [] _ _ _ hblank hblank hblank hblank hassertions
            (.close false [] hblank)
  have hproductions : Altered (.list .production) (.array [_]) _ _ :=
    .list _ _ _ _ (.here true _ _ _ _ [] [] _ _ _ hblank hblank hproduction (.close _ [] hblank))
  have hgrammar : Altered .grammar
      (Grammar.toJson ⟨[{ id := 0, assertions := [.not (.num (.unsigned 1))] }]⟩) _ _ :=
    .record _ _ _ _ <| .here true _ _ _ _ _ [] [] [] [] _ _ _ hblank hblank hblank hblank hproductions
      (.close false [] hblank)
  obtain ⟨text, changed, rfl, rfl, haltered⟩ : ∃ text changed, text = literalText.toList ∧
      changed = doubleText.toList ∧ Altered .grammar _ text changed :=
    ⟨_, _, by decide, by decide, hgrammar⟩
  exact (unknown_shapes_refused haltered "grammar.json").2.2

end ByteGrammar
