import ByteGrammar.Proofs.JsonSkipping

/-!
# Texts of one tree in other words

A `Layout` is a JSON tree in which the objects are told apart: a tagged value has one member, a record has
fields, some of which may be left out. `Layout.Spells` relates a layout to its texts: blanks stand anywhere
between tokens, and the fields of a record stand in any order, without some of those that may be left out,
and among members with any other names and values. It counts how deep the brackets of the text nest, those
of the other members included.

`Layout.Accepts` says that readers read all these texts as one value. The state of a record depends only on
the names that have been read so far, which is what `Layout.Tracks` says.
-/

namespace ByteGrammar

open Json (Blank Ends separator quote escapeChar)

/-- A field of a record. It is optional when it holds its default, so that it may be left out. -/
structure Field (α : Type) where
  key : String
  value : α
  optional : Bool

/-- A JSON tree with its records marked. -/
inductive Layout where
  | leaf (tree : Json)
  | array (items : List Layout)
  | tagged (name : String) (value : Layout)
  | record (fields : List (Field Layout))

namespace Layout

mutual
/-- The tree of a layout, with all fields in their order. -/
def tree : Layout → Json
  | .leaf tree => tree
  | .array items => .array (treesOf items)
  | .tagged name value => .object [(name, value.tree)]
  | .record fields => .object (membersOf fields)

/-- The trees of a list of layouts. -/
def treesOf : List Layout → List Json
  | [] => []
  | item :: items => item.tree :: treesOf items

/-- The members of the fields of a record. -/
def membersOf : List (Field Layout) → List (String × Json)
  | [] => []
  | ⟨key, value, _⟩ :: fields => (key, value.tree) :: membersOf fields
end

mutual
/-- The texts of a layout, with how deep their brackets nest. -/
inductive Spells : Layout → Nat → List Char → Prop where
  | leaf (tree text) : tree.Spells text → Spells (.leaf tree) tree.depth text
  | array (items depth body) : SpellsItems true items depth body →
      Spells (.array items) (depth + 1) ('[' :: body)
  | tagged (name value gap before behind text last depth) : Blank gap → Blank before →
      Blank behind → Blank last → Spells value depth text →
      Spells (.tagged name value) (depth + 1)
        ('\x7b' :: (gap ++ quote name.toList ++ before ++ [':'] ++ behind ++ text ++ (last ++ ['\x7d'])))
  | record (fields kept dropped depth body) : (kept ++ dropped).Perm fields →
      (∀ field ∈ dropped, field.optional = true) →
      SpellsMembers (fields.map Field.key) true kept depth body →
      Spells (.record fields) (depth + 1) ('\x7b' :: body)

/-- The texts of the items of an array, up to its bracket. The flag says that no item precedes them. -/
inductive SpellsItems : Bool → List Layout → Nat → List Char → Prop where
  | close (first blanks) : Blank blanks → SpellsItems first [] 0 (blanks ++ [']'])
  | next (first item items blanks gap text rest depth further) : Blank blanks → Blank gap →
      Spells item depth text → SpellsItems false items further rest →
      SpellsItems first (item :: items) (max depth further)
        (blanks ++ separator first ++ gap ++ text ++ rest)

/-- The texts of some fields of a record among other members, up to its brace. The names are those of all
fields of the record. The flag says that no member precedes. -/
inductive SpellsMembers : List String → Bool → List (Field Layout) → Nat → List Char → Prop where
  | close (names first blanks) : Blank blanks → SpellsMembers names first [] 0 (blanks ++ ['\x7d'])
  | field (names first field fields blanks gap before behind text rest depth further) :
      Blank blanks → Blank gap → Blank before → Blank behind → Spells field.value depth text →
      SpellsMembers names false fields further rest →
      SpellsMembers names first (field :: fields) (max depth further)
        (blanks ++ separator first ++ gap ++ quote field.key.toList ++ before ++ [':'] ++ behind ++
          text ++ rest)
  | other (names first fields blanks gap name key before behind text rest depth further) :
      Blank blanks → Blank gap → Blank before → Blank behind →
      Json.Denotes key name.toList → name ∉ names → Json.WellFormed depth text →
      SpellsMembers names false fields further rest →
      SpellsMembers names first fields (max depth further)
        (blanks ++ separator first ++ gap ++ ('"' :: (key ++ ['"'])) ++ before ++ [':'] ++ behind ++
          text ++ rest)
end

/-- A text of a layout starts with a character that neither is blank nor closes an array. -/
theorem Spells.starts {layout : Layout} {depth : Nat} {text : List Char}
    (h : layout.Spells depth text) :
    ∃ c rest, text = c :: rest ∧ Json.Reader.isBlank c = false ∧ c ≠ ']' := by
  cases h with
  | leaf tree _ htext => exact htext.starts
  | array | tagged | record => exact ⟨_, _, rfl, by decide, by decide⟩

/-- An item ends where the text of the next ones starts. -/
theorem SpellsItems.ends {items : List Layout} {depth : Nat} {text : List Char}
    (h : SpellsItems false items depth text) (rest : List Char) : Ends (text ++ rest) := by
  cases h with
  | close _ blanks hblanks =>
      rw [List.append_assoc, List.singleton_append]
      exact hblanks.ends rest (by decide)
  | next _ item items blanks gap text behind depth further hblanks =>
      simp only [List.append_assoc]
      exact hblanks.ends _ (by decide)

/-- A member ends where the text of the next ones starts. -/
theorem SpellsMembers.ends {names : List String} {fields : List (Field Layout)} {depth : Nat}
    {text : List Char} (h : SpellsMembers names false fields depth text) (rest : List Char) :
    Ends (text ++ rest) := by
  cases h with
  | close _ _ blanks hblanks =>
      rw [List.append_assoc, List.singleton_append]
      exact hblanks.ends rest (by decide)
  | field _ _ field fields blanks gap before behind text tail depth further hblanks =>
      simp only [List.append_assoc]
      exact hblanks.ends _ (by decide)
  | other _ _ fields blanks gap name key before behind text tail depth further hblanks =>
      simp only [List.append_assoc]
      exact hblanks.ends _ (by decide)

mutual
/-- Every text of the tree of a layout is one of its texts. -/
theorem spells_of_tree : (layout : Layout) → {text : List Char} → layout.tree.Spells text →
    layout.Spells layout.tree.depth text
  | .leaf tree, text, h => .leaf tree text h
  | .array items, _, .array _ body h => .array items _ body (spells_of_trees items h)
  | .tagged name value, _,
      .object _ _ (.next _ _ _ _ blanks gap before behind text _ hblanks hgap hbefore hbehind hvalue
        (.close _ last hlast)) => by
      have htext := Spells.tagged name value (blanks ++ gap) before behind text last _
        (hblanks.append hgap) hbefore hbehind hlast (spells_of_tree value hvalue)
      have hdepth : (Layout.tagged name value).tree.depth = value.tree.depth + 1 := by
        simp [tree, Json.depth, Json.depthOfMembers]
      rw [hdepth, Json.separator_true]
      simpa using htext
  | .record fields, _, .object _ body h =>
      .record fields fields [] _ body (by rw [List.append_nil]) (by simp)
        (spells_of_members _ fields h)

/-- Every text of the items of an array is one of the texts of their layouts. -/
theorem spells_of_trees : (items : List Layout) → {first : Bool} → {text : List Char} →
    Json.SpellsItems first (treesOf items) text →
    SpellsItems first items (Json.depthOfItems (treesOf items)) text
  | [], _, _, .close first blanks hblanks => .close first blanks hblanks
  | item :: items, _, _, .next first _ _ blanks gap text rest hblanks hgap htext hrest =>
      .next first item items blanks gap text rest _ _ hblanks hgap (spells_of_tree item htext)
        (spells_of_trees items hrest)

/-- Every text of the members of a record is one of the texts of its fields. -/
theorem spells_of_members (names : List String) : (fields : List (Field Layout)) → {first : Bool} →
    {text : List Char} → Json.SpellsMembers first (membersOf fields) text →
    SpellsMembers names first fields (Json.depthOfMembers (membersOf fields)) text
  | [], _, _, .close first blanks hblanks => .close names first blanks hblanks
  | ⟨key, value, optional⟩ :: fields, _, _,
      .next first _ _ _ blanks gap before behind text rest hblanks hgap hbefore hbehind htext hrest =>
      .field names first ⟨key, value, optional⟩ fields blanks gap before behind text rest _ _ hblanks
        hgap hbefore hbehind (spells_of_tree value htext) (spells_of_members names fields hrest)
end

open Json.Reader
open Json (Reader)

variable {α β γ σ τ : Type}

/-- Readers, one for every number of brackets that may be opened, that read all texts of a layout as a
value, if they do not nest deeper. -/
def Accepts (read : Nat → Reader α) (layout : Layout) (value : α) : Prop :=
  ∀ ⦃depth : Nat⦄ ⦃text blanks rest : List Char⦄ (nesting : Nat), layout.Spells depth text →
    Blank blanks → Ends rest → depth ≤ nesting →
    read nesting (blanks ++ text ++ rest) = .ok (value, rest)

/-- Readers that agree for every number of brackets accept the same texts. -/
theorem Accepts.congr {read other : Nat → Reader α} {layout : Layout} {value : α}
    (h : Accepts read layout value) (heq : ∀ nesting, other nesting = read nesting) :
    Accepts other layout value :=
  funext heq ▸ h

/-- A value that has been read is changed at the end. -/
theorem map_of_ok {reader : Reader α} {text rest : List Char} {value : α} (change : α → β)
    (h : reader text = .ok (value, rest)) : (change <$> reader) text = .ok (change value, rest) := by
  rw [← bind_pure_comp]
  exact bind_of_ok h

/-- The value that has been read may be changed at the end. -/
theorem Accepts.map {read : Nat → Reader α} {layout : Layout} {value : α}
    (h : Accepts read layout value) (change : α → β) :
    Accepts (fun nesting => change <$> read nesting) layout (change value) :=
  fun _ _ _ _ nesting htext hblanks hrest hdepth =>
    map_of_ok change (h nesting htext hblanks hrest hdepth)

/-- A text without blanks in front. -/
theorem Accepts.read_eq {read : Nat → Reader α} {layout : Layout} {value : α}
    (h : Accepts read layout value) {depth : Nat} {text rest : List Char}
    (htext : layout.Spells depth text) (hrest : Ends rest) {nesting : Nat} (hdepth : depth ≤ nesting) :
    read nesting (text ++ rest) = .ok (value, rest) :=
  h nesting htext Json.blank_nil hrest hdepth

/-- What is read from all texts of a tree is read from all texts of its leaf. -/
theorem accepts_leaf {read : Nat → Reader α} {tree : Json} {value : α}
    (h : Json.Decodes read tree value) : Accepts read (.leaf tree) value := by
  intro depth text blanks rest nesting htext hblanks hrest hdepth
  cases htext with
  | leaf _ _ htext => exact (h nesting htext hblanks hrest).accepts hdepth

/-- Leaving a bracket keeps a value that has been read inside. -/
theorem leave_of_ok {inside : Reader α} {text rest : List Char} {value : α}
    (close : List Char → List Char) (h : inside text = .ok (value, rest)) :
    leave close inside text = .ok (value, rest) := by
  rw [leave, h]

/-! ## Arrays -/

/-- All items of an array are read, one after the other. -/
theorem items_of_spells {item : Nat → Reader α} {layouts : List Layout} {values : List α}
    (h : List.Forall₂ (Accepts item) layouts values) {first : Bool} {depth nesting : Nat}
    {text bound : List Char} (htext : SpellsItems first layouts depth text)
    (hbound : text.length ≤ bound.length) (rest : List Char) (hdepth : depth ≤ nesting) :
    items (item nesting) bound first (text ++ rest) = .ok (values, ']' :: rest) := by
  induction h generalizing first text bound depth with
  | nil =>
      cases htext with
      | close _ blanks hblanks =>
          obtain ⟨c, bound, rfl⟩ := List.exists_cons_of_length_pos
            (show 0 < bound.length by simp at hbound; omega)
          rw [List.append_assoc, items, List.singleton_append,
            bind_of_ok (Json.has_item_close first hblanks rest)]
          rfl
  | cons hhead htail ih =>
      cases htext with
      | next _ layout layouts blanks gap text more depth further hblanks hgap hitem hmore =>
          have hpositive : 0 < text.length := by
            obtain ⟨c, tail, rfl, -⟩ := hitem.starts
            exact Nat.succ_pos _
          simp only [List.length_append] at hbound
          obtain ⟨c, bound, rfl⟩ := List.exists_cons_of_length_pos
            (show 0 < bound.length by omega)
          rw [List.length_cons] at hbound
          rw [List.append_assoc, items,
            bind_of_ok (Json.has_item_next first hblanks hgap hitem.starts _), if_pos rfl,
            bind_of_ok (hhead.read_eq hitem (hmore.ends rest) (le_of_max_le_left hdepth)),
            bind_of_ok (ih hmore (by omega) (le_of_max_le_right hdepth))]
          rfl

/-- A list of values is accepted. -/
theorem accepts_list {item : Nat → Reader α} {layouts : List Layout} {values : List α}
    (h : List.Forall₂ (Accepts item) layouts values) :
    Accepts (fun nesting => list (within item nesting)) (.array layouts) values := by
  intro depth text blanks rest nesting htext hblanks hrest hdepth
  cases htext with
  | array _ depth body hbody =>
      obtain ⟨nesting, rfl⟩ := Nat.exists_eq_succ_of_ne_zero (Nat.ne_zero_of_lt hdepth)
      rw [List.append_assoc]
      show (peekToken >>= _) (blanks ++ '[' :: (body ++ rest)) = _
      rw [bind_of_ok (peek_token_append hblanks (by decide) _)]
      have hbound : body.length ≤ ('[' :: (body ++ rest)).length := by
        rw [List.length_cons, List.length_append]
        omega
      refine leave_of_ok closeArray ?_
      have hitems := items_of_spells h hbody hbound rest (Nat.le_of_succ_le_succ hdepth)
      exact (bind_of_ok hitems).trans (bind_of_ok (Json.end_of_array_close Json.blank_nil rest))

/-- The next part of a tuple. -/
theorem item_at_of_spells {read : Nat → Reader α} {layout : Layout} {value : α}
    (h : Accepts read layout value) (index : Nat) (expected : String) {layouts : List Layout}
    {text : List Char} {depth nesting : Nat}
    (htext : SpellsItems (index == 0) (layout :: layouts) depth text) (rest : List Char)
    (hdepth : depth ≤ nesting) :
    ∃ more further, SpellsItems false layouts further more ∧ further ≤ nesting ∧
      itemAt index expected (read nesting) (text ++ rest) = .ok (value, more ++ rest) := by
  cases htext with
  | next _ layout layouts blanks gap text more depth further hblanks hgap hitem hmore =>
      refine ⟨more, further, hmore, le_of_max_le_right hdepth, ?_⟩
      rw [List.append_assoc, itemAt, bind_of_ok (Json.has_item_next _ hblanks hgap hitem.starts _)]
      exact h.read_eq hitem (hmore.ends rest) (le_of_max_le_left hdepth)

/-- The end of a tuple behind its last part. -/
theorem end_of_array_of_spells {first : Bool} {depth : Nat} {text : List Char}
    (h : SpellsItems first [] depth text) (rest : List Char) :
    endOfArray (text ++ rest) = .ok ((), rest) := by
  cases h with
  | close _ blanks hblanks =>
      rw [List.append_assoc]
      exact Json.end_of_array_close hblanks rest

/-- A pair is accepted. -/
theorem accepts_pair {left : Nat → Reader α} {right : Nat → Reader β} {lhs rhs : Layout} {first : α}
    {second : β} (expected : String) (hleft : Accepts left lhs first)
    (hright : Accepts right rhs second) :
    Accepts (fun nesting => pair expected (within (fun nesting => (left nesting, right nesting)) nesting))
      (.array [lhs, rhs]) (first, second) := by
  intro depth text blanks rest nesting htext hblanks hrest hdepth
  cases htext with
  | array _ depth body hbody =>
      obtain ⟨nesting, rfl⟩ := Nat.exists_eq_succ_of_ne_zero (Nat.ne_zero_of_lt hdepth)
      have hdepth := Nat.le_of_succ_le_succ hdepth
      obtain ⟨behind, _, hbehind, hdepth, hfirst⟩ :=
        item_at_of_spells hleft 0 (expected ++ " with 2 elements") hbody rest hdepth
      obtain ⟨last, _, hlast, hdepth, hsecond⟩ :=
        item_at_of_spells hright 1 (expected ++ " with 2 elements") hbehind rest hdepth
      rw [List.append_assoc]
      show (peekToken >>= _) (blanks ++ '[' :: (body ++ rest)) = _
      rw [bind_of_ok (peek_token_append hblanks (by decide) _)]
      refine leave_of_ok closeArray ?_
      exact (bind_of_ok hfirst).trans
        ((bind_of_ok hsecond).trans (bind_of_ok (end_of_array_of_spells hlast rest)))

/-- A triple is accepted. -/
theorem accepts_triple {left : Nat → Reader α} {middle : Nat → Reader β} {right : Nat → Reader γ}
    {lhs mid rhs : Layout} {first : α} {second : β} {third : γ} (expected : String)
    (hleft : Accepts left lhs first) (hmiddle : Accepts middle mid second)
    (hright : Accepts right rhs third) :
    Accepts (fun nesting =>
        triple expected (within (fun nesting => (left nesting, middle nesting, right nesting)) nesting))
      (.array [lhs, mid, rhs]) (first, second, third) := by
  intro depth text blanks rest nesting htext hblanks hrest hdepth
  cases htext with
  | array _ depth body hbody =>
      obtain ⟨nesting, rfl⟩ := Nat.exists_eq_succ_of_ne_zero (Nat.ne_zero_of_lt hdepth)
      have hdepth := Nat.le_of_succ_le_succ hdepth
      obtain ⟨behind, _, hbehind, hdepth, hfirst⟩ :=
        item_at_of_spells hleft 0 (expected ++ " with 3 elements") hbody rest hdepth
      obtain ⟨more, _, hmore, hdepth, hsecond⟩ :=
        item_at_of_spells hmiddle 1 (expected ++ " with 3 elements") hbehind rest hdepth
      obtain ⟨last, _, hlast, hdepth, hthird⟩ :=
        item_at_of_spells hright 2 (expected ++ " with 3 elements") hmore rest hdepth
      rw [List.append_assoc]
      show (peekToken >>= _) (blanks ++ '[' :: (body ++ rest)) = _
      rw [bind_of_ok (peek_token_append hblanks (by decide) _)]
      refine leave_of_ok closeArray ?_
      exact (bind_of_ok hfirst).trans ((bind_of_ok hsecond).trans
        ((bind_of_ok hthird).trans (bind_of_ok (end_of_array_of_spells hlast rest))))

/-! ## Records -/

/-- The text of a field is read, which changes the state of its record. -/
def Takes (step : Nat → String → σ → Reader σ) (field : Field Layout) (state next : σ) : Prop :=
  ∀ ⦃depth : Nat⦄ ⦃text before behind rest : List Char⦄ (nesting : Nat),
    field.value.Spells depth text → Blank before → Blank behind → Ends rest → depth ≤ nesting →
    step nesting field.key state (before ++ ':' :: (behind ++ text ++ rest)) = .ok (next, rest)

/-- A field that has not been read before. -/
theorem takes_once {step : Nat → String → σ → Reader σ} {key : String} {read : Nat → Reader α}
    {layout : Layout} {value : α} {optional : Bool} {state : σ} (put : Option α → σ)
    (hstep : ∀ nesting, step nesting key state =
      (do return put (← once key none (read nesting)) : Reader σ))
    (h : Accepts read layout value) : Takes step ⟨key, layout, optional⟩ state (put (some value)) := by
  intro depth text before behind rest nesting htext hbefore hbehind hrest hdepth
  have honce : once key none (read nesting) (before ++ ':' :: (behind ++ text ++ rest)) =
      .ok (some value, rest) := by
    rw [once, bind_of_ok (Json.colon_append hbefore _)]
    exact map_of_ok some (h nesting htext hbehind hrest hdepth)
  rw [hstep]
  exact map_of_ok put honce

/-- The state of a record follows from the names that have been read: it starts with none of them, each
field adds its own, other names do not count, and the record is there once only optional fields are
missing. -/
structure Tracks (fields : Nat → Fields σ α) (layout : List (Field Layout)) (state : List String → σ)
    (value : α) : Prop where
  start : ∀ nesting, (fields nesting).start = state []
  field : ∀ field ∈ layout, ∀ seen, field.key ∉ seen →
    Takes (fun nesting => (fields nesting).step) field (state seen) (state (field.key :: seen))
  other : ∀ name, name ∉ layout.map Field.key → ∀ nesting seen,
    (fields nesting).step name (state seen) = unknown (state seen)
  finish : ∀ seen, (∀ field ∈ layout, field.key ∈ seen ∨ field.optional = true) →
    ∀ nesting, (fields nesting).finish (state seen) = pure value

/-- The text of a member that is no field is passed over. -/
theorem unknown_of_well_formed {depth : Nat} {text before behind rest : List Char} (state : σ)
    (htext : Json.WellFormed depth text) (hbefore : Blank before) (hbehind : Blank behind)
    (hrest : Ends rest) :
    unknown state (before ++ ':' :: (behind ++ text ++ rest)) = .ok (state, rest) := by
  rw [unknown, bind_of_ok (Json.colon_append hbefore _),
    bind_of_ok (skip_value_append htext hbehind hrest)]
  rfl

/-- All members of a record are read, one after the other: each of the fields once, in any order, and
members with other names between them. -/
theorem members_of_spells {fields : Nat → Fields σ α} {layout : List (Field Layout)}
    {state : List String → σ} {value : α} (h : Tracks fields layout state value) {first : Bool}
    {kept : List (Field Layout)} {depth nesting : Nat} {text : List Char} (bound : List Char)
    (seen : List String) (htext : SpellsMembers (layout.map Field.key) first kept depth text)
    (hkept : ∀ field ∈ kept, field ∈ layout) (hnodup : (kept.map Field.key).Nodup)
    (hseen : ∀ field ∈ kept, field.key ∉ seen) (hbound : text.length ≤ bound.length)
    (rest : List Char) (hdepth : depth ≤ nesting) :
    ∃ read, (∀ key ∈ seen, key ∈ read) ∧ (∀ field ∈ kept, field.key ∈ read) ∧
      members (fields nesting).step bound first (state seen) (text ++ rest) =
        .ok (state read, '\x7d' :: rest) := by
  -- Each round reads one member, with its text, so that the bound outlasts the members.
  induction bound generalizing first kept depth text seen with
  | nil =>
      have hnil : text = [] := List.length_eq_zero_iff.mp (Nat.le_zero.mp hbound)
      cases htext <;> simp at hnil
  | cons c bound ih =>
      rw [List.length_cons] at hbound
      rw [members]
      cases htext with
      | close _ _ blanks hblanks =>
          refine ⟨seen, fun _ => id, by simp, ?_⟩
          rw [List.append_assoc, List.singleton_append,
            bind_of_ok (Json.has_member_close first hblanks rest)]
          rfl
      | field _ _ field kept blanks gap before behind text more depth further hblanks hgap hbefore
          hbehind hvalue hmore =>
          rw [List.forall_mem_cons] at hkept hseen
          rw [List.map_cons, List.nodup_cons] at hnodup
          have hlength : more.length ≤ bound.length := by
            simp only [List.length_append, List.length_cons] at hbound
            omega
          have htakes := h.field field hkept.1 seen hseen.1 nesting hvalue hbefore hbehind
            (hmore.ends rest) (le_of_max_le_left hdepth)
          -- The keys differ, so the fields to come are still missing once this one is there.
          have hunseen : ∀ other ∈ kept, other.key ∉ field.key :: seen := by
            intro other hother hmem
            rcases List.mem_cons.mp hmem with heq | hmem
            · exact hnodup.1 (heq ▸ List.mem_map_of_mem hother)
            · exact hseen.2 other hother hmem
          obtain ⟨read, hold, hnew, hrest⟩ := ih (field.key :: seen) hmore hkept.2 hnodup.2 hunseen
            hlength (le_of_max_le_right hdepth)
          refine ⟨read, fun key hkey => hold key (List.mem_cons_of_mem _ hkey),
            List.forall_mem_cons.mpr ⟨hold _ List.mem_cons_self, hnew⟩, ?_⟩
          rw [Json.member_append, bind_of_ok (Json.has_member_next first hblanks hgap _), if_pos rfl,
            bind_of_ok (advance_cons _ _), bind_of_ok (string_rest_quote field.key _),
            bind_of_ok htakes]
          exact hrest
      | other _ _ _ blanks gap name key before behind text more depth further hblanks hgap hbefore
          hbehind hkey hname hvalue hmore =>
          have hlength : more.length ≤ bound.length := by
            simp only [List.length_append, List.length_cons] at hbound
            omega
          obtain ⟨read, hold, hnew, hrest⟩ := ih seen hmore hkept hnodup hseen hlength
            (le_of_max_le_right hdepth)
          refine ⟨read, hold, hnew, ?_⟩
          have hstep : (fields nesting).step name (state seen)
              (before ++ ':' :: (behind ++ text ++ (more ++ rest))) = .ok (state seen, more ++ rest) := by
            rw [h.other name hname]
            exact unknown_of_well_formed _ hvalue hbefore hbehind (hmore.ends rest)
          have hstring := string_rest_denotes hkey (before ++ ':' :: (behind ++ text ++ (more ++ rest)))
          rw [String.ofList_toList] at hstring
          have happend : blanks ++ separator first ++ gap ++ ('"' :: (key ++ ['"'])) ++ before ++
              [':'] ++ behind ++ text ++ more ++ rest = blanks ++ separator first ++ gap ++ '"' ::
                (key ++ '"' :: (before ++ ':' :: (behind ++ text ++ (more ++ rest)))) := by
            simp
          rw [happend, bind_of_ok (Json.has_member_next first hblanks hgap _), if_pos rfl,
            bind_of_ok (advance_cons _ _), bind_of_ok hstring, bind_of_ok hstep]
          exact hrest

/-- A record is accepted, in any order of its fields, without some of the optional ones, and with other
members between them. -/
theorem accepts_record {read : Nat → Reader α} {fields : Nat → Fields σ α}
    {layout : List (Field Layout)} {expected : String} {value : α} (state : List String → σ)
    (hopen : ∀ nesting, read (nesting + 1) = Reader.record expected (some (fields nesting)))
    (hkeys : (layout.map Field.key).Nodup) (h : Tracks fields layout state value) :
    Accepts read (.record layout) value := by
  intro depth text blanks rest nesting htext hblanks hrest hdepth
  cases htext with
  | record _ kept dropped depth body hperm hdropped hbody =>
      obtain ⟨nesting, rfl⟩ := Nat.exists_eq_succ_of_ne_zero (Nat.ne_zero_of_lt hdepth)
      have hnodup : ((kept ++ dropped).map Field.key).Nodup := (hperm.map Field.key).nodup_iff.mpr hkeys
      rw [List.map_append] at hnodup
      have hbound : body.length ≤ ('\x7b' :: (body ++ rest)).length := by
        rw [List.length_cons, List.length_append]
        omega
      obtain ⟨seen, -, hseen, hmembers⟩ := members_of_spells h _ [] hbody
        (fun field hfield => hperm.subset (List.mem_append_left _ hfield)) hnodup.of_append_left
        (by simp) hbound rest (Nat.le_of_succ_le_succ hdepth)
      have hfinish := h.finish seen fun field hfield => by
        rcases List.mem_append.mp (hperm.symm.subset hfield) with hmem | hmem
        · exact .inl (hseen field hmem)
        · exact .inr (hdropped field hmem)
      rw [List.append_assoc, hopen]
      show (peekToken >>= _) (blanks ++ '\x7b' :: (body ++ rest)) = _
      rw [bind_of_ok (peek_token_append hblanks (by decide) _)]
      refine leave_of_ok closeObject ?_
      rw [h.start]
      refine (bind_of_ok hmembers).trans ?_
      rw [hfinish]
      rfl

section Slots

variable {δ : Type}

/-- The state of a field in a record: its value once its name has been read. -/
def slot (key : String) (value : α) (seen : List String) : Option α :=
  if key ∈ seen then some value else none

/-- A field that is there, or that is missing and optional. -/
def Filled (optional : Bool) (value : α) (state : Option α) : Prop :=
  state = some value ∨ state = none ∧ optional = true

variable {key other : String} {value : α} {seen : List String}

/-- A field whose name has not been read is missing. -/
theorem slot_of_not_mem (h : key ∉ seen) : slot key value seen = none :=
  if_neg h

/-- A field is there once its name has been read. -/
theorem slot_cons_self : slot key value (key :: seen) = some value :=
  if_pos List.mem_cons_self

/-- Another name makes no difference. -/
theorem slot_cons_of_ne (h : key ≠ other) : slot key value (other :: seen) = slot key value seen := by
  simp [slot, h]

/-- At the end, a field is there if it is not optional. -/
theorem filled_slot {optional : Bool} (value : α) (h : key ∈ seen ∨ optional = true) :
    Filled optional value (slot key value seen) := by
  by_cases hmem : key ∈ seen
  · exact .inl (if_pos hmem)
  · exact .inr ⟨if_neg hmem, h.resolve_left hmem⟩

/-- A field that is required is there at the end. -/
theorem Filled.eq_some {state : Option α} (h : Filled false value state) : state = some value :=
  h.resolve_right (by simp)

/-- A field that may be missing if it holds the default comes to its value. -/
theorem Filled.get_eq {optional : Bool} {state : Option α} {missing : α} (h : Filled optional value state)
    (hdefault : optional = true → value = missing) : state.getD missing = value := by
  rcases h with rfl | ⟨rfl, hoptional⟩
  · rfl
  · exact (hdefault hoptional).symm

/-- A record with two fields is accepted. -/
theorem accepts_two_fields {read : Nat → Reader γ} {fields : Nat → Fields (Option α × Option β) γ}
    {readFirst : Nat → Reader α} {readSecond : Nat → Reader β} {expected : String} {result : γ}
    (first second : Field Layout) {firstValue : α} {secondValue : β}
    (hopen : ∀ nesting, read (nesting + 1) = Reader.record expected (some (fields nesting)))
    (hkeys : first.key ≠ second.key) (hstart : ∀ nesting, (fields nesting).start = (none, none))
    (hfirst : ∀ nesting a b, (fields nesting).step first.key (a, b) =
      (do return (← once first.key a (readFirst nesting), b)))
    (hsecond : ∀ nesting a b, (fields nesting).step second.key (a, b) =
      (do return (a, ← once second.key b (readSecond nesting))))
    (hother : ∀ name, name ≠ first.key → name ≠ second.key → ∀ nesting state,
      (fields nesting).step name state = unknown state)
    (hfinish : ∀ nesting a b, Filled first.optional firstValue a → Filled second.optional secondValue b →
      (fields nesting).finish (a, b) = pure result)
    (hreadFirst : Accepts readFirst first.value firstValue)
    (hreadSecond : Accepts readSecond second.value secondValue) :
    Accepts read (.record [first, second]) result := by
  refine accepts_record
    (fun seen => (slot first.key firstValue seen, slot second.key secondValue seen)) hopen (by simpa)
    ⟨hstart, ?_, ?_, ?_⟩
  · intro field hfield seen hseen
    simp only [List.mem_cons, List.not_mem_nil, or_false] at hfield
    rcases hfield with rfl | rfl
    · rw [slot_of_not_mem hseen, slot_cons_self, slot_cons_of_ne hkeys.symm]
      exact takes_once (fun a => (a, slot second.key secondValue seen))
        (fun nesting => hfirst nesting none _) hreadFirst
    · rw [slot_of_not_mem hseen, slot_cons_self, slot_cons_of_ne hkeys]
      exact takes_once (fun b => (slot first.key firstValue seen, b))
        (fun nesting => hsecond nesting _ none) hreadSecond
  · intro name hname nesting seen
    simp only [List.map_cons, List.map_nil, List.mem_cons, List.not_mem_nil, or_false, not_or] at hname
    exact hother name hname.1 hname.2 nesting _
  · intro seen hseen nesting
    simp only [List.forall_mem_cons] at hseen
    exact hfinish nesting _ _ (filled_slot _ hseen.1) (filled_slot _ hseen.2.1)

/-- A record with three fields is accepted. -/
theorem accepts_three_fields {read : Nat → Reader δ}
    {fields : Nat → Fields (Option α × Option β × Option γ) δ} {readFirst : Nat → Reader α}
    {readSecond : Nat → Reader β} {readThird : Nat → Reader γ} {expected : String} {result : δ}
    (first second third : Field Layout) {firstValue : α} {secondValue : β} {thirdValue : γ}
    (hopen : ∀ nesting, read (nesting + 1) = Reader.record expected (some (fields nesting)))
    (hkeys : [first.key, second.key, third.key].Nodup)
    (hstart : ∀ nesting, (fields nesting).start = (none, none, none))
    (hfirst : ∀ nesting a b c, (fields nesting).step first.key (a, b, c) =
      (do return (← once first.key a (readFirst nesting), b, c)))
    (hsecond : ∀ nesting a b c, (fields nesting).step second.key (a, b, c) =
      (do return (a, ← once second.key b (readSecond nesting), c)))
    (hthird : ∀ nesting a b c, (fields nesting).step third.key (a, b, c) =
      (do return (a, b, ← once third.key c (readThird nesting))))
    (hother : ∀ name, name ≠ first.key → name ≠ second.key → name ≠ third.key → ∀ nesting state,
      (fields nesting).step name state = unknown state)
    (hfinish : ∀ nesting a b c, Filled first.optional firstValue a →
      Filled second.optional secondValue b → Filled third.optional thirdValue c →
      (fields nesting).finish (a, b, c) = pure result)
    (hreadFirst : Accepts readFirst first.value firstValue)
    (hreadSecond : Accepts readSecond second.value secondValue)
    (hreadThird : Accepts readThird third.value thirdValue) :
    Accepts read (.record [first, second, third]) result := by
  obtain ⟨⟨hab, hac⟩, hbc⟩ : (first.key ≠ second.key ∧ first.key ≠ third.key) ∧
      second.key ≠ third.key := by
    simpa using hkeys
  refine accepts_record (fun seen => (slot first.key firstValue seen,
    slot second.key secondValue seen, slot third.key thirdValue seen)) hopen hkeys ⟨hstart, ?_, ?_, ?_⟩
  -- A field fills its own slot and leaves those of the two others as they are.
  · intro field hfield seen hseen
    simp only [List.mem_cons, List.not_mem_nil, or_false] at hfield
    rcases hfield with rfl | rfl | rfl
    · rw [slot_of_not_mem hseen, slot_cons_self, slot_cons_of_ne hab.symm, slot_cons_of_ne hac.symm]
      exact takes_once
        (fun a => (a, slot second.key secondValue seen, slot third.key thirdValue seen))
        (fun nesting => hfirst nesting none _ _) hreadFirst
    · rw [slot_of_not_mem hseen, slot_cons_self, slot_cons_of_ne hab, slot_cons_of_ne hbc.symm]
      exact takes_once
        (fun b => (slot first.key firstValue seen, b, slot third.key thirdValue seen))
        (fun nesting => hsecond nesting _ none _) hreadSecond
    · rw [slot_of_not_mem hseen, slot_cons_self, slot_cons_of_ne hac, slot_cons_of_ne hbc]
      exact takes_once
        (fun c => (slot first.key firstValue seen, slot second.key secondValue seen, c))
        (fun nesting => hthird nesting _ _ none) hreadThird
  · intro name hname nesting seen
    simp only [List.map_cons, List.map_nil, List.mem_cons, List.not_mem_nil, or_false, not_or] at hname
    exact hother name hname.1 hname.2.1 hname.2.2 nesting _
  · intro seen hseen nesting
    simp only [List.forall_mem_cons] at hseen
    exact hfinish nesting _ _ _ (filled_slot _ hseen.1) (filled_slot _ hseen.2.1) (filled_slot _ hseen.2.2.1)

end Slots

/-! ## Tagged values -/

/-- A tagged layout. -/
def ofTag [Tag τ] (variant : τ) (value : Layout) : Layout :=
  .tagged (Tag.name variant) value

/-- A tagged value may be written without blanks. -/
theorem spells_of_tag [Tag τ] (variant : τ) {layout : Layout} {depth : Nat} {text : List Char}
    (h : layout.Spells depth text) :
    (Layout.ofTag variant layout).Spells (depth + 1)
      ('\x7b' :: (quote (Tag.name variant).toList ++ ':' :: (text ++ ['\x7d']))) := by
  have htext := Spells.tagged (Tag.name variant) _ [] [] [] text [] depth Json.blank_nil Json.blank_nil
    Json.blank_nil Json.blank_nil h
  simpa [ofTag] using htext

/-- A tagged value is accepted, as an object with the tag as its key. -/
theorem accepts_tagged [Tag τ] {read reader : Nat → Reader α} {variant : τ} {layout : Layout}
    {value : α}
    (hopen : ∀ nesting, ∃ (bare payload : τ → Reader α),
      read (nesting + 1) = Reader.tagged bare (some payload) ∧ payload variant = reader nesting)
    (h : Accepts reader layout value) : Accepts read (.ofTag variant layout) value := by
  intro depth text blanks rest nesting htext hblanks hrest hdepth
  cases htext with
  | tagged _ _ gap before behind text last depth hgap hbefore hbehind hlast hvalue =>
      obtain ⟨nesting, rfl⟩ := Nat.exists_eq_succ_of_ne_zero (Nat.ne_zero_of_lt hdepth)
      obtain ⟨bare, payload, hread, hpayload⟩ := hopen nesting
      have hends : Ends (last ++ '\x7d' :: rest) := hlast.ends rest (by decide)
      have hvalue' := h nesting hvalue hbehind hends (Nat.le_of_succ_le_succ hdepth)
      rw [hread, List.append_assoc, List.cons_append, Json.member_append, List.append_assoc last,
        List.singleton_append]
      show (peekToken >>= _) (blanks ++ '\x7b' :: _) = _
      rw [bind_of_ok (peek_token_append hblanks (by decide) _)]
      show (advance >>= _) _ = _
      rw [bind_of_ok (advance_cons _ _)]
      show (peekToken >>= _) (gap ++ '"' :: _) = _
      rw [bind_of_ok (peek_token_append hgap (by decide) _)]
      show (tag >>= _) _ = _
      rw [bind_of_ok (Json.tag_name variant _), bind_of_ok (Json.colon_append hbefore _), hpayload,
        bind_of_ok hvalue', bind_of_ok (peek_token_append hlast (by decide) rest)]
      rfl

/-! ## Values that may be missing -/

/-- A value that is there, and tagged, is accepted. -/
theorem accepts_optional_some {read : Nat → Reader α} {name : String} {layout : Layout} {value : α}
    (h : Accepts read (.tagged name layout) value) :
    Accepts (fun nesting => Reader.optional (read nesting)) (.tagged name layout) (some value) := by
  intro depth text blanks rest nesting htext hblanks hrest hdepth
  have hread := h.read_eq htext hrest hdepth
  cases htext with
  | tagged =>
      rw [List.append_assoc]
      show (peekToken >>= _) (blanks ++ '\x7b' :: _) = _
      rw [bind_of_ok (peek_token_append hblanks (by decide) _)]
      exact map_of_ok some hread

/-! ## Whole texts -/

/-- A whole text of a layout is read as its value if its brackets nest no deeper than allowed. -/
theorem run_accepts {read : Nat → Reader α} {layout : Layout} {value : α}
    (h : Accepts read layout value) {source : String} {blanks text behind : List Char} {depth : Nat}
    (hsource : source.toList = blanks ++ text ++ behind) (htext : layout.Spells depth text)
    (hblanks : Blank blanks) (hbehind : Blank behind) {nesting : Nat} (hdepth : depth ≤ nesting) :
    (read nesting).run source = .ok value := by
  have hends : Ends behind := fun c hc => .inl (hbehind c (List.mem_of_mem_head? hc))
  have hread := h nesting htext hblanks hends hdepth
  rw [← hsource] at hread
  exact Json.run_of_ok hread hbehind

end Layout

end ByteGrammar
