import ByteGrammar.Proofs.JsonSkipping

/-!
# Texts with an unknown shape

`Kind` says where the tree of a grammar holds the name of a variant, and `Kind.Fits` that a tree holds
nothing that its kind does not speak of. `Altered` relates a text of a tree to the texts in which one of
these names is another string, or in which the object around a tag has a second member.
-/

namespace ByteGrammar

namespace Json

/-! ## Kinds of trees -/

/-- What a value of a tree is, as far as there are names of variants in it. -/
inductive Kind where
  /-- A number, a truth value, or a string that may be any. -/
  | plain
  /-- A string that is one of these names. -/
  | operator (names : List String)
  /-- An object whose only key is the tag of a literal. -/
  | numeral
  /-- An object whose only key is the tag of a parameter. -/
  | param
  /-- An object whose only key is the tag of a term. -/
  | term
  /-- An object whose only key is the tag of a bound, or `null` for a missing edge. -/
  | bound
  /-- An object whose only key is the tag of an item. -/
  | item
  /-- An array of values of one kind. -/
  | list (part : Kind)
  /-- An array of values of these kinds. -/
  | tuple (parts : List Kind)
  /-- An object with these keys. -/
  | record (fields : List (String × Kind))
  deriving Inhabited

end Json

open Json (Kind)

/-- What the tag of a literal carries. -/
def NumeralTag.kind : NumeralTag → Kind
  | unsigned | signed => .plain

/-- What the tag of a parameter carries. -/
def ParamTag.kind : ParamTag → Kind
  | int | double | symbol | sort | funcDecl => .plain
  | rational => .record [("num", .plain), ("den", .plain)]
  | term => .term

/-- What the tag of a term carries. -/
def TermTag.kind : TermTag → Kind
  | num => .numeral
  | bool => .plain
  | arith => .tuple [.operator (Tag.names ArithOp), .list .term]
  | logic => .tuple [.operator (Tag.names LogicOp), .list .term]
  | cmp => .tuple [.operator (Tag.names CmpOp), .term, .term]
  | eq => .record [("lhs", .term), ("rhs", .term), ("naming", .plain)]
  | distinct => .tuple [.term, .term]
  | not | neg => .term
  | select => .record [("array", .term), ("index", .term)]
  | concat => .list .term
  | extract => .record [("args", .list .term), ("params", .list .param)]
  | app => .record [("name", .plain), ("args", .list .term), ("params", .list .param)]

/-- What the tag of a bound carries. -/
def BoundTag.kind : BoundTag → Kind
  | constant => .plain
  | symbolic => .term

/-- What the tag of an item carries. -/
def ItemTag.kind : ItemTag → Kind
  | production => .plain
  | interval => .record [("from", .bound), ("to", .bound)]

namespace Json

namespace Kind

/-- The names of the members of a type, with what they carry. -/
def variantsOf {τ : Type} [Tag τ] (kindOf : τ → Kind) : List (String × Kind) :=
  Tag.all.map fun tag => (Tag.name tag, kindOf tag)

/-- The tags that an object of a kind may have as its only key, with the kinds of their values. -/
def variants : Kind → List (String × Kind)
  | numeral => variantsOf NumeralTag.kind
  | param => variantsOf ParamTag.kind
  | term => variantsOf TermTag.kind
  | bound => variantsOf BoundTag.kind
  | item => variantsOf ItemTag.kind
  | plain | operator _ | list _ | tuple _ | record _ => []

/-- The kind of a production. -/
def production : Kind :=
  record [("id", plain), ("alternatives", list (list item)), ("assertions", list term)]

/-- The kind of a grammar. -/
def grammar : Kind :=
  record [("productions", list production)]

/-- A name belongs to one kind, that of its variant. -/
theorem mem_variants_of_iff {τ : Type} [Tag τ] {kindOf : τ → Kind} {tag : τ} {inner : Kind} :
    (Tag.name tag, inner) ∈ variantsOf kindOf ↔ inner = kindOf tag := by
  rw [variantsOf, List.mem_map]
  constructor
  · rintro ⟨other, -, heq⟩
    obtain ⟨hname, rfl⟩ := Prod.mk.inj heq
    have hother := Tag.of_name_name other
    rw [hname, Tag.of_name_name] at hother
    rw [Option.some.inj hother]
  · rintro rfl
    exact ⟨tag, List.mem_of_find?_eq_some (Tag.find_name tag), rfl⟩

/-- The names of the variants are those of the type. -/
theorem names_of_variants {τ : Type} [Tag τ] (kindOf : τ → Kind) :
    (variantsOf kindOf).map Prod.fst = Tag.names τ := by
  rw [variantsOf, List.map_map]
  rfl

mutual
/-- A tree is of a kind: all strings in it are plain or operators, and all objects in it are records with
their keys or have one of the tags as their only key. -/
inductive Fits : Kind → Json → Prop where
  | int (value) : Fits plain (.int value)
  | bool (value) : Fits plain (.bool value)
  | string (text) : Fits plain (.string text)
  | operator (names name) : name ∈ names → Fits (operator names) (.string name)
  | missing : Fits bound .null
  | tagged (kind tag inner value) : (tag, inner) ∈ kind.variants → Fits inner value →
      Fits kind (.object [(tag, value)])
  | list (part items) : (∀ item ∈ items, Fits part item) → Fits (list part) (.array items)
  | tuple (parts items) : List.Forall₂ Fits parts items → Fits (tuple parts) (.array items)
  | record (fields members) : FitsMembers fields members → Fits (record fields) (.object members)

/-- The members of an object have these keys, and their values are of these kinds. -/
inductive FitsMembers : List (String × Kind) → List (String × Json) → Prop where
  | nil : FitsMembers [] []
  | cons (key kind value fields members) : Fits kind value → FitsMembers fields members →
      FitsMembers ((key, kind) :: fields) ((key, value) :: members)
end

/-- A member and the ones behind it. -/
theorem Fits.member {key : String} {kind : Kind} {value : Json} {fields : List (String × Kind)}
    {members : List (String × Json)} (h : Fits kind value) (hmembers : FitsMembers fields members) :
    FitsMembers ((key, kind) :: fields) ((key, value) :: members) :=
  .cons key kind value fields members h hmembers

end Kind

end Json

open Json.Kind (Fits variantsOf mem_variants_of_iff)

/-- An operator is one of its names. -/
theorem fits_of_name {τ : Type} [Tag τ] (tag : τ) : Fits (.operator (Tag.names τ)) (.ofName tag) :=
  .operator _ _ (List.mem_map_of_mem (List.mem_of_find?_eq_some (Tag.find_name tag)))

/-- A tagged value is of a kind if what the tag carries is. -/
theorem fits_of_tag {τ : Type} [Tag τ] {kindOf : τ → Kind} {kind : Kind} {tag : τ} {value : Json}
    (hkind : kind.variants = variantsOf kindOf) (h : Fits (kindOf tag) value) :
    Fits kind (.ofTag tag value) :=
  .tagged kind _ _ value (hkind ▸ mem_variants_of_iff.mpr rfl) h

/-- A list of values is of a kind if each of them is. -/
theorem fits_map {α : Type} {part : Kind} {toJson : α → Json} {values : List α}
    (h : ∀ value ∈ values, Fits part (toJson value)) : Fits (.list part) (.array (values.map toJson)) :=
  .list part _ (List.forall_mem_map.mpr h)

/-- The tree of a literal is one. -/
theorem Numeral.fits (value : Numeral) : Fits .numeral value.toJson := by
  cases value <;> exact fits_of_tag rfl (.int _)

mutual
/-- The tree of a term is one. -/
theorem Term.fits : (term : Term) → Fits .term term.toJson
  | .num value => fits_of_tag rfl value.fits
  | .bool value => fits_of_tag rfl (.bool value)
  | .arith op args => fits_of_tag rfl (.tuple _ _ (.cons (fits_of_name op) (.cons (fits_terms args) .nil)))
  | .logic op args => fits_of_tag rfl (.tuple _ _ (.cons (fits_of_name op) (.cons (fits_terms args) .nil)))
  | .cmp op lhs rhs =>
      fits_of_tag rfl (.tuple _ _ (.cons (fits_of_name op) (.cons lhs.fits (.cons rhs.fits .nil))))
  | .eq lhs rhs naming =>
      fits_of_tag rfl (.record _ _ (lhs.fits.member (rhs.fits.member ((Fits.bool naming).member .nil))))
  | .distinct lhs rhs => fits_of_tag rfl (.tuple _ _ (.cons lhs.fits (.cons rhs.fits .nil)))
  | .not arg => fits_of_tag rfl arg.fits
  | .neg arg => fits_of_tag rfl arg.fits
  | .select source index =>
      fits_of_tag rfl (.record _ _ (source.fits.member (index.fits.member .nil)))
  | .concat bytes => fits_of_tag rfl (fits_terms bytes)
  | .extract args params =>
      fits_of_tag rfl (.record _ _ ((fits_terms args).member ((fits_params params).member .nil)))
  | .app name args params =>
      fits_of_tag rfl (.record _ _
        ((Fits.string name).member ((fits_terms args).member ((fits_params params).member .nil))))

/-- The trees of a list of terms are those of terms. -/
theorem fits_terms : (terms : List Term) → Fits (.list .term) (.array (termsToJson terms))
  | [] => .list _ _ (List.forall_mem_nil _)
  | term :: terms => by
      cases fits_terms terms with
      | list _ _ hterms => exact .list _ _ (List.forall_mem_cons.mpr ⟨term.fits, hterms⟩)

/-- The tree of a parameter is one. -/
theorem Param.fits : (param : Param) → Fits .param param.toJson
  | .int _ => fits_of_tag rfl (.int _)
  | .double _ => fits_of_tag rfl (.int _)
  | .rational _ _ =>
      fits_of_tag rfl (.record _ _ ((Fits.int _).member ((Fits.int _).member .nil)))
  | .symbol name => fits_of_tag rfl (.string name)
  | .sort name => fits_of_tag rfl (.string name)
  | .term value => fits_of_tag rfl value.fits
  | .funcDecl name => fits_of_tag rfl (.string name)

/-- The trees of a list of parameters are those of parameters. -/
theorem fits_params : (params : List Param) → Fits (.list .param) (.array (paramsToJson params))
  | [] => .list _ _ (List.forall_mem_nil _)
  | param :: params => by
      cases fits_params params with
      | list _ _ hparams => exact .list _ _ (List.forall_mem_cons.mpr ⟨param.fits, hparams⟩)
end

/-- The tree of an edge is that of a bound, or `null`. -/
theorem Bound.fits_edge (edge : Option Bound) : Fits .bound (Bound.edgeToJson edge) := by
  cases edge with
  | none => exact .missing
  | some bound =>
      cases bound with
      | constant value => exact fits_of_tag rfl (.int _)
      | symbolic term => exact fits_of_tag rfl term.fits

/-- The tree of an item is one. -/
theorem RhsItem.fits (item : RhsItem) : Fits .item item.toJson := by
  cases item with
  | production id => exact fits_of_tag rfl (.int _)
  | interval range =>
      exact fits_of_tag rfl (.record _ _
        ((Bound.fits_edge range.first).member ((Bound.fits_edge range.last).member .nil)))

/-- The tree of a production is one. -/
theorem Production.fits (production : Production) : Fits Json.Kind.production production.toJson :=
  .record _ _
    ((Fits.int _).member <|
      (fits_map fun _ _ => fits_map fun item _ => item.fits).member <|
        (fits_map fun term _ => term.fits).member .nil)

/-- The tree of a grammar is of the kind of a grammar. -/
theorem Grammar.fits (grammar : Grammar) : Fits Json.Kind.grammar grammar.toJson :=
  .record _ _ ((fits_map fun production _ => production.fits).member .nil)

namespace Json

open Reader (isBlank)

/-! ## Altered texts -/

/-- The text of a member of an object: a name and a value in any notation, with blanks around. -/
inductive MemberText : List Char → Prop where
  | member (gap key value last depth) : Blank gap → KeyText .curly key → WellFormed depth value →
      Blank last → MemberText (gap ++ key ++ value ++ last)

/-- The text of an object with one member. -/
def objectText (gap name before behind value last : List Char) : List Char :=
  '\x7b' :: (gap ++ name ++ before ++ [':'] ++ behind ++ value ++ last ++ ['\x7d'])

/-- What stands between the tokens of an object with one member. -/
structure Gaps (gap before behind last : List Char) : Prop where
  gap : Blank gap
  before : Blank before
  behind : Blank behind
  last : Blank last

mutual
/-- `Altered kind tree text changed` says that `text` is a text of a tree of a kind, and `changed` the same
text with an unknown shape at one place: another string instead of an operator or of a tag, or a second
member in front of a tag or behind its value. -/
inductive Altered : Kind → Json → List Char → List Char → Prop where
  | operator (names name key other) : Denotes key other.toList → other ∉ names →
      Altered (.operator names) (.string name) (quote name.toList) ('"' :: (key ++ ['"']))
  | tag (kind tag inner value gap key other before behind text last) : (tag, inner) ∈ kind.variants →
      Gaps gap before behind last → Spells value text → Denotes key other.toList →
      other ∉ kind.variants.map Prod.fst →
      Altered kind (.object [(tag, value)]) (objectText gap (quote tag.toList) before behind text last)
        (objectText gap ('"' :: (key ++ ['"'])) before behind text last)
  | front (kind tag inner value gap before behind text last member) : (tag, inner) ∈ kind.variants →
      Gaps gap before behind last → Spells value text → MemberText member →
      Altered kind (.object [(tag, value)]) (objectText gap (quote tag.toList) before behind text last)
        (objectText (member ++ ',' :: gap) (quote tag.toList) before behind text last)
  | back (kind tag inner value gap before behind text last member) : (tag, inner) ∈ kind.variants →
      Gaps gap before behind last → Spells value text → MemberText member →
      Altered kind (.object [(tag, value)]) (objectText gap (quote tag.toList) before behind text last)
        (objectText gap (quote tag.toList) before behind text (last ++ ',' :: member))
  | inside (kind tag inner value gap before behind text changed last) : (tag, inner) ∈ kind.variants →
      Gaps gap before behind last → Altered inner value text changed →
      Altered kind (.object [(tag, value)]) (objectText gap (quote tag.toList) before behind text last)
        (objectText gap (quote tag.toList) before behind changed last)
  | list (part items text changed) : AlteredItems true (items.map fun _ => part) items text changed →
      Altered (.list part) (.array items) ('[' :: text) ('[' :: changed)
  | tuple (parts items text changed) : AlteredItems true parts items text changed →
      Altered (.tuple parts) (.array items) ('[' :: text) ('[' :: changed)
  | record (fields members text changed) : AlteredMembers true fields members text changed →
      Altered (.record fields) (.object members) ('\x7b' :: text) ('\x7b' :: changed)

/-- The place is in one of the items of an array, whose kinds are given. -/
inductive AlteredItems : Bool → List Kind → List Json → List Char → List Char → Prop where
  | here (first kind kinds item items blanks gap text changed rest) : Blank blanks → Blank gap →
      Altered kind item text changed → SpellsItems false items rest →
      AlteredItems first (kind :: kinds) (item :: items)
        (blanks ++ separator first ++ gap ++ text ++ rest)
        (blanks ++ separator first ++ gap ++ changed ++ rest)
  | later (first kind kinds item items blanks gap text rest changed) : Blank blanks → Blank gap →
      Spells item text → AlteredItems false kinds items rest changed →
      AlteredItems first (kind :: kinds) (item :: items)
        (blanks ++ separator first ++ gap ++ text ++ rest)
        (blanks ++ separator first ++ gap ++ text ++ changed)

/-- The place is in one of the members of an object, whose keys and kinds are given. -/
inductive AlteredMembers : Bool → List (String × Kind) → List (String × Json) → List Char → List Char →
    Prop where
  | here (first key kind fields value members blanks gap before behind text changed rest) :
      Blank blanks → Blank gap → Blank before → Blank behind → Altered kind value text changed →
      SpellsMembers false members rest →
      AlteredMembers first ((key, kind) :: fields) ((key, value) :: members)
        (blanks ++ separator first ++ gap ++ quote key.toList ++ before ++ [':'] ++ behind ++ text ++
          rest)
        (blanks ++ separator first ++ gap ++ quote key.toList ++ before ++ [':'] ++ behind ++ changed ++
          rest)
  | later (first key kind fields value members blanks gap before behind text rest changed) :
      Blank blanks → Blank gap → Blank before → Blank behind → Spells value text →
      AlteredMembers false fields members rest changed →
      AlteredMembers first ((key, kind) :: fields) ((key, value) :: members)
        (blanks ++ separator first ++ gap ++ quote key.toList ++ before ++ [':'] ++ behind ++ text ++
          rest)
        (blanks ++ separator first ++ gap ++ quote key.toList ++ before ++ [':'] ++ behind ++ text ++
          changed)
end

/-- The text of an object with one member. -/
theorem spells_object_text {tag : String} {value : Json} {gap before behind text last : List Char}
    (hgaps : Gaps gap before behind last) (h : value.Spells text) :
    Spells (.object [(tag, value)]) (objectText gap (quote tag.toList) before behind text last) := by
  have hbody := SpellsMembers.next true tag value [] [] gap before behind text (last ++ ['\x7d'])
    blank_nil hgaps.gap hgaps.before hgaps.behind h (.close false last hgaps.last)
  simpa [objectText, separator] using Spells.object _ _ hbody

mutual
/-- The text that is altered is a text of the tree. -/
theorem spells_of_altered {kind : Kind} {tree : Json} {text changed : List Char}
    (h : Altered kind tree text changed) : tree.Spells text := by
  cases h with
  | operator _ name => exact .string name
  | tag _ _ _ _ _ _ _ _ _ _ _ _ hgaps htext | front _ _ _ _ _ _ _ _ _ _ _ hgaps htext
  | back _ _ _ _ _ _ _ _ _ _ _ hgaps htext => exact spells_object_text hgaps htext
  | inside _ _ _ _ _ _ _ _ _ _ _ hgaps h => exact spells_object_text hgaps (spells_of_altered h)
  | list _ items text _ h | tuple _ items text _ h => exact .array items text (spells_of_altered_items h)
  | record _ members text _ h => exact .object members text (spells_of_altered_members h)

/-- The text of the items that are altered is a text of these items. -/
theorem spells_of_altered_items {first : Bool} {kinds : List Kind} {items : List Json}
    {text changed : List Char} (h : AlteredItems first kinds items text changed) :
    SpellsItems first items text := by
  cases h with
  | here _ _ _ item items blanks gap text _ rest hblanks hgap h hrest =>
      exact .next first item items blanks gap text rest hblanks hgap (spells_of_altered h) hrest
  | later _ _ _ item items blanks gap text rest _ hblanks hgap htext h =>
      exact .next first item items blanks gap text rest hblanks hgap htext (spells_of_altered_items h)

/-- The text of the members that are altered is a text of these members. -/
theorem spells_of_altered_members {first : Bool} {fields : List (String × Kind)}
    {members : List (String × Json)} {text changed : List Char}
    (h : AlteredMembers first fields members text changed) : SpellsMembers first members text := by
  cases h with
  | here _ key _ _ value members blanks gap before behind text _ rest hblanks hgap hbefore hbehind h
      hrest =>
      exact .next first key value members blanks gap before behind text rest hblanks hgap hbefore hbehind
        (spells_of_altered h) hrest
  | later _ key _ _ value members blanks gap before behind text rest _ hblanks hgap hbefore hbehind htext
      h =>
      exact .next first key value members blanks gap before behind text rest hblanks hgap hbefore hbehind
        htext (spells_of_altered_members h)
end

/-- A text with an unknown shape starts with a character that neither is blank nor closes an array. -/
theorem Altered.starts {kind : Kind} {tree : Json} {text changed : List Char}
    (h : Altered kind tree text changed) :
    ∃ c more, changed = c :: more ∧ isBlank c = false ∧ c ≠ ']' := by
  cases h <;> exact ⟨_, _, rfl, by decide, by decide⟩

/-- An item ends where the altered text of the next ones starts. -/
theorem AlteredItems.ends {kinds : List Kind} {items : List Json} {text changed : List Char}
    (h : AlteredItems false kinds items text changed) (rest : List Char) : Ends (changed ++ rest) := by
  cases h with
  | here _ _ _ _ _ blanks _ _ _ _ hblanks | later _ _ _ _ _ blanks _ _ _ _ hblanks =>
      simp only [List.append_assoc]
      exact hblanks.ends _ (by decide)

/-- A member ends where the altered text of the next ones starts. -/
theorem AlteredMembers.ends {fields : List (String × Kind)} {members : List (String × Json)}
    {text changed : List Char} (h : AlteredMembers false fields members text changed) (rest : List Char) :
    Ends (changed ++ rest) := by
  cases h with
  | here _ _ _ _ _ _ blanks _ _ _ _ _ _ hblanks | later _ _ _ _ _ _ blanks _ _ _ _ _ _ hblanks =>
      simp only [List.append_assoc]
      exact hblanks.ends _ (by decide)

/-- There are fewer items than characters in their altered text. -/
theorem AlteredItems.length_lt {first : Bool} {kinds : List Kind} {items : List Json}
    {text changed : List Char} (h : AlteredItems first kinds items text changed) :
    items.length < changed.length := by
  induction items generalizing first kinds text changed with
  | nil => cases h
  | cons tree trees ih =>
      cases h with
      | here _ _ _ _ _ blanks gap _ altered rest _ _ haltered hrest =>
          obtain ⟨c, more, rfl, -⟩ := haltered.starts
          have := hrest.length_lt
          simp only [List.length_append, List.length_cons]
          omega
      | later _ _ _ _ _ blanks gap text rest altered _ _ htext haltered =>
          obtain ⟨c, more, rfl, -⟩ := htext.starts
          have := ih haltered
          simp only [List.length_append, List.length_cons]
          omega

/-- There are fewer members than characters in their altered text. -/
theorem AlteredMembers.length_lt {first : Bool} {fields : List (String × Kind)}
    {members : List (String × Json)} {text changed : List Char}
    (h : AlteredMembers first fields members text changed) : members.length < changed.length := by
  induction members generalizing first fields text changed with
  | nil => cases h
  | cons member members ih =>
      cases h with
      | here _ _ _ _ _ _ blanks gap before behind _ altered rest _ _ _ _ _ hrest =>
          have := hrest.length_lt
          simp only [List.length_append, List.length_cons]
          omega
      | later _ _ _ _ _ _ blanks gap before behind text rest altered _ _ _ _ _ haltered =>
          have := ih haltered
          simp only [List.length_append, List.length_cons]
          omega

end Json

end ByteGrammar
