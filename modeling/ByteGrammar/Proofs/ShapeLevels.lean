import ByteGrammar.Proofs.JsonLevels

/-!
# Levels of lists, tuples, records and tagged values

Every shape follows the level that it stands on if the readers of its parts do, in each of its notations and
for every text. So all readers of a grammar do. For a tagged value this means that it has one member: a comma
on the level of its tag cannot belong to the value of the tag, and so it is refused.
-/

namespace ByteGrammar

namespace Json.Reader

variable {α β γ σ τ : Type} {depth bound : Nat} {tail : List Char}
variable {P : List Char → Prop}

/-! ## Arrays -/

/-- What separates items belongs to the level of their array. -/
theorem ensures_has_item (first : Bool) : Ensures (EndsAt .outside (depth + 1) tail bound)
    (hasItem first) fun _ => EndsAt .outside (depth + 1) tail bound := by
  refine ensures_peek_token.bind fun next => ?_
  split
  · exact ensures_of_yields (yields_fail_next _)
  · exact (follows_pure _ _ _ _).unseen
  · split
    · exact (follows_pure _ _ _ _).unseen
    · split
      · exact ensures_of_yields (yields_fail_next _)
      case isFalse hcomma =>
        obtain rfl := not_not.mp hcomma
        refine .past (fun htext => htext.comma) (ensures_peek_token.bind fun next => Ensures.unseen ?_)
        split
        · exact ensures_of_yields (yields_fail_next _)
        · exact ensures_of_yields (yields_fail_next _)
        · exact follows_pure _ _ _ _

/-- The items of an array belong to its level. -/
theorem ensures_items {item : Reader α} (h : Follows item) (limit : List Char) (first : Bool) :
    Ensures (EndsAt .outside (depth + 1) tail bound) (items item limit first)
      fun _ => EndsAt .outside (depth + 1) tail bound := by
  induction limit generalizing first with
  | nil => exact follows_pure _ _ _ _
  | cons c limit ih =>
      refine (ensures_has_item first).bind fun more => ?_
      split
      · exact (h _ _ _).bind fun head => (ih false).bind fun tail => follows_pure _ _ _ _
      · exact follows_pure _ _ _ _

/-- The end of an array leaves its level. -/
theorem ensures_end_of_array : Ensures (EndsAt .outside (depth + 1) tail bound) endOfArray
    fun _ => EndsAt .outside depth tail bound := by
  refine ensures_peek_token.bind fun next => ?_
  split
  · exact ensures_of_yields (yields_fail_next _)
  · rw [← bind_pure advance]
    exact .past (fun htext => htext.closing (.inl rfl)) (follows_pure () _ _ _)
  · refine ensures_of_yields (Yields.after fun _ => Yields.after fun next => ?_)
    split <;> exact yields_fail_next _
  · exact ensures_of_yields (yields_fail_next _)

/-- What stands inside of a bracket belongs to its level, up to what closes it. -/
theorem ensures_enter {c : Char} {inside : Option (Reader α)} (hc : c = '[' ∨ c = '\x7b')
    (h : ∀ reader ∈ inside, Ensures (EndsAt .outside (depth + 1) tail bound) reader
      fun _ => EndsAt .outside depth tail bound) :
    Ensures (fun text => text.head? = some c ∧ EndsAt .outside depth tail bound text) (enter inside)
      fun _ => EndsAt .outside depth tail bound := by
  cases inside with
  | none => exact ensures_of_yields (yields_fail_next _)
  | some reader => exact .past (fun htext => htext.opening hc) (h reader rfl)

/-- A list belongs to the level. -/
theorem follows_list {item : Option (Reader α)} (h : ∀ reader ∈ item, Follows reader) :
    Follows (list item) := by
  intro depth tail bound
  refine ensures_peek_token.bind fun next => ?_
  split
  · exact ensures_of_yields (yields_fail_next _)
  · refine Ensures.bind (Q := fun _ text => text.head? = some '[' ∧ EndsAt .outside depth tail bound text)
      ?_ fun limit => ensures_enter (.inl rfl) fun reader hreader => ?_
    · rintro text value rest htext hread
      cases hread
      exact htext
    · obtain ⟨inner, hinner, rfl⟩ := Option.mem_map.mp hreader
      refine Ensures.leave ?_ closeArray
      exact (ensures_items (h inner hinner) limit true).bind fun values =>
        ensures_end_of_array.bind fun _ => follows_pure values _ _ _
  · exact (follows_mismatch _ _ _ _).unseen

/-- The part of a tuple at an index belongs to its level. -/
theorem ensures_item_at {item : Reader α} (h : Follows item) (index : Nat) (expected : String) :
    Ensures (EndsAt .outside (depth + 1) tail bound) (itemAt index expected item)
      fun _ => EndsAt .outside (depth + 1) tail bound := by
  refine (ensures_has_item _).bind fun more => ?_
  split
  · exact h _ _ _
  · exact ensures_of_yields (yields_fail_pending _)

/-- The part of a tuple at an index belongs to its level, if it is there. -/
theorem ensures_item_at_or {item : Reader α} (h : Follows item) (index : Nat) (missing : α) :
    Ensures (EndsAt .outside (depth + 1) tail bound) (itemAtOr index missing item)
      fun _ => EndsAt .outside (depth + 1) tail bound := by
  refine (ensures_has_item _).bind fun more => ?_
  split
  · exact h _ _ _
  · exact follows_pure _ _ _ _

/-- A pair belongs to the level. -/
theorem follows_pair {expected : String} {parts : Option (Reader α × Reader β)}
    (h : ∀ readers ∈ parts, Follows readers.1 ∧ Follows readers.2) : Follows (pair expected parts) := by
  intro depth tail bound
  refine ensures_peek_token.bind fun next => ?_
  split
  · exact ensures_of_yields (yields_fail_next _)
  · refine ensures_enter (.inl rfl) fun reader hreader => ?_
    obtain ⟨⟨left, right⟩, hparts, rfl⟩ := Option.mem_map.mp hreader
    obtain ⟨hleft, hright⟩ := h _ hparts
    refine Ensures.leave ?_ closeArray
    exact (ensures_item_at hleft 0 _).bind fun first => (ensures_item_at hright 1 _).bind fun second =>
      ensures_end_of_array.bind fun _ => follows_pure _ _ _ _
  · exact (follows_mismatch _ _ _ _).unseen

/-- A triple belongs to the level. -/
theorem follows_triple {expected : String} {parts : Option (Reader α × Reader β × Reader γ)}
    (h : ∀ readers ∈ parts, Follows readers.1 ∧ Follows readers.2.1 ∧ Follows readers.2.2) :
    Follows (triple expected parts) := by
  intro depth tail bound
  refine ensures_peek_token.bind fun next => ?_
  split
  · exact ensures_of_yields (yields_fail_next _)
  · refine ensures_enter (.inl rfl) fun reader hreader => ?_
    obtain ⟨⟨left, middle, right⟩, hparts, rfl⟩ := Option.mem_map.mp hreader
    obtain ⟨hleft, hmiddle, hright⟩ := h _ hparts
    refine Ensures.leave ?_ closeArray
    exact (ensures_item_at hleft 0 _).bind fun first => (ensures_item_at hmiddle 1 _).bind fun second =>
      (ensures_item_at hright 2 _).bind fun third =>
        ensures_end_of_array.bind fun _ => follows_pure _ _ _ _
  · exact (follows_mismatch _ _ _ _).unseen

/-! ## Objects -/

/-- What separates members belongs to the level of their object. The key of the next member is next if
there is one, and the brace if there is none. -/
theorem ensures_has_member (first : Bool) : Ensures (EndsAt .outside (depth + 1) tail bound)
    (hasMember first) fun more text =>
      text.head? = some (if more then '"' else '\x7d') ∧ EndsAt .outside (depth + 1) tail bound text := by
  refine ensures_peek_token.bind fun next => ?_
  split
  · exact ensures_of_yields (yields_fail_next _)
  · exact ensures_pure fun _ => id
  · split
    · split
      case isTrue hquote => exact ensures_pure fun _ htext => hquote ▸ htext
      case isFalse => exact ensures_of_yields (yields_fail_next _)
    · split
      · exact ensures_of_yields (yields_fail_next _)
      case isFalse hcomma =>
        obtain rfl := not_not.mp hcomma
        refine .past (fun htext => htext.comma) (ensures_peek_token.bind fun next => ?_)
        split
        · exact ensures_of_yields (yields_fail_next _)
        · exact ensures_pure fun _ => id
        · exact ensures_of_yields (yields_fail_next _)
        · exact ensures_of_yields (yields_fail_next _)

/-- The members of an object belong to its level, up to its brace, if the limit is long enough. -/
theorem ensures_members {step : String → σ → Reader σ} (h : ∀ key state, Follows (step key state))
    {limit : List Char} (hlimit : limit.length = bound + 1) (first : Bool) (state : σ) :
    Ensures (EndsAt .outside (depth + 1) tail bound) (members step limit first state)
      fun _ text => text.head? = some '\x7d' ∧ EndsAt .outside (depth + 1) tail bound text := by
  induction limit generalizing bound first state with
  | nil => cases hlimit
  | cons c limit ih =>
      refine (ensures_has_member first).bind fun more => ?_
      cases more with
      | false => exact ensures_pure fun _ => id
      | true =>
          refine ensures_seen ?_
          rintro less rfl
          refine .beyond EndsAt.quote (ensures_string_rest.bind fun key => ?_)
          refine (h key state _ _ _).bind fun next => ?_
          exact (ih (Nat.succ.inj hlimit) false next).weaken (fun _ => id)
            fun _ _ htext => ⟨htext.1, htext.2.mono (Nat.le_succ less)⟩

/-- A field that is read belongs to the level. -/
theorem follows_once {value : Reader α} (h : Follows value) (key : String) (known : Option α) :
    Follows (once key known value) := by
  cases known with
  | some _ => exact follows_of_yields (yields_fail_pending _)
  | none => exact follows_colon.bind fun _ => h.bind fun _ => follows_pure _

/-- A field that is read and put into a state belongs to the level. -/
theorem follows_field {value : Reader α} (h : Follows value) {key : String} {known : Option α}
    {put : Option α → σ} : Follows (do return put (← once key known value)) :=
  (follows_once h key known).bind fun found => follows_pure (put found)

/-- A member that is no field belongs to the level. -/
theorem follows_unknown (state : σ) : Follows (unknown state) :=
  follows_colon.bind fun _ => follows_skip_value.bind fun _ => follows_pure state

/-- Asking for a field reads nothing. -/
theorem ensures_required (key : String) (known : Option α) : Ensures P (required key known) fun _ => P := by
  cases known with
  | none => exact ensures_of_yields (yields_fail_pending _)
  | some value => exact ensures_pure fun _ => id

/-- A record belongs to the level, in both of its notations. -/
theorem follows_record {expected : String} {fields : Option (Fields σ α)}
    (hstep : ∀ known ∈ fields, ∀ key state, Follows (known.step key state))
    (hfinish : ∀ known ∈ fields, ∀ state (P : List Char → Prop), Ensures P (known.finish state) fun _ => P)
    (hpositional : ∀ known ∈ fields, ∀ depth tail bound,
      Ensures (EndsAt .outside (depth + 1) tail bound) known.positional
        fun _ => EndsAt .outside (depth + 1) tail bound) :
    Follows (record expected fields) := by
  intro depth tail bound
  refine ensures_peek_token.bind fun next => ?_
  split
  · exact ensures_of_yields (yields_fail_next _)
  · rintro text value rest ⟨hhead, htext⟩ hread
    obtain ⟨body, rfl⟩ := List.head?_eq_some_iff.mp hhead
    -- The limit is the text with the brace, which is longer than what is read inside.
    have hinside : Ensures
        (fun text => text.head? = some '\x7b' ∧ EndsAt .outside depth tail (body.length + 1) text)
        (enter (fields.map fun fields => leave closeObject do
          let state ← members fields.step ('\x7b' :: body) true fields.start
          let result ← fields.finish state
          advance
          return result))
        fun _ => EndsAt .outside depth tail body.length := by
      cases fields with
      | none => exact ensures_of_yields (yields_fail_next _)
      | some known =>
          refine .beyond (fun htext => htext.opening (.inr rfl)) (Ensures.leave ?_ closeObject)
          refine (ensures_members (hstep known rfl) rfl true _).bind fun state => ?_
          refine (hfinish known rfl state _).bind fun result => ?_
          exact .past (fun htext => htext.closing (.inr rfl)) (follows_pure result _ _ _)
    have hrest := hinside ⟨hhead, htext.level, Nat.le_refl _⟩ hread
    exact hrest.mono ((Nat.le_succ _).trans htext.short)
  · refine ensures_enter (.inl rfl) fun reader hreader => ?_
    obtain ⟨known, hknown, rfl⟩ := Option.mem_map.mp hreader
    refine Ensures.leave ?_ closeArray
    exact (hpositional known hknown _ _ _).bind fun value => ensures_end_of_array.bind fun _ =>
      follows_pure value _ _ _
  · exact (follows_mismatch _ _ _ _).unseen

/-- Without a bracket nothing is read as a record. -/
theorem follows_record_none {expected : String} :
    Follows (record expected (none : Option (Fields σ α))) :=
  follows_record (by simp) (by simp) (by simp)

/-! ## Tags -/

/-- A tag belongs to the level. -/
theorem ensures_tag [Tag τ] :
    Ensures (fun text => text.head? = some '"' ∧ EndsAt .outside depth tail bound text)
      (tag : Reader τ) fun _ => EndsAt .outside depth tail bound := by
  refine .past EndsAt.quote (ensures_string_rest.bind fun name => ?_)
  split
  · exact follows_pure _ _ _ _
  · exact ensures_of_yields (yields_fail_here _)

/-- What stands from the tag of a tagged value on, with the brace that closes. -/
def tagAndValue [Tag τ] (payload : τ → Reader β) : Reader β := do
  let tag ← tag
  colon
  let value ← payload tag
  match ← peekToken with
  | none => failHere .endInObject
  | some '\x7d' =>
      advance
      return value
  | some _ => failHere .expectedValue

/-- What stands behind the brace that opens a tagged value. -/
def onlyMember [Tag τ] (payload : τ → Reader β) : Reader β := do
  match ← peekToken with
  | none => failNext .endInObject
  | some '"' => tagAndValue payload
  | some '\x7d' => failNext .expectedValue
  | some _ => failNext .keyMustBeString

/-- The only member of a tagged value belongs to one level, up to the brace that closes. -/
theorem ensures_only_member [Tag τ] {read : τ → Reader β} (h : ∀ tag, Follows (read tag)) :
    Ensures (EndsAt .outside depth tail bound) (onlyMember read)
      fun _ rest => EndsAt .outside depth tail bound ('\x7d' :: rest) := by
  refine ensures_peek_token.bind fun next => ?_
  split
  · exact ensures_of_yields (yields_fail_next _)
  · refine ensures_tag.bind fun tag => (follows_colon _ _ _).bind fun _ => ?_
    refine (h tag _ _ _).bind fun value => ensures_peek_token.bind fun next => ?_
    split
    · exact ensures_of_yields (yields_fail_here _)
    · exact ensures_advance.bind fun _ => ensures_pure fun _ => id
    · exact ensures_of_yields (yields_fail_here _)
  · exact ensures_of_yields (yields_fail_next _)
  · exact ensures_of_yields (yields_fail_next _)

/-- A tagged value belongs to the level. -/
theorem follows_tagged [Tag τ] {bare : τ → Reader β} {payload : Option (τ → Reader β)}
    (hbare : ∀ tag, Follows (bare tag)) (hpayload : ∀ read ∈ payload, ∀ tag, Follows (read tag)) :
    Follows (tagged bare payload) := by
  intro depth tail bound
  refine ensures_peek_token.bind fun next => ?_
  split
  · exact ensures_of_yields (yields_fail_next _)
  · refine ensures_enter (.inr rfl) fun reader hreader => ?_
    obtain ⟨read, hread, rfl⟩ := Option.mem_map.mp hreader
    refine (ensures_only_member (hpayload read hread)).weaken (fun _ => id) fun value rest hrest => ?_
    obtain ⟨less, rfl⟩ := hrest.exists_bound
    exact (hrest.closing (.inr rfl)).mono (Nat.le_succ less)
  · exact ensures_tag.bind fun tag => hbare tag _ _ _
  · exact ensures_of_yields (yields_fail_next _)

/-- A tagged value with a comma on the level of its tag is refused: behind the value of the tag the reader
needs a brace. -/
theorem tagged_fails_of_comma [Tag τ] {bare : τ → Reader β} {payload : Option (τ → Reader β)}
    (hpayload : ∀ read ∈ payload, ∀ tag, Follows (read tag)) {blanks body more : List Char}
    (hblanks : Blank blanks) (hbody : levelEnd .outside 0 body = ',' :: more) :
    Fails (tagged bare payload) (blanks ++ '\x7b' :: body) := by
  rw [Fails, tagged, bind_of_ok (peek_token_append hblanks (by decide) body)]
  cases payload with
  | none => exact ⟨_, rfl⟩
  | some read =>
      show Fails (advance >>= fun _ => _) ('\x7b' :: body)
      rw [Fails, bind_of_ok (advance_cons _ _)]
      have htext : EndsAt .outside 0 (',' :: more) body.length body := ⟨hbody, Nat.le_refl _⟩
      refine fails_of_ensures htext ((ensures_only_member (hpayload read rfl)).weaken
        (fun _ => id) fun value rest hrest => ?_)
      cases hrest.level

/-- The value `null` belongs to the level. -/
theorem follows_unit : Follows unit := by
  intro depth tail bound
  refine ensures_peek_token.bind fun next => ?_
  split
  · exact ensures_of_yields (yields_fail_next _)
  · exact .ordinary (by decide) (follows_letters (by simp [Ordinary]) _ _ _)
  · exact (follows_mismatch _ _ _ _).unseen

/-- A tag that stands for itself belongs to the level. -/
theorem follows_bare_tag [Tag τ] (nesting : Nat) : Follows (bareTag nesting : Reader τ) := by
  refine follows_tagged (fun tag => follows_pure tag) ?_
  cases nesting with
  | zero => simp
  | succ nesting =>
      rintro _ ⟨⟩ tag
      exact follows_unit.bind fun _ => follows_pure tag

/-- A value that may be `null` belongs to the level. -/
theorem follows_optional {value : Reader α} (h : Follows value) : Follows (optional value) := by
  intro depth tail bound
  refine ensures_peek_token.bind fun next => ?_
  split
  · exact ensures_word (by decide) (by simp [Ordinary]) none
  · exact ((h _ _ _).bind fun value => follows_pure (some value) _ _ _).unseen

/-- A reader of values that have one member. -/
structure Single (reader : Reader β) : Prop where
  follows : Follows reader
  fails_of_comma : ∀ ⦃blanks body more⦄, Blank blanks → levelEnd .outside 0 body = ',' :: more →
    Fails reader (blanks ++ '\x7b' :: body)

/-- A tagged value has one member if the values behind its tags follow their level. -/
theorem single_tagged [Tag τ] {bare : τ → Reader β} {payload : Option (τ → Reader β)}
    (hbare : ∀ tag, Follows (bare tag)) (hpayload : ∀ read ∈ payload, ∀ tag, Follows (read tag)) :
    Single (tagged bare payload) :=
  ⟨follows_tagged hbare hpayload, fun _ _ _ => tagged_fails_of_comma hpayload⟩

end Json.Reader

/-! ## Readers of grammars -/

open Json Json.Reader

/-- A literal has one member. -/
theorem Numeral.single_read (nesting : Nat) : Single (Numeral.read nesting) := by
  refine single_tagged (fun _ => follows_of_yields (yields_fail_pending _)) ?_
  cases nesting with
  | zero => simp
  | succ nesting =>
      rintro _ ⟨⟩ tag
      cases tag <;> exact (follows_integer_of _ _).map _

/-- The parts of a rational parameter belong to the level. -/
theorem Param.follows_read_rational (nesting : Nat) : Follows (Param.readRational nesting) := by
  cases nesting with
  | zero => exact follows_record_none
  | succ nesting =>
      have hpart : Follows signed64 := follows_integer_of _ _
      refine follows_record ?_ ?_ ?_
      · rintro _ ⟨⟩ key ⟨num, den⟩
        dsimp only
        split
        · exact follows_field hpart
        · exact follows_field hpart
        · exact follows_unknown _
      · rintro _ ⟨⟩ ⟨num, den⟩ P
        exact (ensures_required _ _).bind fun _ => (ensures_required _ _).bind fun _ =>
          ensures_pure fun _ => id
      · rintro _ ⟨⟩ depth tail bound
        exact (ensures_item_at hpart 0 _).bind fun _ => (ensures_item_at hpart 1 _).bind fun _ =>
          ensures_pure fun _ => id

mutual
/-- A term has one member. -/
theorem Term.single_read : (nesting : Nat) → Single (Term.read nesting)
  | 0 => single_tagged (fun _ => follows_of_yields (yields_fail_pending _)) (by simp)
  | nesting + 1 => by
      refine single_tagged (fun _ => follows_of_yields (yields_fail_pending _)) ?_
      rintro _ ⟨⟩ tag
      cases tag with
      | num => exact (Numeral.single_read nesting).follows.map _
      | bool => exact follows_boolean.map _
      | arith => exact (follows_read_arith nesting).map _
      | logic => exact (follows_read_logic nesting).map _
      | cmp => exact (follows_read_cmp nesting).map _
      | distinct => exact (follows_read_distinct nesting).map _
      | not | neg => exact (Term.single_read nesting).follows.map _
      | concat => exact (follows_read_terms nesting).map _
      | eq => exact follows_read_eq nesting
      | select => exact follows_read_select nesting
      | extract => exact follows_read_extract nesting
      | app => exact follows_read_app nesting

/-- A list of terms belongs to the level. -/
theorem follows_read_terms : (nesting : Nat) → Follows (readTerms nesting)
  | 0 => follows_list (by simp)
  | nesting + 1 => follows_list (by rintro _ ⟨⟩; exact (Term.single_read nesting).follows)

/-- A parameter has one member. -/
theorem Param.single_read : (nesting : Nat) → Single (Param.read nesting)
  | 0 => single_tagged (fun _ => follows_of_yields (yields_fail_pending _)) (by simp)
  | nesting + 1 => by
      refine single_tagged (fun _ => follows_of_yields (yields_fail_pending _)) ?_
      rintro _ ⟨⟩ tag
      cases tag with
      | int | double => exact (follows_integer_of _ _).map _
      | rational => exact Param.follows_read_rational nesting
      | symbol | sort | funcDecl => exact follows_string.map _
      | term => exact (Term.single_read nesting).follows.map _

/-- A list of parameters belongs to the level. -/
theorem follows_read_params : (nesting : Nat) → Follows (readParams nesting)
  | 0 => follows_list (by simp)
  | nesting + 1 => follows_list (by rintro _ ⟨⟩; exact (Param.single_read nesting).follows)

/-- An arithmetic operator with its operands belongs to the level. -/
theorem follows_read_arith : (nesting : Nat) → Follows (readArith nesting)
  | 0 => follows_pair (by simp)
  | nesting + 1 => follows_pair (by rintro _ ⟨⟩; exact ⟨follows_bare_tag _, follows_read_terms nesting⟩)

/-- A connective with its operands belongs to the level. -/
theorem follows_read_logic : (nesting : Nat) → Follows (readLogic nesting)
  | 0 => follows_pair (by simp)
  | nesting + 1 => follows_pair (by rintro _ ⟨⟩; exact ⟨follows_bare_tag _, follows_read_terms nesting⟩)

/-- A comparison with its two sides belongs to the level. -/
theorem follows_read_cmp : (nesting : Nat) → Follows (readCmp nesting)
  | 0 => follows_triple (by simp)
  | nesting + 1 => by
      have hterm := (Term.single_read nesting).follows
      exact follows_triple (by rintro _ ⟨⟩; exact ⟨follows_bare_tag _, hterm, hterm⟩)

/-- The two sides of an inequality belong to the level. -/
theorem follows_read_distinct : (nesting : Nat) → Follows (readDistinct nesting)
  | 0 => follows_pair (by simp)
  | nesting + 1 => by
      have hterm := (Term.single_read nesting).follows
      exact follows_pair (by rintro _ ⟨⟩; exact ⟨hterm, hterm⟩)

/-- The fields of an equality belong to the level. -/
theorem follows_read_eq : (nesting : Nat) → Follows (readEq nesting)
  | 0 => follows_record_none
  | nesting + 1 => by
      have hterm := (Term.single_read nesting).follows
      refine follows_record ?_ ?_ ?_
      · rintro _ ⟨⟩ key ⟨lhs, rhs, naming⟩
        dsimp only
        split
        · exact follows_field hterm
        · exact follows_field hterm
        · exact follows_field follows_boolean
        · exact follows_unknown _
      · rintro _ ⟨⟩ ⟨lhs, rhs, naming⟩ P
        exact (ensures_required _ _).bind fun _ => (ensures_required _ _).bind fun _ =>
          ensures_pure fun _ => id
      · rintro _ ⟨⟩ depth tail bound
        exact (ensures_item_at hterm 0 _).bind fun _ => (ensures_item_at hterm 1 _).bind fun _ =>
          (ensures_item_at_or follows_boolean 2 _).bind fun _ => ensures_pure fun _ => id

/-- The fields of a byte read belong to the level. -/
theorem follows_read_select : (nesting : Nat) → Follows (readSelect nesting)
  | 0 => follows_record_none
  | nesting + 1 => by
      have hterm := (Term.single_read nesting).follows
      refine follows_record ?_ ?_ ?_
      · rintro _ ⟨⟩ key ⟨array, index⟩
        dsimp only
        split
        · exact follows_field hterm
        · exact follows_field hterm
        · exact follows_unknown _
      · rintro _ ⟨⟩ ⟨array, index⟩ P
        exact (ensures_required _ _).bind fun _ => (ensures_required _ _).bind fun _ =>
          ensures_pure fun _ => id
      · rintro _ ⟨⟩ depth tail bound
        exact (ensures_item_at hterm 0 _).bind fun _ => (ensures_item_at hterm 1 _).bind fun _ =>
          ensures_pure fun _ => id

/-- The fields of a bit range belong to the level. -/
theorem follows_read_extract : (nesting : Nat) → Follows (readExtract nesting)
  | 0 => follows_record_none
  | nesting + 1 => by
      have hterms := follows_read_terms nesting
      have hparams := follows_read_params nesting
      refine follows_record ?_ ?_ ?_
      · rintro _ ⟨⟩ key ⟨args, params⟩
        dsimp only
        split
        · exact follows_field hterms
        · exact follows_field hparams
        · exact follows_unknown _
      · rintro _ ⟨⟩ ⟨args, params⟩ P
        exact (ensures_required _ _).bind fun _ => (ensures_required _ _).bind fun _ =>
          ensures_pure fun _ => id
      · rintro _ ⟨⟩ depth tail bound
        exact (ensures_item_at hterms 0 _).bind fun _ => (ensures_item_at hparams 1 _).bind fun _ =>
          ensures_pure fun _ => id

/-- The fields of any other operator belong to the level. -/
theorem follows_read_app : (nesting : Nat) → Follows (readApp nesting)
  | 0 => follows_record_none
  | nesting + 1 => by
      have hterms := follows_read_terms nesting
      have hparams := follows_read_params nesting
      refine follows_record ?_ ?_ ?_
      · rintro _ ⟨⟩ key ⟨name, args, params⟩
        dsimp only
        split
        · exact follows_field follows_string
        · exact follows_field hterms
        · exact follows_field hparams
        · exact follows_unknown _
      · rintro _ ⟨⟩ ⟨name, args, params⟩ P
        exact (ensures_required _ _).bind fun _ => ensures_pure fun _ => id
      · rintro _ ⟨⟩ depth tail bound
        exact (ensures_item_at follows_string 0 _).bind fun _ =>
          (ensures_item_at_or hterms 1 _).bind fun _ => (ensures_item_at_or hparams 2 _).bind fun _ =>
            ensures_pure fun _ => id
end

/-- A bound has one member. -/
theorem Bound.single_read (nesting : Nat) : Single (Bound.read nesting) := by
  refine single_tagged (fun _ => follows_of_yields (yields_fail_pending _)) ?_
  cases nesting with
  | zero => simp
  | succ nesting =>
      rintro _ ⟨⟩ tag
      cases tag with
      | constant => exact (follows_integer_of _ _).map _
      | symbolic => exact (Term.single_read nesting).follows.map _

/-- An interval belongs to the level. -/
theorem Interval.follows_read (nesting : Nat) : Follows (Interval.read nesting) := by
  cases nesting with
  | zero => exact follows_record_none
  | succ nesting =>
      have hedge := follows_optional (Bound.single_read nesting).follows
      refine follows_record ?_ ?_ ?_
      · rintro _ ⟨⟩ key ⟨first, last⟩
        dsimp only
        split
        · exact follows_field hedge
        · exact follows_field hedge
        · exact follows_unknown _
      · rintro _ ⟨⟩ ⟨first, last⟩ P
        exact ensures_pure fun _ => id
      · rintro _ ⟨⟩ depth tail bound
        exact (ensures_item_at hedge 0 _).bind fun _ => (ensures_item_at hedge 1 _).bind fun _ =>
          ensures_pure fun _ => id

/-- An item has one member. -/
theorem RhsItem.single_read (nesting : Nat) : Single (RhsItem.read nesting) := by
  refine single_tagged (fun _ => follows_of_yields (yields_fail_pending _)) ?_
  cases nesting with
  | zero => simp
  | succ nesting =>
      rintro _ ⟨⟩ tag
      cases tag with
      | production => exact (follows_integer_of _ _).map _
      | interval => exact (Interval.follows_read nesting).map _

end ByteGrammar
