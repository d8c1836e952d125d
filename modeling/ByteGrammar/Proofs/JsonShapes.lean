import ByteGrammar.Grammar.Writer
import ByteGrammar.Proofs.JsonReading
import Mathlib

/-!
# Reading lists, tuples, records and tagged values

Every shape reads the texts of its tree if the readers of its parts do, and opens the bracket that the
tree has: `decodes_list`, `decodes_pair`, `decodes_triple`, `decodes_record` and `decodes_tagged`. The
members of a record change a state one by one, and `Folds` is the run along all of them.
-/

namespace ByteGrammar.Json

open Reader

variable {α β γ σ τ : Type}

/-- A change of what is inside a bracket. -/
theorem map_within (inside : Nat → α) (change : α → β) (nesting : Nat) :
    (within inside nesting).map change = within (fun nesting => change (inside nesting)) nesting := by
  cases nesting <;> rfl

/-! ## Arrays -/

/-- No item follows in front of a bracket. -/
theorem has_item_close (first : Bool) {blanks : List Char} (h : Blank blanks) (rest : List Char) :
    hasItem first (blanks ++ ']' :: rest) = .ok (false, ']' :: rest) := by
  rw [hasItem, bind_of_ok (peek_token_append h (by decide) rest)]
  rfl

/-- An item follows, and what separates it from the one in front of it is dropped. -/
theorem has_item_next (first : Bool) {blanks gap text : List Char} (hblanks : Blank blanks)
    (hgap : Blank gap) (hitem : ∃ c more, text = c :: more ∧ isBlank c = false ∧ c ≠ ']')
    (rest : List Char) :
    hasItem first (blanks ++ separator first ++ gap ++ text ++ rest) = .ok (true, text ++ rest) := by
  obtain ⟨c, more, rfl, hblank, hclose⟩ := hitem
  cases first with
  | true =>
      rw [List.append_assoc, separator_true, List.cons_append, hasItem,
        bind_of_ok (peek_token_append (hblanks.append hgap) hblank _)]
      generalize hnext : some c = next
      split
      · contradiction
      · exact absurd (Option.some.inj hnext) hclose
      · rfl
  | false =>
      rw [List.append_assoc, separator_false, List.append_assoc, List.cons_append, hasItem,
        bind_of_ok (peek_token_append hblanks (by decide) _)]
      show (advance >>= _) (',' :: (gap ++ c :: (more ++ rest))) = _
      rw [bind_of_ok (advance_cons _ _), bind_of_ok (peek_token_append hgap hblank _)]
      generalize hnext : some c = next
      split
      · contradiction
      · exact absurd (Option.some.inj hnext) hclose
      · rfl

/-- The bracket behind the last item. -/
theorem end_of_array_close {blanks : List Char} (h : Blank blanks) (rest : List Char) :
    endOfArray (blanks ++ ']' :: rest) = .ok ((), rest) := by
  rw [endOfArray, bind_of_ok (peek_token_append h (by decide) rest)]
  rfl

/-- All items of an array are read, one after the other. -/
theorem reads_items {item : Nat → Reader α} {trees : List Json} {values : List α}
    (h : List.Forall₂ (Decodes item) trees values) {first : Bool} {text bound : List Char}
    (htext : SpellsItems first trees text) (hbound : trees.length < bound.length) (rest : List Char)
    (nesting : Nat) :
    Reads (items (item nesting) bound first) (text ++ rest) (']' :: rest)
      (depthOfItems trees ≤ nesting) values := by
  induction h generalizing first text bound with
  | nil =>
      obtain ⟨c, bound, rfl⟩ := List.exists_cons_of_length_pos hbound
      cases htext with
      | close _ blanks hblanks =>
          rw [List.append_assoc, items]
          exact (Reads.step (has_item_close first hblanks rest) (reads_pure [] _)).congr
            (by simp [depthOfItems])
  | cons hhead htail ih =>
      obtain ⟨c, bound, rfl⟩ := List.exists_cons_of_length_pos (Nat.zero_lt_of_lt hbound)
      cases htext with
      | next _ tree trees blanks gap text more hblanks hgap hitem hrest =>
          rw [List.append_assoc, items]
          refine Reads.congr (Reads.step (has_item_next first hblanks hgap hitem.starts _) ?_)
            (by rw [depthOfItems, Nat.max_le])
          -- The text of the other items starts with what ends this one, so it is read as a whole.
          refine (hhead.reads hitem (hrest.ends rest) nesting).bind ?_
          exact (ih hrest (Nat.lt_of_succ_lt_succ hbound)).map _

/-- A list of values is read back. -/
theorem decodes_list {item : Nat → Reader α} {trees : List Json} {values : List α}
    (h : List.Forall₂ (Decodes item) trees values) :
    Decodes (fun nesting => list (within item nesting)) (.array trees) values := by
  intro text blanks rest nesting htext hblanks hrest
  cases htext with
  | array _ body hbody =>
      rw [List.append_assoc]
      refine Reads.step (peek_token_append hblanks (by decide) _) ?_
      have hremaining : remaining ('[' :: (body ++ rest)) = .ok ('[' :: (body ++ rest), _) := rfl
      refine Reads.step hremaining ?_
      rw [map_within]
      refine reads_enter '[' fun nesting => Reads.leave ?_ closeArray
      have hbound : trees.length < ('[' :: (body ++ rest)).length := by
        have := hbody.length_lt
        rw [List.length_cons, List.length_append]
        omega
      refine (reads_items h hbody hbound rest nesting).bind_free ?_
      exact Reads.step (end_of_array_close blank_nil rest) (reads_pure values rest)

/-- The next part of a tuple. -/
theorem reads_item_at {read : Nat → Reader α} {tree : Json} {value : α} (h : Decodes read tree value)
    (index : Nat) (expected : String) {trees : List Json} {text : List Char}
    (htext : SpellsItems (index == 0) (tree :: trees) text) (rest : List Char) :
    ∃ more, SpellsItems false trees more ∧ ∀ nesting,
      Reads (itemAt index expected (read nesting)) (text ++ rest) (more ++ rest)
        (tree.depth ≤ nesting) value := by
  cases htext with
  | next _ tree trees blanks gap text more hblanks hgap hitem hmore =>
      refine ⟨more, hmore, fun nesting => ?_⟩
      rw [List.append_assoc]
      exact Reads.step (has_item_next _ hblanks hgap hitem.starts _) (h.reads hitem (hmore.ends rest) nesting)

/-- The end of a tuple behind its last part. -/
theorem reads_end_of_array {first : Bool} {text : List Char} (h : SpellsItems first [] text) (value : α)
    (rest : List Char) :
    Reads (do endOfArray; return value) (text ++ rest) rest True value := by
  cases h with
  | close _ blanks hblanks =>
      rw [List.append_assoc]
      exact Reads.step (end_of_array_close hblanks rest) (reads_pure value rest)

/-- A pair is read back. -/
theorem decodes_pair {left : Nat → Reader α} {right : Nat → Reader β} {lhs rhs : Json} {first : α}
    {second : β} (expected : String) (hleft : Decodes left lhs first) (hright : Decodes right rhs second) :
    Decodes (fun nesting => pair expected (within (fun nesting => (left nesting, right nesting)) nesting))
      (.array [lhs, rhs]) (first, second) := by
  intro text blanks rest nesting htext hblanks hrest
  cases htext with
  | array _ body hbody =>
      rw [List.append_assoc]
      refine Reads.step (peek_token_append hblanks (by decide) _) ?_
      rw [map_within]
      refine reads_enter '[' fun nesting => Reads.leave ?_ closeArray
      obtain ⟨behind, hbehind, hfirst⟩ :=
        reads_item_at hleft 0 (expected ++ " with 2 elements") hbody rest
      obtain ⟨last, hlast, hsecond⟩ :=
        reads_item_at hright 1 (expected ++ " with 2 elements") hbehind rest
      exact Reads.congr
        ((hfirst nesting).bind ((hsecond nesting).bind (reads_end_of_array hlast _ rest)))
        (by simp [depthOfItems])

/-- A triple is read back. -/
theorem decodes_triple {left : Nat → Reader α} {middle : Nat → Reader β} {right : Nat → Reader γ}
    {lhs mid rhs : Json} {first : α} {second : β} {third : γ} (expected : String)
    (hleft : Decodes left lhs first) (hmiddle : Decodes middle mid second)
    (hright : Decodes right rhs third) :
    Decodes (fun nesting =>
        triple expected (within (fun nesting => (left nesting, middle nesting, right nesting)) nesting))
      (.array [lhs, mid, rhs]) (first, second, third) := by
  intro text blanks rest nesting htext hblanks hrest
  cases htext with
  | array _ body hbody =>
      rw [List.append_assoc]
      refine Reads.step (peek_token_append hblanks (by decide) _) ?_
      rw [map_within]
      refine reads_enter '[' fun nesting => Reads.leave ?_ closeArray
      obtain ⟨behind, hbehind, hfirst⟩ :=
        reads_item_at hleft 0 (expected ++ " with 3 elements") hbody rest
      obtain ⟨more, hmore, hsecond⟩ :=
        reads_item_at hmiddle 1 (expected ++ " with 3 elements") hbehind rest
      obtain ⟨last, hlast, hthird⟩ :=
        reads_item_at hright 2 (expected ++ " with 3 elements") hmore rest
      exact Reads.congr ((hfirst nesting).bind ((hsecond nesting).bind
        ((hthird nesting).bind (reads_end_of_array hlast _ rest)))) (by simp [depthOfItems])

/-! ## Objects -/

/-- No member follows in front of a brace. -/
theorem has_member_close (first : Bool) {blanks : List Char} (h : Blank blanks) (rest : List Char) :
    hasMember first (blanks ++ '\x7d' :: rest) = .ok (false, '\x7d' :: rest) := by
  rw [hasMember, bind_of_ok (peek_token_append h (by decide) rest)]
  rfl

/-- A member follows, and what separates it from the one in front of it is dropped. -/
theorem has_member_next (first : Bool) {blanks gap : List Char} (hblanks : Blank blanks)
    (hgap : Blank gap) (rest : List Char) :
    hasMember first (blanks ++ separator first ++ gap ++ '"' :: rest) = .ok (true, '"' :: rest) := by
  cases first with
  | true =>
      rw [separator_true, hasMember,
        bind_of_ok (peek_token_append (hblanks.append hgap) (by decide) _)]
      rfl
  | false =>
      rw [separator_false, List.append_assoc, List.cons_append, hasMember,
        bind_of_ok (peek_token_append hblanks (by decide) _)]
      show (advance >>= _) (',' :: (gap ++ '"' :: rest)) = _
      rw [bind_of_ok (advance_cons _ _), bind_of_ok (peek_token_append hgap (by decide) _)]
      rfl

/-- A member behind what separates it from the one in front of it. -/
theorem member_append (front : List Char) (key : String) (before behind text more rest : List Char) :
    front ++ quote key.toList ++ before ++ [':'] ++ behind ++ text ++ more ++ rest =
      front ++ '"' :: (key.toList.flatMap escapeChar ++ '"' ::
        (before ++ ':' :: (behind ++ text ++ (more ++ rest)))) := by
  simp [quote]

/-- The colon behind a key. -/
theorem colon_append {blanks : List Char} (h : Blank blanks) (rest : List Char) :
    colon (blanks ++ ':' :: rest) = .ok ((), rest) := by
  rw [colon, bind_of_ok (peek_token_append h (by decide) rest)]
  rfl

/-- What follows the key of a member is read, which changes a state, if it does not nest too deeply. -/
def Takes (step : Nat → String → σ → Reader σ) (entry : String × Json) (state next : σ) : Prop :=
  ∀ ⦃text before behind rest : List Char⦄ (nesting : Nat), entry.2.Spells text → Blank before →
    Blank behind → Ends rest →
    Reads (step nesting entry.1 state) (before ++ ':' :: (behind ++ text ++ rest)) rest
      (entry.2.depth ≤ nesting) next

/-- The members of an object change a state one after the other. -/
inductive Folds (step : Nat → String → σ → Reader σ) : List (String × Json) → σ → σ → Prop where
  | nil (state) : Folds step [] state state
  | cons (entry members state next last) : Takes step entry state next → Folds step members next last →
      Folds step (entry :: members) state last

/-- A field that has not been read before is read and put into the state. -/
theorem takes_field {step : Nat → String → σ → Reader σ} {key : String} {read : Nat → Reader α}
    {tree : Json} {value : α} {state : σ} {put : Option α → σ}
    (hstep : ∀ nesting, step nesting key state =
      (do return put (← once key none (read nesting)) : Reader σ))
    (h : Decodes read tree value) : Takes step (key, tree) state (put (some value)) := by
  intro text before behind rest nesting htext hbefore hbehind hrest
  have honce : Reads (once key none (read nesting)) (before ++ ':' :: (behind ++ text ++ rest)) rest
      (tree.depth ≤ nesting) (some value) :=
    Reads.step (colon_append hbefore _) ((h nesting htext hbehind hrest).map some)
  rw [hstep]
  exact honce.map put

/-- A field that has not been read before, and the members behind it. -/
theorem Folds.field {step : Nat → String → σ → Reader σ} {key : String} {read : Nat → Reader α}
    {tree : Json} {value : α} {state last : σ} {members : List (String × Json)} {put : Option α → σ}
    (hstep : ∀ nesting, step nesting key state =
      (do return put (← once key none (read nesting)) : Reader σ))
    (h : Decodes read tree value) (hmembers : Folds step members (put (some value)) last) :
    Folds step ((key, tree) :: members) state last :=
  .cons _ _ _ _ _ (takes_field hstep h) hmembers

/-- All members of an object are read, one after the other. -/
theorem reads_members {step : Nat → String → σ → Reader σ} {entries : List (String × Json)}
    {state last : σ} (h : Folds step entries state last) {first : Bool} {text bound : List Char}
    (htext : SpellsMembers first entries text) (hbound : entries.length < bound.length)
    (rest : List Char) (nesting : Nat) :
    Reads (members (step nesting) bound first state) (text ++ rest) ('\x7d' :: rest)
      (depthOfMembers entries ≤ nesting) last := by
  induction h generalizing first text bound with
  | nil state =>
      obtain ⟨c, bound, rfl⟩ := List.exists_cons_of_length_pos hbound
      cases htext with
      | close _ blanks hblanks =>
          rw [List.append_assoc, members]
          exact (Reads.step (has_member_close first hblanks rest) (reads_pure state _)).congr
            (by simp [depthOfMembers])
  | cons entry entries state next last htakes _ ih =>
      obtain ⟨c, bound, rfl⟩ := List.exists_cons_of_length_pos (Nat.zero_lt_of_lt hbound)
      cases htext with
      | next _ key value entries blanks gap before behind text more hblanks hgap hbefore hbehind hvalue
          hmore =>
          rw [member_append, members]
          refine Reads.congr (Reads.step (has_member_next first hblanks hgap _) ?_)
            (by rw [depthOfMembers, Nat.max_le])
          refine Reads.step (advance_cons _ _) (Reads.step (string_rest_quote key _) ?_)
          exact (htakes nesting hvalue hbefore hbehind (hmore.ends rest)).bind
            (ih hmore (Nat.lt_of_succ_lt_succ hbound))

/-- A reader of records, for every number of brackets. -/
theorem read_eq_record {read : Nat → Reader α} {fields : Nat → Fields σ α} {expected : String}
    (hclosed : ∃ (ρ : Type), read 0 = record expected (none : Option (Fields ρ α)))
    (hopen : ∀ nesting, read (nesting + 1) = record expected (some (fields nesting))) (nesting : Nat) :
    read nesting = record expected (within fields nesting) := by
  cases nesting with
  | zero =>
      -- Without a bracket left the type of the state makes no difference.
      obtain ⟨ρ, hzero⟩ := hclosed
      rw [hzero]
      rfl
  | succ nesting => exact hopen nesting

/-- A record is read back from its members, as an object. -/
theorem decodes_record {read : Nat → Reader α} {fields : Nat → Fields σ α}
    {entries : List (String × Json)} {start last : σ} {value : α} {expected : String}
    (hclosed : ∃ (ρ : Type), read 0 = record expected (none : Option (Fields ρ α)))
    (hopen : ∀ nesting, read (nesting + 1) = record expected (some (fields nesting)))
    (hstart : ∀ nesting, (fields nesting).start = start)
    (hfold : Folds (fun nesting => (fields nesting).step) entries start last)
    (hfinish : ∀ nesting, (fields nesting).finish last = pure value) :
    Decodes read (.object entries) value := by
  intro text blanks rest nesting htext hblanks hrest
  cases htext with
  | object _ body hbody =>
      rw [List.append_assoc, read_eq_record hclosed hopen]
      refine Reads.step (peek_token_append hblanks (by decide) _) ?_
      have hremaining : remaining ('\x7b' :: (body ++ rest)) = .ok ('\x7b' :: (body ++ rest), _) := rfl
      refine Reads.step hremaining ?_
      rw [map_within]
      refine reads_enter '\x7b' fun nesting => Reads.leave ?_ closeObject
      have hbound : entries.length < ('\x7b' :: (body ++ rest)).length := by
        have := hbody.length_lt
        rw [List.length_cons, List.length_append]
        omega
      rw [hstart]
      refine (reads_members hfold hbody hbound rest nesting).bind_free ?_
      rw [hfinish]
      exact Reads.step rfl (Reads.step (advance_cons _ rest) (reads_pure value rest))

/-! ## Tagged values -/

/-- The tag of a variant is read back from its name. -/
theorem tag_name [Tag τ] (variant : τ) (rest : List Char) :
    (tag : Reader τ) ('"' :: ((Tag.name variant).toList.flatMap escapeChar ++ '"' :: rest)) =
      .ok (variant, rest) := by
  rw [tag, bind_of_ok (advance_cons _ _), bind_of_ok (string_rest_quote (Tag.name variant) rest),
    Tag.of_name_name]
  rfl

/-- A tag puts one bracket around its value. -/
theorem depth_of_tag [Tag τ] (variant : τ) (tree : Json) : (ofTag variant tree).depth = tree.depth + 1 := by
  simp [ofTag, depth, depthOfMembers]

/-- A reader of tagged values, for every number of brackets, with what it reads behind a tag. -/
theorem read_eq_tagged [Tag τ] {read reader : Nat → Reader α} {variant : τ}
    (hclosed : ∃ bare : τ → Reader α, read 0 = tagged bare none)
    (hopen : ∀ nesting, ∃ (bare payload : τ → Reader α),
      read (nesting + 1) = tagged bare (some payload) ∧ payload variant = reader nesting) :
    ∃ payload : Nat → τ → Reader α, (∀ nesting, payload nesting variant = reader nesting) ∧
      ∀ nesting, ∃ bare, read nesting = tagged bare (within payload nesting) := by
  choose bare payload hsome hvariant using hopen
  refine ⟨payload, hvariant, fun nesting => ?_⟩
  cases nesting with
  | zero => exact hclosed
  | succ nesting => exact ⟨bare nesting, hsome nesting⟩

/-- A tagged value is read back, as an object with the tag as its key. -/
theorem decodes_tagged [Tag τ] {read reader : Nat → Reader α} {variant : τ} {tree : Json} {value : α}
    (hclosed : ∃ bare : τ → Reader α, read 0 = tagged bare none)
    (hopen : ∀ nesting, ∃ (bare payload : τ → Reader α),
      read (nesting + 1) = tagged bare (some payload) ∧ payload variant = reader nesting)
    (h : Decodes reader tree value) : Decodes read (.ofTag variant tree) value := by
  obtain ⟨payload, hvariant, hread⟩ := read_eq_tagged hclosed hopen
  intro text blanks rest nesting htext hblanks hrest
  obtain ⟨bare, hbare⟩ := hread nesting
  rw [depth_of_tag]
  cases htext with
  | object _ body hbody =>
  cases hbody with
  | next _ key _ _ start gap before behind text more hstart hgap hbefore hbehind hvalue hmore =>
  have hends := hmore.ends rest
  cases hmore with
  | close _ last hlast =>
      rw [List.append_assoc, List.singleton_append] at hends
      rw [List.append_assoc, List.cons_append, member_append, separator_true, List.append_assoc last,
        List.singleton_append, hbare]
      refine Reads.step (peek_token_append hblanks (by decide) _) ?_
      rw [map_within]
      refine reads_enter '\x7b' fun nesting => ?_
      refine Reads.step (peek_token_append (hstart.append hgap) (by decide) _) ?_
      refine Reads.step (tag_name variant _) (Reads.step (colon_append hbefore _) ?_)
      rw [hvariant]
      refine (h nesting hvalue hbehind hends).bind_free ?_
      exact Reads.step (peek_token_append hlast (by decide) rest)
        (Reads.step (advance_cons _ rest) (reads_pure value rest))

/-- A tag that stands for itself is read back. -/
theorem decodes_bare_tag [Tag τ] (variant : τ) : Decodes bareTag (.ofName variant) variant := by
  refine decodes_of_eq rfl fun written blanks rest nesting hwritten hblanks _ => ?_
  cases hwritten with
  | string =>
      rw [List.append_assoc, quote_append]
      show (peekToken >>= _) _ = _
      rw [bind_of_ok (peek_token_append hblanks (by decide) _)]
      exact bind_of_ok (tag_name variant rest)

/-! ## Values that may be missing -/

/-- A missing value is read back. -/
theorem decodes_optional_none (read : Nat → Reader α) :
    Decodes (fun nesting => Reader.optional (read nesting)) .null none := by
  refine decodes_of_eq rfl fun written blanks rest _ hwritten hblanks _ => ?_
  cases hwritten with
  | null =>
      rw [List.append_assoc]
      show (peekToken >>= _) (blanks ++ 'n' :: (['u', 'l', 'l'] ++ rest)) = _
      rw [bind_of_ok (peek_token_append hblanks (by decide) _)]
      exact pass_word 'n' ['u', 'l', 'l'] rest none

/-- A value that is there, and an object, is read back. -/
theorem decodes_optional_some {read : Nat → Reader α} {entries : List (String × Json)} {value : α}
    (h : Decodes read (.object entries) value) :
    Decodes (fun nesting => Reader.optional (read nesting)) (.object entries) (some value) := by
  intro text blanks rest nesting htext hblanks hrest
  have hreads := h.reads htext hrest nesting
  cases htext with
  | object _ body hbody =>
      rw [List.append_assoc]
      exact Reads.step (peek_token_append hblanks (by decide) _) (hreads.map some)

/-! ## Whole texts -/

/-- A value with nothing but blanks behind it. -/
theorem run_of_ok {reader : Reader α} {source : String} {value : α} {rest : List Char}
    (h : reader source.toList = .ok (value, rest)) (hrest : Blank rest) :
    reader.run source = .ok value := by
  simp only [Reader.run]
  rw [bind_of_ok h, bind_of_ok (peek_token_blank hrest)]
  rfl

/-- A fault inside a value. -/
theorem run_of_error {reader : Reader α} {source : String} {cause : Cause} {remaining : Nat}
    (h : reader source.toList = .error (.placed cause remaining)) :
    ∃ position, reader.run source = .error ⟨cause, position⟩ := by
  simp only [Reader.run]
  rw [bind_of_error h]
  exact ⟨_, rfl⟩

/-- A whole text of a tree is read as its value if the tree nests no deeper than allowed. If it does, the
report is about the nesting. -/
theorem run_decodes {read : Nat → Reader α} {tree : Json} {value : α} (h : Decodes read tree value)
    {source : String} {blanks text behind : List Char} (hsource : source.toList = blanks ++ text ++ behind)
    (htext : tree.Spells text) (hblanks : Blank blanks) (hbehind : Blank behind) (nesting : Nat) :
    (tree.depth ≤ nesting → (read nesting).run source = .ok value) ∧
      (nesting < tree.depth → ∃ position,
        (read nesting).run source = .error ⟨.recursionLimit, position⟩) := by
  have hends : Ends behind := fun c hc => .inl (hbehind c (List.mem_of_mem_head? hc))
  have hreads := h nesting htext hblanks hends
  rw [← hsource] at hreads
  constructor
  · intro hfits
    exact run_of_ok (hreads.accepts hfits) hbehind
  · intro hdeep
    obtain ⟨remaining, hremaining⟩ := hreads.refuses (Nat.not_le.mpr hdeep)
    exact run_of_error hremaining

end ByteGrammar.Json
