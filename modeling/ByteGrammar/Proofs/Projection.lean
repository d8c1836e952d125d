import ByteGrammar.Proofs.FreshVariables
import ByteGrammar.Proofs.Positions

/-!
# Projecting and back

Projecting puts a variable in the place of every bound. `projection_taken_back` says that this loses
nothing: where the variables are new, putting the bounds back gives the term again. `projection_complete`
says that it leaves no bound behind, so that projecting once more changes nothing. Both rest on what the
variables are: terms without children, one for each bound, that the bounds do not contain.
-/

namespace ByteGrammar

namespace Substitution

/-- What a table puts in, in the order of recording. -/
def replacements (table : Substitution) : List Term :=
  table.pairs.map Prod.snd

/-- The table that puts back what each replacement was recorded for. -/
def inverse (table : Substitution) : Substitution :=
  ofList (table.pairs.map Prod.swap)

variable {table : Substitution} {term sub old new : Term}

/-- In a list without a repeated first member, looking up finds exactly the pairs of the list. -/
theorem lookup_eq_some_iff_mem {pairs : List (Term × Term)} (h : (pairs.map Prod.fst).Nodup) :
    pairs.lookup old = some new ↔ (old, new) ∈ pairs := by
  constructor
  · intro hlookup
    obtain ⟨earlier, later, rfl, -⟩ := List.lookup_eq_some_iff.mp hlookup
    simp
  · intro hmem
    obtain ⟨earlier, later, rfl⟩ := List.append_of_mem hmem
    rw [List.map_append, List.map_cons, List.nodup_append] at h
    have hfirst : ¬ Recorded earlier old := fun hearlier =>
      h.2.2 old hearlier old (List.mem_cons_self ..) rfl
    exact List.lookup_eq_some_iff.mpr
      ⟨earlier, later, rfl, forall_ne_iff_not_recorded.mpr hfirst⟩

/-- A table finds exactly its pairs. -/
theorem get_eq_some_iff_mem : table.get? old = some new ↔ (old, new) ∈ table.pairs :=
  lookup_eq_some_iff_mem table.nodup

/-- What a table finds is one of its replacements. -/
theorem mem_replacements_of_get (h : table.get? old = some new) : new ∈ table.replacements :=
  List.mem_map_of_mem (get_eq_some_iff_mem.mp h)

/-- When no replacement comes twice, the inverse finds for each what it was recorded for. -/
theorem get_inverse_eq_some_iff (h : table.replacements.Nodup) :
    table.inverse.get? new = some old ↔ table.get? old = some new := by
  have hswapped : ((table.pairs.map Prod.swap).map Prod.fst).Nodup := by
    rw [List.map_map]
    exact h
  rw [inverse, get_of_list, lookup_eq_some_iff_mem hswapped, get_eq_some_iff_mem]
  constructor
  · intro hmem
    obtain ⟨⟨first, second⟩, hpair, heq⟩ := List.mem_map.mp hmem
    obtain ⟨rfl, rfl⟩ := Prod.mk.inj heq
    exact hpair
  · exact fun hmem => List.mem_map.mpr ⟨_, hmem, rfl⟩

/-- A term without children contains nothing but itself. -/
theorem eq_of_contains_leaf {leaf : Term} (hleaf : leaf.children = []) (h : leaf.Contains sub) :
    sub = leaf := by
  rcases Term.contains_iff.mp h with heq | ⟨child, hchild, -⟩
  · exact heq
  · rw [hleaf] at hchild
    exact absurd hchild List.not_mem_nil

/-- Applying a table leaves a term alone or puts something in. -/
theorem apply_eq_self_or_contains (table : Substitution) (term : Term) :
    table.apply term = term ∨ ∃ new ∈ table.replacements, (table.apply term).Contains new := by
  induction term using Term.induct_children with
  | node term ih =>
      cases hget : table.get? term with
      | some new =>
          rw [apply_of_get_eq_some hget]
          exact .inr ⟨new, mem_replacements_of_get hget, new.contains_self⟩
      | none =>
          rw [apply_of_get_eq_none hget]
          by_cases hkept : ∀ child ∈ term.children, table.apply child = child
          · exact .inl (Term.map_children_eq_self hkept)
          · obtain ⟨child, hchild, hchanged⟩ :
                ∃ child ∈ term.children, table.apply child ≠ child := by simpa using hkept
            obtain ⟨new, hnew, hcontains⟩ := (ih child hchild).resolve_left hchanged
            refine .inr ⟨new, hnew, hcontains.of_child ?_⟩
            rw [Term.map_children_children]
            exact List.mem_map_of_mem hchild

section Leaves

variable (hleaves : ∀ new ∈ table.replacements, new.children = [])

include hleaves

/-- Replacing terms by leaves that stand for one of them each is undone by the inverse, in a term without
any of the leaves. -/
theorem inverse_apply_apply (hnodup : table.replacements.Nodup)
    (hterm : ∀ new ∈ table.replacements, ¬ term.Contains new) :
    table.inverse.apply (table.apply term) = term := by
  induction term using Term.induct_children with
  | node term ih =>
      cases hget : table.get? term with
      | some new =>
          rw [apply_of_get_eq_some hget]
          exact apply_of_get_eq_some ((get_inverse_eq_some_iff hnodup).mpr hget)
      | none =>
          have hbuilt : table.apply term = term.mapChildren table.apply :=
            apply_of_get_eq_none hget
          have hinverse : table.inverse.get? (table.apply term) = none := by
            rw [Option.eq_none_iff_forall_ne_some]
            intro old hold
            have hmem : table.apply term ∈ table.replacements :=
              mem_replacements_of_get ((get_inverse_eq_some_iff hnodup).mp hold)
            -- A leaf that was not put in was there before, which `hterm` excludes.
            have hsame : table.apply term = term := by
              have hleaf := hleaves _ hmem
              rw [hbuilt] at hleaf ⊢
              exact Term.map_children_eq_self_of_leaf hleaf
            have hself : term.Contains (table.apply term) := by
              rw [hsame]
              exact term.contains_self
            exact hterm _ hmem hself
          have hback : ∀ child ∈ term.children,
              table.inverse.apply (table.apply child) = child := fun child hchild =>
            ih child hchild fun new hnew hcontains => hterm new hnew (hcontains.of_child hchild)
          rw [apply_of_get_eq_none hinverse, hbuilt, Term.map_children_map_children]
          exact Term.map_children_eq_self hback

/-- When no recorded term contains a replacement, the result of applying a table contains no recorded
term. -/
theorem get_eq_none_of_contains_apply
    (hapart : ∀ old, table.get? old ≠ none → ∀ new ∈ table.replacements, ¬ old.Contains new)
    (hsub : (table.apply term).Contains sub) : table.get? sub = none := by
  induction term using Term.induct_children with
  | node term ih =>
      by_contra hrecorded
      cases hget : table.get? term with
      | some new =>
          rw [apply_of_get_eq_some hget] at hsub
          have hnew := mem_replacements_of_get hget
          obtain rfl := eq_of_contains_leaf (hleaves new hnew) hsub
          exact hapart sub hrecorded sub hnew sub.contains_self
      | none =>
          rcases Term.contains_iff.mp hsub with rfl | ⟨built, hbuilt, hsub⟩
          -- A rebuilt node is recorded neither as it was nor with something put in.
          · rcases table.apply_eq_self_or_contains term with hself | ⟨new, hnew, hcontains⟩
            · exact hrecorded (hself.symm ▸ hget)
            · exact hapart _ hrecorded new hnew hcontains
          · rw [apply_of_get_eq_none hget, Term.map_children_children] at hbuilt
            obtain ⟨child, hchild, rfl⟩ := List.mem_map.mp hbuilt
            exact hrecorded (ih child hchild hsub)

end Leaves

/-- Recording a list of pairs keeps some of them, in order. -/
theorem pairs_of_list_sublist (pairs : List (Term × Term)) :
    (ofList pairs).pairs.Sublist pairs := by
  suffices h : ∀ table : Substitution,
      (pairs.foldl (fun table pair => table.push pair.1 pair.2) table).pairs.Sublist
        (table.pairs ++ pairs) from h empty
  induction pairs with
  | nil => intro table; simp
  | cons pair pairs ih =>
      intro table
      refine (ih (table.push pair.1 pair.2)).trans ?_
      rw [List.append_cons]
      refine List.Sublist.append_right ?_ pairs
      unfold push
      split
      · exact List.sublist_append_left ..
      · exact List.Sublist.refl _

end Substitution

/-- The names of no more variables than the count can tell apart are all different, also when it wraps. -/
theorem IndexVars.nodup_names (vars : IndexVars) {count : Nat} (h : count ≤ 2 ^ 64) :
    (vars.names count).Nodup := by
  rw [vars.names_eq_map_mod]
  refine List.Nodup.map_on ?_ List.nodup_range
  intro first hfirst second hsecond heq
  have hnumbers := name_of_injective vars.stem heq
  rw [List.mem_range] at hfirst hsecond
  omega

namespace Production.LowersTo

variable {naming : Naming} {production : Production} {start : IndexVars} {definition : Definition}
  {last : Scope}

/-- The variables that stand for bounds are some of those taken, in order. -/
theorem replacements_sublist (h : production.LowersTo naming start definition last) :
    last.table.replacements.Sublist (start.constants production.symbolicBounds.length) := by
  have hpairs := (Substitution.pairs_of_list_sublist (production.symbolicBounds.zip
    (start.constants production.symbolicBounds.length))).map Prod.snd
  rw [List.map_snd_zip (by simp [IndexVars.constants])] at hpairs
  rw [h.table]
  exact hpairs

/-- A variable has no children. -/
theorem children_of_mem_replacements (h : production.LowersTo naming start definition last)
    {var : Term} (hvar : var ∈ last.table.replacements) : var.children = [] := by
  obtain ⟨name, -, rfl⟩ := List.mem_map.mp (h.replacements_sublist.subset hvar)
  rfl

/-- Every variable stands for one bound. -/
theorem nodup_replacements (h : production.LowersTo naming start definition last)
    (hcount : production.symbolicBounds.length ≤ 2 ^ 64) : last.table.replacements.Nodup := by
  refine List.Nodup.sublist h.replacements_sublist ?_
  exact List.Nodup.map (fun _ _ heq => (Term.app.inj heq).1) (start.nodup_names hcount)

/-- The table of a lowered production knows exactly its bounds. -/
theorem get_eq_none_iff (h : production.LowersTo naming start definition last) {bound : Term} :
    last.table.get? bound = none ↔ bound ∉ production.symbolicBounds := by
  rw [h.table, Substitution.get_of_list_eq_none_iff, Recorded,
    List.map_fst_zip (by simp [IndexVars.constants])]

end Production.LowersTo

/-- Projecting loses nothing. Take a production that lowers, from any supply of variables. A variable in
its table stands for one bound only. So in every term that contains none of these variables, conjuncts of
the production or not, putting back the bound of each variable, all at once, undoes projecting. The count
of variables may wrap on the way as long as it can tell the symbolic edges of the production apart. -/
theorem projection_taken_back {naming : Naming} {production : Production} {scope last : Scope}
    {definition : Definition}
    (hrun : (production.lower naming).run scope = (.ok definition, last))
    (hcount : production.symbolicBounds.length ≤ 2 ^ 64) :
    (∀ bound var, last.table.inverse.get? var = some bound ↔ last.table.get? bound = some var) ∧
      ∀ term : Term, (∀ var ∈ last.table.replacements, ¬ term.Contains var) →
        last.table.inverse.apply (last.table.apply term) = term := by
  have hlowers := Production.lowers_to_of_run hrun
  have hnodup := hlowers.nodup_replacements hcount
  refine ⟨fun bound var => Substitution.get_inverse_eq_some_iff hnodup, fun term hterm => ?_⟩
  exact Substitution.inverse_apply_apply (fun _ hvar => hlowers.children_of_mem_replacements hvar)
    hnodup hterm

/-- A length that two edges share, a byte at that place, and a bound that has the name of the variable of
the second edge. -/
def nestedBounds : Production where
  id := 3
  alternatives := [
    [.interval ⟨some (.symbolic (.constant "n")), some (.symbolic (.constant "n"))⟩],
    [.production 1,
      .interval ⟨some (.symbolic (.select (.constant "B") (.constant "n"))),
        some (.symbolic (.constant "ii2"))⟩]]
  assertions := [.all [.ge (.constant "ii2") (.select (.constant "B") (.constant "n")),
    .lt (.add (.constant "n") (.constant "ii2")) (.constant "limit")]]

/-- The definition of `nestedBounds`. Its second variable is not in the table. -/
def nestedBoundsDefinition : Definition where
  name := "L3"
  bindings := [⟨"ii1", "n"⟩, ⟨"ii2", "n"⟩, ⟨"ii3", "(Select n)"⟩, ⟨"ii4", "ii2"⟩]
  alternatives := [["L1"]]
  guards := ["(ii4 >= ii3)", "((ii1 + ii4) < limit)"]

/-- `nestedBounds` lowers to its definition. -/
theorem run_nested_bounds :
    (nestedBounds.lower {}).run {} =
      (.ok nestedBoundsDefinition, ((nestedBounds.lower {}).run {}).2) := by
  refine Prod.ext ?_ rfl
  decide +kernel

/-- The conjunct on `n` contains the name of a variable, but not of one in the table. -/
theorem nested_bounds_taken_back :
    let last := ((nestedBounds.lower {}).run {}).2
    let conjunct := Term.lt (.add (.constant "n") (.constant "ii2")) (.constant "limit")
    (nestedBounds.lower {}).run {} = (.ok nestedBoundsDefinition, last) ∧
      nestedBounds.symbolicBounds.length ≤ 2 ^ 64 ∧
      conjunct ∈ conjunctsAll nestedBounds.assertions ∧
      last.table.replacements = [.constant "ii1", .constant "ii3", .constant "ii4"] ∧
      (∀ var ∈ last.table.replacements, ¬ conjunct.Contains var) ∧
      last.table.apply conjunct =
        .lt (.add (.constant "ii1") (.constant "ii4")) (.constant "limit") ∧
      last.table.inverse.get? (.constant "ii4") = some (.constant "ii2") ∧
      last.table.inverse.apply (last.table.apply conjunct) = conjunct := by
  intro last conjunct
  have hcount : nestedBounds.symbolicBounds.length ≤ 2 ^ 64 := by decide
  have hvars : ∀ var ∈ last.table.replacements, ¬ conjunct.Contains var := by decide +kernel
  obtain ⟨hinverse, hback⟩ := projection_taken_back run_nested_bounds hcount
  have hbound : last.table.get? (.constant "ii2") = some (.constant "ii4") := by decide +kernel
  exact ⟨run_nested_bounds, hcount, by decide +kernel, by decide +kernel, hvars, by decide +kernel,
    (hinverse _ _).mpr hbound, hback conjunct hvars⟩

/-- Projecting leaves no bound behind. Take a production that lowers and whose symbolic bounds contain none
of the variables in its table. Then a projected term contains none of these bounds, whatever the term is,
and projecting it once more changes nothing. -/
theorem projection_complete {naming : Naming} {production : Production} {scope last : Scope}
    {definition : Definition}
    (hrun : (production.lower naming).run scope = (.ok definition, last))
    (hapart : ∀ bound ∈ production.symbolicBounds, ∀ var ∈ last.table.replacements,
      ¬ bound.Contains var) (term : Term) :
    (∀ bound ∈ production.symbolicBounds, ¬ (last.table.apply term).Contains bound) ∧
      last.table.apply (last.table.apply term) = last.table.apply term := by
  have hlowers := Production.lowers_to_of_run hrun
  have hnone : ∀ sub, (last.table.apply term).Contains sub → last.table.get? sub = none := by
    intro sub hsub
    refine Substitution.get_eq_none_of_contains_apply
      (fun _ hvar => hlowers.children_of_mem_replacements hvar) ?_ hsub
    intro bound hbound
    exact hapart bound (not_not.mp (mt hlowers.get_eq_none_iff.mpr hbound))
  refine ⟨?_, Substitution.apply_eq_self hnone⟩
  intro bound hbound hcontains
  exact hlowers.get_eq_none_iff.mp (hnone bound hcontains) hbound

/-- A bound inside of another bound goes away with it. -/
theorem nested_bounds_projected :
    let last := ((nestedBounds.lower {}).run {}).2
    let term := Term.sub (.select (.constant "B") (.constant "n"))
      (.select (.constant "n") (.constant "ii2"))
    (nestedBounds.lower {}).run {} = (.ok nestedBoundsDefinition, last) ∧
      (∀ bound ∈ nestedBounds.symbolicBounds, ∀ var ∈ last.table.replacements,
        ¬ bound.Contains var) ∧
      last.table.apply term = .sub (.constant "ii3") (.select (.constant "ii1") (.constant "ii4")) ∧
      (∀ bound ∈ nestedBounds.symbolicBounds, ¬ (last.table.apply term).Contains bound) ∧
      last.table.apply (last.table.apply term) = last.table.apply term := by
  intro last term
  have hapart : ∀ bound ∈ nestedBounds.symbolicBounds, ∀ var ∈ last.table.replacements,
      ¬ bound.Contains var := by decide +kernel
  exact ⟨run_nested_bounds, hapart, by decide +kernel,
    projection_complete run_nested_bounds hapart term⟩

end ByteGrammar
