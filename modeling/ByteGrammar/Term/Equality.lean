import ByteGrammar.Term.Basic

/-!
# Equality of terms

`Term.same` compares two terms node by node, parameters included, and `Term.same_iff` says that it
decides equality. This gives `Term` and `Param` decidable equality, which look-ups by term rely on.
-/

namespace ByteGrammar

mutual
/-- Whether two parameters are equal. -/
def Param.same : Param → Param → Bool
  | .int a, .int b => a == b
  | .double a, .double b => a == b
  | .rational a b, .rational c d => a == c && b == d
  | .symbol a, .symbol b => a == b
  | .sort a, .sort b => a == b
  | .term a, .term b => a.same b
  | .funcDecl a, .funcDecl b => a == b
  | _, _ => false

/-- Whether two terms are equal. -/
def Term.same : Term → Term → Bool
  | .num a, .num b => a == b
  | .bool a, .bool b => a == b
  | .arith op args, .arith op' args' => op == op' && sameTerms args args'
  | .logic op args, .logic op' args' => op == op' && sameTerms args args'
  | .cmp op a b, .cmp op' c d => op == op' && a.same c && b.same d
  | .eq a b naming, .eq c d naming' => naming == naming' && a.same c && b.same d
  | .distinct a b, .distinct c d => a.same c && b.same d
  | .not a, .not b => a.same b
  | .neg a, .neg b => a.same b
  | .select a b, .select c d => a.same c && b.same d
  | .concat args, .concat args' => sameTerms args args'
  | .extract args params, .extract args' params' =>
      sameTerms args args' && sameParams params params'
  | .app name args params, .app name' args' params' =>
      name == name' && sameTerms args args' && sameParams params params'
  | _, _ => false

/-- Whether two lists of terms are equal. -/
def sameTerms : List Term → List Term → Bool
  | [], [] => true
  | a :: as, b :: bs => a.same b && sameTerms as bs
  | _, _ => false

/-- Whether two lists of parameters are equal. -/
def sameParams : List Param → List Param → Bool
  | [], [] => true
  | a :: as, b :: bs => a.same b && sameParams as bs
  | _, _ => false
end

mutual
/-- `Param.same` decides equality of parameters. -/
theorem Param.same_iff : (a b : Param) → (a.same b = true ↔ a = b)
  | .term a, b => by
      have h := Term.same_iff a
      cases b <;> simp [Param.same, h]
  | .int _, b | .double _, b | .rational _ _, b | .symbol _, b | .sort _, b
  | .funcDecl _, b => by cases b <;> simp [Param.same]

/-- `Term.same` decides equality of terms. -/
theorem Term.same_iff : (a b : Term) → (a.same b = true ↔ a = b)
  | .num _, b | .bool _, b => by cases b <;> simp [Term.same]
  | .arith _ args, b | .logic _ args, b | .concat args, b => by
      have h := same_terms_iff args
      cases b <;> simp [Term.same, h]
  | .cmp _ lhs rhs, b | .distinct lhs rhs, b | .select lhs rhs, b => by
      have hl := Term.same_iff lhs
      have hr := Term.same_iff rhs
      cases b <;> simp [Term.same, hl, hr, and_assoc]
  | .eq lhs rhs _, b => by
      have hl := Term.same_iff lhs
      have hr := Term.same_iff rhs
      cases b <;> simp [Term.same, hl, hr, and_assoc, and_comm, and_left_comm]
  | .not arg, b | .neg arg, b => by
      have h := Term.same_iff arg
      cases b <;> simp [Term.same, h]
  | .extract args params, b | .app _ args params, b => by
      have ha := same_terms_iff args
      have hp := same_params_iff params
      cases b <;> simp [Term.same, ha, hp, and_assoc]

/-- `sameTerms` decides equality of lists of terms. -/
theorem same_terms_iff : (as bs : List Term) → (sameTerms as bs = true ↔ as = bs)
  | [], bs => by cases bs <;> simp [sameTerms]
  | a :: as, bs => by
      have ha := Term.same_iff a
      have has := same_terms_iff as
      cases bs <;> simp [sameTerms, ha, has]

/-- `sameParams` decides equality of lists of parameters. -/
theorem same_params_iff : (as bs : List Param) → (sameParams as bs = true ↔ as = bs)
  | [], bs => by cases bs <;> simp [sameParams]
  | a :: as, bs => by
      have ha := Param.same_iff a
      have has := same_params_iff as
      cases bs <;> simp [sameParams, ha, has]
end

instance : DecidableEq Term := fun a b => decidable_of_iff _ (Term.same_iff a b)

instance : DecidableEq Param := fun a b => decidable_of_iff _ (Param.same_iff a b)

end ByteGrammar
