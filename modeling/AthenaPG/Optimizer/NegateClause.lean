import AthenaPG.Optimizer.PredTestSound

/-!
Negation of clauses (`negate_clause` in `src/backend/optimizer/prep/prepqual.c`), over the nodes
and values of the proofs about predicates.

* `eval_negateClause`: the result has the negated value, null for null;
* `negateClause_flat`: flat clauses stay flat;
* **`negateClause_exact`**: both.
-/

namespace AthenaPG
open List

variable {D : Type} {sem : PredSemantics D} {cat : PredCatalog}

def boolOid : Oid := 16

def BoolTestType.negate : BoolTestType → BoolTestType
  | .isTrue => .isNotTrue
  | .isNotTrue => .isTrue
  | .isFalse => .isNotFalse
  | .isNotFalse => .isFalse
  | .isUnknown => .isNotUnknown
  | .isNotUnknown => .isUnknown

def makeNotclause (e : PredExpr D) : PredExpr D := .node .notExpr [e]

mutual

/-- `negate_clause`; a `NOT` has one argument. -/
def negateClause (sem : PredSemantics D) (cat : PredCatalog) : PredExpr D → PredExpr D
  | .const _ value => .const boolOid (value.map fun d => sem.ofBool (!sem.toBool d))
  | .node (.opExpr opno coll) args =>
    match cat.negator opno with
    | some negator => .node (.opExpr negator coll) args
    | none => makeNotclause (.node (.opExpr opno coll) args)
  | .node (.scalarArrayOpExpr opno coll useOr) args =>
    match cat.negator opno with
    | some negator => .node (.scalarArrayOpExpr negator coll !useOr) args
    | none => makeNotclause (.node (.scalarArrayOpExpr opno coll useOr) args)
  | .node .andExpr args => .node .orExpr (negateArgs sem cat args)
  | .node .orExpr args => .node .andExpr (negateArgs sem cat args)
  | .node .notExpr [arg] => arg
  | .node (.nullTest isNull false) args => .node (.nullTest (!isNull) false) args
  | .node (.booleanTest kind) args => .node (.booleanTest kind.negate) args
  | e => makeNotclause e

def negateArgs (sem : PredSemantics D) (cat : PredCatalog) : List (PredExpr D) → List (PredExpr D)
  | [] => []
  | e :: es => negateClause sem cat e :: negateArgs sem cat es

end

theorem negateArgs_eq_map (args : List (PredExpr D)) :
    negateArgs sem cat args = args.map (negateClause sem cat) := by
  induction args with
  | nil => rfl
  | cons e es ih => rw [negateArgs, ih, map_cons]

/-- What the catalogs promise about negators. -/
structure NegatorsSound (sem : PredSemantics D) (cat : PredCatalog) : Prop where
  bool : ∀ b, sem.toBool (sem.ofBool b) = b
  negator : ∀ opno opno' coll values, cat.negator opno = some opno' →
    truth sem (sem.opFunc opno' coll values) = (truth sem (sem.opFunc opno coll values)).map not

/-! ## Values -/

theorem orValues_not (values : List (Option Bool)) :
    orValues (values.map (Option.map not)) = (andValues values).map not := by
  have ht : some true ∈ values.map (Option.map not) ↔ some false ∈ values := by simp
  have hn : none ∈ values.map (Option.map not) ↔ none ∈ values := by simp
  simp only [orValues, andValues, ht, hn]
  split_ifs <;> rfl

theorem andValues_not (values : List (Option Bool)) :
    andValues (values.map (Option.map not)) = (orValues values).map not := by
  have hf : some false ∈ values.map (Option.map not) ↔ some true ∈ values := by simp
  have hn : none ∈ values.map (Option.map not) ↔ none ∈ values := by simp
  simp only [orValues, andValues, hf, hn]
  split_ifs <;> rfl

theorem evalBoolTest_negate (kind : BoolTestType) (v : Option Bool) :
    evalBoolTest kind.negate v = !evalBoolTest kind v := by
  cases kind <;> simp [evalBoolTest, BoolTestType.negate, bne]

section Eval

variable (h : NegatorsSound sem cat) (row : Nat → Option D)
include h

theorem truth_boolean (v : Option Bool) : truth sem (boolean sem v) = v := by
  cases v with
  | none => rfl
  | some b => exact congrArg some (h.bool b)

theorem eval_makeNotclause (e : PredExpr D) :
    truth sem (evalExpr sem row (makeNotclause e)) = (truth sem (evalExpr sem row e)).map not :=
  truth_boolean h _

theorem eval_scalarArrayOp_negator {opno opno' coll : Oid} (hn : cat.negator opno = some opno')
    (uo : Bool) (scalar array : Option D) :
    truth sem (evalScalarArrayOp sem opno' coll (!uo) scalar array) =
      (truth sem (evalScalarArrayOp sem opno coll uo scalar array)).map not := by
  cases array with
  | none => rfl
  | some d =>
    have hm : (sem.arrayElems d).map (fun elem => truth sem (sem.opFunc opno' coll [scalar, elem])) =
        ((sem.arrayElems d).map fun elem =>
          truth sem (sem.opFunc opno coll [scalar, elem])).map (Option.map not) := by
      rw [map_map]
      exact map_congr_left fun elem _ => h.negator opno opno' coll _ hn
    simp only [evalScalarArrayOp, hm, truth_boolean h]
    cases uo with
    | false => exact orValues_not _
    | true => exact andValues_not _

theorem eval_negateClause (e : PredExpr D) :
    truth sem (evalExpr sem row (negateClause sem cat e)) =
      (truth sem (evalExpr sem row e)).map not := by
  induction e using PredExpr.induct with
  | hc t v =>
    rw [negateClause, evalExpr, evalExpr]
    cases v with
    | none => rfl
    | some d => exact congrArg some (h.bool _)
  | hn tag args ih =>
    -- the truth values of the negated arguments
    have hargs : (evalArgs sem row (negateArgs sem cat args)).map (truth sem) =
        ((evalArgs sem row args).map (truth sem)).map (Option.map not) := by
      simp only [negateArgs_eq_map, evalArgs_eq_map, map_map]
      exact map_congr_left ih
    cases tag with
    | opExpr opno coll =>
      rw [negateClause]
      cases hn : cat.negator opno with
      | none => exact eval_makeNotclause h row _
      | some opno' => exact h.negator opno opno' coll _ hn
    | scalarArrayOpExpr opno coll useOr =>
      rw [negateClause]
      cases hn : cat.negator opno with
      | none => exact eval_makeNotclause h row _
      | some opno' =>
        dsimp only
        rw [evalExpr, evalExpr]
        obtain _ | ⟨scalar, _ | ⟨array, _ | _⟩⟩ := evalArgs sem row args
        case cons.cons.nil => exact eval_scalarArrayOp_negator h hn useOr scalar array
        all_goals rfl
    | andExpr =>
      rw [negateClause, evalExpr, evalExpr, evalNode, evalNode, truth_boolean h, truth_boolean h,
        hargs, orValues_not]
    | orExpr =>
      rw [negateClause, evalExpr, evalExpr, evalNode, evalNode, truth_boolean h, truth_boolean h,
        hargs, andValues_not]
    | notExpr =>
      obtain _ | ⟨arg, _ | _⟩ := args
      case cons.nil =>
        have hn := eval_makeNotclause h row arg
        unfold makeNotclause at hn
        rw [negateClause, hn, Option.map_map]
        cases truth sem (evalExpr sem row arg) <;> simp
      all_goals exact eval_makeNotclause h row _
    | nullTest isNull argisrow =>
      cases argisrow with
      | true => exact eval_makeNotclause h row _
      | false =>
        rw [negateClause, evalExpr, evalExpr]
        obtain _ | ⟨v, _ | _⟩ := evalArgs sem row args
        case cons.nil => cases v <;> cases isNull <;> simp [evalNode, truth, h.bool]
        all_goals rfl
    | booleanTest kind =>
      rw [negateClause, evalExpr, evalExpr]
      obtain _ | ⟨v, _ | _⟩ := evalArgs sem row args
      case cons.nil => simp [evalNode, truth, h.bool, evalBoolTest_negate]
      all_goals rfl
    | _ => exact eval_makeNotclause h row _

end Eval

/-! ## Flat clauses -/

/-- The node may have the argument in a flat clause without a `NOT` above `AND` or `OR`. -/
def Apart : ExprTag → PredExpr D → Prop
  | .andExpr, .node .andExpr _ => False
  | .orExpr, .node .orExpr _ => False
  | .notExpr, .node .andExpr _ => False
  | .notExpr, .node .orExpr _ => False
  | _, _ => True

inductive FlatClause : PredExpr D → Prop
  | const (t : Oid) (v : Option D) : FlatClause (.const t v)
  | node (tag : ExprTag) (args : List (PredExpr D)) (h : ∀ e ∈ args, FlatClause e)
      (ha : ∀ e ∈ args, Apart tag e) : FlatClause (.node tag args)

theorem FlatClause.makeNotclause {e : PredExpr D} (h : FlatClause e) (ha : Apart .notExpr e) :
    FlatClause (makeNotclause e) :=
  .node _ _ (by simpa using h) (by simpa using ha)

/-- A clause that may be an argument of `AND` is negated to one that may be an argument of `OR`,
and the other way round. -/
theorem apart_negateClause {e : PredExpr D} (h : FlatClause e) :
    (Apart .andExpr e → Apart .orExpr (negateClause sem cat e)) ∧
      (Apart .orExpr e → Apart .andExpr (negateClause sem cat e)) := by
  cases h with
  | const t v => exact ⟨fun _ => trivial, fun _ => trivial⟩
  | node tag args h ha =>
    cases tag with
    | andExpr => exact ⟨False.elim, fun _ => trivial⟩
    | orExpr => exact ⟨fun _ => trivial, False.elim⟩
    | notExpr =>
      obtain _ | ⟨arg, _ | _⟩ := args
      case cons.nil =>
        have hn := ha arg (by simp)
        rw [negateClause]
        cases arg with
        | const t v => exact ⟨fun _ => trivial, fun _ => trivial⟩
        | node tag args => cases tag <;> simp_all [Apart]
      all_goals exact ⟨fun _ => trivial, fun _ => trivial⟩
    | opExpr opno coll | scalarArrayOpExpr opno coll useOr =>
      rw [negateClause]
      cases cat.negator opno <;> exact ⟨fun _ => trivial, fun _ => trivial⟩
    | nullTest isNull argisrow => cases argisrow <;> exact ⟨fun _ => trivial, fun _ => trivial⟩
    | _ => exact ⟨fun _ => trivial, fun _ => trivial⟩

theorem negateClause_flat {e : PredExpr D} (h : FlatClause e) :
    FlatClause (negateClause sem cat e) := by
  induction e using PredExpr.induct with
  | hc t v => exact .const _ _
  | hn tag args ih =>
    obtain ⟨hf, ha⟩ : (∀ e ∈ args, FlatClause e) ∧ ∀ e ∈ args, Apart tag e := by
      cases h with
      | node _ _ hf ha => exact ⟨hf, ha⟩
    have hargs : ∀ e ∈ negateArgs sem cat args, FlatClause e := by
      rw [negateArgs_eq_map]
      exact forall_mem_map.mpr fun e he => ih e he (hf e he)
    cases tag with
    | andExpr =>
      rw [negateClause]
      refine .node _ _ hargs ?_
      rw [negateArgs_eq_map]
      exact forall_mem_map.mpr fun e he => (apart_negateClause (hf e he)).1 (ha e he)
    | orExpr =>
      rw [negateClause]
      refine .node _ _ hargs ?_
      rw [negateArgs_eq_map]
      exact forall_mem_map.mpr fun e he => (apart_negateClause (hf e he)).2 (ha e he)
    | notExpr =>
      obtain _ | ⟨arg, _ | _⟩ := args
      case cons.nil => exact hf arg (by simp)
      all_goals exact h.makeNotclause trivial
    | opExpr opno coll | scalarArrayOpExpr opno coll useOr =>
      rw [negateClause]
      cases cat.negator opno with
      | none => exact h.makeNotclause trivial
      | some opno' => exact .node _ _ hf fun e _ => by trivial
    | nullTest isNull argisrow =>
      cases argisrow with
      | true => exact h.makeNotclause trivial
      | false => exact .node _ _ hf fun _ _ => trivial
    | booleanTest kind => exact .node _ _ hf fun _ _ => trivial
    | _ => exact h.makeNotclause trivial

/-- **`negate_clause` is exact negation**, and keeps clauses flat. -/
theorem negateClause_exact (h : NegatorsSound sem cat) (row : Nat → Option D) (e : PredExpr D) :
    truth sem (evalExpr sem row (negateClause sem cat e)) =
        (truth sem (evalExpr sem row e)).map not ∧
      (FlatClause e → FlatClause (negateClause sem cat e)) :=
  ⟨eval_negateClause h row e, negateClause_flat⟩

theorem negateClause_exact_int : NegatorsSound intSemantics intCatalog ∧
    truth intSemantics (evalExpr intSemantics (fun _ => some 7)
      (negateClause intSemantics intCatalog
        (.node .andExpr [columnCompares .lt 5, .const boolOid none]))) = some true := by
  have h : NegatorsSound intSemantics intCatalog := by
    refine ⟨intCatalog_sound.bool, fun opno opno' coll values hn => ?_⟩
    obtain _ | ⟨a, _ | ⟨b, _ | _⟩⟩ := values
    case cons.cons.nil => exact intCatalog_sound.negator opno opno' coll a b hn
    all_goals simp [truth, intSemantics, intOpFunc]
  exact ⟨h, (negateClause_exact h _ _).1⟩

end AthenaPG
