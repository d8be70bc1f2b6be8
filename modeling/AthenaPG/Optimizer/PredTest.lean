import AthenaPG.Optimizer.PrepQual

/-!
Proofs about predicates (`src/backend/optimizer/util/predtest.c`): `predicate_implied_by`
and `predicate_refuted_by`.

A node is its tag, with those fields that are not nodes, over its child nodes.  A value
carries its type, so that an operator may be taken to follow the order of its family on
all values.  The cache of operator proofs is left out: an entry only repeats what the
catalogs say.

* `predicateImpliedByRecurse`, `predicateRefutedByRecurse`: the recursion over `AND`
  and `OR` structures, arrays included;
* `clauseIsStrictFor`, `operatorPredicateProof`: the proofs for simple clauses.
-/

namespace AthenaPG

/-! ## Nodes -/

abbrev Oid := Nat

inductive CoerceKind
  | viaIO
  | array
  | rowtype
  | domain
  deriving DecidableEq

inductive BoolTestType
  | isTrue
  | isNotTrue
  | isFalse
  | isNotFalse
  | isUnknown
  | isNotUnknown
  deriving DecidableEq

inductive ExprTag
  | opExpr (opno inputcollid : Oid)
  | funcExpr (funcid : Oid)
  | andExpr
  | orExpr
  | notExpr
  | list
  | restrictInfo
  | nullTest (isNull argisrow : Bool)
  | booleanTest (kind : BoolTestType)
  | scalarArrayOpExpr (opno inputcollid : Oid) (useOr : Bool)
  | arrayExpr (multidims : Bool)
  | relabelType (resulttype : Oid)
  | coerce (kind : CoerceKind) (info : Oid)
  | other (id : Nat)
  deriving DecidableEq

/-- A node; a `Const` is null if its value is `none`. -/
inductive PredExpr (D : Type) where
  | const (consttype : Oid) (value : Option D)
  | node (tag : ExprTag) (args : List (PredExpr D))

namespace PredExpr

variable {D : Type}

theorem induct {P : PredExpr D → Prop} (hc : ∀ consttype value, P (.const consttype value))
    (hn : ∀ tag args, (∀ e ∈ args, P e) → P (.node tag args)) : ∀ e, P e
  | .const consttype value => hc consttype value
  | .node tag args => hn tag args fun e _ => induct hc hn e

mutual

def equal [DecidableEq D] : PredExpr D → PredExpr D → Bool
  | .const t v, .const t' v' => t == t' && v == v'
  | .node tag args, .node tag' args' => tag == tag' && equalArgs args args'
  | _, _ => false

/-- `equal` on two lists of nodes. -/
def equalArgs [DecidableEq D] : List (PredExpr D) → List (PredExpr D) → Bool
  | [], [] => true
  | e :: es, e' :: es' => equal e e' && equalArgs es es'
  | _, _ => false

end

theorem eq_of_equalArgs [DecidableEq D] {args args' : List (PredExpr D)}
    (h : ∀ e ∈ args, ∀ e', equal e e' = true → e = e') (heq : equalArgs args args' = true) :
    args = args' := by
  induction args generalizing args' with
  | nil =>
    cases args' with
    | nil => rfl
    | cons e' es' => simp [equalArgs] at heq
  | cons e es ih =>
    cases args' with
    | nil => simp [equalArgs] at heq
    | cons e' es' =>
      rw [equalArgs, Bool.and_eq_true] at heq
      rw [h e List.mem_cons_self e' heq.1, ih (fun d hd => h d (List.mem_cons_of_mem e hd)) heq.2]

theorem eq_of_equal [DecidableEq D] {e e' : PredExpr D} (h : equal e e' = true) : e = e' := by
  induction e using PredExpr.induct generalizing e' with
  | hc t v =>
    cases e' with
    | const t' v' =>
      simp only [equal, Bool.and_eq_true, beq_iff_eq] at h
      rw [h.1, h.2]
    | node tag' args' => simp [equal] at h
  | hn tag args ih =>
    cases e' with
    | const t' v' => simp [equal] at h
    | node tag' args' =>
      simp only [equal, Bool.and_eq_true, beq_iff_eq] at h
      rw [h.1, eq_of_equalArgs (fun e he e' => ih e he) h.2]

end PredExpr

open PredExpr

/-! ## Values -/

/-- What the functions behind the nodes compute. -/
structure PredSemantics (D : Type) where
  ofBool : Bool → D
  toBool : D → Bool
  opFunc : Oid → Oid → List (Option D) → Option D
  funcFunc : Oid → List (Option D) → Option D
  arrayElems : D → List (Option D)
  elemType : D → Oid
  mkArray : Bool → List (Option D) → Option D
  relabel : Oid → D → D
  coerce : CoerceKind → Oid → D → Option D
  rowNullTest : Bool → Option D → Bool

section Values

variable {D : Type} (sem : PredSemantics D)

def truth (value : Option D) : Option Bool := value.map sem.toBool

def boolean (value : Option Bool) : Option D := value.map sem.ofBool

/-- `ExecEvalBoolTest`. -/
def evalBoolTest : BoolTestType → Option Bool → Bool
  | .isTrue, v => v == some true
  | .isNotTrue, v => v != some true
  | .isFalse, v => v == some false
  | .isNotFalse, v => v != some false
  | .isUnknown, v => v == none
  | .isNotUnknown, v => v != none

/-- `ExecEvalScalarArrayOp`: an operator over the elements of an array. -/
def evalScalarArrayOp (opno coll : Oid) (useOr : Bool) (scalar array : Option D) : Option D :=
  match array with
  | none => none
  | some d =>
    let results := (sem.arrayElems d).map fun elem => truth sem (sem.opFunc opno coll [scalar, elem])
    boolean sem (if useOr then orValues results else andValues results)

/-- The value of a node from the values of its children; the row gives the other expressions
their values. -/
def evalNode (row : Nat → Option D) : ExprTag → List (Option D) → Option D
  | .opExpr opno coll, values => sem.opFunc opno coll values
  | .funcExpr funcid, values => sem.funcFunc funcid values
  | .andExpr, values => boolean sem (andValues (values.map (truth sem)))
  | .list, values => boolean sem (andValues (values.map (truth sem)))
  | .orExpr, values => boolean sem (orValues (values.map (truth sem)))
  | .notExpr, [v] => boolean sem ((truth sem v).map not)
  | .restrictInfo, [v] => v
  | .nullTest isNull argisrow, [v] =>
    some (sem.ofBool (if argisrow then sem.rowNullTest isNull v else v.isNone == isNull))
  | .booleanTest kind, [v] => some (sem.ofBool (evalBoolTest kind (truth sem v)))
  | .scalarArrayOpExpr opno coll useOr, [scalar, array] =>
    evalScalarArrayOp sem opno coll useOr scalar array
  | .arrayExpr multidims, values => sem.mkArray multidims values
  | .relabelType resulttype, [v] => v.map (sem.relabel resulttype)
  | .coerce kind info, [v] => v.bind (sem.coerce kind info)
  | .other id, _ => row id
  | _, _ => none

mutual

def evalExpr (row : Nat → Option D) : PredExpr D → Option D
  | .const _ value => value
  | .node tag args => evalNode sem row tag (evalArgs row args)

def evalArgs (row : Nat → Option D) : List (PredExpr D) → List (Option D)
  | [] => []
  | e :: es => evalExpr row e :: evalArgs row es

end

theorem evalArgs_eq_map (row : Nat → Option D) (args : List (PredExpr D)) :
    evalArgs sem row args = args.map (evalExpr sem row) := by
  induction args with
  | nil => rfl
  | cons e es ih => rw [evalArgs, ih, List.map_cons]

end Values

/-! ## Catalogs -/

/-- Btree strategies, and `ROWCOMPARE_NE`. -/
inductive BTStrategy
  | lt
  | le
  | eq
  | ge
  | gt
  | ne
  deriving DecidableEq

/-- A row of `pg_amop` for a btree family, and `OpBtreeInterpretation`. -/
structure OpEntry where
  opfamily : Oid
  strategy : BTStrategy
  oplefttype : Oid
  oprighttype : Oid

structure PredCatalog where
  opStrict : Oid → Bool
  funcStrict : Oid → Bool
  commutator : Oid → Option Oid
  negator : Oid → Option Oid
  opImmutable : Oid → Bool
  amops : Oid → List OpEntry
  opfamilyMember : Oid → Oid → Oid → BTStrategy → Option Oid

def booleanEqualOperator : Oid := 91

def maxSaopArraySize : Nat := 100

/-- `BT_implies_table`, by the clause's operator and the predicate's. -/
def btImpliesTable : BTStrategy → BTStrategy → Bool
  | .lt, .lt | .lt, .le | .lt, .ne => true
  | .le, .le => true
  | .eq, .le | .eq, .eq | .eq, .ge => true
  | .ge, .ge => true
  | .gt, .ge | .gt, .gt | .gt, .ne => true
  | .ne, .ne => true
  | _, _ => false

def btRefutesTable : BTStrategy → BTStrategy → Bool
  | .lt, .eq | .lt, .ge | .lt, .gt => true
  | .le, .gt => true
  | .eq, .lt | .eq, .gt | .eq, .ne => true
  | .ge, .lt => true
  | .gt, .lt | .gt, .le | .gt, .eq => true
  | .ne, .eq => true
  | _, _ => false

def btImplicTable : BTStrategy → BTStrategy → Option BTStrategy
  | .lt, .lt => some .ge | .lt, .le => some .ge | .lt, .ne => some .ge
  | .le, .lt => some .gt | .le, .le => some .ge | .le, .ne => some .gt
  | .eq, .lt => some .gt | .eq, .le => some .ge | .eq, .eq => some .eq
  | .eq, .ge => some .le | .eq, .gt => some .lt | .eq, .ne => some .ne
  | .ge, .ge => some .le | .ge, .gt => some .lt | .ge, .ne => some .lt
  | .gt, .ge => some .le | .gt, .gt => some .le | .gt, .ne => some .le
  | .ne, .ne => some .eq
  | _, _ => none

def btRefuteTable : BTStrategy → BTStrategy → Option BTStrategy
  | .lt, .eq => some .ge | .lt, .ge => some .ge | .lt, .gt => some .ge
  | .le, .eq => some .gt | .le, .ge => some .gt | .le, .gt => some .ge
  | .eq, .lt => some .le | .eq, .le => some .lt | .eq, .eq => some .ne
  | .eq, .ge => some .gt | .eq, .gt => some .ge | .eq, .ne => some .eq
  | .ge, .lt => some .le | .ge, .le => some .lt | .ge, .eq => some .lt
  | .gt, .lt => some .le | .gt, .le => some .le | .gt, .eq => some .le
  | .ne, .eq => some .eq
  | _, _ => none

namespace PredCatalog

variable (cat : PredCatalog)

/-- `get_op_btree_interpretation`. -/
def btreeInterpretation (opno : Oid) : List OpEntry :=
  if (cat.amops opno).isEmpty then
    match cat.negator opno with
    | none => []
    | some neg => ((cat.amops neg).filter fun e => e.strategy == .eq).map fun e =>
        { e with strategy := .ne }
  else cat.amops opno

/-- The test operator that `lookup_proof_cache` finds for two interpretations. -/
def testOperator (refuteIt : Bool) (pred clause : OpEntry) : Option Oid :=
  match (if refuteIt then btRefuteTable else btImplicTable) clause.strategy pred.strategy with
  | none => none
  | some .ne => (cat.opfamilyMember pred.opfamily pred.oprighttype clause.oprighttype .eq).bind
      cat.negator
  | some test => cat.opfamilyMember pred.opfamily pred.oprighttype clause.oprighttype test

/-- The loops of `lookup_proof_cache`. -/
def proofLoop (refuteIt : Bool) : List (OpEntry × OpEntry) → Bool → Bool × Option Oid
  | [], same => (same, none)
  | (pred, clause) :: rest, same =>
    if pred.opfamily ≠ clause.opfamily then proofLoop refuteIt rest same
    else
      let same := same ||
        (if refuteIt then btRefutesTable else btImpliesTable) clause.strategy pred.strategy
      match cat.testOperator refuteIt pred clause with
      | none => proofLoop refuteIt rest same
      | some op => if cat.opImmutable op then (same, some op) else proofLoop refuteIt rest same

/-- `lookup_proof_cache`: whether equal subexpressions suffice, and the test operator. -/
def lookupProof (predOp clauseOp : Oid) (refuteIt : Bool) : Bool × Option Oid :=
  let pairs := (cat.btreeInterpretation predOp).flatMap fun pred =>
    (cat.btreeInterpretation clauseOp).map fun clause => (pred, clause)
  let result := cat.proofLoop refuteIt pairs false
  (result.1 && cat.opImmutable clauseOp, result.2)

def operatorSameSubexprsProof (predOp clauseOp : Oid) (refuteIt : Bool) : Bool :=
  (if refuteIt then cat.negator predOp == some clauseOp else predOp == clauseOp) ||
    (cat.lookupProof predOp clauseOp refuteIt).1

end PredCatalog

/-! ## Simple clauses -/

/-- A `RelabelType` is looked through. -/
def stripRelabel {D : Type} : PredExpr D → PredExpr D
  | .node (.relabelType _) [arg] => arg
  | e => e

theorem sizeOf_lt_of_stripRelabel {D : Type} {cl : PredExpr D} {tag : ExprTag}
    {args : List (PredExpr D)} {arg : PredExpr D} (h : stripRelabel cl = .node tag args)
    (ha : arg ∈ args) : sizeOf arg < sizeOf cl := by
  have hlt := List.sizeOf_lt_of_mem ha
  unfold stripRelabel at h
  split at h
  · subst h
    simp only [PredExpr.node.sizeOf_spec, List.cons.sizeOf_spec]
    omega
  subst h
  simp only [PredExpr.node.sizeOf_spec]
  omega

section Proofs

variable {D : Type} [DecidableEq D] (sem : PredSemantics D) (cat : PredCatalog)

/-- The number of elements of an array node that is known to have some. -/
def knownElements : PredExpr D → Nat
  | .const _ (some d) => (sem.arrayElems d).length
  | .node (.arrayExpr false) elements => elements.length
  | _ => 0

def isNullConst : PredExpr D → Bool
  | .const _ none => true
  | _ => false

def clauseIsStrictFor (clause subexpr : PredExpr D) (allowFalse : Bool) : Bool :=
  equal (stripRelabel clause) (stripRelabel subexpr) ||
    match _hclause : stripRelabel clause with
    | .const _ value => value.isNone
    | .node (.opExpr opno _) args =>
      cat.opStrict opno &&
        args.attach.any fun arg => clauseIsStrictFor arg.1 (stripRelabel subexpr) false
    | .node (.funcExpr funcid) args =>
      cat.funcStrict funcid &&
        args.attach.any fun arg => clauseIsStrictFor arg.1 (stripRelabel subexpr) false
    | .node (.coerce _ _) [arg] => clauseIsStrictFor arg (stripRelabel subexpr) false
    | .node (.scalarArrayOpExpr opno _ useOr) [scalarnode, arraynode] =>
      (clauseIsStrictFor scalarnode (stripRelabel subexpr) false && cat.opStrict opno &&
        (allowFalse && useOr || isNullConst arraynode || knownElements sem arraynode > 0)) ||
      clauseIsStrictFor arraynode (stripRelabel subexpr) false
    | _ => false
termination_by sizeOf clause
decreasing_by
  all_goals
    apply sizeOf_lt_of_stripRelabel (by assumption)
    first
    | exact arg.2
    | simp

/-- The end of `operator_predicate_proof`, for two constants on the right. -/
def compareConsts (predOp : Oid) (predConst : Option D) (clauseOp : Oid) (clauseConst : Option D)
    (coll : Oid) (refuteIt weak : Bool) : Bool :=
  match clauseConst, predConst with
  | none, _ =>
    cat.opStrict clauseOp &&
      (!(weak && !refuteIt) || predConst.isNone && cat.opStrict predOp)
  | some _, none => weak && cat.opStrict predOp
  | some c, some p =>
    match (cat.lookupProof predOp clauseOp refuteIt).2 with
    | none => false
    | some testOp => truth sem (sem.opFunc testOp coll [some p, some c]) == some true

/-- The comparison of two nodes, which have to be constants, under two operators, which have
to exist. -/
def constsProof (predOp : Option Oid) (predNode : PredExpr D) (clauseOp : Option Oid)
    (clauseNode : PredExpr D) (coll : Oid) (refuteIt weak : Bool) : Bool :=
  match predNode, clauseNode, predOp, clauseOp with
  | .const _ p, .const _ c, some predOp, some clauseOp =>
    compareConsts sem cat predOp p clauseOp c coll refuteIt weak
  | _, _, _, _ => false

variable (predicate clause : PredExpr D)

def operatorPredicateProof (refuteIt weak : Bool) : Bool := match predicate, clause with
  | .node (.opExpr predOp coll) [predLeft, predRight],
      .node (.opExpr clauseOp clauseColl) [clauseLeft, clauseRight] =>
    if coll ≠ clauseColl then false
    else if equal predLeft clauseLeft then
      if equal predRight clauseRight then cat.operatorSameSubexprsProof predOp clauseOp refuteIt
      else constsProof sem cat (some predOp) predRight (some clauseOp) clauseRight coll refuteIt weak
    else if equal predRight clauseRight then
      constsProof sem cat (cat.commutator predOp) predLeft (cat.commutator clauseOp) clauseLeft coll
        refuteIt weak
    else if equal predLeft clauseRight then
      if equal predRight clauseLeft then
        match cat.commutator predOp with
        | none => false
        | some predOp => cat.operatorSameSubexprsProof predOp clauseOp refuteIt
      else
        constsProof sem cat (some predOp) predRight (cat.commutator clauseOp) clauseLeft coll
          refuteIt weak
    else if equal predRight clauseLeft then
      constsProof sem cat (cat.commutator predOp) predLeft (some clauseOp) clauseRight coll
        refuteIt weak
    else false
  | _, _ => false

/-- The clause is a comparison of a boolean with a constant that decides the predicate. -/
def booleanEquality : Bool := match clause with
  | .node (.opExpr opno _) [leftop, .const _ (some value)] =>
    opno == booleanEqualOperator &&
      if sem.toBool value then equal predicate leftop
      else
        match predicate with
        | .node .notExpr [arg] => equal arg leftop
        | _ => false
  | _ => false

def predicateImpliedBySimpleClause (weak : Bool) : Bool :=
  equal predicate clause || booleanEquality sem predicate clause ||
    match weak, predicate with
    | false, .node (.nullTest isNull argisrow) [arg] =>
      !isNull && !argisrow && clauseIsStrictFor sem cat clause arg true
    | _, _ => operatorPredicateProof sem cat predicate clause false weak

/-- `predicate_refuted_by_simple_clause`; the test for one and the same node is only a
shortcut to a failure and left out. -/
def predicateRefutedBySimpleClause (weak : Bool) : Bool := match predicate, clause with
  | .node (.nullTest true argisrow) [arg], clause =>
    !argisrow && (clauseIsStrictFor sem cat clause arg true ||
      match clause with
      | .node (.nullTest false false) [arg'] => equal arg' arg
      | _ => false)
  | predicate, .node (.nullTest true argisrow) [arg] =>
    !argisrow &&
      ((match predicate with
        | .node (.nullTest false false) [arg'] => equal arg' arg
        | _ => false) ||
      weak && clauseIsStrictFor sem cat predicate arg true)
  | predicate, clause => operatorPredicateProof sem cat predicate clause true weak

/-! ## AND and OR structures -/

inductive PredClass
  | atom
  | and
  | or

/-- `predicate_classify`, with the components that an iteration visits. -/
def predicateClassify : PredExpr D → PredClass × List (PredExpr D)
  | .node .list items => (.and, items)
  | .node .andExpr args => (.and, args)
  | .node .orExpr args => (.or, args)
  | .node (.scalarArrayOpExpr opno coll useOr) [scalar, .const _ (some array)] =>
    if (sem.arrayElems array).length ≤ maxSaopArraySize then
      (if useOr then .or else .and, (sem.arrayElems array).map fun elem =>
        .node (.opExpr opno coll) [scalar, .const (sem.elemType array) elem])
    else (.atom, [])
  | .node (.scalarArrayOpExpr opno coll useOr) [scalar, .node (.arrayExpr false) elements] =>
    if elements.length ≤ maxSaopArraySize then
      (if useOr then .or else .and, elements.map fun elem =>
        .node (.opExpr opno coll) [scalar, elem])
    else (.atom, [])
  | _ => (.atom, [])

/-- The class that `predicate_classify` finds. -/
def predClass (e : PredExpr D) : PredClass := (predicateClassify sem e).1

def components (e : PredExpr D) : List (PredExpr D) := (predicateClassify sem e).2

/-- A `RestrictInfo` is skipped. -/
def skipRestrictInfo : PredExpr D → PredExpr D
  | .node .restrictInfo [clause] => clause
  | e => e

def extractNotArg : PredExpr D → Option (PredExpr D)
  | .node .notExpr [arg] => some arg
  | .node (.booleanTest .isNotTrue) [arg] => some arg
  | .node (.booleanTest .isFalse) [arg] => some arg
  | .node (.booleanTest .isUnknown) [arg] => some arg
  | _ => none

def extractStrongNotArg : PredExpr D → Option (PredExpr D)
  | .node .notExpr [arg] => some arg
  | .node (.booleanTest .isFalse) [arg] => some arg
  | _ => none

end Proofs

/-! ## The recursion -/

section Recursion

variable {D : Type}

mutual

def structureWeight : PredExpr D → Nat
  | .const _ _ => 1
  | .node tag args =>
    match tag with
    | .list | .andExpr | .orExpr | .notExpr | .booleanTest _ | .restrictInfo =>
      1 + weightOfArgs args
    | .scalarArrayOpExpr _ _ _ => 2
    | _ => 1

def weightOfArgs : List (PredExpr D) → Nat
  | [] => 0
  | e :: es => structureWeight e + weightOfArgs es

end

theorem weight_le_of_mem {e : PredExpr D} {args : List (PredExpr D)} (h : e ∈ args) :
    structureWeight e ≤ weightOfArgs args := by
  induction args with
  | nil => cases h
  | cons a as ih =>
    rw [weightOfArgs]
    obtain rfl | h := List.mem_cons.mp h
    · omega
    have := ih h
    omega

theorem weight_component (sem : PredSemantics D) {e item : PredExpr D}
    (h : item ∈ components sem e) : structureWeight item < structureWeight e := by
  unfold components predicateClassify at h
  split at h
  case h_1 | h_2 | h_3 =>
    have := weight_le_of_mem h
    simp only [structureWeight] at *
    omega
  case h_4 | h_5 =>
    split at h
    · obtain ⟨elem, -, rfl⟩ := List.mem_map.mp h
      simp only [structureWeight]
      omega
    · simp at h
  · simp at h

theorem weight_skipRestrictInfo (e : PredExpr D) :
    structureWeight (skipRestrictInfo e) ≤ structureWeight e := by
  unfold skipRestrictInfo
  split
  · simp only [structureWeight, weightOfArgs]
    omega
  · exact le_refl _

variable [DecidableEq D] (sem : PredSemantics D) (cat : PredCatalog)

def predicateImpliedByRecurse (clause predicate : PredExpr D) (weak : Bool) : Bool :=
  match predClass sem (skipRestrictInfo clause), predClass sem predicate with
  | .and, .and =>
    (components sem predicate).attach.all fun p =>
      predicateImpliedByRecurse (skipRestrictInfo clause) p.1 weak
  | .and, .or =>
    ((components sem predicate).attach.any fun p =>
      predicateImpliedByRecurse (skipRestrictInfo clause) p.1 weak) ||
    (components sem (skipRestrictInfo clause)).attach.any fun c =>
      predicateImpliedByRecurse c.1 predicate weak
  | .and, .atom =>
    (components sem (skipRestrictInfo clause)).attach.any fun c =>
      predicateImpliedByRecurse c.1 predicate weak
  | .or, .or =>
    (components sem (skipRestrictInfo clause)).attach.all fun c =>
      (components sem predicate).attach.any fun p => predicateImpliedByRecurse c.1 p.1 weak
  | .or, _ =>
    (components sem (skipRestrictInfo clause)).attach.all fun c =>
      predicateImpliedByRecurse c.1 predicate weak
  | .atom, .and =>
    (components sem predicate).attach.all fun p =>
      predicateImpliedByRecurse (skipRestrictInfo clause) p.1 weak
  | .atom, .or =>
    (components sem predicate).attach.any fun p =>
      predicateImpliedByRecurse (skipRestrictInfo clause) p.1 weak
  | .atom, .atom =>
    predicateImpliedBySimpleClause sem cat predicate (skipRestrictInfo clause) weak
termination_by structureWeight clause + structureWeight predicate
decreasing_by
  all_goals
    have hskip := weight_skipRestrictInfo clause
    first
    | have hp := weight_component sem p.2
      have hc := weight_component sem c.2
      omega
    | have hp := weight_component sem p.2
      omega
    | have hc := weight_component sem c.2
      omega

def predicateRefutedByRecurse (clause predicate : PredExpr D) (weak : Bool) : Bool :=
  match predClass sem (skipRestrictInfo clause), predClass sem predicate with
  | .and, .and =>
    ((components sem predicate).attach.any fun p =>
      predicateRefutedByRecurse (skipRestrictInfo clause) p.1 weak) ||
    (components sem (skipRestrictInfo clause)).attach.any fun c =>
      predicateRefutedByRecurse c.1 predicate weak
  | .and, .or =>
    (components sem predicate).attach.all fun p =>
      predicateRefutedByRecurse (skipRestrictInfo clause) p.1 weak
  | .and, .atom =>
    ((extractNotArg predicate).any fun arg =>
      predicateImpliedByRecurse sem cat (skipRestrictInfo clause) arg false) ||
    (components sem (skipRestrictInfo clause)).attach.any fun c =>
      predicateRefutedByRecurse c.1 predicate weak
  | .or, .or =>
    (components sem predicate).attach.all fun p =>
      predicateRefutedByRecurse (skipRestrictInfo clause) p.1 weak
  | .or, .and =>
    (components sem (skipRestrictInfo clause)).attach.all fun c =>
      (components sem predicate).attach.any fun p => predicateRefutedByRecurse c.1 p.1 weak
  | .or, .atom =>
    ((extractNotArg predicate).any fun arg =>
      predicateImpliedByRecurse sem cat (skipRestrictInfo clause) arg false) ||
    (components sem (skipRestrictInfo clause)).attach.all fun c =>
      predicateRefutedByRecurse c.1 predicate weak
  | .atom, pclass =>
    ((extractStrongNotArg (skipRestrictInfo clause)).any fun arg =>
      predicateImpliedByRecurse sem cat predicate arg !weak) ||
    match pclass with
    | .and =>
      (components sem predicate).attach.any fun p =>
        predicateRefutedByRecurse (skipRestrictInfo clause) p.1 weak
    | .or =>
      (components sem predicate).attach.all fun p =>
        predicateRefutedByRecurse (skipRestrictInfo clause) p.1 weak
    | .atom =>
      ((extractNotArg predicate).any fun arg =>
        predicateImpliedByRecurse sem cat (skipRestrictInfo clause) arg false) ||
      predicateRefutedBySimpleClause sem cat predicate (skipRestrictInfo clause) weak
termination_by structureWeight clause + structureWeight predicate
decreasing_by
  all_goals
    have hskip := weight_skipRestrictInfo clause
    first
    | have hp := weight_component sem p.2
      have hc := weight_component sem c.2
      omega
    | have hp := weight_component sem p.2
      omega
    | have hc := weight_component sem c.2
      omega

/-- A list of clauses as one node; a single clause stands for itself. -/
def listNode : List (PredExpr D) → PredExpr D
  | [e] => e
  | es => .node .list es

variable (predicateList clauseList : List (PredExpr D))

def predicateImpliedBy (weak : Bool) : Bool :=
  if predicateList.isEmpty then true
  else if clauseList.isEmpty then false
  else predicateImpliedByRecurse sem cat (listNode clauseList) (listNode predicateList) weak

def predicateRefutedBy (weak : Bool) : Bool :=
  if predicateList.isEmpty then false
  else if clauseList.isEmpty then false
  else predicateRefutedByRecurse sem cat (listNode clauseList) (listNode predicateList) weak

end Recursion

end AthenaPG
