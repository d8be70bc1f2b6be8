import AthenaPG.Optimizer.PredTest

/-!
Soundness of the proofs about predicates, in three-valued logic.

A clause is accepted in the strong sense if it is true and in the weak sense if it is not
false.  For both, an `AND` is accepted if all of its arguments are and an `OR` if one of
them is, so that the recursion is sound for one reason in all its cases.  A strong
refutation says that the predicate is not accepted weakly, a weak one that it is not
accepted strongly.

* `CatalogSound`: what is assumed of functions and catalogs;
* `accepts_components`: the classes of `predicate_classify`, arrays included;
* `clauseIsStrictFor_sound`, `operatorPredicateProof_sound`: simple clauses;
* **`predicateImpliedBy_sound`**, **`predicateRefutedBy_sound`**.
-/

namespace AthenaPG
open List PredCatalog

open PredExpr
open Bool (and_eq_true false_eq_true not_eq_true' or_eq_true)
open Option (any_eq_true map_eq_some_iff map_none map_some some)
open BTStrategy

/-! ## Acceptance -/

/-- A truth value is accepted: not false in the weak sense, true in the strong sense. -/
def Accepts (weak : Bool) (value : Option Bool) : Prop :=
  if weak then value ≠ some false else value = some true

theorem accepts_andValues (weak : Bool) (values : List (Option Bool)) :
    Accepts weak (andValues values) ↔ ∀ v ∈ values, Accepts weak v := by
  unfold Accepts andValues
  cases weak with
  | true =>
    simp only [if_true]
    split <;> rename_i hf
    · simp only [ne_eq, not_true_eq_false, false_iff, not_forall]
      exact ⟨some false, hf, fun h => h rfl⟩
    · constructor
      · rintro - v hv rfl
        exact hf hv
      · intro _
        split <;> simp
  | false =>
    simp only [false_eq_true, if_false]
    split <;> rename_i hf
    · simp only [some.injEq, false_eq_true, false_iff, not_forall]
      exact ⟨some false, hf, by simp⟩
    · split <;> rename_i hn
      · simp only [reduceCtorEq, false_iff, not_forall]
        exact ⟨none, hn, by simp⟩
      · simp only [true_iff]
        intro v hv
        match v with
        | none => exact absurd hv hn
        | some false => exact absurd hv hf
        | some true => rfl

theorem accepts_orValues (weak : Bool) (values : List (Option Bool)) :
    Accepts weak (orValues values) ↔ ∃ v ∈ values, Accepts weak v := by
  unfold Accepts orValues
  cases weak with
  | true =>
    simp only [if_true]
    split <;> rename_i ht
    · simp only [ne_eq, some.injEq, Bool.true_eq_false, not_false_eq_true, true_iff]
      exact ⟨some true, ht, by simp⟩
    · split <;> rename_i hn
      · simp only [ne_eq, reduceCtorEq, not_false_eq_true, true_iff]
        exact ⟨none, hn, by simp⟩
      · simp only [ne_eq, not_true_eq_false, false_iff, not_exists, not_and, not_not]
        intro v hv
        match v with
        | none => exact absurd hv hn
        | some false => rfl
        | some true => exact absurd hv ht
  | false =>
    simp only [false_eq_true, if_false]
    split <;> rename_i ht
    · simp only [true_iff]
      exact ⟨some true, ht, rfl⟩
    · constructor
      · intro h
        split at h <;> cases h
      · rintro ⟨v, hv, rfl⟩
        exact absurd hv ht

/-- What a proof from a clause about a predicate asserts. -/
def Proves (refuteIt weak : Bool) (clause predicate : Option Bool) : Prop :=
  if refuteIt then clause = some true → ¬ Accepts (!weak) predicate
  else Accepts weak clause → Accepts weak predicate

/-! ## Catalogs -/

/-- A comparison by the order of its two arguments in both directions. -/
def BTStrategy.test : BTStrategy → Bool → Bool → Bool
  | .lt, ab, ba => ab && !ba
  | .le, ab, _ => ab
  | .eq, ab, ba => ab && ba
  | .ge, _, ba => ba
  | .gt, ab, ba => ba && !ab
  | .ne, ab, ba => !(ab && ba)

section Soundness

variable {D : Type} (sem : PredSemantics D) (cat : PredCatalog)

/-- An operator is null on null arguments, and else compares by an order. -/
def Follows (opno coll : Oid) (strategy : BTStrategy) (le : D → D → Bool) : Prop :=
  (∀ a b, a = none ∨ b = none → truth sem (sem.opFunc opno coll [a, b]) = none) ∧
    ∀ a b, truth sem (sem.opFunc opno coll [some a, some b]) =
      some (strategy.test (le a b) (le b a))

structure TotalOrder (le : D → D → Bool) : Prop where
  total : ∀ a b, le a b = true ∨ le b a = true
  trans : ∀ a b c, le a b = true → le b c = true → le a c = true

/-- Functions and catalogs fit together: strict functions are null on null arguments,
commutators and negators do what they say, the operators of a btree family follow one total
order for each collation, and arrays, coercions and boolean equality are the usual ones. -/
structure CatalogSound : Prop where
  bool : ∀ b, sem.toBool (sem.ofBool b) = b
  opStrict : ∀ opno coll values, cat.opStrict opno = true → none ∈ values →
    sem.opFunc opno coll values = none
  funcStrict : ∀ funcid values, cat.funcStrict funcid = true → none ∈ values →
    sem.funcFunc funcid values = none
  commutator : ∀ opno opno' coll a b, cat.commutator opno = some opno' →
    sem.opFunc opno' coll [b, a] = sem.opFunc opno coll [a, b]
  negator : ∀ opno opno' coll a b, cat.negator opno = some opno' →
    truth sem (sem.opFunc opno' coll [a, b]) = (truth sem (sem.opFunc opno coll [a, b])).map not
  family : ∀ coll opfamily, ∃ le : D → D → Bool, TotalOrder le ∧
    ∀ opno e, e ∈ cat.amops opno → e.opfamily = opfamily → Follows sem opno coll e.strategy le
  member : ∀ opfamily lefttype righttype strategy opno,
    cat.opfamilyMember opfamily lefttype righttype strategy = some opno →
    ∃ e ∈ cat.amops opno, e.opfamily = opfamily ∧ e.strategy = strategy
  booleanEqual : ∀ coll a b, truth sem (sem.opFunc booleanEqualOperator coll [a, b]) =
    match truth sem a, truth sem b with
    | some x, some y => some (x == y)
    | _, _ => none
  array : ∀ values, ∃ d, sem.mkArray false values = some d ∧ sem.arrayElems d = values
  relabel : ∀ resulttype d, sem.toBool (sem.relabel resulttype d) = sem.toBool d

/-! ### The tables -/

variable {pred : BTStrategy} {le : D → D → Bool} {predOp co coll : Oid} {rf weak : Bool}
  {cl pr e : PredExpr D}

theorem btImpliesTable_sound {cl : BTStrategy} (h : btImpliesTable cl pred = true)
    {ab ba : Bool} (ht : ab = true ∨ ba = true) (hc : cl.test ab ba = true) :
    pred.test ab ba = true := by
  revert ab ba
  cases cl <;> cases pred <;> first | (exact absurd h (by decide)) | decide

theorem btRefutesTable_sound {cl : BTStrategy} (h : btRefutesTable cl pred = true)
    {ab ba : Bool} (ht : ab = true ∨ ba = true) (hc : cl.test ab ba = true) :
    pred.test ab ba = false := by
  revert ab ba
  cases cl <;> cases pred <;> first | (exact absurd h (by decide)) | decide

def OrderBits (xc cx xp px pc cp : Bool) : Prop :=
  (xc || cx) ∧ (xp || px) ∧ (pc || cp) ∧ (xc && cp → xp) ∧ (xp && pc → xc) ∧ (cx && xp → cp) ∧
    (px && xc → pc) ∧ (cp && px → cx) ∧ (pc && cx → px)

theorem TotalOrder.bits (h : TotalOrder le) (x c p : D) :
    OrderBits (le x c) (le c x) (le x p) (le p x) (le p c) (le c p) := by
  have ht := h.trans
  unfold OrderBits
  simp only [or_eq_true, and_eq_true]
  exact ⟨h.total x c, h.total x p, h.total p c, fun h => ht _ _ _ h.1 h.2,
    fun h => ht _ _ _ h.1 h.2, fun h => ht _ _ _ h.1 h.2, fun h => ht _ _ _ h.1 h.2,
    fun h => ht _ _ _ h.1 h.2, fun h => ht _ _ _ h.1 h.2⟩

instance (xc cx xp px pc cp : Bool) : Decidable (OrderBits xc cx xp px pc cp) :=
  inferInstanceAs (Decidable (_ ∧ _))

theorem btImplicTable_sound {cl test : BTStrategy} (h : btImplicTable cl pred = some test)
    {xc cx xp px pc cp : Bool} (hb : OrderBits xc cx xp px pc cp)
    (ht : test.test pc cp = true) (hc : cl.test xc cx = true) : pred.test xp px = true := by
  revert xc cx xp px pc cp
  cases cl <;> cases pred <;> cases h <;> decide

theorem btRefuteTable_sound {cl test : BTStrategy} (h : btRefuteTable cl pred = some test)
    {xc cx xp px pc cp : Bool} (hb : OrderBits xc cx xp px pc cp)
    (ht : test.test pc cp = true) (hc : cl.test xc cx = true) : pred.test xp px = false := by
  revert xc cx xp px pc cp
  cases cl <;> cases pred <;> cases h <;> decide

/-! ### Operators -/

variable {sem cat}

theorem Follows.proves {ps cs : BTStrategy} (hp : Follows sem predOp coll ps le)
    (hcl : Follows sem co coll cs le) (weak : Bool)
    {x ca pa : Option D} (ha : ca = none ↔ pa = none)
    (ht : ∀ a c p, x = some a → ca = some c → pa = some p →
      cs.test (le a c) (le c a) = true →
      ps.test (le a p) (le p a) = !rf) :
    Proves rf weak (truth sem (sem.opFunc co coll [x, ca]))
      (truth sem (sem.opFunc predOp coll [x, pa])) := by
  cases x with
  | none =>
    rw [hcl.1 _ _ (.inl rfl), hp.1 _ _ (.inl rfl)]
    cases rf <;> simp [Proves]
  | some a =>
    cases ca with
    | none =>
      rw [hcl.1 _ _ (.inr rfl), hp.1 _ _ (.inr (ha.mp rfl))]
      cases rf <;> simp [Proves]
    | some c =>
      cases pa with
      | none => exact absurd (ha.mpr rfl) (by simp)
      | some p =>
        have ht := ht a c p rfl rfl rfl
        rw [hcl.2, hp.2]
        cases rf with
        | true =>
          intro hc
          rw [ht (by simpa using hc)]
          cases weak <;> simp [Accepts]
        | false =>
          intro hc
          have hc : cs.test (le a c) (le c a) = true := by cases weak <;> simpa [Accepts] using hc
          rw [ht hc]
          cases weak <;> simp [Accepts]

theorem interpretation_follows (hcat : CatalogSound sem cat) {opfamily : Oid}
    (hle : ∀ opno e, e ∈ cat.amops opno → e.opfamily = opfamily →
      Follows sem opno coll e.strategy le) {opno : Oid} {e : OpEntry}
    (he : e ∈ cat.btreeInterpretation opno) (hfm : e.opfamily = opfamily) :
    Follows sem opno coll e.strategy le := by
  unfold btreeInterpretation at he
  split at he
  · split at he
    · cases he
    rename_i neg hn
    -- the operator is the negator of an equality, so it is null where the equality is
    obtain ⟨e, he', rfl⟩ := mem_map.mp he
    obtain ⟨hm, hs⟩ := mem_filter.mp he'
    have hf := hle neg e hm hfm
    rw [beq_iff_eq.mp hs] at hf
    constructor
    · intro a b hab
      have := hf.1 a b hab
      rwa [hcat.negator opno neg coll a b hn, Option.map_eq_none_iff] at this
    intro a b
    have := hf.2 a b
    rw [hcat.negator opno neg coll _ _ hn, map_eq_some_iff] at this
    obtain ⟨v, hv, hnt⟩ := this
    rw [hv, ← Bool.not_not v, hnt]
    rfl
  · exact hle opno e he hfm

theorem proofLoop_sound (ri : Bool) (pairs : List (OpEntry × OpEntry)) (same : Bool) :
    ((cat.proofLoop ri pairs same).1 = true → same = true ∨
      ∃ pair ∈ pairs, pair.1.opfamily = pair.2.opfamily ∧
        (if ri then btRefutesTable else btImpliesTable) pair.2.strategy pair.1.strategy = true) ∧
    ∀ op, (cat.proofLoop ri pairs same).2 = some op →
      ∃ pair ∈ pairs, pair.1.opfamily = pair.2.opfamily ∧
        cat.testOperator ri pair.1 pair.2 = some op := by
  induction pairs generalizing same with
  | nil => exact ⟨fun h => .inl h, fun op h => by cases h⟩
  | cons pair rest ih =>
    obtain ⟨pred, cl⟩ := pair
    have later : ∀ same', (same' = true → same = true ∨ pred.opfamily = cl.opfamily ∧
          (if ri then btRefutesTable else btImpliesTable) cl.strategy pred.strategy =
            true) → ((cat.proofLoop ri rest same').1 = true → same = true ∨
        ∃ pair ∈ (pred, cl) :: rest, pair.1.opfamily = pair.2.opfamily ∧
          (if ri then btRefutesTable else btImpliesTable) pair.2.strategy pair.1.strategy =
            true) ∧ ∀ op, (cat.proofLoop ri rest same').2 = some op →
          ∃ pair ∈ (pred, cl) :: rest, pair.1.opfamily = pair.2.opfamily ∧
            cat.testOperator ri pair.1 pair.2 = some op := by
      intro same' hs
      constructor
      · intro h
        obtain h | ⟨pair, hm, hp⟩ := (ih same').1 h
        · obtain h | h := hs h
          · exact .inl h
          · exact .inr ⟨(pred, cl), mem_cons_self, h⟩
        exact .inr ⟨pair, mem_cons_of_mem _ hm, hp⟩
      · intro op h
        obtain ⟨pair, hm, hp⟩ := (ih same').2 op h
        exact ⟨pair, mem_cons_of_mem _ hm, hp⟩
    rw [proofLoop]
    split
    · exact later same .inl
    rename_i hf
    have hf := not_not.mp hf
    have hs : ∀ t : Bool, (same || t) = true → same = true ∨
        pred.opfamily = cl.opfamily ∧ t = true := by
      intro t h
      obtain h | h := or_eq_true _ _ |>.mp h
      · exact .inl h
      · exact .inr ⟨hf, h⟩
    dsimp only
    split
    · exact later _ (hs _)
    rename_i op hop
    split
    · constructor
      · intro h
        obtain h | h := hs _ h
        · exact .inl h
        · exact .inr ⟨(pred, cl), mem_cons_self, h⟩
      · intro op' h
        cases h
        exact ⟨(pred, cl), mem_cons_self, hf, hop⟩
    · exact later _ (hs _)

theorem mem_interpretations {pair : OpEntry × OpEntry}
    (h : pair ∈ (cat.btreeInterpretation predOp).flatMap fun pred =>
      (cat.btreeInterpretation co).map fun cl => (pred, cl)) :
    pair.1 ∈ cat.btreeInterpretation predOp ∧ pair.2 ∈ cat.btreeInterpretation co := by
  obtain ⟨pred, hp, h⟩ := mem_flatMap.mp h
  obtain ⟨cl, hc, rfl⟩ := mem_map.mp h
  exact ⟨hp, hc⟩

section

variable (hcat : CatalogSound sem cat)
include hcat

theorem operatorSameSubexprsProof_sound
    (h : cat.operatorSameSubexprsProof predOp co rf = true) (coll : Oid) (weak : Bool)
    (a b : Option D) :
    Proves rf weak (truth sem (sem.opFunc co coll [a, b]))
      (truth sem (sem.opFunc predOp coll [a, b])) := by
  rw [operatorSameSubexprsProof, or_eq_true] at h
  obtain h | h := h
  · cases rf with
    | true =>
      have hn := hcat.negator predOp co coll a b (by simpa using h)
      intro hc
      rw [hn, map_eq_some_iff] at hc
      obtain ⟨v, hv, hnt⟩ := hc
      rw [hv, show v = false by simpa using hnt]
      cases weak <;> simp [Accepts]
    | false =>
      obtain rfl : predOp = co := by simpa using h
      exact fun hc => hc
  rw [lookupProof] at h
  have hl := (proofLoop_sound rf _ false).1 (and_eq_true _ _ |>.mp h).1
  obtain ⟨pair, hm, hf, ht⟩ := hl.resolve_left (by simp)
  obtain ⟨hpr, hcl⟩ := mem_interpretations hm
  obtain ⟨le, ho, hle⟩ := hcat.family coll pair.1.opfamily
  refine (interpretation_follows hcat hle hpr rfl).proves
    (interpretation_follows hcat hle hcl hf.symm) weak Iff.rfl ?_
  intro x c p _ hc hp hts
  obtain rfl : c = p := some.inj (hc.symm.trans hp)
  cases rf with
  | true => exact btRefutesTable_sound ht (ho.total x c) hts
  | false => exact btImpliesTable_sound ht (ho.total x c) hts

theorem testOperator_sound {pred cl : OpEntry} {op : Oid}
    (h : cat.testOperator rf pred cl = some op)
    (hle : ∀ opno e, e ∈ cat.amops opno → e.opfamily = pred.opfamily →
      Follows sem opno coll e.strategy le) :
    ∃ test, (if rf then btRefuteTable else btImplicTable) cl.strategy pred.strategy =
      some test ∧ ∀ p c, truth sem (sem.opFunc op coll [some p, some c]) = some true →
        test.test (le p c) (le c p) = true := by
  have member : ∀ strategy opno, cat.opfamilyMember pred.opfamily pred.oprighttype
      cl.oprighttype strategy = some opno → Follows sem opno coll strategy le := by
    intro strategy opno hop
    obtain ⟨e, he, hf, rfl⟩ := hcat.member _ _ _ _ _ hop
    exact hle opno e he hf
  rw [testOperator] at h
  split at h
  · cases h
  next hne =>
    obtain ⟨eqOp, heq, hn⟩ := Option.bind_eq_some_iff.mp h
    refine ⟨.ne, hne, fun p c ht => ?_⟩
    rw [hcat.negator _ _ _ _ _ hn, (member _ _ heq).2] at ht
    simpa [test] using ht
  next test _ hts =>
    refine ⟨test, hts, fun p c ht => ?_⟩
    rw [(member _ _ h).2] at ht
    simpa using ht

theorem compareConsts_sound {pre cc : Option D}
    (h : compareConsts sem cat predOp pre co cc coll rf weak = true) (x : Option D) :
    Proves rf weak (truth sem (sem.opFunc co coll [x, cc]))
      (truth sem (sem.opFunc predOp coll [x, pre])) := by
  have hn : ∀ opno, cat.opStrict opno = true →
      truth sem (sem.opFunc opno coll [x, none]) = none := by
    intro opno hs
    rw [hcat.opStrict opno coll _ hs (by simp)]
    rfl
  unfold compareConsts at h
  split at h
  · rw [and_eq_true] at h
    rw [hn co h.1]
    cases rf with
    | true => simp [Proves]
    | false =>
      cases weak with
      | false => simp [Proves, Accepts]
      | true =>
        have hp : pre = none ∧ cat.opStrict predOp = true := by simpa using h.2
        rw [hp.1, hn predOp hp.2]
        exact fun hc => hc
  · rw [and_eq_true] at h
    rw [hn predOp h.2, h.1]
    cases rf <;> simp [Proves, Accepts]
  rename_i c p
  split at h
  · cases h
  rename_i testOp hts
  obtain ⟨pair, hm, hf, hte⟩ := (proofLoop_sound rf _ false).2 _ hts
  obtain ⟨hp, hcl⟩ := mem_interpretations hm
  obtain ⟨le, ho, hle⟩ := hcat.family coll pair.1.opfamily
  obtain ⟨test, ht, hsn⟩ := testOperator_sound hcat hte hle
  have htr := hsn p c (beq_iff_eq.mp h)
  refine (interpretation_follows hcat hle hp rfl).proves
    (interpretation_follows hcat hle hcl hf.symm) weak (by simp) ?_
  rintro a _ _ _ ⟨⟩ ⟨⟩ hc
  cases rf with
  | true => exact btRefuteTable_sound ht (ho.bits a c p) htr hc
  | false => exact btImplicTable_sound ht (ho.bits a c p) htr hc

end

theorem constsProof_cases {po co : Option Oid} {pn cn : PredExpr D}
    (h : constsProof sem cat po pn co cn coll rf weak = true) :
    ∃ predType predConst clauseType clauseConst predOp' clauseOp',
      pn = .const predType predConst ∧ cn = .const clauseType clauseConst ∧
      po = some predOp' ∧ co = some clauseOp' ∧
      compareConsts sem cat predOp' predConst clauseOp' clauseConst coll rf weak = true := by
  unfold constsProof at h
  split at h
  · exact ⟨_, _, _, _, _, _, rfl, rfl, rfl, rfl, h⟩
  · cases h

/-! ### Simple clauses -/

variable (sem) in
def truthOf (row : Nat → Option D) (e : PredExpr D) : Option Bool := truth sem (evalExpr sem row e)

-- its equations are derived once, before the proofs that need them
attribute [local simp] evalNode

theorem evalExpr_const (row : Nat → Option D) (con : Oid) (value : Option D) :
    evalExpr sem row (.const con value) = value := by
  rw [evalExpr]

theorem evalExpr_node (row : Nat → Option D) (tag : ExprTag) (args : List (PredExpr D)) :
    evalExpr sem row (.node tag args) = evalNode sem row tag (args.map (evalExpr sem row)) := by
  rw [evalExpr, evalArgs_eq_map]

theorem CatalogSound.truth_boolean (hcat : CatalogSound sem cat) (v : Option Bool) :
    truth sem (boolean sem v) = v := by
  cases v with
  | none => rfl
  | some b => simp [truth, boolean, hcat.bool]

variable [DecidableEq D]

theorem operatorPredicateProof_sound (hcat : CatalogSound sem cat)
    (h : operatorPredicateProof sem cat pr cl rf weak = true) (row : Nat → Option D) :
    Proves rf weak (truthOf sem row cl) (truthOf sem row pr) := by
  unfold operatorPredicateProof at h
  split at h
  case h_2 => cases h
  case h_1 predOp coll predLeft predRight co clauseColl clauseLeft clauseRight =>
    simp only [truthOf, evalExpr_node, map_cons, map_nil, evalNode]
    split_ifs at h with hcl h1 h2 h3 h4 h5 h6
    all_goals obtain rfl : coll = clauseColl := not_not.mp hcl
    · -- both sides are the same
      rw [eq_of_equal h1, eq_of_equal h2]
      exact operatorSameSubexprsProof_sound hcat h coll weak _ _
    · obtain ⟨_, p, _, c, _, _, rfl, rfl, ⟨⟩, ⟨⟩, h⟩ := constsProof_cases h
      rw [eq_of_equal h1]
      exact compareConsts_sound hcat h _
    · obtain ⟨_, p, _, c, predOp', clauseOp', rfl, rfl, hp, hc, h⟩ := constsProof_cases h
      rw [eq_of_equal h3, ← hcat.commutator _ _ _ _ _ hp, ← hcat.commutator _ _ _ _ _ hc]
      exact compareConsts_sound hcat h _
    · split at h
      · cases h
      next predOp' hp =>
        rw [eq_of_equal h4, eq_of_equal h5, ← hcat.commutator _ _ _ _ _ hp]
        exact operatorSameSubexprsProof_sound hcat h coll weak _ _
    · obtain ⟨_, p, _, c, _, clauseOp', rfl, rfl, ⟨⟩, hc, h⟩ := constsProof_cases h
      rw [eq_of_equal h4, ← hcat.commutator _ _ _ _ _ hc]
      exact compareConsts_sound hcat h _
    · obtain ⟨_, p, _, c, predOp', _, rfl, rfl, hp, ⟨⟩, h⟩ := constsProof_cases h
      rw [eq_of_equal h6, ← hcat.commutator _ _ _ _ _ hp]
      exact compareConsts_sound hcat h _

section

omit [DecidableEq D]

section

variable (hcat : CatalogSound sem cat)
include hcat

theorem evalExpr_stripRelabel (row : Nat → Option D) (e : PredExpr D) :
    (evalExpr sem row (stripRelabel e) = none ↔ evalExpr sem row e = none) ∧
      truthOf sem row (stripRelabel e) = truthOf sem row e := by
  unfold stripRelabel
  split
  next resulttype arg =>
    simp only [truthOf, evalExpr_node, map_cons, map_nil, evalNode]
    cases evalExpr sem row arg with
    | none => exact ⟨Iff.rfl, rfl⟩
    | some d => simp [truth, hcat.relabel]
  · exact ⟨Iff.rfl, rfl⟩

theorem scalarArrayOp_of_null {opno coll : Oid} {uo : Bool}
    {array : Option D} (hn : ∀ elem, sem.opFunc opno coll [none, elem] = none) :
    evalScalarArrayOp sem opno coll uo none array = none ∨
      ∃ d, array = some d ∧ sem.arrayElems d = [] ∧
        truth sem (evalScalarArrayOp sem opno coll uo none array) = some !uo := by
  cases array with
  | none => exact .inl rfl
  | some d =>
    cases he : sem.arrayElems d with
    | nil =>
      refine .inr ⟨d, rfl, he, ?_⟩
      simp only [evalScalarArrayOp, he, hcat.truth_boolean]
      cases uo <;> simp [orValues, andValues]
    | cons elem elems =>
      have hr : (elem :: elems).map (fun e => truth sem (sem.opFunc opno coll [none, e])) =
          List.replicate (elems.length + 1) none := by
        simp [hn, truth, eq_replicate_iff]
      refine .inl ?_
      simp only [evalScalarArrayOp, he, hr]
      cases uo <;> simp [orValues, andValues, boolean, mem_replicate]

theorem knownElements_sound (row : Nat → Option D)
    {arr : PredExpr D} (h : 0 < knownElements sem arr) {d : D}
    (hd : evalExpr sem row arr = some d) : sem.arrayElems d ≠ [] := by
  unfold knownElements at h
  split at h
  · cases hd
    exact length_pos_iff.mp h
  next elements =>
    rw [evalExpr_node, evalNode] at hd
    obtain ⟨d', hd', he⟩ := hcat.array (elements.map (evalExpr sem row))
    obtain rfl : d' = d := some.inj (hd'.symm.trans hd)
    rw [he]
    simpa using length_pos_iff.mp h
  · cases h

end

end

/-- **A clause that is strict for an expression is null, or false where that is allowed,
when the expression is null.** -/
theorem clauseIsStrictFor_sound (hcat : CatalogSound sem cat) (row : Nat → Option D)
    {sx : PredExpr D} {af : Bool} (h : clauseIsStrictFor sem cat cl sx af = true)
    (hn : evalExpr sem row sx = none) :
    evalExpr sem row cl = none ∨ af = true ∧ truthOf sem row cl = some false := by
  induction hsz : sizeOf cl using Nat.strong_induction_on
    generalizing cl sx af with
  | h size ih =>
    subst hsz
    have hst := (evalExpr_stripRelabel hcat row sx).1.mpr hn
    -- an argument that is strict is null
    have arg_null : ∀ arg, sizeOf arg < sizeOf cl →
        clauseIsStrictFor sem cat arg (stripRelabel sx) false = true →
        evalExpr sem row arg = none := by
      intro arg hlt ha
      exact (ih _ hlt ha hst rfl).resolve_right (by simp)
    have args_null : ∀ {tag args}, stripRelabel cl = .node tag args →
        (args.attach.any fun arg =>
          clauseIsStrictFor sem cat arg.1 (stripRelabel sx) false) = true →
        none ∈ args.map (evalExpr sem row) := by
      intro tag args hc han
      obtain ⟨⟨arg, ha⟩, -, hs⟩ := any_eq_true.mp han
      exact mem_map.mpr ⟨arg, ha, arg_null arg (sizeOf_lt_of_stripRelabel hc ha) hs⟩
    obtain ⟨he, ht⟩ := evalExpr_stripRelabel hcat row cl
    rw [← he, ← ht]
    rw [clauseIsStrictFor, or_eq_true] at h
    obtain h | h := h
    · rw [eq_of_equal h]
      exact .inl hst
    split at h
    next value hc =>
      rw [hc]
      exact .inl (by simpa [evalExpr] using h)
    next opno coll args hc =>
      rw [and_eq_true] at h
      rw [hc, evalExpr_node]
      exact .inl (hcat.opStrict _ _ _ h.1 (args_null hc h.2))
    next funcid args hc =>
      rw [and_eq_true] at h
      rw [hc, evalExpr_node]
      exact .inl (hcat.funcStrict _ _ h.1 (args_null hc h.2))
    next kind info arg hc =>
      have := arg_null arg (sizeOf_lt_of_stripRelabel hc (by simp)) h
      rw [hc, evalExpr_node]
      simp [evalNode, this]
    next opno coll useOr scalarnode arraynode hc =>
      rw [hc]
      simp only [truthOf, evalExpr_node, map_cons, map_nil, evalNode]
      simp only [or_eq_true, and_eq_true, decide_eq_true_eq] at h
      obtain ⟨⟨hsc, hs⟩, hcs⟩ | har := h
      · rw [arg_null _ (sizeOf_lt_of_stripRelabel hc (by simp)) hsc]
        have hnn : ∀ elem, sem.opFunc opno coll [none, elem] = none := fun elem =>
          hcat.opStrict opno coll [none, elem] hs (by simp)
        rcases @scalarArrayOp_of_null D sem cat hcat opno coll useOr (evalExpr sem row arraynode)
          hnn with h | ⟨d, hd, hel, hv⟩
        · exact .inl h
        obtain (hor | hcn) | hk := hcs
        · rw [hv, hor.2]
          exact .inr ⟨hor.1, rfl⟩
        · unfold isNullConst at hcn
          split at hcn
          · cases hd
          · cases hcn
        exact absurd hel (knownElements_sound hcat row hk hd)
      rw [arg_null _ (sizeOf_lt_of_stripRelabel hc (by simp)) har]
      exact .inl rfl
    · cases h

theorem not_accepts_false (weak : Bool) : ¬ Accepts weak (some false) := by
  cases weak <;> simp [Accepts]

section

variable (hcat : CatalogSound sem cat)
include hcat

variable (row : Nat → Option D)

section

omit [DecidableEq D]

theorem truthOf_nullTest (nl : Bool) (arg : PredExpr D) :
    truthOf sem row (.node (.nullTest nl false) [arg]) =
      some ((evalExpr sem row arg).isNone == nl) := by
  simp [truthOf, evalExpr_node, evalNode, truth, hcat.bool]

theorem truthOf_notExpr (arg : PredExpr D) :
    truthOf sem row (.node .notExpr [arg]) = (truthOf sem row arg).map not := by
  simp only [truthOf, evalExpr_node, map_cons, map_nil, evalNode, hcat.truth_boolean]

theorem truthOf_booleanTest (kind : BoolTestType) (arg : PredExpr D) :
    truthOf sem row (.node (.booleanTest kind) [arg]) =
      some (evalBoolTest kind (truthOf sem row arg)) := by
  simp [truthOf, evalExpr_node, evalNode, truth, hcat.bool]

end

theorem booleanEquality_sound (h : booleanEquality sem pr cl = true) (row : Nat → Option D) :
    truthOf sem row cl = truthOf sem row pr := by
  unfold booleanEquality at h
  split at h
  next opno coll leftop consttype value =>
    rw [and_eq_true, beq_iff_eq] at h
    obtain ⟨rfl, h⟩ := h
    have hc : truthOf sem row
          (.node (.opExpr booleanEqualOperator coll) [leftop, .const consttype (some value)]) =
        (truthOf sem row leftop).map fun x => x == sem.toBool value := by
      simp only [truthOf, evalExpr_node, map_cons, map_nil, evalNode, evalExpr_const,
        hcat.booleanEqual]
      cases evalExpr sem row leftop <;> rfl
    rw [hc]
    split at h <;> rename_i hv
    · rw [eq_of_equal h, hv]
      cases truthOf sem row leftop <;> simp
    · split at h
      next arg =>
        rw [truthOf_notExpr hcat, eq_of_equal h, Bool.not_eq_true _ |>.mp hv]
        cases truthOf sem row leftop <;> simp
      · cases h
  · cases h

theorem clauseIsStrictFor_not_true {sx : PredExpr D}
    (h : clauseIsStrictFor sem cat cl sx true = true)
    (hn : evalExpr sem row sx = none) : truthOf sem row cl ≠ some true := by
  obtain h | ⟨-, h⟩ := clauseIsStrictFor_sound hcat row h hn
  · simp [truthOf, h, truth]
  · simp [h]

theorem predicateImpliedBySimpleClause_sound
    (h : predicateImpliedBySimpleClause sem cat pr cl weak = true) (row : Nat → Option D)
    (hc : Accepts weak (truthOf sem row cl)) : Accepts weak (truthOf sem row pr) := by
  unfold predicateImpliedBySimpleClause at h
  simp only [or_eq_true] at h
  obtain (h | h) | h := h
  · rwa [eq_of_equal h]
  · rwa [← booleanEquality_sound hcat h row]
  split at h
  next isNull argisrow arg =>
    simp only [and_eq_true, not_eq_true'] at h
    obtain ⟨⟨rfl, rfl⟩, hs⟩ := h
    have hn : evalExpr sem row arg ≠ none := fun hnl =>
      clauseIsStrictFor_not_true hcat row hs hnl hc
    rw [truthOf_nullTest hcat]
    simpa [Accepts, Option.isSome_iff_ne_none] using hn
  · exact operatorPredicateProof_sound hcat h row hc

theorem predicateRefutedBySimpleClause_sound
    (h : predicateRefutedBySimpleClause sem cat pr cl weak = true) (row : Nat → Option D)
    (hc : truthOf sem row cl = some true) : ¬ Accepts (!weak) (truthOf sem row pr) := by
  unfold predicateRefutedBySimpleClause at h
  split at h
  next argisrow arg =>
    simp only [and_eq_true, not_eq_true', or_eq_true] at h
    obtain ⟨rfl, h⟩ := h
    have hnt : evalExpr sem row arg ≠ none := by
      intro hn
      obtain h | h := h
      · exact clauseIsStrictFor_not_true hcat row h hn hc
      split at h
      next arg' =>
        rw [truthOf_nullTest hcat, eq_of_equal h, hn] at hc
        simp at hc
      · cases h
    have hf : truthOf sem row (.node (.nullTest true false) [arg]) = some false := by
      rw [truthOf_nullTest hcat]
      simpa [Option.isSome_iff_ne_none] using hnt
    rw [hf]
    exact not_accepts_false _
  next argisrow arg _ =>
    simp only [and_eq_true, not_eq_true', or_eq_true] at h
    obtain ⟨rfl, h⟩ := h
    have hn : evalExpr sem row arg = none := by
      rw [truthOf_nullTest hcat] at hc
      simpa using hc
    obtain h | ⟨rfl, h⟩ := h
    · split at h
      next arg' _ =>
        rw [truthOf_nullTest hcat, eq_of_equal h, hn]
        exact not_accepts_false _
      · cases h
    exact clauseIsStrictFor_not_true hcat row h hn
  · exact operatorPredicateProof_sound hcat h row hc

end

/-! ## Structures -/

variable (sem) in
def ClassAccepts (row : Nat → Option D) (weak : Bool) (e : PredExpr D) :
    PredClass × List (PredExpr D) → Prop
  | (.and, items) => Accepts weak (truthOf sem row e) ↔
      ∀ item ∈ items, Accepts weak (truthOf sem row item)
  | (.or, items) => Accepts weak (truthOf sem row e) ↔
      ∃ item ∈ items, Accepts weak (truthOf sem row item)
  | (.atom, _) => True

section

variable (hcat : CatalogSound sem cat) (row : Nat → Option D)
include hcat row
omit [DecidableEq D]

/-- **`predicate_classify` classifies soundly, arrays included.** -/
theorem accepts_components (e : PredExpr D) (weak : Bool) :
    ClassAccepts sem row weak e (predicateClassify sem e) := by
  have and_case : ∀ items : List (PredExpr D), truthOf sem row e =
      andValues (items.map (truthOf sem row)) → (Accepts weak (truthOf sem row e) ↔
        ∀ item ∈ items, Accepts weak (truthOf sem row item)) := by
    intro items h
    rw [h, accepts_andValues, forall_mem_map]
  have or_case : ∀ items : List (PredExpr D), truthOf sem row e =
      orValues (items.map (truthOf sem row)) → (Accepts weak (truthOf sem row e) ↔
        ∃ item ∈ items, Accepts weak (truthOf sem row item)) := by
    intro items h
    rw [h, accepts_orValues]
    simp only [mem_map, exists_exists_and_eq_and]
  have array_case : ∀ (opno coll : Oid) (useOr : Bool) (scalar arraynode : PredExpr D) (array : D)
      (items : List (PredExpr D)),
      evalExpr sem row arraynode = some array →
      sem.arrayElems array = items.map (evalExpr sem row) →
      truthOf sem row (.node (.scalarArrayOpExpr opno coll useOr) [scalar, arraynode]) =
        (if useOr then orValues else andValues)
          ((items.map fun item => .node (.opExpr opno coll) [scalar, item]).map
            (truthOf sem row)) := by
    intro opno coll useOr scalar arraynode array items ha he
    simp only [truthOf, evalExpr_node, map_cons, map_nil, evalNode, ha,
      evalScalarArrayOp, hcat.truth_boolean, he, map_map]
    have hi : items.map ((fun elem => truth sem (sem.opFunc opno coll
          [evalExpr sem row scalar, elem])) ∘ evalExpr sem row) =
        items.map (truthOf sem row ∘ fun item => .node (.opExpr opno coll) [scalar, item]) := by
      refine map_congr_left fun item _ => ?_
      simp only [Function.comp_apply, truthOf, evalExpr_node, map_cons, map_nil, evalNode]
    rw [hi]
    cases useOr <;> rfl
  unfold predicateClassify
  split
  case h_1 items | h_2 items =>
    refine and_case items ?_
    simp only [truthOf, evalExpr_node, evalNode, hcat.truth_boolean, map_map]
    rfl
  case h_3 items =>
    refine or_case items ?_
    simp only [truthOf, evalExpr_node, evalNode, hcat.truth_boolean, map_map]
    rfl
  case h_4 opno coll useOr scalar consttype array =>
    split
    · have h := array_case opno coll useOr scalar (.const consttype (some array)) array
        ((sem.arrayElems array).map fun elem => .const (sem.elemType array) elem)
        (evalExpr_const row _ _) (by simp [evalExpr_const, Function.comp_def])
      cases useOr with
      | true => exact or_case _ (by simpa only [map_map, Function.comp_def, if_true] using h)
      | false =>
        refine and_case _ ?_
        simpa only [map_map, Function.comp_def, false_eq_true, if_false] using h
    · trivial
  case h_5 opno coll useOr scalar elements =>
    split
    · obtain ⟨array, ha, he⟩ := hcat.array (elements.map (evalExpr sem row))
      have h := array_case opno coll useOr scalar (.node (.arrayExpr false) elements) array
        elements ((evalExpr_node row _ _).trans ha) he
      cases useOr with
      | true => exact or_case _ h
      | false => exact and_case _ h
    · trivial
  case h_6 => trivial

theorem accepts_of_and (h : predClass sem e = .and) (weak : Bool) :
    Accepts weak (truthOf sem row e) ↔
      ∀ item ∈ components sem e, Accepts weak (truthOf sem row item) := by
  have hc := accepts_components hcat row e weak
  rwa [← Prod.mk.eta (p := predicateClassify sem e), show (predicateClassify sem e).1 = _ from h]
    at hc

theorem accepts_of_or (h : predClass sem e = .or) (weak : Bool) : Accepts weak (truthOf sem row e) ↔
      ∃ item ∈ components sem e, Accepts weak (truthOf sem row item) := by
  have hc := accepts_components hcat row e weak
  rwa [← Prod.mk.eta (p := predicateClassify sem e), show (predicateClassify sem e).1 = _ from h]
    at hc

end

omit [DecidableEq D] in
theorem truthOf_skipRestrictInfo (row : Nat → Option D) (e : PredExpr D) :
    truthOf sem row (skipRestrictInfo e) = truthOf sem row e := by
  unfold skipRestrictInfo
  split
  · simp only [truthOf, evalExpr_node, map_cons, map_nil, evalNode]
  · rfl

section

variable (hcat : CatalogSound sem cat) (row : Nat → Option D)
include hcat row

theorem predicateImpliedByRecurse_sound (weak : Bool)
    (h : predicateImpliedByRecurse sem cat cl pr weak = true)
    (hcl : Accepts weak (truthOf sem row cl)) : Accepts weak (truthOf sem row pr) := by
  induction hs : structureWeight cl + structureWeight pr
    using Nat.strong_induction_on generalizing cl pr with
  | h size ih =>
    subst hs
    have hsk := weight_skipRestrictInfo cl
    rw [← truthOf_skipRestrictInfo] at hcl
    -- one step down, in the predicate or in the clause
    have down : ∀ p ∈ components sem pr,
        predicateImpliedByRecurse sem cat (skipRestrictInfo cl) p weak = true →
        Accepts weak (truthOf sem row p) := by
      intro p hp h
      have := weight_component sem hp
      exact ih _ (by omega) h hcl rfl
    have downClause : ∀ c ∈ components sem (skipRestrictInfo cl),
        predicateImpliedByRecurse sem cat c pr weak = true →
        Accepts weak (truthOf sem row c) → Accepts weak (truthOf sem row pr) := by
      intro c hc h ha
      have := weight_component sem hc
      exact ih _ (by omega) h ha rfl
    rw [predicateImpliedByRecurse] at h
    split at h
    case h_1 hc hp | h_6 hc hp =>
      rw [accepts_of_and hcat row hp]
      intro p hm
      exact down p hm (all_eq_true.mp h ⟨p, hm⟩ (mem_attach _ _))
    case h_2 hc hp =>
      obtain h | h := or_eq_true _ _ |>.mp h
      · obtain ⟨⟨p, hm⟩, -, h⟩ := any_eq_true.mp h
        exact (accepts_of_or hcat row hp weak).mpr ⟨p, hm, down p hm h⟩
      obtain ⟨⟨c, hm⟩, -, h⟩ := any_eq_true.mp h
      exact downClause c hm h ((accepts_of_and hcat row hc weak).mp hcl c hm)
    case h_3 hc hp =>
      obtain ⟨⟨c, hm⟩, -, h⟩ := any_eq_true.mp h
      exact downClause c hm h ((accepts_of_and hcat row hc weak).mp hcl c hm)
    case h_4 hc hp =>
      obtain ⟨c, hm, ha⟩ := (accepts_of_or hcat row hc weak).mp hcl
      have h := all_eq_true.mp h ⟨c, hm⟩ (mem_attach _ _)
      obtain ⟨⟨p, hpm⟩, -, h⟩ := any_eq_true.mp h
      have hcw := weight_component sem hm
      have hpw := weight_component sem hpm
      change predicateImpliedByRecurse sem cat c p weak = true at h
      exact (accepts_of_or hcat row hp weak).mpr ⟨p, hpm, ih _ (by omega) h ha rfl⟩
    case h_5 hc _ =>
      obtain ⟨c, hm, ha⟩ := (accepts_of_or hcat row hc weak).mp hcl
      exact downClause c hm (all_eq_true.mp h ⟨c, hm⟩ (mem_attach _ _)) ha
    case h_7 hc hp =>
      obtain ⟨⟨p, hm⟩, -, h⟩ := any_eq_true.mp h
      exact (accepts_of_or hcat row hp weak).mpr ⟨p, hm, down p hm h⟩
    case h_8 hc hp => exact predicateImpliedBySimpleClause_sound hcat h row hcl

omit [DecidableEq D] in
theorem extractNotArg_sound {arg : PredExpr D} (h : extractNotArg e = some arg)
    (ha : truthOf sem row arg = some true) : truthOf sem row e = some false := by
  unfold extractNotArg at h
  split at h
  · cases h
    rw [truthOf_notExpr hcat, ha]
    rfl
  case h_2 | h_3 | h_4 =>
    cases h
    rw [truthOf_booleanTest hcat, ha]
    rfl
  · cases h

omit [DecidableEq D] in
theorem extractStrongNotArg_sound {arg : PredExpr D} (h : extractStrongNotArg e = some arg)
    (he : truthOf sem row e = some true) : truthOf sem row arg = some false := by
  unfold extractStrongNotArg at h
  split at h
  · cases h
    rw [truthOf_notExpr hcat] at he
    simpa using he
  · cases h
    rw [truthOf_booleanTest hcat] at he
    simpa [evalBoolTest] using he
  · cases h

theorem predicateRefutedByRecurse_sound (weak : Bool)
    (h : predicateRefutedByRecurse sem cat cl pr weak = true)
    (hcl : truthOf sem row cl = some true) : ¬ Accepts (!weak) (truthOf sem row pr) := by
  induction hs : structureWeight cl + structureWeight pr
    using Nat.strong_induction_on generalizing cl pr with
  | h size ih =>
    subst hs
    have hsk := weight_skipRestrictInfo cl
    rw [← truthOf_skipRestrictInfo] at hcl
    have hand : predClass sem (skipRestrictInfo cl) = .and →
        ∀ c ∈ components sem (skipRestrictInfo cl), truthOf sem row c = some true :=
      fun hc => (accepts_of_and hcat row hc false).mp hcl
    have hor : predClass sem (skipRestrictInfo cl) = .or →
        ∃ c ∈ components sem (skipRestrictInfo cl), truthOf sem row c = some true :=
      fun hc => (accepts_of_or hcat row hc false).mp hcl
    -- one step down, in the predicate or in the clause
    have down : ∀ p ∈ components sem pr,
        predicateRefutedByRecurse sem cat (skipRestrictInfo cl) p weak = true →
        ¬ Accepts (!weak) (truthOf sem row p) := by
      intro p hp h
      have := weight_component sem hp
      exact ih _ (by omega) h hcl rfl
    have downClause : ∀ c ∈ components sem (skipRestrictInfo cl),
        predicateRefutedByRecurse sem cat c pr weak = true →
        truthOf sem row c = some true → ¬ Accepts (!weak) (truthOf sem row pr) := by
      intro c hc h ht
      have := weight_component sem hc
      exact ih _ (by omega) h ht rfl
    -- the three shapes of a step
    have notArg : ((extractNotArg pr).any fun arg =>
          predicateImpliedByRecurse sem cat (skipRestrictInfo cl) arg false) = true →
        ¬ Accepts (!weak) (truthOf sem row pr) := by
      intro h
      obtain ⟨arg, har, h⟩ := any_eq_true _ _ |>.mp h
      have ht := predicateImpliedByRecurse_sound hcat row false h hcl
      rw [extractNotArg_sound hcat row har ht]
      exact not_accepts_false _
    have anyItem : predClass sem pr = .and →
        ((components sem pr).attach.any fun p =>
          predicateRefutedByRecurse sem cat (skipRestrictInfo cl) p.1 weak) = true →
        ¬ Accepts (!weak) (truthOf sem row pr) := by
      intro hp h ha
      obtain ⟨⟨p, hm⟩, -, h⟩ := any_eq_true.mp h
      exact down p hm h ((accepts_of_and hcat row hp _).mp ha p hm)
    have allItems : predClass sem pr = .or →
        ((components sem pr).attach.all fun p =>
          predicateRefutedByRecurse sem cat (skipRestrictInfo cl) p.1 weak) = true →
        ¬ Accepts (!weak) (truthOf sem row pr) := by
      intro hp h ha
      obtain ⟨p, hm, ha⟩ := (accepts_of_or hcat row hp _).mp ha
      exact down p hm (all_eq_true.mp h ⟨p, hm⟩ (mem_attach _ _)) ha
    rw [predicateRefutedByRecurse] at h
    split at h
    case h_1 hc hp =>
      obtain h | h := or_eq_true _ _ |>.mp h
      · exact anyItem hp h
      obtain ⟨⟨c, hm⟩, -, h⟩ := any_eq_true.mp h
      exact downClause c hm h (hand hc c hm)
    case h_2 hc hp | h_4 hc hp => exact allItems hp h
    case h_3 hc hp =>
      obtain h | h := or_eq_true _ _ |>.mp h
      · exact notArg h
      obtain ⟨⟨c, hm⟩, -, h⟩ := any_eq_true.mp h
      exact downClause c hm h (hand hc c hm)
    case h_5 hc hp =>
      intro ha
      obtain ⟨c, hm, ht⟩ := hor hc
      have h := all_eq_true.mp h ⟨c, hm⟩ (mem_attach _ _)
      obtain ⟨⟨p, hpm⟩, -, h⟩ := any_eq_true.mp h
      have hcw := weight_component sem hm
      have hpw := weight_component sem hpm
      change predicateRefutedByRecurse sem cat c p weak = true at h
      exact ih _ (by omega) h ht rfl ((accepts_of_and hcat row hp _).mp ha p hpm)
    case h_6 hc hp =>
      obtain h | h := or_eq_true _ _ |>.mp h
      · exact notArg h
      obtain ⟨c, hm, ht⟩ := hor hc
      exact downClause c hm (all_eq_true.mp h ⟨c, hm⟩ (mem_attach _ _)) ht
    case h_7 hc =>
      obtain h | h := or_eq_true _ _ |>.mp h
      · obtain ⟨arg, har, h⟩ := any_eq_true _ _ |>.mp h
        intro ha
        have ha := predicateImpliedByRecurse_sound hcat row _ h ha
        rw [extractStrongNotArg_sound hcat row har hcl] at ha
        exact not_accepts_false _ ha
      split at h
      next hp => exact anyItem hp h
      next hp => exact allItems hp h
      · obtain h | h := or_eq_true _ _ |>.mp h
        · exact notArg h
        · exact predicateRefutedBySimpleClause_sound hcat h row hcl

omit [DecidableEq D] in
theorem accepts_listNode (weak : Bool) (es : List (PredExpr D)) :
    Accepts weak (truthOf sem row (listNode es)) ↔ ∀ e ∈ es, Accepts weak (truthOf sem row e) := by
  unfold listNode
  split
  · simp
  · exact accepts_of_and hcat row rfl weak

end

end Soundness

/-! ## Integers

A family of integer comparisons, over natural numbers; arrays are numbers too, by their
encoding. -/

def intStrategy : Oid → Option BTStrategy
  | 97 => some .lt
  | 523 => some .le
  | 96 => some .eq
  | 525 => some .ge
  | 521 => some .gt
  | 518 => some .ne
  | _ => none

def intOperator : BTStrategy → Oid
  | .lt => 97
  | .le => 523
  | .eq => 96
  | .ge => 525
  | .gt => 521
  | .ne => 518

def BTStrategy.commuted : BTStrategy → BTStrategy
  | .lt => .gt
  | .le => .ge
  | .eq => .eq
  | .ge => .le
  | .gt => .lt
  | .ne => .ne

def BTStrategy.negated : BTStrategy → BTStrategy
  | .lt => .ge
  | .le => .gt
  | .eq => .ne
  | .ge => .lt
  | .gt => .le
  | .ne => .eq

theorem intStrategy_intOperator (strategy : BTStrategy) :
    intStrategy (intOperator strategy) = some strategy := by
  cases strategy <;> rfl

def intOpFunc (opno : Oid) : List (Option Nat) → Option Nat
  | [some a, some b] =>
    if opno = booleanEqualOperator then some ((a == 1) == (b == 1)).toNat
    else (intStrategy opno).map fun s => (s.test (decide (a ≤ b)) (decide (b ≤ a))).toNat
  | _ => none

def intSemantics : PredSemantics Nat where
  ofBool b := b.toNat
  toBool d := d == 1
  opFunc opno _ values := intOpFunc opno values
  funcFunc _ _ := none
  arrayElems d := (Encodable.decode d).getD []
  elemType _ := 23
  mkArray _ values := some (Encodable.encode values)
  relabel _ d := d
  coerce _ _ d := some d
  rowNullTest isNull v := v.isNone == isNull

def intCatalog : PredCatalog where
  opStrict _ := true
  funcStrict _ := true
  commutator opno := (intStrategy opno).map fun s => intOperator s.commuted
  negator opno := (intStrategy opno).map fun s => intOperator s.negated
  opImmutable _ := true
  amops opno := match intStrategy opno with
    | none | some .ne => []
    | some s => [⟨1976, s, 23, 23⟩]
  opfamilyMember opfamily _ _ strategy :=
    if opfamily = 1976 ∧ strategy ≠ .ne then some (intOperator strategy) else none

theorem intOpFunc_null (opno : Oid) {values : List (Option Nat)} (h : none ∈ values) :
    intOpFunc opno values = none := by
  unfold intOpFunc
  split
  · simp at h
  · rfl

theorem intOpFunc_some {opno : Oid} {s : BTStrategy} (h : intStrategy opno = some s) (a b : Nat) :
    intOpFunc opno [some a, some b] = some (s.test (decide (a ≤ b)) (decide (b ≤ a))).toNat := by
  have hne : opno ≠ booleanEqualOperator := by
    rintro rfl
    cases h
  simp [intOpFunc, hne, h]

theorem truth_intOpFunc {opno : Oid} {s : BTStrategy} (h : intStrategy opno = some s) (coll : Oid) :
    Follows intSemantics opno coll s fun a b : Nat => decide (a ≤ b) := by
  constructor
  · intro a b hab
    have hn : intOpFunc opno [a, b] = none := intOpFunc_null opno (by
      rcases hab with rfl | rfl <;> simp)
    simp [truth, intSemantics, hn]
  · intro a b
    simp only [truth, intSemantics, intOpFunc_some h, map_some]
    cases s.test (decide (a ≤ b)) (decide (b ≤ a)) <;> rfl

theorem intCatalog_sound : CatalogSound intSemantics intCatalog where
  bool b := by cases b <;> rfl
  opStrict opno coll values _ h := intOpFunc_null opno h
  funcStrict _ _ _ _ := rfl
  commutator opno opno' coll a b h := by
    obtain ⟨s, hs, rfl⟩ := map_eq_some_iff.mp h
    have hs' := intStrategy_intOperator s.commuted
    match a, b with
    | none, b =>
      have hl : none ∈ [b, none] := by simp
      have hr : none ∈ [none, b] := by simp
      exact (intOpFunc_null (intOperator s.commuted) hl).trans (intOpFunc_null opno hr).symm
    | some a, none =>
      have hl : none ∈ [none, some a] := by simp
      have hr : none ∈ [some a, none] := by simp
      exact (intOpFunc_null (intOperator s.commuted) hl).trans (intOpFunc_null opno hr).symm
    | some a, some b =>
      have ht : s.commuted.test (decide (b ≤ a)) (decide (a ≤ b)) =
          s.test (decide (a ≤ b)) (decide (b ≤ a)) := by
        cases s <;> simp [commuted, test, Bool.and_comm]
      simp only [intSemantics, intOpFunc_some hs, intOpFunc_some hs', ht]
  negator opno opno' coll a b h := by
    obtain ⟨s, hs, rfl⟩ := map_eq_some_iff.mp h
    have hf := truth_intOpFunc hs coll
    have hf' := truth_intOpFunc (intStrategy_intOperator s.negated) coll
    match a, b with
    | none, b => rw [hf.1 _ _ (.inl rfl), hf'.1 _ _ (.inl rfl), map_none]
    | some a, none => rw [hf.1 _ _ (.inr rfl), hf'.1 _ _ (.inr rfl), map_none]
    | some a, some b =>
      rw [hf.2, hf'.2, map_some]
      rcases le_total a b with hab | hab <;>
        cases s <;> simp [negated, test, hab]
  family coll opfamily := by
    refine ⟨fun a b => decide (a ≤ b), ⟨fun a b => by simpa using le_total a b, ?_⟩, ?_⟩
    · intro a b c hab hbc
      simp only [decide_eq_true_eq] at *
      exact le_trans hab hbc
    intro opno e he _
    simp only [intCatalog] at he
    split at he
    · cases he
    · cases he
    next s _ hs =>
      rw [mem_singleton.mp he]
      exact truth_intOpFunc hs coll
  member opfamily lefttype righttype strategy opno h := by
    simp only [intCatalog, Option.ite_none_right_eq_some, some.injEq] at h
    obtain ⟨⟨rfl, hne⟩, rfl⟩ := h
    refine ⟨⟨1976, strategy, 23, 23⟩, ?_, rfl, rfl⟩
    cases strategy <;> simp [intCatalog, intStrategy, intOperator] at *
  booleanEqual coll a b := by
    match a, b with
    | none, _ => rfl
    | some a, none => rfl
    | some a, some b =>
      simp only [truth, intSemantics, intOpFunc, if_true, map_some]
      cases (a == 1) == (b == 1) <;> rfl
  array values := ⟨Encodable.encode values, rfl, by simp [intSemantics]⟩
  relabel _ _ := rfl

def columnCompares (strategy : BTStrategy) (value : Nat) : PredExpr Nat :=
  .node (.opExpr (intOperator strategy) 0) [.node (.other 0) [], .const 23 (some value)]

/-! ## Soundness -/

/-- **Implication is sound**: whenever `predicate_implied_by` succeeds, every row in which all
clauses are true makes all predicates true, and in the weak case every row in which no clause
is false makes no predicate false. -/
theorem predicateImpliedBy_sound {D : Type} [DecidableEq D] (sem : PredSemantics D)
    (cat : PredCatalog) (hcat : CatalogSound sem cat)
    (predicateList clauseList : List (PredExpr D)) (weak : Bool)
    (h : predicateImpliedBy sem cat predicateList clauseList weak = true) (row : Nat → Option D)
    (hclauses : ∀ clause ∈ clauseList, if weak then truthOf sem row clause ≠ some false
      else truthOf sem row clause = some true) :
    ∀ predicate ∈ predicateList, if weak then truthOf sem row predicate ≠ some false
      else truthOf sem row predicate = some true := by
  unfold predicateImpliedBy at h
  split at h
  next he =>
    rw [List.isEmpty_iff.mp he]
    exact fun _ hm => absurd hm not_mem_nil
  split at h
  · cases h
  have hl := (accepts_listNode hcat row weak clauseList).mpr hclauses
  exact (accepts_listNode hcat row weak predicateList).mp
    (predicateImpliedByRecurse_sound hcat row weak h hl)

theorem predicateImpliedBy_sound_columnCompares :
    predicateImpliedBy intSemantics intCatalog [columnCompares .lt 3] [columnCompares .lt 1] false =
      true ∧
    ∀ row, (∀ clause ∈ [columnCompares .lt 1], truthOf intSemantics row clause = some true) →
      ∀ predicate ∈ [columnCompares .lt 3], truthOf intSemantics row predicate = some true := by
  have hi : predicateImpliedBy intSemantics intCatalog [columnCompares .lt 3]
      [columnCompares .lt 1] false = true := by
    rw [predicateImpliedBy, predicateImpliedByRecurse]
    rfl
  exact ⟨hi, predicateImpliedBy_sound intSemantics intCatalog intCatalog_sound _ _ false
    hi⟩

/-- **Refutation is sound**: whenever `predicate_refuted_by` succeeds, every row in which all
clauses are true makes the conjunction of the predicates false, and in the weak case not
true. -/
theorem predicateRefutedBy_sound {D : Type} [DecidableEq D] (sem : PredSemantics D)
    (cat : PredCatalog) (hcat : CatalogSound sem cat)
    (predicateList clauseList : List (PredExpr D)) (weak : Bool)
    (h : predicateRefutedBy sem cat predicateList clauseList weak = true) (row : Nat → Option D)
    (hclauses : ∀ clause ∈ clauseList, truthOf sem row clause = some true) :
    if weak then andValues (predicateList.map (truthOf sem row)) ≠ some true
      else andValues (predicateList.map (truthOf sem row)) = some false := by
  unfold predicateRefutedBy at h
  split at h
  · cases h
  split at h
  · cases h
  have hl := (accepts_listNode hcat row false clauseList).mpr hclauses
  have hr := predicateRefutedByRecurse_sound hcat row weak h hl
  have hand : ¬ Accepts (!weak) (andValues (predicateList.map (truthOf sem row))) := by
    rw [accepts_andValues, forall_mem_map]
    rwa [accepts_listNode hcat] at hr
  cases weak with
  | true => exact hand
  | false => exact not_not.mp hand

theorem predicateRefutedBy_sound_columnCompares :
    predicateRefutedBy intSemantics intCatalog [columnCompares .gt 3] [columnCompares .lt 1] false =
      true ∧
    ∀ row, (∀ clause ∈ [columnCompares .lt 1], truthOf intSemantics row clause = some true) →
      andValues ([columnCompares .gt 3].map (truthOf intSemantics row)) = some false := by
  have hr : predicateRefutedBy intSemantics intCatalog [columnCompares .gt 3]
      [columnCompares .lt 1] false = true := by
    rw [predicateRefutedBy, predicateRefutedByRecurse]
    rfl
  exact ⟨hr, predicateRefutedBy_sound intSemantics intCatalog intCatalog_sound _ _ false
    hr⟩

end AthenaPG
