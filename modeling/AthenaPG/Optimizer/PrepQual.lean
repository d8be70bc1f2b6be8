import Mathlib.Tactic

/-!
Preparation of qualification expressions (`src/backend/optimizer/prep/prepqual.c`).

A qualification is a tree of `AND` and `OR` nodes over boolean constants and
other expressions, whose value in a row is true, false or null.  Two `equal`
expressions have one value in a row.

* `passes_and`, `passes_or`: whether a `WHERE` clause (true) or a `CHECK` constraint (not
  false) lets a row pass is a two-valued function of its parts;
* `passes_processDuplicateOrs`: the inverse of the distributive law, with its
  degenerate arms;
* `passes_findDuplicateOrs`, `shape_findDuplicateOrs`: what the recursion keeps;
* **`canonicalizeQual_sound`**: `canonicalize_qual` keeps the meaning of a
  qualification, and its result is flat and free of constants.
-/

namespace AthenaPG
open List

/-- An `Expr`, as far as this file looks at it: a boolean `Const` (`none` is the
null constant), an `AND` or `OR` node, or any other expression. -/
inductive QualExpr (A : Type) where
  | const (value : Option Bool)
  | other (a : A)
  | and (args : List (QualExpr A))
  | or (args : List (QualExpr A))

open QualExpr

namespace QualExpr

variable {A : Type}

def isAndclause : QualExpr A → Bool
  | .and _ => true
  | _ => false

def isOrclause : QualExpr A → Bool
  | .or _ => true
  | _ => false

theorem induct {P : QualExpr A → Prop} (hconst : ∀ value, P (.const value))
    (hother : ∀ a, P (.other a)) (hand : ∀ args, (∀ e ∈ args, P e) → P (.and args))
    (hor : ∀ args, (∀ e ∈ args, P e) → P (.or args)) : ∀ e, P e
  | .const value => hconst value
  | .other a => hother a
  | .and args => hand args fun e _ => induct hconst hother hand hor e
  | .or args => hor args fun e _ => induct hconst hother hand hor e

/-! ## Equality of nodes -/

section Equality

variable [DecidableEq A]

mutual

/-- `equal`, which compares trees of nodes. -/
def equal : QualExpr A → QualExpr A → Bool
  | .const v, .const w => v == w
  | .other a, .other b => a == b
  | .and args, .and args' => equalArgs args args'
  | .or args, .or args' => equalArgs args args'
  | _, _ => false

/-- `equal` on two lists of nodes. -/
def equalArgs : List (QualExpr A) → List (QualExpr A) → Bool
  | [], [] => true
  | e :: es, e' :: es' => equal e e' && equalArgs es es'
  | _, _ => false

end

theorem equalArgs_iff {args : List (QualExpr A)} (h : ∀ e ∈ args, ∀ e', equal e e' = true ↔ e = e')
    (args' : List (QualExpr A)) : equalArgs args args' = true ↔ args = args' := by
  induction args generalizing args' with
  | nil => cases args' <;> simp [equalArgs]
  | cons e es ih =>
    cases args' with
    | nil => simp [equalArgs]
    | cons e' es' =>
      rw [equalArgs, Bool.and_eq_true, h e mem_cons_self,
        ih (fun d hd => h d (mem_cons_of_mem e hd)), List.cons.injEq]

theorem equal_iff (e e' : QualExpr A) : equal e e' = true ↔ e = e' := by
  induction e using induct generalizing e' with
  | hconst value | hother a => cases e' <;> simp [equal]
  | hand args ih =>
    cases e' with
    | and args' => rw [equal, equalArgs_iff ih, and.injEq]
    | _ => simp [equal]
  | hor args ih =>
    cases e' with
    | or args' => rw [equal, equalArgs_iff ih, or.injEq]
    | _ => simp [equal]

instance : DecidableEq (QualExpr A) := fun e e' => decidable_of_iff _ (equal_iff e e')

end Equality

end QualExpr

open QualExpr

/-! ## Values in a row -/

/-- `AND` of truth values: a false one decides, else a null one. -/
def andValues (values : List (Option Bool)) : Option Bool :=
  if some false ∈ values then some false else if none ∈ values then none else some true

/-- `OR` of truth values. -/
def orValues (values : List (Option Bool)) : Option Bool :=
  if some true ∈ values then some true else if none ∈ values then none else some false

section Values

variable {A : Type} (row : A → Option Bool)

mutual

/-- The value of an expression in a row, which gives the other expressions theirs. -/
def evalQual : QualExpr A → Option Bool
  | .const value => value
  | .other a => row a
  | .and args => andValues (evalQualArgs args)
  | .or args => orValues (evalQualArgs args)

def evalQualArgs : List (QualExpr A) → List (Option Bool)
  | [] => []
  | e :: es => evalQual e :: evalQualArgs es

end

theorem evalQualArgs_eq_map (args : List (QualExpr A)) :
    evalQualArgs row args = args.map (evalQual row) := by
  induction args with
  | nil => rfl
  | cons e es ih => rw [evalQualArgs, ih, map_cons]

end Values

/-- Whether a value lets the row pass: in a `WHERE` clause it must be true, in a
`CHECK` constraint it must not be false. -/
def passes (isCheck : Bool) : Option Bool → Bool
  | none => isCheck
  | some b => b

theorem passes_andValues (ic : Bool) (values : List (Option Bool)) :
    passes ic (andValues values) = values.all (passes ic) := by
  rw [Bool.eq_iff_iff, all_eq_true]
  unfold andValues
  split <;> rename_i hf
  · exact iff_of_false Bool.false_ne_true fun h => Bool.false_ne_true (h _ hf)
  · have hp : ∀ v ∈ values, v ≠ none → passes ic v = true := by
      intro v hv hne
      match v with
      | none => exact absurd rfl hne
      | some true => rfl
      | some false => exact absurd hv hf
    split <;> rename_i hn
    · refine ⟨fun h v hv => ?_, fun h => h none hn⟩
      by_cases hv0 : v = none
      · rw [hv0]
        exact h
      exact hp v hv hv0
    · refine iff_of_true rfl fun v hv => hp v hv ?_
      rintro rfl
      exact hn hv

theorem passes_orValues (ic : Bool) (values : List (Option Bool)) :
    passes ic (orValues values) = values.any (passes ic) := by
  rw [Bool.eq_iff_iff, any_eq_true]
  unfold orValues
  split <;> rename_i ht
  · exact iff_of_true rfl ⟨_, ht, rfl⟩
  · have hf : ∀ v ∈ values, v ≠ none → passes ic v = false := by
      intro v hv hne
      match v with
      | none => exact absurd rfl hne
      | some false => rfl
      | some true => exact absurd hv ht
    split <;> rename_i hn
    · refine ⟨fun h => ⟨none, hn, h⟩, ?_⟩
      rintro ⟨v, hv, hp⟩
      by_cases hv0 : v = none
      · rwa [hv0] at hp
      rw [hf v hv hv0] at hp
      cases hp
    · refine iff_of_false Bool.false_ne_true ?_
      rintro ⟨v, hv, hp⟩
      have hv0 : v ≠ none := by
        rintro rfl
        exact hn hv
      rw [hf v hv hv0] at hp
      cases hp

section Passing

variable {A : Type} (isCheck : Bool) (row : A → Option Bool)

def Passes (e : QualExpr A) : Prop := passes isCheck (evalQual row e) = true

/-- **Passing is two-valued**: an `AND` passes if all its arguments do. -/
@[simp] theorem passes_and (args : List (QualExpr A)) :
    Passes isCheck row (.and args) ↔ ∀ e ∈ args, Passes isCheck row e := by
  rw [Passes, evalQual, passes_andValues, evalQualArgs_eq_map, all_map, all_eq_true]
  rfl

@[simp] theorem passes_or (args : List (QualExpr A)) :
    Passes isCheck row (.or args) ↔ ∃ e ∈ args, Passes isCheck row e := by
  rw [Passes, evalQual, passes_orValues, evalQualArgs_eq_map, any_map, any_eq_true]
  rfl

@[simp] theorem passes_const (value : Option Bool) :
    Passes isCheck row (.const value) ↔ passes isCheck value = true := Iff.rfl

end Passing

/-! ## Flattening -/

section Flattening

variable {A : Type}

mutual

/-- What `pull_ands` makes of one argument. -/
def pullAnd : QualExpr A → List (QualExpr A)
  | .and args => pullAnds args
  | e => [e]

def pullAnds : List (QualExpr A) → List (QualExpr A)
  | [] => []
  | e :: es => pullAnd e ++ pullAnds es

end

mutual

/-- What `pull_ors` makes of one argument. -/
def pullOr : QualExpr A → List (QualExpr A)
  | .or args => pullOrs args
  | e => [e]

def pullOrs : List (QualExpr A) → List (QualExpr A)
  | [] => []
  | e :: es => pullOr e ++ pullOrs es

end

variable (args : List (QualExpr A))

theorem pullAnds_eq_flatMap : pullAnds args = args.flatMap pullAnd := by
  induction args with
  | nil => rfl
  | cons e es ih => rw [pullAnds, ih, flatMap_cons]

theorem pullOrs_eq_flatMap : pullOrs args = args.flatMap pullOr := by
  induction args with
  | nil => rfl
  | cons e es ih => rw [pullOrs, ih, flatMap_cons]

theorem pullAnd_of_not_and {e : QualExpr A} (h : e.isAndclause = false) : pullAnd e = [e] := by
  cases e with
  | and args => cases h
  | _ => rfl

theorem pullOr_of_not_or {e : QualExpr A} (h : e.isOrclause = false) : pullOr e = [e] := by
  cases e with
  | or args => cases h
  | _ => rfl

variable (isCheck : Bool) (row : A → Option Bool)

theorem passes_pullAnd (e : QualExpr A) :
    (∀ d ∈ pullAnd e, Passes isCheck row d) ↔ Passes isCheck row e := by
  induction e using induct with
  | hand args ih =>
    rw [pullAnd, pullAnds_eq_flatMap, forall_mem_flatMap, passes_and]
    exact forall₂_congr ih
  | _ => simp [pullAnd]

theorem passes_pullAnds :
    (∀ d ∈ pullAnds args, Passes isCheck row d) ↔ ∀ e ∈ args, Passes isCheck row e := by
  rw [pullAnds_eq_flatMap, forall_mem_flatMap]
  exact forall₂_congr fun e _ => passes_pullAnd isCheck row e

private theorem exists_mem_flatMap {B C : Type} {P : C → Prop} {l : List B} {f : B → List C} :
    (∃ d ∈ l.flatMap f, P d) ↔ ∃ e ∈ l, ∃ d ∈ f e, P d := by
  constructor
  · rintro ⟨d, hd, hp⟩
    obtain ⟨e, he, hde⟩ := mem_flatMap.mp hd
    exact ⟨e, he, d, hde, hp⟩
  · rintro ⟨e, he, d, hde, hp⟩
    exact ⟨d, mem_flatMap.mpr ⟨e, he, hde⟩, hp⟩

theorem passes_pullOr (e : QualExpr A) :
    (∃ d ∈ pullOr e, Passes isCheck row d) ↔ Passes isCheck row e := by
  induction e using induct with
  | hor args ih =>
    rw [pullOr, pullOrs_eq_flatMap, exists_mem_flatMap, passes_or]
    exact exists_congr fun e => and_congr_right (ih e)
  | _ => simp [pullOr]

theorem passes_pullOrs :
    (∃ d ∈ pullOrs args, Passes isCheck row d) ↔ ∃ e ∈ args, Passes isCheck row e := by
  rw [pullOrs_eq_flatMap, exists_mem_flatMap]
  exact exists_congr fun e => and_congr_right fun _ => passes_pullOr isCheck row e

end Flattening

/-! ## The inverse of the distributive law -/

section Duplicates

variable {A : Type} [DecidableEq A]

/-- The conjuncts of one arm of an `OR`: an expression that is not an `AND` is its
only one. -/
def armClauses : QualExpr A → List (QualExpr A)
  | .and args => args
  | e => [e]

/-- The loop that chooses the shortest arm; one that is not an `AND` ends it. -/
def chooseReference (reference : List (QualExpr A)) (numSubclauses : Nat) :
    List (QualExpr A) → List (QualExpr A)
  | [] => reference
  | .and subclauses :: orlist =>
    if reference = [] ∨ subclauses.length < numSubclauses then
      chooseReference subclauses subclauses.length orlist
    else chooseReference reference numSubclauses orlist
  | clause :: _ => [clause]

def listUnion (list1 list2 : List (QualExpr A)) : List (QualExpr A) :=
  list2.foldl (fun result e => if e ∈ result then result else result ++ [e]) list1

def listDifference (list1 list2 : List (QualExpr A)) : List (QualExpr A) :=
  list1.filter fun e => decide (e ∉ list2)

def inArm (refclause : QualExpr A) : QualExpr A → Bool
  | .and args => decide (refclause ∈ args)
  | clause => equal refclause clause

def findWinners (reference orlist : List (QualExpr A)) : List (QualExpr A) :=
  reference.filter fun refclause => orlist.all (inArm refclause)

/-- What is left of one arm; `none` if nothing is. -/
def reduceArm (winners : List (QualExpr A)) : QualExpr A → Option (QualExpr A)
  | .and args =>
    match listDifference args winners with
    | [] => none
    | [subclause] => some subclause
    | subclauses => some (.and subclauses)
  | clause => if clause ∈ winners then none else some clause

/-- The loop that builds the new `OR` list; an empty arm makes it `NIL`. -/
def reduceArms (winners : List (QualExpr A)) : List (QualExpr A) → Option (List (QualExpr A))
  | [] => some []
  | clause :: orlist =>
    match reduceArm winners clause with
    | none => none
    | some clause => (reduceArms winners orlist).map (clause :: ·)

/-- The winners, followed by the new `OR` unless it is degenerate. -/
def appendReduced (winners neworlist : List (QualExpr A)) : List (QualExpr A) :=
  match neworlist with
  | [] => winners
  | [clause] => winners ++ [clause]
  | neworlist => winners ++ [.or (pullOrs neworlist)]

/-- The `AND` of the winners; a single one stands for itself. -/
def conjoinWinners (winners : List (QualExpr A)) : QualExpr A := match winners with
  | [clause] => clause
  | winners => .and (pullAnds winners)

def processDuplicateOrs (orlist : List (QualExpr A)) : QualExpr A := match orlist with
  | [] => .const (some false)
  | [clause] => clause
  | orlist =>
    let reference := listUnion [] (chooseReference [] 0 orlist)
    let winners := findWinners reference orlist
    if winners = [] then .or orlist
    else conjoinWinners (appendReduced winners ((reduceArms winners orlist).getD []))

/-- What becomes of an argument of an `OR`: it is dropped, or the whole `OR`
becomes a constant, or it stays. -/
def orArgument (isCheck : Bool) : QualExpr A → Except (QualExpr A) Bool
  | .const value =>
    if isCheck then
      if value = some false then .ok false else .error (.const (some true))
    else if value = none ∨ value = some false then .ok false
    else .error (.const value)
  | _ => .ok true

/-- What becomes of an argument of an `AND`. -/
def andArgument (isCheck : Bool) : QualExpr A → Except (QualExpr A) Bool
  | .const value =>
    if isCheck then
      if value = none ∨ value = some true then .ok false else .error (.const value)
    else if value = some true then .ok false
    else .error (.const (some false))
  | _ => .ok true

/-- The loop over the arguments, once they are processed themselves. -/
def collectArguments (argument : QualExpr A → Except (QualExpr A) Bool) :
    List (QualExpr A) → Except (QualExpr A) (List (QualExpr A))
  | [] => .ok []
  | arg :: args =>
    match argument arg with
    | .error e => .error e
    | .ok keep =>
      (collectArguments argument args).map fun list => if keep then arg :: list else list

/-- The end of the `AND` branch of `find_duplicate_ors`. -/
def makeAnd (andlist : List (QualExpr A)) : QualExpr A := match pullAnds andlist with
  | [] => .const (some true)
  | [clause] => clause
  | andlist => .and andlist

mutual

def findDuplicateOrs (isCheck : Bool) : QualExpr A → QualExpr A
  | .or args =>
    match collectArguments (orArgument isCheck) (findArgs isCheck args) with
    | .error e => e
    | .ok orlist => processDuplicateOrs (pullOrs orlist)
  | .and args =>
    match collectArguments (andArgument isCheck) (findArgs isCheck args) with
    | .error e => e
    | .ok andlist => makeAnd andlist
  | .const value => .const value
  | .other a => .other a

/-- The recursion of `find_duplicate_ors` into a list of arguments. -/
def findArgs (isCheck : Bool) : List (QualExpr A) → List (QualExpr A)
  | [] => []
  | e :: es => findDuplicateOrs isCheck e :: findArgs isCheck es

end

theorem findArgs_eq_map (ic : Bool) (args : List (QualExpr A)) :
    findArgs ic args = args.map (findDuplicateOrs ic) := by
  induction args with
  | nil => rfl
  | cons e es ih => rw [findArgs, ih, map_cons]

/-- `canonicalize_qual`; no qualification is `NULL`. -/
def canonicalizeQual (qual : Option (QualExpr A)) (isCheck : Bool) : Option (QualExpr A) :=
  qual.map (findDuplicateOrs isCheck)

end Duplicates

/-! ## The meaning is kept -/

section Meaning

variable {A : Type} [DecidableEq A] (isCheck : Bool) (row : A → Option Bool)

omit [DecidableEq A] in
theorem passes_armClauses (e : QualExpr A) :
    Passes isCheck row e ↔ ∀ d ∈ armClauses e, Passes isCheck row d := by
  cases e with
  | and args => exact passes_and isCheck row args
  | _ => simp [armClauses]

omit isCheck row in
theorem inArm_iff (ref e : QualExpr A) : inArm ref e = true ↔ ref ∈ armClauses e := by
  cases e with
  | and args => simp [inArm, armClauses]
  | _ => simp [inArm, armClauses, equal_iff]

omit isCheck row in
theorem mem_armClauses_of_winner {ref ors : List (QualExpr A)} {w : QualExpr A}
    (hw : w ∈ findWinners ref ors) {cl : QualExpr A} (hc : cl ∈ ors) : w ∈ armClauses cl := by
  have ha := (mem_filter.mp hw).2
  rw [all_eq_true] at ha
  exact (inArm_iff w cl).mp (ha cl hc)

theorem passes_listDifference {args ws : List (QualExpr A)} (h : ∀ w ∈ ws, w ∈ args) :
    (∀ e ∈ args, Passes isCheck row e) ↔ (∀ w ∈ ws, Passes isCheck row w) ∧
      ∀ e ∈ listDifference args ws, Passes isCheck row e := by
  constructor
  · intro ha
    exact ⟨fun w hw => ha w (h w hw), fun e he => ha e (mem_filter.mp he).1⟩
  · rintro ⟨hwn, hr⟩ e he
    by_cases hew : e ∈ ws
    · exact hwn e hew
    · exact hr e (mem_filter.mpr ⟨he, by simpa using hew⟩)

theorem passes_reduceArm {ws : List (QualExpr A)} {cl : QualExpr A}
    (h : ∀ w ∈ ws, w ∈ armClauses cl) :
    Passes isCheck row cl ↔ (∀ w ∈ ws, Passes isCheck row w) ∧
      ∀ d ∈ reduceArm ws cl, Passes isCheck row d := by
  rw [passes_armClauses, passes_listDifference isCheck row h]
  refine and_congr_right fun _ => ?_
  cases cl with
  | and args =>
    rw [armClauses, reduceArm]
    split
    next heq => simp [heq]
    next heq => simp [heq]
    · simp
  | _ =>
    simp only [armClauses, listDifference, reduceArm]
    split <;> rename_i hm <;> simp [hm]

theorem passes_reduceArms {ws ors : List (QualExpr A)} (hne : ors ≠ [])
    (h : ∀ clause ∈ ors, ∀ w ∈ ws, w ∈ armClauses clause) :
    (∃ clause ∈ ors, Passes isCheck row clause) ↔ (∀ w ∈ ws, Passes isCheck row w) ∧
      ∀ neworlist ∈ reduceArms ws ors, ∃ d ∈ neworlist, Passes isCheck row d := by
  induction ors with
  | nil => exact absurd rfl hne
  | cons clause ors ih =>
    have hcl := passes_reduceArm isCheck row (h clause mem_cons_self)
    rw [exists_mem_cons_iff, hcl, reduceArms]
    by_cases hw : ∀ w ∈ ws, Passes isCheck row w
    · cases hr : reduceArm ws clause with
      | none => exact iff_of_true (.inl ⟨hw, by simp⟩) ⟨hw, by simp⟩
      | some d =>
        by_cases hn : ors = []
        · simp [hn, reduceArms]
        rw [ih hn fun c hc => h c (mem_cons_of_mem clause hc)]
        cases hrs : reduceArms ws ors with
        | none => exact iff_of_true (.inr ⟨hw, by simp⟩) ⟨hw, by simp⟩
        | some rest => simp [and_or_left]
    refine iff_of_false ?_ fun hb => hw hb.1
    rintro (hb | ⟨c, hc, hp⟩)
    · exact hw hb.1
    exact hw ((passes_reduceArm isCheck row
      (h c (mem_cons_of_mem clause hc))).mp hp).1

omit [DecidableEq A] in
theorem passes_conjoinWinners (ws : List (QualExpr A)) :
    Passes isCheck row (conjoinWinners ws) ↔ ∀ w ∈ ws, Passes isCheck row w := by
  unfold conjoinWinners
  split
  · simp
  · rw [passes_and, passes_pullAnds]

omit [DecidableEq A] in
theorem passes_appendReduced (ws nors : List (QualExpr A)) :
    (∀ w ∈ appendReduced ws nors, Passes isCheck row w) ↔
      (∀ w ∈ ws, Passes isCheck row w) ∧ (nors ≠ [] → ∃ d ∈ nors, Passes isCheck row d) := by
  unfold appendReduced
  split
  · simp
  · simp [or_imp, forall_and]
  next hn _ =>
    simp only [mem_append, mem_singleton, or_imp, forall_and, forall_eq, passes_or, passes_pullOrs]
    exact and_congr_right fun _ => ⟨fun h _ => h, fun h => h hn⟩

/-- **`process_duplicate_ors`** keeps the meaning of the `OR`. -/
theorem passes_processDuplicateOrs (ors : List (QualExpr A)) :
    Passes isCheck row (processDuplicateOrs ors) ↔ ∃ clause ∈ ors, Passes isCheck row clause := by
  unfold processDuplicateOrs
  split
  · simp [passes]
  · simp
  rename_i hn _
  simp only
  split
  · exact passes_or isCheck row ors
  have hwn : ∀ clause ∈ ors,
      ∀ w ∈ findWinners (listUnion [] (chooseReference [] 0 ors)) ors, w ∈ armClauses clause :=
    fun clause hc w hw => mem_armClauses_of_winner hw hc
  rw [passes_conjoinWinners, passes_appendReduced, passes_reduceArms isCheck row hn hwn]
  refine and_congr_right fun _ => ?_
  cases hr : reduceArms (findWinners (listUnion [] (chooseReference [] 0 ors)) ors)
    ors with
  | none => simp
  | some neworlist =>
    have hne : neworlist ≠ [] := by
      rintro rfl
      cases ho : ors with
      | nil => exact hn ho
      | cons clause rest =>
        rw [ho, reduceArms] at hr
        split at hr
        · cases hr
        · simp at hr
    simp [hne]

section

omit [DecidableEq A]

theorem orArgument_spec (arg : QualExpr A) :
    match orArgument isCheck arg with
    | .error e => Passes isCheck row e ∧ Passes isCheck row arg
    | .ok keep => keep = false → ¬ Passes isCheck row arg := by
  cases arg with
  | const value =>
    rcases isCheck with _ | _ <;> rcases value with _ | _ | _ <;>
      simp [orArgument, passes]
  | _ => simp [orArgument]

theorem andArgument_spec (arg : QualExpr A) :
    match andArgument isCheck arg with
    | .error e => ¬ Passes isCheck row e ∧ ¬ Passes isCheck row arg
    | .ok keep => keep = false → ¬ ¬ Passes isCheck row arg := by
  cases arg with
  | const value =>
    rcases isCheck with _ | _ <;> rcases value with _ | _ | _ <;>
      simp [andArgument, passes]
  | _ => simp [andArgument]

theorem collectArguments_spec {argu : QualExpr A → Except (QualExpr A) Bool}
    {P : QualExpr A → Prop} (hs : ∀ arg, match argu arg with
      | .error e => P e ∧ P arg
      | .ok keep => keep = false → ¬ P arg) (args : List (QualExpr A)) :
    match collectArguments argu args with
    | .error e => P e ∧ ∃ arg ∈ args, P arg
    | .ok list => (∃ e ∈ list, P e) ↔ ∃ arg ∈ args, P arg := by
  induction args with
  | nil => simp [collectArguments]
  | cons arg args ih =>
    have har := hs arg
    rw [collectArguments]
    cases ha : argu arg with
    | error e =>
      rw [ha] at har
      exact ⟨har.1, arg, mem_cons_self, har.2⟩
    | ok keep =>
      rw [ha] at har
      simp only [exists_mem_cons_iff]
      cases hc : collectArguments argu args with
      | error e =>
        rw [hc] at ih
        exact ⟨ih.1, .inr ih.2⟩
      | ok list =>
        rw [hc] at ih
        simp only [Except.map]
        cases keep with
        | true => simp [ih]
        | false => simp [ih, har rfl]

theorem passes_makeAnd (andlist : List (QualExpr A)) :
    Passes isCheck row (makeAnd andlist) ↔ ∀ e ∈ andlist, Passes isCheck row e := by
  rw [← passes_pullAnds, makeAnd]
  split
  next hn => simp [hn, passes]
  next ho => simp [ho]
  · rw [passes_and]

end

/-- **`find_duplicate_ors`** keeps the meaning of an expression. -/
theorem passes_findDuplicateOrs (e : QualExpr A) :
    Passes isCheck row (findDuplicateOrs isCheck e) ↔ Passes isCheck row e := by
  induction e using induct with
  | hconst value | hother a => rfl
  | hand args ih =>
    have ha : (∀ arg ∈ findArgs isCheck args, Passes isCheck row arg) ↔
        Passes isCheck row (.and args) := by
      rw [findArgs_eq_map, forall_mem_map, passes_and]
      exact forall₂_congr ih
    have hc := collectArguments_spec (andArgument_spec isCheck row) (findArgs isCheck args)
    rw [findDuplicateOrs, ← ha]
    split
    next e heq =>
      rw [heq] at hc
      exact iff_of_false hc.1 (by simpa only [not_forall, exists_prop] using hc.2)
    next andlist heq =>
      rw [heq] at hc
      rw [passes_makeAnd]
      exact not_iff_not.mp (by simpa only [not_forall, exists_prop] using hc)
  | hor args ih =>
    have ha : (∃ arg ∈ findArgs isCheck args, Passes isCheck row arg) ↔
        Passes isCheck row (.or args) := by
      rw [findArgs_eq_map, passes_or]
      simp only [mem_map, exists_exists_and_eq_and]
      exact exists_congr fun e => and_congr_right (ih e)
    have hc := collectArguments_spec (orArgument_spec isCheck row) (findArgs isCheck args)
    rw [findDuplicateOrs, ← ha]
    split
    next e heq =>
      rw [heq] at hc
      exact iff_of_true hc.1 hc.2
    next orlist heq =>
      rw [heq] at hc
      rw [passes_processDuplicateOrs, passes_pullOrs]
      exact hc

end Meaning

/-! ## The shape of the result -/

section Shape

variable {A : Type}

/-- **AND/OR flatness**: no `AND` is an argument of an `AND`, and no `OR` of an
`OR`, in the top-level structure. -/
inductive Flat : QualExpr A → Prop
  | const (value : Option Bool) : Flat (.const value)
  | other (a : A) : Flat (.other a)
  | and {args : List (QualExpr A)} (hargs : ∀ e ∈ args, Flat e)
      (hflat : ∀ e ∈ args, e.isAndclause = false) : Flat (.and args)
  | or {args : List (QualExpr A)} (hargs : ∀ e ∈ args, Flat e)
      (hflat : ∀ e ∈ args, e.isOrclause = false) : Flat (.or args)

/-- No constant stands in the top-level structure. -/
inductive ConstFree : QualExpr A → Prop
  | other (a : A) : ConstFree (.other a)
  | and {args : List (QualExpr A)} (hargs : ∀ e ∈ args, ConstFree e) : ConstFree (.and args)
  | or {args : List (QualExpr A)} (hargs : ∀ e ∈ args, ConstFree e) : ConstFree (.or args)

structure Clean (e : QualExpr A) : Prop where
  flat : Flat e
  constFree : ConstFree e

def ConstOrClean (e : QualExpr A) : Prop := (∃ value, e = .const value) ∨ Clean e

variable {args : List (QualExpr A)} {e : QualExpr A} {winners : List (QualExpr A)}

theorem Clean.and (h : ∀ e ∈ args, Clean e) (hf : ∀ e ∈ args, e.isAndclause = false) :
    Clean (.and args) :=
  ⟨.and (fun e he => (h e he).flat) hf, .and fun e he => (h e he).constFree⟩

theorem Clean.or (h : ∀ e ∈ args, Clean e) (hf : ∀ e ∈ args, e.isOrclause = false) :
    Clean (.or args) :=
  ⟨.or (fun e he => (h e he).flat) hf, .or fun e he => (h e he).constFree⟩

theorem Clean.of_and (h : Clean (.and args)) : ∀ e ∈ args, Clean e ∧ e.isAndclause = false := by
  obtain ⟨hfl, hf⟩ := h
  cases hfl with
  | and ha hand =>
    cases hf with
    | and hf => exact fun e he => ⟨⟨ha e he, hf e he⟩, hand e he⟩

theorem Clean.of_or (h : Clean (.or args)) : ∀ e ∈ args, Clean e ∧ e.isOrclause = false := by
  obtain ⟨hfl, hf⟩ := h
  cases hfl with
  | or ha hor =>
    cases hf with
    | or hf => exact fun e he => ⟨⟨ha e he, hf e he⟩, hor e he⟩

theorem clean_pullAnd (h : Clean e) : ∀ d ∈ pullAnd e, Clean d ∧ d.isAndclause = false := by
  induction e using induct with
  | hand args ih =>
    intro d hd
    rw [pullAnd, pullAnds_eq_flatMap] at hd
    obtain ⟨e, he, hde⟩ := mem_flatMap.mp hd
    exact ih e he (h.of_and e he).1 d hde
  | _ =>
    intro d hd
    rw [pullAnd_of_not_and rfl, mem_singleton] at hd
    exact hd ▸ ⟨h, rfl⟩

theorem clean_pullAnds (h : ∀ e ∈ args, Clean e) :
    ∀ d ∈ pullAnds args, Clean d ∧ d.isAndclause = false := by
  intro d hd
  rw [pullAnds_eq_flatMap] at hd
  obtain ⟨e, he, hde⟩ := mem_flatMap.mp hd
  exact clean_pullAnd (h e he) d hde

theorem clean_pullOr (h : Clean e) : ∀ d ∈ pullOr e, Clean d ∧ d.isOrclause = false := by
  induction e using induct with
  | hor args ih =>
    intro d hd
    rw [pullOr, pullOrs_eq_flatMap] at hd
    obtain ⟨e, he, hde⟩ := mem_flatMap.mp hd
    exact ih e he (h.of_or e he).1 d hde
  | _ =>
    intro d hd
    rw [pullOr_of_not_or rfl, mem_singleton] at hd
    exact hd ▸ ⟨h, rfl⟩

theorem clean_pullOrs (h : ∀ e ∈ args, Clean e) :
    ∀ d ∈ pullOrs args, Clean d ∧ d.isOrclause = false := by
  intro d hd
  rw [pullOrs_eq_flatMap] at hd
  obtain ⟨e, he, hde⟩ := mem_flatMap.mp hd
  exact clean_pullOr (h e he) d hde

theorem clean_armClauses (h : Clean e) : ∀ d ∈ armClauses e, Clean d := by
  cases e with
  | and args => exact fun d hd => (h.of_and d hd).1
  | _ => simpa [armClauses] using h

theorem clean_conjoinWinners (h : ∀ w ∈ winners, Clean w) : Clean (conjoinWinners winners) := by
  unfold conjoinWinners
  split
  · exact h _ mem_cons_self
  · exact .and (fun e he => (clean_pullAnds h e he).1) fun e he => (clean_pullAnds h e he).2

theorem clean_appendReduced {nors : List (QualExpr A)} (h : ∀ w ∈ winners, Clean w)
    (hn : ∀ e ∈ nors, Clean e) : ∀ e ∈ appendReduced winners nors, Clean e := by
  unfold appendReduced
  split
  · exact h
  · exact forall_mem_append.mpr ⟨h, hn⟩
  refine forall_mem_append.mpr ⟨h, fun e he => ?_⟩
  rw [mem_singleton.mp he]
  exact .or (fun d hd => (clean_pullOrs hn d hd).1) fun d hd => (clean_pullOrs hn d hd).2

variable [DecidableEq A]

theorem clean_reduceArm {cl d : QualExpr A} (h : Clean cl)
    (hd : reduceArm winners cl = some d) : Clean d := by
  cases cl with
  | and args =>
    have hl : ∀ e ∈ listDifference args winners, Clean e ∧ e.isAndclause = false :=
      fun e he => h.of_and e (mem_filter.mp he).1
    rw [reduceArm] at hd
    split at hd
    · cases hd
    next heq =>
      cases hd
      exact (hl _ (by rw [heq]; exact mem_cons_self)).1
    · cases hd
      exact .and (fun e he => (hl e he).1) fun e he => (hl e he).2
  | _ =>
    simp only [reduceArm] at hd
    split at hd
    · cases hd
    cases hd
    exact h

theorem clean_reduceArms {ors nors : List (QualExpr A)}
    (h : ∀ clause ∈ ors, Clean clause) (hn : reduceArms winners ors = some nors) :
    ∀ e ∈ nors, Clean e := by
  induction ors generalizing nors with
  | nil =>
    cases hn
    simp
  | cons clause ors ih =>
    rw [reduceArms] at hn
    split at hn
    · cases hn
    next d hd =>
      obtain ⟨rest, hr, rfl⟩ := Option.map_eq_some_iff.mp hn
      refine forall_mem_cons.mpr ⟨clean_reduceArm (h clause mem_cons_self) hd, ?_⟩
      exact ih (fun c hc => h c (mem_cons_of_mem clause hc)) hr

/-- **`process_duplicate_ors`** makes a clean expression of a flat `OR`. -/
theorem shape_processDuplicateOrs {ors : List (QualExpr A)}
    (h : ∀ e ∈ ors, Clean e ∧ e.isOrclause = false) : ConstOrClean (processDuplicateOrs ors) := by
  unfold processDuplicateOrs
  split
  · exact .inl ⟨_, rfl⟩
  · exact .inr (h _ mem_cons_self).1
  rename_i hn _
  simp only
  split
  · exact .inr (.or (fun e he => (h e he).1) fun e he => (h e he).2)
  refine .inr (clean_conjoinWinners (clean_appendReduced (fun w hw => ?_) ?_))
  · obtain ⟨clause, hcl⟩ := exists_mem_of_ne_nil ors hn
    exact clean_armClauses (h clause hcl).1 w (mem_armClauses_of_winner hw hcl)
  cases hr : reduceArms _ ors with
  | none => simp
  | some neworlist => exact clean_reduceArms (fun c hc => (h c hc).1) hr

section

omit [DecidableEq A]

theorem shape_makeAnd {andlist : List (QualExpr A)} (h : ∀ e ∈ andlist, Clean e) :
    ConstOrClean (makeAnd andlist) := by
  have hp := clean_pullAnds h
  unfold makeAnd
  split
  · exact .inl ⟨_, rfl⟩
  next heq => exact .inr (hp _ (by rw [heq]; exact mem_cons_self)).1
  · exact .inr (.and (fun e he => (hp e he).1) fun e he => (hp e he).2)

theorem shape_collectArguments (argument : QualExpr A → Except (QualExpr A) Bool)
    (hconst : ∀ value, argument (.const value) ≠ .ok true)
    (her : ∀ arg e, argument arg = .error e → ∃ value, e = .const value)
    (h : ∀ e ∈ args, ConstOrClean e) :
    match collectArguments argument args with
    | .error e => ∃ value, e = .const value
    | .ok list => ∀ e ∈ list, Clean e := by
  induction args with
  | nil => simp [collectArguments]
  | cons arg args ih =>
    have hr := ih fun e he => h e (mem_cons_of_mem arg he)
    rw [collectArguments]
    cases ha : argument arg with
    | error e => exact her arg e ha
    | ok keep =>
      cases hc : collectArguments argument args with
      | error e =>
        rwa [hc] at hr
      | ok list =>
        rw [hc] at hr
        cases keep with
        | false => exact hr
        | true =>
          refine forall_mem_cons.mpr ⟨?_, hr⟩
          obtain ⟨value, rfl⟩ | hclean := h arg mem_cons_self
          · exact absurd ha (hconst value)
          · exact hclean

variable (isCheck)

theorem andArgument_const (value : Option Bool) :
    andArgument isCheck (.const value : QualExpr A) ≠ .ok true := by
  rcases isCheck with _ | _ <;> rcases value with _ | _ | _ <;> simp [andArgument]

theorem andArgument_error (arg e : QualExpr A)
    (he : andArgument isCheck arg = .error e) : ∃ value, e = .const value := by
  cases arg with
  | const value =>
    rcases isCheck with _ | _ <;> rcases value with _ | _ | _ <;>
      simp [andArgument] at he <;> exact ⟨_, he.symm⟩
  | _ => cases he

theorem orArgument_const (value : Option Bool) :
    orArgument isCheck (.const value : QualExpr A) ≠ .ok true := by
  rcases isCheck with _ | _ <;> rcases value with _ | _ | _ <;> simp [orArgument]

theorem orArgument_error (arg e : QualExpr A)
    (he : orArgument isCheck arg = .error e) : ∃ value, e = .const value := by
  cases arg with
  | const value =>
    rcases isCheck with _ | _ <;> rcases value with _ | _ | _ <;>
      simp [orArgument] at he <;> exact ⟨_, he.symm⟩
  | _ => cases he

variable {isCheck}

end

/-- **`find_duplicate_ors`** makes a constant or a clean expression. -/
theorem shape_findDuplicateOrs (isCheck : Bool) (e : QualExpr A) :
    ConstOrClean (findDuplicateOrs isCheck e) := by
  induction e using induct with
  | hconst value => exact .inl ⟨value, rfl⟩
  | hother a => exact .inr ⟨.other a, .other a⟩
  | hand args ih =>
    have ha : ∀ e ∈ findArgs isCheck args, ConstOrClean e := by
      rw [findArgs_eq_map, forall_mem_map]
      exact ih
    have hc := shape_collectArguments (andArgument isCheck) (andArgument_const isCheck)
      (andArgument_error isCheck) ha
    rw [findDuplicateOrs]
    split
    next e heq =>
      rw [heq] at hc
      exact .inl hc
    next andlist heq =>
      rw [heq] at hc
      exact shape_makeAnd hc
  | hor args ih =>
    have ha : ∀ e ∈ findArgs isCheck args, ConstOrClean e := by
      rw [findArgs_eq_map, forall_mem_map]
      exact ih
    have hc := shape_collectArguments (orArgument isCheck) (orArgument_const isCheck)
      (orArgument_error isCheck) ha
    rw [findDuplicateOrs]
    split
    next e heq =>
      rw [heq] at hc
      exact .inl hc
    next orlist heq =>
      rw [heq] at hc
      exact shape_processDuplicateOrs (clean_pullOrs hc)

end Shape

/-! ## canonicalize_qual -/

section Canonicalize

variable {A : Type} [DecidableEq A]

/-- The value of a qualification in a row; an empty one is true. -/
def qualValue (row : A → Option Bool) : Option (QualExpr A) → Option Bool
  | none => some true
  | some e => evalQual row e

theorem passes_true_iff (value : Option Bool) : passes false value = true ↔ value = some true := by
  rcases value with _ | _ | _ <;> simp [passes]

theorem passes_not_false_iff (value : Option Bool) :
    passes true value = true ↔ value ≠ some false := by
  rcases value with _ | _ | _ <;> simp [passes]

/-- **`canonicalize_qual` preserves meaning and shape.**  As a `WHERE` clause the
result is true in the same rows, as a `CHECK` constraint it is not false in the same
rows; it is flat, and holds a constant only if it is one. -/
theorem canonicalizeQual_sound (qual : Option (QualExpr A)) :
    (∀ row, qualValue row (canonicalizeQual qual false) = some true ↔
      qualValue row qual = some true) ∧
    (∀ row, qualValue row (canonicalizeQual qual true) ≠ some false ↔
      qualValue row qual ≠ some false) ∧
    ∀ isCheck, ∀ e ∈ canonicalizeQual qual isCheck,
      Flat e ∧ (ConstFree e ∨ ∃ value, e = .const value) := by
  cases qual with
  | none => simp [canonicalizeQual]
  | some q =>
    refine ⟨fun row => ?_, fun row => ?_, ?_⟩
    · rw [← passes_true_iff, ← passes_true_iff]
      exact passes_findDuplicateOrs false row q
    · rw [← passes_not_false_iff, ← passes_not_false_iff]
      exact passes_findDuplicateOrs true row q
    intro isCheck e he
    rw [← Option.some.inj he]
    obtain ⟨value, hv⟩ | hclean := shape_findDuplicateOrs isCheck q
    · rw [hv]
      exact ⟨.const value, .inr ⟨value, rfl⟩⟩
    exact ⟨hclean.flat, .inl hclean.constFree⟩

/-- `(a AND b) OR (a AND NULL) OR (a AND c)` becomes `a AND (b OR c)` in a `WHERE`
clause. -/
example : findDuplicateOrs false (.or [.and [.other 0, .other 1], .and [.other 0, .const none],
    .and [.other 0, .other 2]]) = .and [.other 0, .or [.other 1, .other 2]] := by decide

end Canonicalize

end AthenaPG
