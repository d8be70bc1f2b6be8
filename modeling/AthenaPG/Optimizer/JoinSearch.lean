import AthenaPG.Optimizer.JoinRels
import AthenaPG.Library.ConnectedSets

/-!
What the join search enumerates, for queries without special joins, lateral
references and placeholders.

The clauses and equivalence classes of such a query link its relations by a
graph.  `SearchOk` is the invariant of the search: each level lists relation sets
of that size, each set once.

* `makeJoinRel_ok`, `makePairs_ok`: the invariant over one call and over a loop.
* `search_complete`: if the graph is connected, `make_join_rel` is called exactly
  once for every pair of disjoint connected linked sets and for no other pair;
  and over any graph the search builds relations at every level.
-/

namespace AthenaPG
open List Function

open UnorderedPairs ConnectedSets
open Finset (card_le_card card_pos card_singleton card_union_of_disjoint disjoint_left singleton_subset_iff union_comm union_subset)
open Or (inl inr)
open Bool (and_eq_true false_eq_true not_eq_true')

/-! ## Queries without special joins -/

def relKey (rel : SearchRel) : Finset Nat := toFinset rel.relids

@[simp] theorem mem_relKey {x : Nat} {rel : SearchRel} : x ∈ relKey rel ↔ x ∈ rel.relids :=
  mem_toFinset x rel.relids

/-- A base relation after clauses have been distributed: `joininfo` has the join
clauses that mention it. -/
def baseRel (clauses : List RestrictInfo) (eqClasses : List EquivalenceClass) (relid : Nat) :
    SearchRel where
  relids := bmsMakeSingleton relid
  joininfo := clauses.filter fun rinfo =>
    bmsIsMember relid rinfo.requiredRelids &&
      !bmsIsSubset rinfo.requiredRelids (bmsMakeSingleton relid)
  hasEclassJoins := hasRelevantEclassJoinclause eqClasses (bmsMakeSingleton relid)
  lateralRelids := none
  directLateralRelids := none
  lateralReferencers := none

/-- A query over base relations without outer or semi joins, lateral references and
placeholders. -/
structure PlainQuery (root : SearchRoot) (relations : List Nat) (clauses : List RestrictInfo) :
    Prop where
  noSpecialJoin : root.joinInfoList = []
  noLateral : root.hasLateralRTEs = false
  noPlaceholder : root.placeholderList = []
  initial : root.initialRels = relations.map (baseRel clauses root.eqClasses)
  nodup : relations.Nodup

/-- Two relations are linked if a clause or an equivalence class mentions both. -/
def clauseGraph (clauses : List RestrictInfo) (eqClasses : List EquivalenceClass) :
    SimpleGraph Nat where
  Adj x y := x ≠ y ∧
    ((∃ rinfo ∈ clauses, x ∈ rinfo.requiredRelids ∧ y ∈ rinfo.requiredRelids) ∨
      ∃ ec ∈ eqClasses, 1 < ec.ecMembers ∧ x ∈ ec.ecRelids ∧ y ∈ ec.ecRelids)
  symm := by
    refine ⟨?_⟩
    rintro x y ⟨hne, h⟩
    refine ⟨hne.symm, ?_⟩
    obtain ⟨rinfo, hr, hx, hy⟩ | ⟨ec, hec, hm, hx, hy⟩ := h
    · exact inl ⟨rinfo, hr, hy, hx⟩
    · exact inr ⟨ec, hec, hm, hy, hx⟩
  loopless := ⟨fun _ h => h.1 rfl⟩

/-- A relation of such a query: its lists are those of its relids. -/
structure PlainRel (root : SearchRoot) (clauses : List RestrictInfo) (rel : SearchRel) : Prop where
  joininfo : ∀ rinfo, rinfo ∈ rel.joininfo ↔ rinfo ∈ clauses ∧
    (∃ x, x ∈ rel.relids ∧ x ∈ rinfo.requiredRelids) ∧
    ∃ y, y ∈ rinfo.requiredRelids ∧ ¬ y ∈ rel.relids
  eclass : rel.hasEclassJoins = hasRelevantEclassJoinclause root.eqClasses rel.relids
  lateral : rel.lateralRelids = none
  directLateral : rel.directLateralRelids = none
  referencers : rel.lateralReferencers = none

section Plain

variable {root : SearchRoot} {rs : List Nat} {cs : List RestrictInfo}
variable {rel rel1 rel2 : SearchRel}

theorem not_subset_iff (a b : Relids) : bmsIsSubset a b = false ↔ ∃ y, y ∈ a ∧ ¬ y ∈ b := by
  rw [← Bool.not_eq_true, bmsIsSubset_iff]
  push Not
  rfl

theorem baseRel_plain (root : SearchRoot) (cs : List RestrictInfo) (relid : Nat) :
    PlainRel root cs (baseRel cs root.eqClasses relid) where
  joininfo ri := by
    simp only [baseRel, mem_filter, and_eq_true, not_eq_true', not_subset_iff,
      mem_bmsMakeSingleton, exists_eq_left]
    rfl
  eclass := rfl
  lateral := rfl
  directLateral := rfl
  referencers := rfl

@[simp] theorem relKey_baseRel (eqClasses : List EquivalenceClass) (relid : Nat) :
    relKey (baseRel cs eqClasses relid) = {relid} := by
  ext x
  simp [baseRel]

theorem joininfo_scan_iff (h : PlainRel root cs rel1) (hd : Disjoint (relKey rel1) (relKey rel2)) :
    (rel1.joininfo.any fun ri => bmsOverlap rel2.relids ri.requiredRelids) = true ↔
      ∃ ri ∈ cs, (∃ x, x ∈ rel1.relids ∧ x ∈ ri.requiredRelids) ∧
        ∃ y, y ∈ rel2.relids ∧ y ∈ ri.requiredRelids := by
  simp only [any_eq_true, bmsOverlap_iff]
  constructor
  · rintro ⟨ri, hr, hy⟩
    obtain ⟨hc, hx, _⟩ := (h.joininfo ri).mp hr
    exact ⟨ri, hc, hx, hy⟩
  · rintro ⟨ri, hc, hx, y, hy, hyr⟩
    refine ⟨ri, (h.joininfo ri).mpr ⟨hc, hx, y, hyr, ?_⟩, y, hy, hyr⟩
    intro hy1
    exact disjoint_left.mp hd (mem_relKey.mpr hy1) (mem_relKey.mpr hy)

theorem hasEclass_of_common (h : PlainRel root cs rel1)
    (hd : Disjoint (relKey rel1) (relKey rel2)) {ec : EquivalenceClass}
    (hec : ec ∈ root.eqClasses) (hm : 1 < ec.ecMembers)
    (hx : ∃ x, x ∈ rel1.relids ∧ x ∈ ec.ecRelids)
    (hy : ∃ y, y ∈ rel2.relids ∧ y ∈ ec.ecRelids) : rel1.hasEclassJoins = true := by
  obtain ⟨y, hy2, hye⟩ := hy
  rw [h.eclass, hasRelevantEclassJoinclause, any_eq_true]
  refine ⟨ec, hec, ?_⟩
  simp only [and_eq_true, bmsOverlap_iff, decide_eq_true_eq, not_eq_true', not_subset_iff]
  refine ⟨⟨hx, hm⟩, y, hye, fun hy1 => ?_⟩
  exact disjoint_left.mp hd (mem_relKey.mpr hy1) (mem_relKey.mpr hy2)

/-- **The clause relation is the one the graph induces**, whichever list is scanned. -/
theorem haveRelevantJoinclause_iff (h1 : PlainRel root cs rel1)
    (h2 : PlainRel root cs rel2) (hd : Disjoint (relKey rel1) (relKey rel2)) :
    haveRelevantJoinclause root rel1 rel2 = true ↔
      Linked (clauseGraph cs root.eqClasses) (relKey rel1) (relKey rel2) := by
  have hs : (if rel1.joininfo.length ≤ rel2.joininfo.length then
        rel1.joininfo.any fun ri => bmsOverlap rel2.relids ri.requiredRelids
      else rel2.joininfo.any fun ri => bmsOverlap rel1.relids ri.requiredRelids) = true ↔
      ∃ ri ∈ cs, (∃ x, x ∈ rel1.relids ∧ x ∈ ri.requiredRelids) ∧
        ∃ y, y ∈ rel2.relids ∧ y ∈ ri.requiredRelids := by
    split
    · exact joininfo_scan_iff h1 hd
    rw [joininfo_scan_iff h2 hd.symm]
    exact exists_congr fun ri => and_congr_right fun _ => and_comm
  have hne (x y : Nat) (hx : x ∈ rel1.relids) (hy : y ∈ rel2.relids) : x ≠ y := by
    rintro rfl
    exact disjoint_left.mp hd (mem_relKey.mpr hx) (mem_relKey.mpr hy)
  simp only [haveRelevantJoinclause, Bool.or_eq_true, and_eq_true, hs, Linked, mem_relKey]
  constructor
  · rintro (⟨ri, hc, ⟨x, hx, hxr⟩, y, hy, hyr⟩ | ⟨_, hec⟩)
    · exact ⟨x, hx, y, hy, hne x y hx hy, inl ⟨ri, hc, hxr, hyr⟩⟩
    simp only [haveRelevantEclassJoinclause, any_eq_true, and_eq_true, bmsOverlap_iff,
      decide_eq_true_eq] at hec
    obtain ⟨ec, hec, ⟨⟨x, hx, hxe⟩, y, hy, hye⟩, hm⟩ := hec
    exact ⟨x, hx, y, hy, hne x y hx hy, inr ⟨ec, hec, hm, hxe, hye⟩⟩
  · rintro ⟨x, hx, y, hy, _, ⟨ri, hc, hxr, hyr⟩ | ⟨ec, hec, hm, hxe, hye⟩⟩
    · exact inl ⟨ri, hc, ⟨x, hx, hxr⟩, y, hy, hyr⟩
    refine inr ⟨⟨hasEclass_of_common h1 hd hec hm ⟨x, hx, hxe⟩ ⟨y, hy, hye⟩,
      hasEclass_of_common h2 hd.symm hec hm ⟨y, hy, hye⟩ ⟨x, hx, hxe⟩⟩, ?_⟩
    simp only [haveRelevantEclassJoinclause, any_eq_true, and_eq_true, bmsOverlap_iff,
      decide_eq_true_eq]
    exact ⟨ec, hec, ⟨⟨x, hx, hxe⟩, y, hy, hye⟩, hm⟩

theorem hasJoinClause_of_linked (h : PlainRel root cs rel) {B : Finset Nat}
    (hd : Disjoint (relKey rel) B) (hl : Linked (clauseGraph cs root.eqClasses) (relKey rel) B) :
    hasJoinClause root rel = true := by
  obtain ⟨x, hx, y, hy, _, hcl⟩ := hl
  have hyr : ¬ y ∈ rel.relids := fun h' => disjoint_left.mp hd (mem_relKey.mpr h') hy
  rw [mem_relKey] at hx
  simp only [hasJoinClause, Bool.or_eq_true, not_eq_true', isEmpty_eq_false_iff]
  obtain ⟨ri, hc, hxr, hyc⟩ | ⟨ec, hec, hm, hxe, hye⟩ := hcl
  · exact inl (inl (ne_nil_of_mem
      ((h.joininfo ri).mpr ⟨hc, ⟨x, hx, hxr⟩, y, hyc, hyr⟩)))
  refine inl (inr ?_)
  rw [h.eclass, hasRelevantEclassJoinclause, any_eq_true]
  refine ⟨ec, hec, ?_⟩
  simp only [and_eq_true, bmsOverlap_iff, decide_eq_true_eq, not_eq_true', not_subset_iff]
  exact ⟨⟨⟨x, hx, hxe⟩, hm⟩, y, hye, hyr⟩

theorem bmsOverlap_none (a : Relids) : bmsOverlap a none = false := by
  rw [bmsOverlap_eq_false_iff]
  simp

section

variable (hroot : PlainQuery root rs cs)
include hroot

theorem haveJoinOrderRestriction_plain (h1 : PlainRel root cs rel1) (h2 : PlainRel root cs rel2) :
    haveJoinOrderRestriction root rel1 rel2 = false := by
  simp [haveJoinOrderRestriction, hroot.noSpecialJoin, hroot.noPlaceholder, h1.directLateral,
    h2.directLateral, bmsOverlap_none]

theorem joinIsLegal_plain (joinrelids : Relids) :
    joinIsLegal root rel1 rel2 joinrelids = some (none, false) := by
  simp [joinIsLegal, hroot.noSpecialJoin, hroot.noLateral]

theorem clauseJoinable_iff (h1 : PlainRel root cs rel1) (h2 : PlainRel root cs rel2) :
    clauseJoinable root rel1 rel2 = true ↔ Disjoint (relKey rel1) (relKey rel2) ∧
      Linked (clauseGraph cs root.eqClasses) (relKey rel1) (relKey rel2) := by
  have ho : bmsOverlap rel1.relids rel2.relids = false ↔ Disjoint (relKey rel1) (relKey rel2) := by
    rw [bmsOverlap_eq_false_iff, Finset.disjoint_left]
    simp only [mem_relKey]
  rw [clauseJoinable, haveJoinOrderRestriction_plain hroot h1 h2, Bool.or_false,
    and_eq_true, not_eq_true', ho]
  exact and_congr_right fun hd => haveRelevantJoinclause_iff h1 h2 hd

end

theorem mem_subbuildJoinrelJoinlist (relids : Relids) (rin : RestrictInfo)
    (jl : List RestrictInfo) : ∀ newJoininfo : List RestrictInfo,
      rin ∈ subbuildJoinrelJoinlist relids jl newJoininfo ↔
        rin ∈ newJoininfo ∨ (rin ∈ jl ∧ bmsIsSubset rin.requiredRelids relids = false) := by
  induction jl with
  | nil => simp [subbuildJoinrelJoinlist]
  | cons r jl ih =>
    intro newJoininfo
    have hs : rin ∈ (if bmsIsSubset r.requiredRelids relids then newJoininfo
        else if r ∈ newJoininfo then newJoininfo else newJoininfo ++ [r]) ↔
        rin ∈ newJoininfo ∨
          (rin = r ∧ bmsIsSubset rin.requiredRelids relids = false) := by
      by_cases hr : rin = r
      · subst hr
        split_ifs with hsb hm <;> simp_all
      split_ifs <;> simp [hr]
    rw [subbuildJoinrelJoinlist, foldl_cons]
    refine (ih _).trans ?_
    rw [hs, mem_cons]
    tauto

theorem buildJoinRel_plain (h1 : PlainRel root cs rel1) (h2 : PlainRel root cs rel2) :
    PlainRel root cs (buildJoinRel root (bmsUnion rel1.relids rel2.relids) rel1 rel2) where
  joininfo ri := by
    simp only [buildJoinRel, mem_subbuildJoinrelJoinlist, not_mem_nil, false_or, h1.joininfo,
      h2.joininfo, not_subset_iff, mem_bmsUnion]
    constructor
    · rintro (⟨⟨hc, ⟨x, hx, hxr⟩, -⟩, hy⟩ | ⟨⟨hc, ⟨x, hx, hxr⟩, -⟩, hy⟩)
      · exact ⟨hc, ⟨x, inl hx, hxr⟩, hy⟩
      · exact ⟨hc, ⟨x, inr hx, hxr⟩, hy⟩
    · rintro ⟨hc, ⟨x, hx | hx, hxr⟩, y, hy, hny⟩
      · exact inl ⟨⟨hc, ⟨x, hx, hxr⟩, y, hy, fun h => hny (inl h)⟩, y, hy, hny⟩
      · exact inr ⟨⟨hc, ⟨x, hx, hxr⟩, y, hy, fun h => hny (inr h)⟩, y, hy, hny⟩
  eclass := rfl
  lateral := by simp [buildJoinRel, minJoinParameterization, h1.lateral, h2.lateral, bmsUnion,
    bmsDelMembers]
  directLateral := by simp [buildJoinRel, h1.directLateral, h2.directLateral, bmsUnion,
    bmsDelMembers]
  referencers := rfl

@[simp] theorem relKey_buildJoinRel :
    relKey (buildJoinRel root (bmsUnion rel1.relids rel2.relids) rel1 rel2) =
      relKey rel1 ∪ relKey rel2 :=
  toFinset_bmsUnion _ _

theorem makeJoinRel_plain (hplain : PlainQuery root rs cs) (s : SearchState) :
    makeJoinRel root s rel1 rel2 =
      if relKey rel1 ∪ relKey rel2 ∈ s.joinRelList.map relKey then
        { s with calls := s.calls ++ [(rel1, rel2)] }
      else SearchState.addJoinRel { s with calls := s.calls ++ [(rel1, rel2)] }
        (buildJoinRel root (bmsUnion rel1.relids rel2.relids) rel1 rel2) := by
  have hf : (s.joinRelList.any fun rel =>
        bmsEqual rel.relids (bmsUnion rel1.relids rel2.relids)) = true ↔
      relKey rel1 ∪ relKey rel2 ∈ s.joinRelList.map relKey := by
    simp only [any_eq_true, mem_map, bmsEqual_iff]
    refine exists_congr fun rel => and_congr_right fun _ => ?_
    rw [relKey, relKey, relKey, ← toFinset_bmsUnion, toFinset_eq_iff]
  simp only [makeJoinRel, joinIsLegal_plain hplain, addOuterJoinsToRelids, false_eq_true, if_false,
    hf]

/-! ## The invariant -/

/-- The invariant while level `m` is being built: every level lists sets of its size,
each set once, and the search knows all its join relations. -/
structure SearchOk (root : SearchRoot) (relations : List Nat) (clauses : List RestrictInfo)
    (s : SearchState) (m : Nat) : Prop where
  rels : ∀ l, ∀ rel ∈ s.joinRelLevel l, PlainRel root clauses rel ∧
    relKey rel ⊆ relations.toFinset ∧ (relKey rel).card = l
  fresh : ∀ l, m < l → s.joinRelLevel l = []
  nodup : ∀ l, ((s.joinRelLevel l).map relKey).Nodup
  known : ∀ rel, rel ∈ s.joinRelList ↔ ∃ l, 2 ≤ l ∧ rel ∈ s.joinRelLevel l
  initial : s.joinRelLevel 1 = root.initialRels

/-- A pair that makes up a relation of level `m`. -/
structure PairOk (root : SearchRoot) (relations : List Nat) (clauses : List RestrictInfo) (m : Nat)
    (pair : SearchRel × SearchRel) : Prop where
  plain1 : PlainRel root clauses pair.1
  plain2 : PlainRel root clauses pair.2
  subset1 : relKey pair.1 ⊆ relations.toFinset
  subset2 : relKey pair.2 ⊆ relations.toFinset
  disjoint : Disjoint (relKey pair.1) (relKey pair.2)
  card : (relKey pair.1).card + (relKey pair.2).card = m

/-- What building level `m` does to the state: `made` are the pairs joined. -/
structure Built (root : SearchRoot) (relations : List Nat) (clauses : List RestrictInfo) (m : Nat)
    (s s' : SearchState) (made : List (SearchRel × SearchRel)) : Prop where
  ok : SearchOk root relations clauses s' m
  cur : s'.joinCurLevel = m
  others : ∀ l, l ≠ m → s'.joinRelLevel l = s.joinRelLevel l
  keys : ∀ K, K ∈ (s'.joinRelLevel m).map relKey ↔ K ∈ (s.joinRelLevel m).map relKey ∨
    ∃ pair ∈ made, K = relKey pair.1 ∪ relKey pair.2
  calls : s'.calls = s.calls ++ made

variable {s : SearchState} {m : Nat}

theorem SearchOk.mem_known_iff (hs : SearchOk root rs cs s m) (hm : 2 ≤ m)
    {K : Finset Nat} (hK : K.card = m) :
    K ∈ s.joinRelList.map relKey ↔ K ∈ (s.joinRelLevel m).map relKey := by
  simp only [mem_map]
  constructor
  · rintro ⟨rel, hr, rfl⟩
    obtain ⟨l, _, hl⟩ := (hs.known rel).mp hr
    obtain rfl : l = m := (hs.rels l rel hl).2.2.symm.trans hK
    exact ⟨rel, hl, rfl⟩
  · rintro ⟨rel, hr, rfl⟩
    exact ⟨rel, (hs.known rel).mpr ⟨m, hm, hr⟩, rfl⟩

theorem SearchOk.addJoinRel (hs : SearchOk root rs cs s m) (hm : 2 ≤ m)
    (hcr : s.joinCurLevel = m) {joinrel : SearchRel} (hp : PlainRel root cs joinrel)
    (hsb : relKey joinrel ⊆ rs.toFinset) (hc : (relKey joinrel).card = m)
    (hn : relKey joinrel ∉ (s.joinRelLevel m).map relKey) :
    SearchOk root rs cs (s.addJoinRel joinrel) m := by
  subst hcr
  have hsl : (s.addJoinRel joinrel).joinRelLevel s.joinCurLevel =
      s.joinRelLevel s.joinCurLevel ++ [joinrel] := update_self ..
  have ho (l : Nat) (hl : l ≠ s.joinCurLevel) :
      (s.addJoinRel joinrel).joinRelLevel l = s.joinRelLevel l := update_of_ne hl ..
  have hmm : ∀ l rel, rel ∈ (s.addJoinRel joinrel).joinRelLevel l ↔
      rel ∈ s.joinRelLevel l ∨ l = s.joinCurLevel ∧ rel = joinrel := by
    intro l rel
    by_cases hl : l = s.joinCurLevel
    · rw [hl, hsl, mem_append, mem_singleton, eq_self, true_and]
    · simp [ho l hl, hl]
  constructor
  case rels =>
    intro l rel hr
    obtain hr | ⟨rfl, rfl⟩ := (hmm l rel).mp hr
    · exact hs.rels l rel hr
    · exact ⟨hp, hsb, hc⟩
  case fresh =>
    intro l hl
    rw [ho l (by omega)]
    exact hs.fresh l hl
  case nodup =>
    intro l
    by_cases hl : l = s.joinCurLevel
    · subst hl
      rw [hsl, map_append]
      exact List.Nodup.append (hs.nodup _) (nodup_singleton _) (disjoint_singleton.mpr hn)
    rw [ho l hl]
    exact hs.nodup l
  case known =>
    intro rel
    show rel ∈ s.joinRelList ++ [joinrel] ↔ _
    rw [mem_append, mem_singleton, hs.known]
    simp only [hmm, and_or_left, exists_or]
    refine or_congr_right ⟨fun h => ⟨_, hm, rfl, h⟩, ?_⟩
    rintro ⟨-, -, -, h⟩
    exact h
  case initial =>
    rw [ho 1 (by omega)]
    exact hs.initial

/-- **One call of `make_join_rel`.** -/
theorem makeJoinRel_ok (hplain : PlainQuery root rs cs)
    (hs : SearchOk root rs cs s m) (hm : 2 ≤ m) (hcu : s.joinCurLevel = m)
    {pair : SearchRel × SearchRel} (hp : PairOk root rs cs m pair) :
    Built root rs cs m s (makeJoinRel root s pair.1 pair.2) [pair] := by
  have hcr : (relKey pair.1 ∪ relKey pair.2).card = m := by
    rw [card_union_of_disjoint hp.disjoint, hp.card]
  have hc : SearchOk root rs cs
      { s with calls := s.calls ++ [(pair.1, pair.2)] } m :=
    { hs with }
  rw [makeJoinRel_plain hplain]
  split <;> rename_i hf
  · rw [hs.mem_known_iff hm hcr] at hf
    refine ⟨hc, hcu, fun l _ => rfl, fun K => ?_, rfl⟩
    simp only [mem_singleton, exists_eq_left]
    constructor
    · exact inl
    · rintro (h | rfl)
      · exact h
      · exact hf
  · rw [hs.mem_known_iff hm hcr] at hf
    have hok := hc.addJoinRel hm hcu (buildJoinRel_plain hp.plain1 hp.plain2)
      (by rw [relKey_buildJoinRel]; exact union_subset hp.subset1 hp.subset2)
      (by rw [relKey_buildJoinRel]; exact hcr) (by rw [relKey_buildJoinRel]; exact hf)
    subst hcu
    refine ⟨hok, rfl, fun l hl => update_of_ne hl .., fun K => ?_, rfl⟩
    have hsl : (SearchState.addJoinRel { s with calls := s.calls ++ [(pair.1, pair.2)] }
        (buildJoinRel root (bmsUnion pair.1.relids pair.2.relids) pair.1 pair.2)).joinRelLevel
          s.joinCurLevel = s.joinRelLevel s.joinCurLevel ++
        [buildJoinRel root (bmsUnion pair.1.relids pair.2.relids) pair.1 pair.2] :=
      update_self ..
    rw [hsl]
    simp

def makePairs (root : SearchRoot) (s : SearchState) (made : List (SearchRel × SearchRel)) :
    SearchState :=
  made.foldl (fun s pair => makeJoinRel root s pair.1 pair.2) s

variable {made : List (SearchRel × SearchRel)} {k : Nat} {a b : SearchRel} {l : Nat}

/-- **A loop of calls.** -/
theorem makePairs_ok (hplain : PlainQuery root rs cs) (hm : 2 ≤ m) :
    ∀ {s : SearchState}, SearchOk root rs cs s m → s.joinCurLevel = m →
      (∀ pair ∈ made, PairOk root rs cs m pair) →
      Built root rs cs m s (makePairs root s made) made := by
  induction made with
  | nil =>
    intro s hs hc _
    exact ⟨hs, hc, fun _ _ => rfl, by simp [makePairs], by simp [makePairs]⟩
  | cons pair made ih =>
    intro s hs hc hp
    have h1 := makeJoinRel_ok hplain hs hm hc (hp pair (mem_cons_self ..))
    have h2 := ih h1.ok h1.cur fun q hq => hp q (mem_cons_of_mem _ hq)
    refine ⟨h2.ok, h2.cur, fun l hl => (h2.others l hl).trans (h1.others l hl), fun K => ?_, ?_⟩
    · refine (h2.keys K).trans ?_
      rw [h1.keys K]
      simp only [mem_cons, not_mem_nil, or_false, exists_eq_left, or_and_right, exists_or, or_assoc]
    rw [makePairs, foldl_cons]
    refine h2.calls.trans ?_
    rw [h1.calls, append_assoc, singleton_append]

/-! ## The pairs of one level -/

variable (root)

/-- The candidates of the first loop for one cell of the previous level. -/
def leftRightPairs (joinrels : Nat → List SearchRel) (level : Nat) :
    List (SearchRel × SearchRel) :=
  (cells (joinrels (level - 1))).flatMap fun (oldRel, rest) =>
    if hasJoinClause root oldRel then
      ((if level = 2 then rest else joinrels 1).filter (clauseJoinable root oldRel)).map (oldRel, ·)
    else
      ((joinrels 1).filter fun otherRel => !bmsOverlap otherRel.relids oldRel.relids).map
        (oldRel, ·)

def bushyPairs (joinrels : Nat → List SearchRel) (level k : Nat) :
    List (SearchRel × SearchRel) :=
  (cells (joinrels k)).flatMap fun (oldRel, rest) =>
    if !hasJoinClause root oldRel then []
    else
      ((if k = level - k then rest else joinrels (level - k)).filter
        (clauseJoinable root oldRel)).map (oldRel, ·)

def levelPairs (joinrels : Nat → List SearchRel) (level : Nat) :
    List (SearchRel × SearchRel) :=
  leftRightPairs root joinrels level ++ (bushySizes level).flatMap (bushyPairs root joinrels level)

variable {root}

variable (joinrels : Nat → List SearchRel)

variable (level : Nat)

def cartesianPairs :
    List (SearchRel × SearchRel) :=
  (joinrels (level - 1)).flatMap fun oldRel =>
    ((joinrels 1).filter fun otherRel => !bmsOverlap otherRel.relids oldRel.relids).map (oldRel, ·)

theorem makeRelsByClauseJoins_eq (s : SearchState) (old : SearchRel) (others : List SearchRel) :
    makeRelsByClauseJoins root s old others =
      makePairs root s ((others.filter (clauseJoinable root old)).map (old, ·)) := by
  rw [makePairs, foldl_map, foldl_filter]
  rfl

theorem makeRelsByClauselessJoins_eq (s : SearchState) (old : SearchRel) (others : List SearchRel) :
    makeRelsByClauselessJoins root s old others =
      makePairs root s ((others.filter fun otherRel =>
        !bmsOverlap otherRel.relids old.relids).map (old, ·)) := by
  rw [makePairs, foldl_map, foldl_filter]
  rfl

theorem leftRightPlans_eq (s : SearchState) :
    leftRightPlans root joinrels level s =
      makePairs root s (leftRightPairs root joinrels level) := by
  rw [leftRightPlans, makePairs, leftRightPairs, foldl_flatMap]
  congr 1
  funext s c
  obtain ⟨oldRel, rest⟩ := c
  by_cases h : hasJoinClause root oldRel = true
  · simp only [h, if_true]
    exact makeRelsByClauseJoins_eq s oldRel _
  simp only [h]
  exact makeRelsByClauselessJoins_eq s oldRel _

theorem bushyPlans_eq (s : SearchState) (k : Nat) :
    bushyPlans root joinrels level s k = makePairs root s (bushyPairs root joinrels level k) := by
  rw [bushyPlans, makePairs, bushyPairs, foldl_flatMap]
  congr 1
  funext s c
  obtain ⟨oldRel, rest⟩ := c
  by_cases h : hasJoinClause root oldRel = true
  · simp only [h, Bool.not_true, false_eq_true, if_false]
    exact makeRelsByClauseJoins_eq s oldRel _
  simp only [h, Bool.not_false, if_true, foldl_nil]

theorem cartesianPlans_eq (s : SearchState) :
    cartesianPlans root joinrels level s = makePairs root s (cartesianPairs joinrels level) := by
  rw [cartesianPlans, makePairs, cartesianPairs, foldl_flatMap]
  congr 1
  funext s oldRel
  exact makeRelsByClauselessJoins_eq s oldRel _

/-- **One level of the search** as two sequences of calls, the second of which is made
only if the first builds nothing. -/
theorem joinSearchOneLevel_eq (s : SearchState) (level : Nat) :
    joinSearchOneLevel root s level =
      let s1 := makePairs root { s with joinCurLevel := level }
        (levelPairs root s.joinRelLevel level)
      let s2 := makePairs root s1 (cartesianPairs s.joinRelLevel level)
      if (s1.joinRelLevel level).isEmpty then
        if (s2.joinRelLevel level).isEmpty && root.joinInfoList.isEmpty && !root.hasLateralRTEs then
          .error ⟨level⟩
        else .ok s2
      else .ok s1 := by
  have hm : (bushySizes level).foldl (bushyPlans root s.joinRelLevel level)
      (leftRightPlans root s.joinRelLevel level { s with joinCurLevel := level }) =
      makePairs root { s with joinCurLevel := level } (levelPairs root s.joinRelLevel level) := by
    have hb : bushyPlans root s.joinRelLevel level =
        fun s' k => makePairs root s' (bushyPairs root s.joinRelLevel level k) := by
      funext s' k
      exact bushyPlans_eq s.joinRelLevel level s' k
    rw [leftRightPlans_eq, hb, levelPairs, makePairs, makePairs, foldl_append, foldl_flatMap]
    rfl
  simp only [joinSearchOneLevel, hm, cartesianPlans_eq]

theorem mem_bushySizes {level : Nat} : k ∈ bushySizes level ↔ 2 ≤ k ∧ 2 * k ≤ level := by
  rw [bushySizes, mem_range'_1]
  omega

theorem disjoint_of_not_overlap (h : bmsOverlap a.relids b.relids = false) :
    Disjoint (relKey a) (relKey b) := by
  rw [bmsOverlap_eq_false_iff] at h
  rw [Finset.disjoint_left]
  simpa only [mem_relKey] using h

theorem SearchOk.pairOk (hs : SearchOk root rs cs s (m - 1)) (ha : a ∈ s.joinRelLevel k)
    (hb : b ∈ s.joinRelLevel l) (hkl : k + l = m) (hd : bmsOverlap a.relids b.relids = false) :
    PairOk root rs cs m (a, b) := by
  obtain ⟨pa, sa, ca⟩ := hs.rels k a ha
  obtain ⟨pb, sb, cb⟩ := hs.rels l b hb
  exact ⟨pa, pb, sa, sb, disjoint_of_not_overlap hd, by rw [ca, cb, hkl]⟩

theorem not_overlap_of_clauseJoinable (h : clauseJoinable root a b = true) :
    bmsOverlap a.relids b.relids = false := by
  simp only [clauseJoinable, and_eq_true, not_eq_true'] at h
  exact h.1

theorem bmsOverlap_comm (a b : Relids) : bmsOverlap a b = bmsOverlap b a := by
  rw [Bool.eq_iff_iff, bmsOverlap_iff, bmsOverlap_iff]
  exact exists_congr fun x => and_comm

section

variable (hs : SearchOk root rs cs s (m - 1))
include hs

theorem clauseless_pairOk (hm : 2 ≤ m) {old : SearchRel} (ho : old ∈ s.joinRelLevel (m - 1))
    {pair : SearchRel × SearchRel}
    (hp : pair ∈ ((s.joinRelLevel 1).filter fun otherRel =>
      !bmsOverlap otherRel.relids old.relids).map (old, ·)) :
    PairOk root rs cs m pair := by
  obtain ⟨b, hb, rfl⟩ := mem_map.mp hp
  obtain ⟨hb1, hov⟩ := mem_filter.mp hb
  refine hs.pairOk ho hb1 (by omega) ?_
  rw [bmsOverlap_comm]
  simpa using hov

/-- **All pairs tried at a level add up to it**, whatever the clauses. -/
theorem levelPairs_ok (hm : 2 ≤ m) :
    ∀ pair ∈ levelPairs root s.joinRelLevel m, PairOk root rs cs m pair := by
  intro pair hp
  obtain hp | hp := mem_append.mp hp
  · obtain ⟨c, hc, hp⟩ := mem_flatMap.mp hp
    obtain ⟨ho, hr⟩ := mem_of_mem_cells hc
    dsimp only at hp
    split at hp
    · obtain ⟨b, hb, rfl⟩ := mem_map.mp hp
      obtain ⟨hcn, hj⟩ := mem_filter.mp hb
      have hb1 : b ∈ s.joinRelLevel 1 := by
        split at hcn
        next h2 =>
          subst h2
          exact hr b hcn
        · exact hcn
      exact hs.pairOk ho hb1 (by omega) (not_overlap_of_clauseJoinable hj)
    · exact clauseless_pairOk hs hm ho hp
  obtain ⟨k, hk, hp⟩ := mem_flatMap.mp hp
  obtain ⟨hk2, hkm⟩ := mem_bushySizes.mp hk
  obtain ⟨c, hc, hp⟩ := mem_flatMap.mp hp
  obtain ⟨ho, hr⟩ := mem_of_mem_cells hc
  dsimp only at hp
  split at hp
  · simp at hp
  obtain ⟨b, hb, rfl⟩ := mem_map.mp hp
  obtain ⟨hcn, hj⟩ := mem_filter.mp hb
  have hbl : b ∈ s.joinRelLevel (m - k) := by
    split at hcn
    next heq =>
      rw [← heq]
      exact hr b hcn
    · exact hcn
  exact hs.pairOk ho hbl (by omega) (not_overlap_of_clauseJoinable hj)

theorem cartesianPairs_ok (hm : 2 ≤ m) :
    ∀ pair ∈ cartesianPairs s.joinRelLevel m, PairOk root rs cs m pair := by
  intro pair hp
  obtain ⟨oldRel, ho, hp⟩ := mem_flatMap.mp hp
  exact clauseless_pairOk hs hm ho hp

theorem SearchOk.next : SearchOk root rs cs { s with joinCurLevel := m } m :=
  ⟨hs.rels, fun l hl => hs.fresh l (by omega), hs.nodup, hs.known, hs.initial⟩

end

/-! ## Any clause relation -/

section

variable (hroot : PlainQuery root rs cs)
include hroot

theorem exists_mem_initial (hs : SearchOk root rs cs s m) {x : Nat} (hx : x ∈ rs) :
    baseRel cs root.eqClasses x ∈ s.joinRelLevel 1 := by
  rw [hs.initial, hroot.initial]
  exact mem_map_of_mem hx

theorem exists_missing (hs : SearchOk root rs cs s (m - 1)) (hm : m ≤ rs.length)
    (h1 : 1 ≤ m) {rel : SearchRel} (hr : rel ∈ s.joinRelLevel (m - 1)) :
    ∃ x ∈ rs, x ∉ relKey rel := by
  by_contra hno
  push Not at hno
  have hc := (hs.rels _ rel hr).2.2
  have hle := card_le_card fun x hx => hno x (List.mem_toFinset.mp hx)
  rw [toFinset_card_of_nodup hroot.nodup] at hle
  omega

/-- **No level fails**: if nothing else can be built, a cartesian product is. -/
theorem joinSearchOneLevel_ok (hs : SearchOk root rs cs s (m - 1)) (hm : 2 ≤ m)
    (hn : m ≤ rs.length) (hne : s.joinRelLevel (m - 1) ≠ []) :
    ∃ s', joinSearchOneLevel root s m = .ok s' ∧ SearchOk root rs cs s' m ∧
      s'.joinRelLevel m ≠ [] := by
  have h1 := makePairs_ok hroot hm hs.next rfl (levelPairs_ok hs hm)
  have h2 := makePairs_ok hroot hm h1.ok h1.cur (cartesianPairs_ok hs hm)
  rw [joinSearchOneLevel_eq]
  by_cases he : ((makePairs root { s with joinCurLevel := m }
      (levelPairs root s.joinRelLevel m)).joinRelLevel m).isEmpty = true
  · obtain ⟨rel, hr⟩ := exists_mem_of_ne_nil _ hne
    obtain ⟨x, hx, hnt⟩ := exists_missing hroot hs hn (by omega) hr
    have ho : bmsOverlap (baseRel cs root.eqClasses x).relids rel.relids = false := by
      rw [bmsOverlap_eq_false_iff]
      intro y hy hyr
      have : y = x := by simpa [baseRel] using hy
      subst this
      exact hnt (mem_relKey.mpr hyr)
    have hp : (rel, baseRel cs root.eqClasses x) ∈ cartesianPairs s.joinRelLevel m :=
      mem_flatMap.mpr ⟨rel, hr, mem_map_of_mem
        (mem_filter.mpr ⟨exists_mem_initial hroot hs hx, by simp [ho]⟩)⟩
    have hb := (h2.keys _).mpr (inr ⟨_, hp, rfl⟩)
    have hne2 : (makePairs root (makePairs root { s with joinCurLevel := m }
        (levelPairs root s.joinRelLevel m)) (cartesianPairs s.joinRelLevel m)).joinRelLevel m ≠ [] := by
      intro hnl
      rw [hnl] at hb
      simp at hb
    rw [if_pos he, if_neg (by simp [List.isEmpty_iff, hne2])]
    exact ⟨_, rfl, h2.ok, hne2⟩
  rw [if_neg he]
  exact ⟨_, rfl, h1.ok, fun hnl => he (by rw [hnl]; rfl)⟩

theorem startSearch_ok : SearchOk root rs cs (startSearch root) 1 where
  rels l rel hr := by
    simp only [startSearch] at hr
    split at hr
    next hl =>
      subst hl
      rw [hroot.initial] at hr
      obtain ⟨x, hx, rfl⟩ := mem_map.mp hr
      refine ⟨baseRel_plain root cs x, ?_, ?_⟩
      · rw [relKey_baseRel, singleton_subset_iff]
        exact List.mem_toFinset.mpr hx
      rw [relKey_baseRel, card_singleton]
    · simp at hr
  fresh l hl := if_neg (by omega)
  nodup l := by
    simp only [startSearch]
    split
    · rw [hroot.initial, map_map]
      refine hroot.nodup.map_on ?_
      intro x _ y _ hxy
      simpa using hxy
    · exact nodup_nil
  known rel := by
    simp only [startSearch, not_mem_nil, false_iff, not_exists, not_and]
    intro l hl
    rw [if_neg (by omega)]
    exact not_mem_nil
  initial := rfl

end

theorem search_induction (P : SearchState → Nat → Prop) (hst : P (startSearch root) 1)
    (hste : ∀ s m, 2 ≤ m → m ≤ rs.length → P s (m - 1) →
      ∃ s', joinSearchOneLevel root s m = .ok s' ∧ P s' m) :
    ∀ n, n + 1 ≤ rs.length →
      ∃ s, (List.range' 2 n).foldlM (joinSearchOneLevel root) (startSearch root) = .ok s ∧
        P s (n + 1) := by
  intro n
  induction n with
  | zero => exact fun _ => ⟨_, rfl, hst⟩
  | succ n ih =>
    intro hn
    obtain ⟨s, hr, hs⟩ := ih (by omega)
    obtain ⟨s', hl, hs'⟩ := hste s (n + 2) (by omega) (by omega) hs
    refine ⟨s', ?_, hs'⟩
    rw [range'_concat, foldlM_append, hr]
    have hi : 2 + 1 * n = n + 2 := by omega
    show (joinSearchOneLevel root s (2 + 1 * n) >>= pure) = _
    rw [hi, hl]
    rfl

/-! ## A connected query -/

/-- The pairs of relation sets a search should join: disjoint, connected, linked. -/
structure JoinablePair (G : SimpleGraph Nat) (V A B : Finset Nat) : Prop where
  subset1 : A ⊆ V
  subset2 : B ⊆ V
  disjoint : Disjoint A B
  connected1 : ConnectedOn G A
  connected2 : ConnectedOn G B
  linked : Linked G A B

theorem JoinablePair.symm {G : SimpleGraph Nat} {V A B : Finset Nat} (h : JoinablePair G V A B) :
    JoinablePair G V B A :=
  ⟨h.subset2, h.subset1, h.disjoint.symm, h.connected2, h.connected1, h.linked.symm⟩

/-- The list has exactly the connected sets of `k` relations. -/
def ExactLevel (G : SimpleGraph Nat) (V : Finset Nat) (L : List SearchRel) (k : Nat) : Prop :=
  ∀ K, K ∈ L.map relKey ↔ K ⊆ V ∧ K.card = k ∧ ConnectedOn G K

/-- The pairs of a loop are those of sizes `k` and `l`, each once. -/
structure ExactPairs (G : SimpleGraph Nat) (V : Finset Nat) (k l : Nat)
    (made : List (SearchRel × SearchRel)) : Prop where
  nodup : (made.map (pairKey relKey)).Nodup
  mem_iff : ∀ A B, s(A, B) ∈ made.map (pairKey relKey) ↔ JoinablePair G V A B ∧
    ((A.card = k ∧ B.card = l) ∨ (A.card = l ∧ B.card = k))

theorem mem_pairKey_iff {P : Finset Nat → Finset Nat → Prop} (hsy : ∀ A B, P A B → P B A)
    (hs : ∀ a b, (a, b) ∈ made → P (relKey a) (relKey b))
    (hc : ∀ A B, P A B → ∃ a b, relKey a = A ∧ relKey b = B ∧
      ((a, b) ∈ made ∨ (b, a) ∈ made)) (A B : Finset Nat) :
    s(A, B) ∈ made.map (pairKey relKey) ↔ P A B := by
  rw [mem_map]
  constructor
  · rintro ⟨⟨a, b⟩, hab, heq⟩
    have hP := hs a b hab
    obtain ⟨h1, h2⟩ | ⟨h1, h2⟩ := Sym2.eq_iff.mp heq
    · rw [← h1, ← h2]
      exact hP
    rw [← h1, ← h2]
    exact hsy _ _ hP
  · intro hP
    obtain ⟨a, b, rfl, rfl, h | h⟩ := hc A B hP
    · exact ⟨(a, b), h, rfl⟩
    · exact ⟨(b, a), h, Sym2.eq_swap⟩

variable {L M : List SearchRel} {k l : Nat}

section

variable (hroot : PlainQuery root rs cs)
include hroot

theorem joinablePair_iff (hL : ∀ rel ∈ L, PlainRel root cs rel)
    (hM : ∀ rel ∈ M, PlainRel root cs rel)
    (hLk : ExactLevel (clauseGraph cs root.eqClasses) rs.toFinset L k)
    (hMl : ExactLevel (clauseGraph cs root.eqClasses) rs.toFinset M l) (ha : a ∈ L) (hb : b ∈ M) :
    clauseJoinable root a b = true ↔
      JoinablePair (clauseGraph cs root.eqClasses) rs.toFinset (relKey a) (relKey b) := by
  obtain ⟨sa, -, ca⟩ := (hLk _).mp (mem_map_of_mem ha)
  obtain ⟨sb, -, cb⟩ := (hMl _).mp (mem_map_of_mem hb)
  rw [clauseJoinable_iff hroot (hL a ha) (hM b hb)]
  exact ⟨fun h => ⟨sa, sb, h.1, ca, cb, h.2⟩, fun h => ⟨h.disjoint, h.linked⟩⟩

theorem exactPairs_cells (hL : ∀ rel ∈ L, PlainRel root cs rel) (hnd : (L.map relKey).Nodup)
    (hex : ExactLevel (clauseGraph cs root.eqClasses) rs.toFinset L k) :
    ExactPairs (clauseGraph cs root.eqClasses) rs.toFinset k k
      (pairs (clauseJoinable root) (cells L)) where
  nodup := nodup_pairs_cells relKey _ hnd
  mem_iff := by
    apply mem_pairKey_iff
    · rintro A B ⟨h, hc⟩
      exact ⟨h.symm, hc.symm.imp And.symm And.symm⟩
    · intro a b hab
      obtain ⟨c, hc, rfl, hb, ht⟩ := mem_pairs.mp hab
      obtain ⟨ha, hr⟩ := mem_of_mem_cells hc
      have hka := ((hex _).mp (mem_map_of_mem ha)).2.1
      have hkb := ((hex _).mp (mem_map_of_mem (hr b hb))).2.1
      exact ⟨(joinablePair_iff hroot hL hL hex hex ha (hr b hb)).mp ht, inl ⟨hka, hkb⟩⟩
    rintro A B ⟨h, hc⟩
    obtain ⟨hA, hB⟩ : A.card = k ∧ B.card = k := hc.elim id id
    obtain ⟨a, ha, rfl⟩ := mem_map.mp ((hex A).mpr ⟨h.subset1, hA, h.connected1⟩)
    obtain ⟨b, hb, rfl⟩ := mem_map.mp ((hex B).mpr ⟨h.subset2, hB, h.connected2⟩)
    have hne : a ≠ b := by
      rintro rfl
      exact h.connected1.nonempty.ne_empty (Finset.disjoint_self_iff_empty _ |>.mp h.disjoint)
    exact ⟨a, b, rfl, rfl, mem_pairs_cells ha hb hne
      ((joinablePair_iff hroot hL hL hex hex ha hb).mpr h)
      ((joinablePair_iff hroot hL hL hex hex hb ha).mpr h.symm)⟩

theorem exactPairs_product (hkl : k ≠ l)
    (hL : ∀ rel ∈ L, PlainRel root cs rel) (hM : ∀ rel ∈ M, PlainRel root cs rel)
    (hn : (L.map relKey).Nodup) (hnd : (M.map relKey).Nodup)
    (hLk : ExactLevel (clauseGraph cs root.eqClasses) rs.toFinset L k)
    (hMl : ExactLevel (clauseGraph cs root.eqClasses) rs.toFinset M l) :
    ExactPairs (clauseGraph cs root.eqClasses) rs.toFinset k l
      (pairs (clauseJoinable root) (L.map (·, M))) where
  nodup := by
    apply nodup_pairs_product relKey _ hn hnd
    intro a ha b hb heq
    have hka := ((hLk _).mp (mem_map_of_mem ha)).2.1
    have hkb := ((hMl _).mp (mem_map_of_mem hb)).2.1
    rw [heq, hkb] at hka
    exact hkl hka.symm
  mem_iff := by
    apply mem_pairKey_iff
    · rintro A B ⟨h, hc⟩
      exact ⟨h.symm, hc.symm.imp And.symm And.symm⟩
    · intro a b hab
      obtain ⟨ha, hb, ht⟩ := mem_pairs_product.mp hab
      have hka := ((hLk _).mp (mem_map_of_mem ha)).2.1
      have hkb := ((hMl _).mp (mem_map_of_mem hb)).2.1
      exact ⟨(joinablePair_iff hroot hL hM hLk hMl ha hb).mp ht, inl ⟨hka, hkb⟩⟩
    rintro A B ⟨h, ⟨hA, hB⟩ | ⟨hA, hB⟩⟩
    · obtain ⟨a, ha, rfl⟩ := mem_map.mp ((hLk A).mpr ⟨h.subset1, hA, h.connected1⟩)
      obtain ⟨b, hb, rfl⟩ := mem_map.mp ((hMl B).mpr ⟨h.subset2, hB, h.connected2⟩)
      exact ⟨a, b, rfl, rfl, inl (mem_pairs_product.mpr
        ⟨ha, hb, (joinablePair_iff hroot hL hM hLk hMl ha hb).mpr h⟩)⟩
    obtain ⟨a, ha, rfl⟩ := mem_map.mp ((hMl A).mpr ⟨h.subset1, hA, h.connected1⟩)
    obtain ⟨b, hb, rfl⟩ := mem_map.mp ((hLk B).mpr ⟨h.subset2, hB, h.connected2⟩)
    exact ⟨a, b, rfl, rfl, inr (mem_pairs_product.mpr
      ⟨hb, ha, (joinablePair_iff hroot hL hM hLk hMl hb ha).mpr h.symm⟩)⟩

end

/-- What is known when the levels below `m` are done. -/
structure ExactOk (root : SearchRoot) (relations : List Nat) (clauses : List RestrictInfo)
    (s : SearchState) (m : Nat) : Prop where
  ok : SearchOk root relations clauses s m
  exact : ∀ l, 1 ≤ l → l ≤ m →
    ExactLevel (clauseGraph clauses root.eqClasses) relations.toFinset (s.joinRelLevel l) l
  nonempty : s.joinRelLevel m ≠ []
  nodup : (s.calls.map (pairKey relKey)).Nodup
  mem_calls : ∀ A B, s(A, B) ∈ s.calls.map (pairKey relKey) ↔
    JoinablePair (clauseGraph clauses root.eqClasses) relations.toFinset A B ∧ A.card + B.card ≤ m

theorem leftRightPairs_eq {jr : Nat → List SearchRel}
    (hcl : ∀ rel ∈ jr (m - 1), hasJoinClause root rel = true) :
    leftRightPairs root jr m =
      if m = 2 then pairs (clauseJoinable root) (cells (jr (m - 1)))
      else pairs (clauseJoinable root) ((jr (m - 1)).map (·, jr 1)) := by
  have hl : leftRightPairs root jr m =
      (cells (jr (m - 1))).flatMap fun c =>
        ((if m = 2 then c.2 else jr 1).filter (clauseJoinable root c.1)).map (c.1, ·) := by
    apply flatMap_congr
    intro c hc
    simp only [hcl c.1 (mem_of_mem_cells hc).1, if_true]
  rw [hl, flatMap_cells_ite]

theorem bushyPairs_eq {jr : Nat → List SearchRel}
    (hcl : ∀ rel ∈ jr k, hasJoinClause root rel = true) :
    bushyPairs root jr m k =
      if k = m - k then pairs (clauseJoinable root) (cells (jr k))
      else pairs (clauseJoinable root) ((jr k).map (·, jr (m - k))) := by
  have hl : bushyPairs root jr m k =
      (cells (jr k)).flatMap fun c =>
        ((if k = m - k then c.2 else jr (m - k)).filter (clauseJoinable root c.1)).map
          (c.1, ·) := by
    apply flatMap_congr
    intro c hc
    simp only [hcl c.1 (mem_of_mem_cells hc).1, Bool.not_true, false_eq_true, if_false]
  rw [hl, flatMap_cells_ite]

section

variable (hroot : PlainQuery root rs cs)
  (hconn : ConnectedOn (clauseGraph cs root.eqClasses) rs.toFinset)
  (hs : ExactOk root rs cs s (m - 1))
include hroot hconn hs

theorem hasJoinClause_of_connected (hm : m ≤ rs.length) (hl : 1 ≤ l) (hlm : l ≤ m - 1)
    {rel : SearchRel} (hr : rel ∈ s.joinRelLevel l) :
    Linked (clauseGraph cs root.eqClasses) (relKey rel) (rs.toFinset \ relKey rel) ∧
      hasJoinClause root rel = true := by
  obtain ⟨hp, hsb, hc⟩ := hs.ok.rels l rel hr
  have hne : relKey rel ≠ rs.toFinset := by
    intro heq
    rw [heq, toFinset_card_of_nodup hroot.nodup] at hc
    omega
  have hps : (relKey rel).Nonempty := card_pos.mp (by omega)
  have hln := hconn.exists_adj_sdiff hsb hps hne
  exact ⟨hln, hasJoinClause_of_linked hp Finset.disjoint_sdiff hln⟩

theorem leftRightPairs_exact (hm : 2 ≤ m) (hn : m ≤ rs.length) :
    ExactPairs (clauseGraph cs root.eqClasses) rs.toFinset (m - 1) 1
      (leftRightPairs root s.joinRelLevel m) := by
  have hp (l : Nat) (rel : SearchRel) (h : rel ∈ s.joinRelLevel l) :
      PlainRel root cs rel := (hs.ok.rels l rel h).1
  rw [leftRightPairs_eq fun rel hr =>
    (hasJoinClause_of_connected hroot hconn hs hn (by omega) le_rfl hr).2]
  split
  next h2 =>
    subst h2
    exact exactPairs_cells hroot (hp 1) (hs.ok.nodup 1) (hs.exact 1 le_rfl le_rfl)
  · exact exactPairs_product hroot (by omega) (hp _) (hp 1) (hs.ok.nodup _)
      (hs.ok.nodup 1) (hs.exact _ (by omega) le_rfl) (hs.exact 1 le_rfl (by omega))

theorem bushyPairs_exact (hn : m ≤ rs.length) (hk : k ∈ bushySizes m) :
    ExactPairs (clauseGraph cs root.eqClasses) rs.toFinset k (m - k)
      (bushyPairs root s.joinRelLevel m k) := by
  obtain ⟨hk2, hkm⟩ := mem_bushySizes.mp hk
  have hp (l : Nat) (rel : SearchRel) (h : rel ∈ s.joinRelLevel l) :
      PlainRel root cs rel := (hs.ok.rels l rel h).1
  rw [bushyPairs_eq fun rel hr =>
    (hasJoinClause_of_connected hroot hconn hs hn (by omega) (by omega) hr).2]
  split
  next heq =>
    rw [← heq]
    exact exactPairs_cells hroot (hp k) (hs.ok.nodup k) (hs.exact k (by omega) (by omega))
  next hne =>
    exact exactPairs_product hroot hne (hp k) (hp _) (hs.ok.nodup k) (hs.ok.nodup _)
      (hs.exact k (by omega) (by omega)) (hs.exact (m - k) (by omega) (by omega))

end

theorem ExactPairs.disjoint {G : SimpleGraph Nat} {V : Finset Nat} {k' l' : Nat}
    {made' : List (SearchRel × SearchRel)} (h : ExactPairs G V k l made)
    (h' : ExactPairs G V k' l' made') (hne : ¬ (k = k' ∧ l = l') ∧ ¬ (k = l' ∧ l = k')) :
    (made.map (pairKey relKey)).Disjoint (made'.map (pairKey relKey)) := by
  intro q hq hq'
  induction q with
  | h A B =>
    obtain ⟨-, hc⟩ := (h.mem_iff A B).mp hq
    obtain ⟨-, hc'⟩ := (h'.mem_iff A B).mp hq'
    omega

section

variable (hroot : PlainQuery root rs cs)
  (hconn : ConnectedOn (clauseGraph cs root.eqClasses) rs.toFinset)
  (hs : ExactOk root rs cs s (m - 1)) (hm : 2 ≤ m) (hn : m ≤ rs.length)
include hroot hconn hs hm hn

/-- **The pairs of one level**: all joinable pairs that add up to it, each once. -/
theorem levelPairs_exact :
    ((levelPairs root s.joinRelLevel m).map (pairKey relKey)).Nodup ∧
    ∀ A B, s(A, B) ∈ (levelPairs root s.joinRelLevel m).map (pairKey relKey) ↔
      JoinablePair (clauseGraph cs root.eqClasses) rs.toFinset A B ∧ A.card + B.card = m := by
  have hl := leftRightPairs_exact hroot hconn hs hm hn
  have hb (k : Nat) (hk : k ∈ bushySizes m) := bushyPairs_exact hroot hconn hs hn hk
  rw [levelPairs, map_append, map_flatMap]
  constructor
  · refine List.Nodup.append hl.nodup (nodup_flatMap.mpr ⟨fun k hk => (hb k hk).nodup, ?_⟩) ?_
    · have hd : (bushySizes m).Nodup := nodup_range'
      refine List.Pairwise.imp_of_mem ?_ hd
      intro k k' hk hk' hne
      have hk2 := mem_bushySizes.mp hk
      have hk2' := mem_bushySizes.mp hk'
      exact (hb k hk).disjoint (hb k' hk') (by omega)
    intro q hq hq'
    obtain ⟨k, hk, hmm⟩ := mem_flatMap.mp hq'
    have hk2 := mem_bushySizes.mp hk
    exact hl.disjoint (hb k hk) (by omega) hq hmm
  · intro A B
    rw [mem_append, mem_flatMap, hl.mem_iff]
    constructor
    · rintro (⟨h, hc⟩ | ⟨k, hk, hmm⟩)
      · exact ⟨h, by omega⟩
      obtain ⟨h, hc⟩ := ((hb k hk).mem_iff A B).mp hmm
      have hk2 := mem_bushySizes.mp hk
      exact ⟨h, by omega⟩
    · rintro ⟨h, hsu⟩
      have hA := card_pos.mpr h.connected1.nonempty
      have hB := card_pos.mpr h.connected2.nonempty
      -- the smaller of the two sizes decides which loop makes the pair
      by_cases hsm : min A.card B.card = 1
      · exact inl ⟨h, by omega⟩
      have hk : min A.card B.card ∈ bushySizes m := mem_bushySizes.mpr (by omega)
      exact inr ⟨_, hk, ((hb _ hk).mem_iff A B).mpr ⟨h, by omega⟩⟩

theorem connected_iff_joined (K : Finset Nat) :
    (∃ pair ∈ levelPairs root s.joinRelLevel m, K = relKey pair.1 ∪ relKey pair.2) ↔
      K ⊆ rs.toFinset ∧ K.card = m ∧ ConnectedOn (clauseGraph cs root.eqClasses) K := by
  obtain ⟨-, hmm⟩ := levelPairs_exact hroot hconn hs hm hn
  constructor
  · rintro ⟨pair, hpr, rfl⟩
    obtain ⟨h, hsm⟩ := (hmm _ _).mp (mem_map_of_mem (f := pairKey relKey) hpr)
    exact ⟨union_subset h.subset1 h.subset2,
      (card_union_of_disjoint h.disjoint).trans hsm,
      connectedOn_union h.connected1 h.connected2 h.linked⟩
  rintro ⟨hsb, hc, hK⟩
  -- a vertex whose removal keeps the set connected gives one way to build it
  obtain ⟨x, hx, hr, hl⟩ := hK.exists_erase (by omega)
  have hu : K.erase x ∪ {x} = K := by rw [union_comm, ← Finset.insert_eq, Finset.insert_erase hx]
  have hpr : JoinablePair (clauseGraph cs root.eqClasses) rs.toFinset
      (K.erase x) {x} :=
    ⟨(Finset.erase_subset x K).trans hsb, singleton_subset_iff.mpr (hsb hx),
      Finset.disjoint_singleton_right.mpr (Finset.notMem_erase x K), hr,
      connectedOn_singleton x, hl⟩
  have hsm : (K.erase x).card + ({x} : Finset Nat).card = m := by
    rw [Finset.card_erase_of_mem hx, card_singleton]
    omega
  obtain ⟨pair, hp, heq⟩ := mem_map.mp ((hmm _ _).mpr ⟨hpr, hsm⟩)
  refine ⟨pair, hp, ?_⟩
  obtain ⟨h1, h2⟩ | ⟨h1, h2⟩ := Sym2.eq_iff.mp heq
  · rw [h1, h2, hu]
  · rw [h1, h2, union_comm, hu]

/-- **One level of a connected query.** -/
theorem joinSearchOneLevel_exact :
    ∃ s', joinSearchOneLevel root s m = .ok s' ∧ ExactOk root rs cs s' m := by
  have hb := makePairs_ok hroot hm hs.ok.next rfl (levelPairs_ok hs.ok hm)
  obtain ⟨hnd, hmm⟩ := levelPairs_exact hroot hconn hs hm hn
  have hf := hs.ok.fresh m (by omega)
  have hlv : ExactLevel (clauseGraph cs root.eqClasses) rs.toFinset
      ((makePairs root { s with joinCurLevel := m }
        (levelPairs root s.joinRelLevel m)).joinRelLevel m) m := by
    intro K
    rw [hb.keys K, ← connected_iff_joined hroot hconn hs hm hn K]
    simp only [hf, map_nil, not_mem_nil, false_or]
  have hne : (makePairs root { s with joinCurLevel := m }
      (levelPairs root s.joinRelLevel m)).joinRelLevel m ≠ [] := by
    -- some relation of the level below is linked to a base relation outside
    obtain ⟨rel, hr⟩ := exists_mem_of_ne_nil _ hs.nonempty
    obtain ⟨⟨x, hx, y, hy, ha⟩, -⟩ :=
      hasJoinClause_of_connected hroot hconn hs hn (by omega) le_rfl hr
    obtain ⟨hyV, hyr⟩ := Finset.mem_sdiff.mp hy
    obtain ⟨hsb, hc, hrl⟩ := (hs.exact (m - 1) (by omega) le_rfl _).mp (mem_map_of_mem hr)
    have hin := (hlv (relKey rel ∪ {y})).mpr
      ⟨union_subset hsb (singleton_subset_iff.mpr hyV), by
        rw [card_union_of_disjoint (Finset.disjoint_singleton_right.mpr hyr), hc, card_singleton]
        omega,
      connectedOn_union hrl (connectedOn_singleton y) ⟨x, hx, y, Finset.mem_singleton_self y, ha⟩⟩
    intro hnl
    rw [hnl] at hin
    simp at hin
  refine ⟨_, ?_, hb.ok, ?_, hne, ?_, ?_⟩
  · rw [joinSearchOneLevel_eq]
    rw [if_neg (by simp [List.isEmpty_iff, hne])]
  · intro l hl hlm
    by_cases heq : l = m
    · rw [heq]
      exact hlv
    rw [hb.others l heq]
    exact hs.exact l hl (by omega)
  · rw [hb.calls, map_append]
    refine List.Nodup.append hs.nodup hnd ?_
    intro q hq hq'
    induction q with
    | h A B =>
      have h1 := ((hs.mem_calls A B).mp hq).2
      have h2 := ((hmm A B).mp hq').2
      omega
  intro A B
  rw [hb.calls, map_append, mem_append, hmm]
  refine (or_congr_left (hs.mem_calls A B)).trans ?_
  rw [← and_or_left]
  exact and_congr_right fun _ => by omega

end

theorem startSearch_exact (hplain : PlainQuery root rs cs) (hne : rs ≠ []) :
    ExactOk root rs cs (startSearch root) 1 where
  ok := startSearch_ok hplain
  exact l hl hl1 := by
    obtain rfl : l = 1 := by omega
    intro K
    have hs : (startSearch root).joinRelLevel 1 = root.initialRels := rfl
    rw [hs, hplain.initial, map_map]
    constructor
    · intro h
      obtain ⟨x, hx, rfl⟩ := mem_map.mp h
      rw [comp_apply, relKey_baseRel]
      exact ⟨singleton_subset_iff.mpr (List.mem_toFinset.mpr hx), card_singleton x,
        connectedOn_singleton x⟩
    · rintro ⟨hsb, hc, -⟩
      obtain ⟨x, rfl⟩ := Finset.card_eq_one.mp hc
      refine mem_map.mpr ⟨x, List.mem_toFinset.mp (hsb (Finset.mem_singleton_self x)), ?_⟩
      rw [comp_apply, relKey_baseRel]
  nonempty := by
    have hs : (startSearch root).joinRelLevel 1 = root.initialRels := rfl
    rw [hs, hplain.initial]
    simpa using hne
  nodup := nodup_nil
  mem_calls A B := by
    simp only [startSearch, map_nil, not_mem_nil, false_iff, not_and, not_le]
    intro h
    have hA := card_pos.mpr h.connected1.nonempty
    have hB := card_pos.mpr h.connected2.nonempty
    omega

theorem standardJoinSearch_of_run {s : SearchState}
    (hplain : PlainQuery root rs cs) {n : Nat} (hn : rs.length = n + 1)
    (hr : (List.range' 2 n).foldlM (joinSearchOneLevel root) (startSearch root) = .ok s)
    (hne : s.joinRelLevel (n + 1) ≠ []) : ∃ rel, standardJoinSearch root = .ok (s, rel) := by
  have hln : root.initialRels.length = n + 1 := by rw [hplain.initial, length_map, hn]
  obtain ⟨rel, rels, hls⟩ := exists_cons_of_ne_nil hne
  refine ⟨rel, ?_⟩
  have hl : n + 1 - 1 = n := by omega
  rw [standardJoinSearch]
  simp only [hln, hl, hr, bind, Except.bind, hls]

/-- **Join enumeration.**  If the clauses connect the query, the search calls
`make_join_rel` for every pair of disjoint, connected, linked relation sets, in
one order and once, and for no other pair.  Whatever the clauses, it does not
fail. -/
theorem search_complete (root : SearchRoot) (relations : List Nat) (clauses : List RestrictInfo)
    (hroot : PlainQuery root relations clauses) (hn : 2 ≤ relations.length) :
    (ConnectedOn (clauseGraph clauses root.eqClasses) relations.toFinset →
      ∃ s rel, standardJoinSearch root = .ok (s, rel) ∧
        (s.calls.map (pairKey relKey)).Nodup ∧
        ∀ A B, s(A, B) ∈ s.calls.map (pairKey relKey) ↔
          JoinablePair (clauseGraph clauses root.eqClasses) relations.toFinset A B) ∧
    ∃ s rel, standardJoinSearch root = .ok (s, rel) := by
  obtain ⟨n, hl⟩ : ∃ n, relations.length = n + 1 := ⟨relations.length - 1, by omega⟩
  have hne : relations ≠ [] := by
    rintro rfl
    simp at hn
  constructor
  · intro hconn
    obtain ⟨s, hr, hs⟩ := search_induction
      (ExactOk root relations clauses) (startSearch_exact hroot hne)
      (fun s m hm hmn hs => joinSearchOneLevel_exact hroot hconn hs hm hmn) n (by omega)
    obtain ⟨rel, hrl⟩ := standardJoinSearch_of_run hroot hl hr hs.nonempty
    refine ⟨s, rel, hrl, hs.nodup, fun A B => (hs.mem_calls A B).trans (and_iff_left_of_imp ?_)⟩
    intro h
    -- two disjoint sets have no more members than the query
    rw [← card_union_of_disjoint h.disjoint, ← hl, ← toFinset_card_of_nodup hroot.nodup]
    exact card_le_card (union_subset h.subset1 h.subset2)
  · obtain ⟨s, hr, -, hs⟩ := search_induction
      (fun s m => SearchOk root relations clauses s m ∧ s.joinRelLevel m ≠ [])
      ⟨startSearch_ok hroot, (startSearch_exact hroot hne).nonempty⟩
      (fun s m hm hmn hs => joinSearchOneLevel_ok hroot hs.1 hm hmn hs.2) n (by omega)
    obtain ⟨rel, hrl⟩ := standardJoinSearch_of_run hroot hl hr hs
    exact ⟨s, rel, hrl⟩

end Plain

/-- Three relations, joined by `1 = 2` and `2 = 3`. -/
def chainClauses : List RestrictInfo :=
  [⟨1, bmsUnion (bmsMakeSingleton 1) (bmsMakeSingleton 2)⟩,
    ⟨2, bmsUnion (bmsMakeSingleton 2) (bmsMakeSingleton 3)⟩]

def chainRoot : SearchRoot where
  initialRels := [1, 2, 3].map (baseRel chainClauses [])
  eqClasses := []
  joinInfoList := []
  hasLateralRTEs := false
  placeholderList := []
  createUniquePath _ _ := false

theorem chain_connected : ConnectedOn (clauseGraph chainClauses []) {1, 2, 3} := by
  have h12 : ConnectedOn (clauseGraph chainClauses []) ({1} ∪ {2}) :=
    connectedOn_union (connectedOn_singleton 1) (connectedOn_singleton 2)
      ⟨1, by decide, 2, by decide, by decide, inl ⟨_, mem_cons_self, by simp, by simp⟩⟩
  exact connectedOn_union h12 (connectedOn_singleton 3)
    ⟨2, by decide, 3, by decide, by decide, inl ⟨_, mem_cons_of_mem _ mem_cons_self,
      by simp, by simp⟩⟩

theorem search_complete_chain :
    ∃ s rel, standardJoinSearch chainRoot = .ok (s, rel) ∧
      (s.calls.map (pairKey relKey)).Nodup ∧
      ∀ A B, s(A, B) ∈ s.calls.map (pairKey relKey) ↔
        JoinablePair (clauseGraph chainClauses []) {1, 2, 3} A B :=
  (search_complete chainRoot [1, 2, 3] chainClauses ⟨rfl, rfl, rfl, rfl, by decide⟩
    (by decide)).1 chain_connected

end AthenaPG
