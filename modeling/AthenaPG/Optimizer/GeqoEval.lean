import Mathlib.Data.List.Sort
import Mathlib.Data.List.Flatten
import Mathlib.Data.List.Induction

/-!
The join tree of a tour (`src/backend/optimizer/geqo/geqo_eval.c`).

Whether two relations are joined is decided by a planner that may answer each call of
`make_join_rel` as it likes, whatever it was asked before.

* `mergeClump`, `gimmeTree`: the clumps of joined relations, and the tree;
* `gimmeTree_partitions`: the clumps partition the relations of the tour.
-/

namespace AthenaPG.Geqo
open List

/-- A relation: an initial one, by its number, or a join. -/
inductive RelOptInfo
  | initial (index : Nat)
  | join (outer inner : RelOptInfo)
deriving DecidableEq

/-- The initial relations that are joined. -/
def RelOptInfo.rels : RelOptInfo → List Nat
  | .initial index => [index]
  | .join outer inner => outer.rels ++ inner.rels

structure Clump where
  joinrel : RelOptInfo
  size : Nat

/-- A call of `make_join_rel`, and whether it made a relation. -/
structure JoinCall where
  force : Bool
  outer : RelOptInfo
  inner : RelOptInfo
  joined : Bool

structure Planner where
  desirableJoin : List JoinCall → RelOptInfo → RelOptInfo → Bool
  makeJoinRel : List JoinCall → RelOptInfo → RelOptInfo → Bool

variable (planner : Planner) (force : Bool)

/-- The loop of `merge_clump`: the first clump that the new one can be joined to absorbs it and
leaves the list. -/
def absorb (new : Clump) : List Clump → List JoinCall → Option (Clump × List Clump) × List JoinCall
  | [], calls => (none, calls)
  | old :: rest, calls =>
    let next calls := (absorb new rest calls).map (Option.map (Prod.map id (old :: ·))) id
    if force || planner.desirableJoin calls old.joinrel new.joinrel then
      let joined := planner.makeJoinRel calls old.joinrel new.joinrel
      let calls := ⟨force, old.joinrel, new.joinrel, joined⟩ :: calls
      if joined then
        (some (⟨.join old.joinrel new.joinrel, old.size + new.size⟩, rest), calls)
      else next calls
    else next calls

/-- What the loop leaves: a clump that has absorbed the new one, or, if joins are forced, a
refusal by each clump. -/
def AbsorbOk (new : Clump) (clumps : List Clump) (calls : List JoinCall)
    (result : Option (Clump × List Clump) × List JoinCall) : Prop :=
  calls ⊆ result.2 ∧ match result.1 with
    | some (c, rest) => rest.Sublist clumps ∧ ∃ old, clumps.Perm (old :: rest) ∧
        c = ⟨.join old.joinrel new.joinrel, old.size + new.size⟩
    | none => force = true → ∀ old ∈ clumps, ⟨true, old.joinrel, new.joinrel, false⟩ ∈ result.2

variable {planner force} {new c : Clump} {clumps rest : List Clump} {calls calls' : List JoinCall}
  {rels : List Nat}

theorem absorb_ok (new : Clump) (clumps : List Clump) (calls : List JoinCall) :
    AbsorbOk force new clumps calls (absorb planner force new clumps calls) := by
  induction clumps generalizing calls with
  | nil => exact ⟨Subset.refl _, by simp [absorb]⟩
  | cons old rest ih =>
    -- the rest of the list, when this clump does not absorb the new one
    have hn {calls'} (hs : calls ⊆ calls')
        (hr : force = true → ⟨true, old.joinrel, new.joinrel, false⟩ ∈ calls') :
        AbsorbOk force new (old :: rest) calls ((absorb planner force new rest calls').map
          (Option.map (Prod.map id (old :: ·))) id) := by
      obtain ⟨hs', h⟩ := ih calls'
      refine ⟨Subset.trans hs hs', ?_⟩
      rcases ha : absorb planner force new rest calls' with ⟨_ | found, calls''⟩
      · rw [ha] at h hs'
        exact fun hf => forall_mem_cons.mpr ⟨hs' (hr hf), h hf⟩
      rw [ha] at h
      obtain ⟨hl, o, hp, hc⟩ := h
      exact ⟨hl.cons_cons old, o, (hp.cons old).trans (.swap o old _), hc⟩
    unfold absorb
    dsimp only
    split_ifs with hd hj
    · exact ⟨subset_cons_self _ _, sublist_cons_self _ _, old, .refl _, rfl⟩
    · exact hn (subset_cons_self _ _) fun hf => by simp [hf, hj]
    · exact hn (Subset.refl _) fun hf => absurd (by rw [hf]; rfl) hd

theorem absorb_length (h : absorb planner force new clumps calls = (some (c, rest), calls')) :
    rest.length < clumps.length := by
  obtain ⟨-, ha⟩ := @absorb_ok planner force new clumps calls
  rw [h] at ha
  obtain ⟨-, old, hp, -⟩ := ha
  rw [hp.length_eq]
  exact Nat.lt_succ_self _

variable (planner force)

def mergeClump (clumps : List Clump) (new : Clump) (calls : List JoinCall) :
    List Clump × List JoinCall :=
  match _h : absorb planner force new clumps calls with
  | (some (old, rest), calls) => mergeClump rest old calls
  | (none, calls) =>
    (if clumps.isEmpty || new.size == 1 then clumps ++ [new]
      else clumps.orderedInsert (fun new old => new.size > old.size) new, calls)
termination_by clumps.length
decreasing_by exact absorb_length _h

/-- The loops of `gimme_tree`: clumps are merged one after the other. -/
def mergeClumps (clumps : List Clump) (calls : List JoinCall) : List Clump × List JoinCall :=
  clumps.foldl (fun state clump => mergeClump planner force state.1 clump state.2) ([], calls)

/-- The clumps after the tour is scanned. -/
def tourClumps (tour : List Nat) : List Clump × List JoinCall :=
  mergeClumps planner false (tour.map fun index => ⟨.initial index, 1⟩) []

/-- The clumps after the forced joins of the first `k` of them. -/
def forcedClumps (tour : List Nat) (k : Nat) : List Clump × List JoinCall :=
  mergeClumps planner true ((tourClumps planner tour).1.take k) (tourClumps planner tour).2

/-- The clumps that remain. -/
def remainingClumps (tour : List Nat) : List Clump × List JoinCall :=
  let state := tourClumps planner tour
  if state.1.length > 1 then mergeClumps planner true state.1 state.2 else state

def gimmeTree (tour : List Nat) : Option RelOptInfo := match (remainingClumps planner tour).1 with
  | [clump] => some clump.joinrel
  | _ => none

/-! ## The clumps -/

variable {planner force}

/-- The initial relations of a list of clumps. -/
def relsOf (clumps : List Clump) : List Nat := clumps.flatMap fun c => c.joinrel.rels

/-- A forced join of the two clumps was refused. -/
def Refused (calls : List JoinCall) (a b : Clump) : Prop :=
  ⟨true, a.joinrel, b.joinrel, false⟩ ∈ calls ∨ ⟨true, b.joinrel, a.joinrel, false⟩ ∈ calls

variable (force) in
structure ClumpsInv (state : List Clump × List JoinCall) (rels : List Nat) : Prop where
  rels : (relsOf state.1).Perm rels
  size : ∀ c ∈ state.1, c.size = c.joinrel.rels.length
  sorted : state.1.Pairwise fun a b => b.size ≤ a.size
  refused : force = true → state.1.Pairwise (Refused state.2)

theorem rels_length_pos (rel : RelOptInfo) : 0 < rel.rels.length := by
  induction rel with
  | initial index => exact Nat.one_pos
  | join outer inner ih =>
    rw [RelOptInfo.rels, length_append]
    omega

theorem orderedInsert_sorted (h : clumps.Pairwise fun a b => b.size ≤ a.size) :
    (clumps.orderedInsert (fun new old => new.size > old.size) new).Pairwise
      fun a b => b.size ≤ a.size := by
  induction clumps with
  | nil => exact pairwise_singleton _ _
  | cons old rest ih =>
    obtain ⟨ho, hr⟩ := pairwise_cons.mp h
    rw [orderedInsert_cons]
    split
    next hlt =>
      refine pairwise_cons.mpr ⟨fun c hc => ?_, h⟩
      obtain rfl | hc := mem_cons.mp hc
      · exact hlt.le
      · exact (ho c hc).trans hlt.le
    next hge =>
      refine pairwise_cons.mpr ⟨fun c hc => ?_, ih hr⟩
      obtain rfl | hc := (mem_orderedInsert _).mp hc
      · exact not_lt.mp hge
      · exact ho c hc

theorem mergeClump_inv (h : ClumpsInv force (clumps, calls) rels)
    (hn : new.size = new.joinrel.rels.length) :
    ClumpsInv force (mergeClump planner force clumps new calls) (rels ++ new.joinrel.rels) := by
  fun_induction mergeClump planner force clumps new calls generalizing rels with
  | case1 clumps new calls c rest calls' heq ih =>
    obtain ⟨hs, ha⟩ := @absorb_ok planner force new clumps calls
    rw [heq] at hs ha
    obtain ⟨hsb, old, hp, rfl⟩ := ha
    have hz := h.size old (hp.symm.subset mem_cons_self)
    have hr : ClumpsInv force (rest, calls') (relsOf rest) :=
      ⟨.refl _, fun c hc => h.size c (hsb.subset hc), h.sorted.sublist hsb,
        fun hf => ((h.refused hf).sublist hsb).imp (Or.imp (hs ·) (hs ·))⟩
    have hi := ih hr (by rw [RelOptInfo.rels, length_append, hz, hn])
    refine { hi with rels := hi.rels.trans ?_ }
    have hq : (old.joinrel.rels ++ relsOf rest).Perm rels := (hp.symm.flatMap_right _).trans h.rels
    rw [RelOptInfo.rels, ← append_assoc]
    exact (perm_append_comm.trans hq).append_right _
  | case2 clumps new calls calls' heq =>
    obtain ⟨hs, ha⟩ := @absorb_ok planner force new clumps calls
    rw [heq] at hs ha
    have hi : ∀ l : List Clump, l.Perm (new :: clumps) →
        (l.Pairwise fun a b => b.size ≤ a.size) →
        ClumpsInv force (l, calls') (rels ++ new.joinrel.rels) := by
      intro l hp hso
      refine ⟨?_, fun c hc => ?_, hso, fun hf => ?_⟩
      · exact (hp.flatMap_right _).trans (perm_append_comm.trans (h.rels.append_right _))
      · obtain rfl | hc := mem_cons.mp (hp.subset hc)
        · exact hn
        · exact h.size c hc
      rw [hp.pairwise_iff fun h => h.symm, pairwise_cons]
      exact ⟨fun old ho => .inr (ha hf old ho), (h.refused hf).imp (Or.imp (hs ·) (hs ·))⟩
    split
    next hc =>
      refine hi _ perm_append_comm (pairwise_append.mpr ⟨h.sorted, pairwise_singleton _ _, ?_⟩)
      intro old ho c hm
      obtain rfl := mem_singleton.mp hm
      have hp := rels_length_pos old.joinrel
      rw [← h.size old ho] at hp
      obtain rfl | hc : clumps = [] ∨ c.size = 1 := by simpa using hc
      · cases ho
      · omega
    · exact hi _ (perm_orderedInsert _ new clumps) (orderedInsert_sorted h.sorted)

theorem mergeClumps_inv (hs : ∀ c ∈ clumps, c.size = c.joinrel.rels.length) :
    ClumpsInv force (mergeClumps planner force clumps calls) (relsOf clumps) := by
  induction clumps using reverseRecOn with
  | nil => exact ⟨.nil, by simp [mergeClumps], .nil, fun _ => .nil⟩
  | append_singleton clumps c ih =>
    obtain ⟨hs, hc⟩ := forall_mem_append.mp hs
    rw [mergeClumps, foldl_concat, relsOf, flatMap_append, flatMap_singleton]
    exact mergeClump_inv (ih hs) (hc c mem_cons_self)

/-- The clumps are disjoint and hold the relations `rels`, each its number of them, the larger
clumps first. -/
structure Partitions (clumps : List Clump) (rels : List Nat) : Prop where
  disjoint : clumps.Pairwise fun a b => a.joinrel.rels.Disjoint b.joinrel.rels
  covers : ∀ i, (∃ c ∈ clumps, i ∈ c.joinrel.rels) ↔ i ∈ rels
  size : ∀ c ∈ clumps, c.joinrel.rels.Nodup ∧ c.size = c.joinrel.rels.length
  sorted : clumps.Pairwise fun a b => b.size ≤ a.size

theorem ClumpsInv.partitions {state : List Clump × List JoinCall} (h : ClumpsInv force state rels)
    (hn : rels.Nodup) : Partitions state.1 rels := by
  obtain ⟨h1, h2⟩ := nodup_flatMap.mp (h.rels.nodup_iff.mpr hn)
  exact ⟨h2, fun i => by rw [← h.rels.mem_iff, relsOf, mem_flatMap],
    fun c hc => ⟨h1 c hc, h.size c hc⟩, h.sorted⟩

variable (planner) (tour : List Nat)

theorem tourClumps_inv : ClumpsInv false (tourClumps planner tour) tour := by
  have := @mergeClumps_inv planner false (tour.map fun index => ⟨.initial index, 1⟩) []
    (by simp [RelOptInfo.rels])
  unfold tourClumps
  simpa [relsOf, flatMap_map, RelOptInfo.rels] using this

theorem forcedClumps_inv (k : Nat) :
    ClumpsInv true (forcedClumps planner tour k) (relsOf ((tourClumps planner tour).1.take k)) :=
  mergeClumps_inv fun c hc => (tourClumps_inv planner tour).size c (mem_of_mem_take hc)

theorem remainingClumps_inv :
    (relsOf (remainingClumps planner tour).1).Perm tour ∧
      ((remainingClumps planner tour).1.length ≤ 1 ∨
        (remainingClumps planner tour).1.Pairwise (Refused (remainingClumps planner tour).2)) := by
  have ht := tourClumps_inv planner tour
  unfold remainingClumps
  dsimp only
  split
  · have hf := @mergeClumps_inv planner true _ (tourClumps planner tour).2 ht.size
    exact ⟨hf.rels.trans ht.rels, .inr (hf.refused rfl)⟩
  · exact ⟨ht.rels, .inl (by omega)⟩

/-- **The clumps of `gimme_tree` partition the relations of the tour** after each relation, and in
the second pass after each clump.  A tree joins each relation once, and if there is none then two
clumps or more remain, and a forced join was refused for any two of them. -/
theorem gimmeTree_partitions {tour : List Nat} (hperm : tour.Nodup) :
    (∀ k, Partitions (tourClumps planner (tour.take k)).1 (tour.take k)) ∧
    (∀ k, Partitions (forcedClumps planner tour k).1
      (relsOf ((tourClumps planner tour).1.take k))) ∧
    (∀ rel, gimmeTree planner tour = some rel → rel.rels.Perm tour) ∧
    (gimmeTree planner tour = none → tour ≠ [] → 2 ≤ (remainingClumps planner tour).1.length ∧
      (remainingClumps planner tour).1.Pairwise (Refused (remainingClumps planner tour).2)) := by
  have ht := tourClumps_inv planner tour
  have hr := remainingClumps_inv planner tour
  refine ⟨fun k => (tourClumps_inv planner _).partitions (hperm.sublist (take_sublist k tour)),
    fun k => (forcedClumps_inv planner tour k).partitions ?_, fun rel h => ?_, fun h hne => ?_⟩
  · refine (ht.rels.nodup_iff.mpr hperm).sublist ?_
    exact (take_sublist k _).flatMap _
  · unfold gimmeTree at h
    split at h
    next c heq =>
      cases h
      rw [heq, relsOf, flatMap_singleton] at hr
      exact hr.1
    · cases h
  have hl : 2 ≤ (remainingClumps planner tour).1.length := by
    unfold gimmeTree at h
    rcases heq : (remainingClumps planner tour).1 with _ | ⟨a, _ | ⟨b, rest⟩⟩
    · rw [heq] at hr
      exact absurd hr.1.nil_eq.symm hne
    · rw [heq] at h
      cases h
    simp
  exact ⟨hl, hr.2.resolve_left (by omega)⟩

/-- The tour that takes relation 2 first, where every join is made. -/
theorem gimmeTree_partitions_three : [2, 3, 1].Nodup ∧
    gimmeTree ⟨fun _ _ _ => true, fun _ _ _ => true⟩ [2, 3, 1] =
      some (.join (.join (.initial 2) (.initial 3)) (.initial 1)) ∧
    (RelOptInfo.join (.join (.initial 2) (.initial 3)) (.initial 1)).rels.Perm [2, 3, 1] := by
  have htree : gimmeTree ⟨fun _ _ _ => true, fun _ _ _ => true⟩ [2, 3, 1] =
      some (.join (.join (.initial 2) (.initial 3)) (.initial 1)) := by decide +kernel
  exact ⟨by decide, htree, (gimmeTree_partitions _ (by decide)).2.2.1 _ htree⟩

end AthenaPG.Geqo
