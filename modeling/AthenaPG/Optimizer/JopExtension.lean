import AthenaPG.Optimizer.PathTree
import Mathlib.Tactic

/-!
Exporting join orders (`src/backend/optimizer/jop/jop_extension.c`).

`catch_join_order` writes the join order of a path with a growing string
buffer; `save_join_order_plans` writes one line per candidate.  Node types the
switch does not see through end in a warning and an empty string, and types it
does not name at all in an `ERROR`, which aborts planning.

* `catchJoinOrder_eq`: on a tree whose visited nodes are all named, the result is
  the rendered join order.
* `catchJoinOrder_lists_reached`: that order lists every base relation reached
  through joins and pass-through nodes exactly once, and each gap is one warning.
* `catchJoinOrder_faithful`: the text determines the joins of the path.
* `saveJoinOrderPlans_upto`: the export of a candidate list, one line each.
-/

namespace AthenaPG

open List PathTree

/-! ## `string_builder` -/

/-- `string_builder`: `data` holds the bytes before the terminating NUL, for which
the buffer of `cap` bytes always has room. -/
structure StringBuilder where
  data : List Char
  cap : Nat
  hasRoom : data.length + 1 ≤ cap

open StringBuilder

namespace StringBuilder

/-- `string_builder_init`. -/
def init : StringBuilder := ⟨[], 10, by simp⟩

/-- The loop `while (new_cap < new_len + 1) new_cap *= 2`. -/
def grow (cap need : Nat) : Nat := if 0 < cap ∧ cap < need then grow (cap * 2) need else cap
termination_by need - cap
decreasing_by omega

theorem le_grow (cap need : Nat) (hp : 0 < cap) : need ≤ grow cap need := by
  induction cap using grow.induct need with
  | case1 cap h ih =>
    rw [grow, if_pos h]
    exact ih (by omega)
  | case2 cap h =>
    rw [grow, if_neg h]
    omega

/-- `string_builder_append`. -/
def append (self : StringBuilder) (text : List Char) : StringBuilder where
  data := self.data ++ text
  cap := grow self.cap ((self.data ++ text).length + 1)
  hasRoom := le_grow _ _ (by have := self.hasRoom; omega)

@[simp] theorem init_data : init.data = [] := rfl

@[simp] theorem append_data (self : StringBuilder) (text : List Char) :
    (self.append text).data = self.data ++ text := rfl

end StringBuilder

/-! ## `catch_join_order` -/

/-- What an export leaves behind: the warnings logged and the text of the file. -/
structure ExportState where
  log : List NodeTag
  file : List Char
  deriving DecidableEq

/-- An `ERROR` ends the computation and keeps what has been logged and written.
Both levels print `unrecognized node type` and the tag. -/
abbrev ElogM := ExceptT NodeTag (StateM ExportState)

variable (tag : NodeTag)

def elogWarning : ElogM Unit := modify fun s => { s with log := s.log ++ [tag] }

def elogError {α : Type} : ElogM α := throw tag

def fprintf (text : List Char) : ElogM Unit := modify fun s => { s with file := s.file ++ text }

variable (aliasname : Nat → List Char)

/-- The cases of one base relation: `aliasname` is
`rt_fetch(relid, root->parse->rtable)->eref->aliasname`. -/
def catchScan (relid : Nat) : List Char := (init.append (aliasname relid)).data

def catchJoin (outer inner : List Char) : List Char :=
  (((((init.append ['(']).append outer).append [' ']).append inner).append [')']).data

def catchSubpath (outer : List Char) : List Char := (init.append outer).data

def catchWarning : ElogM (List Char) := do
  elogWarning tag
  return init.data

def catchJoinOrder (aliasname : Nat → List Char) : PathTree → ElogM (List Char)
  | .scan .seqScan relid => return catchScan aliasname relid
  | .scan .indexScan relid => return catchScan aliasname relid
  | .scan .indexOnlyScan relid => return catchScan aliasname relid
  | .scan .bitmapHeapScan relid => return catchScan aliasname relid
  | .join _ outer inner => do
    let inner ← catchJoinOrder aliasname inner
    let outer ← catchJoinOrder aliasname outer
    return catchJoin outer inner
  | .unary .material subpath => return catchSubpath (← catchJoinOrder aliasname subpath)
  | .unary .sort subpath => return catchSubpath (← catchJoinOrder aliasname subpath)
  | .unary .groupingSets subpath => return catchSubpath (← catchJoinOrder aliasname subpath)
  | .unary .agg subpath => return catchSubpath (← catchJoinOrder aliasname subpath)
  | .unary .gather subpath => return catchSubpath (← catchJoinOrder aliasname subpath)
  | .unary .gatherMerge subpath => return catchSubpath (← catchJoinOrder aliasname subpath)
  | .unary .memoize subpath => return catchSubpath (← catchJoinOrder aliasname subpath)
  | .unary .projection subpath => return catchSubpath (← catchJoinOrder aliasname subpath)
  -- a `T_Result` that is no `ProjectionPath` falls through to the warnings
  | path@(.result _) => catchWarning path.nodeTag
  | path@.groupResult => catchWarning path.nodeTag
  | path@(.minMaxAgg _) => catchWarning path.nodeTag
  | path@(.scan .sampleScan _) => catchWarning path.nodeTag
  | path@(.scan .tidScan _) => catchWarning path.nodeTag
  | path@(.scan .subqueryScan _) => catchWarning path.nodeTag
  | path@(.scan .functionScan _) => catchWarning path.nodeTag
  | path@(.scan .tableFuncScan _) => catchWarning path.nodeTag
  | path@(.scan .valuesScan _) => catchWarning path.nodeTag
  | path@(.scan .cteScan _) => catchWarning path.nodeTag
  | path@(.scan .workTableScan _) => catchWarning path.nodeTag
  | path@(.scan .namedTuplestoreScan _) => catchWarning path.nodeTag
  | path@(.foreignScan _) => catchWarning path.nodeTag
  | path@(.customScan _) => catchWarning path.nodeTag
  | path@(.append _) => catchWarning path.nodeTag
  | path@(.mergeAppend _) => catchWarning path.nodeTag
  | path@(.unary .projectSet _) => catchWarning path.nodeTag
  | path@(.unary .unique _) => catchWarning path.nodeTag
  | path@(.unary .upperUnique _) => catchWarning path.nodeTag
  | path@(.unary .group _) => catchWarning path.nodeTag
  | path@(.unary .windowAgg _) => catchWarning path.nodeTag
  | path@(.recursiveUnion _ _) => catchWarning path.nodeTag
  | path@(.unary .lockRows _) => catchWarning path.nodeTag
  | path@(.unary .modifyTable _) => catchWarning path.nodeTag
  -- `default`
  | path@(.scan .tidRangeScan _) => elogError path.nodeTag
  | path@(.unary .incrementalSort _) => elogError path.nodeTag
  | path@(.unary .setOp _) => elogError path.nodeTag
  | path@(.unary .limit _) => elogError path.nodeTag

/-- The body of the loop of `save_join_order_plans`. -/
def saveJoinOrderPlan (path : PathTree) : ElogM Unit := do
  let joinOrder ← catchJoinOrder aliasname path
  fprintf (joinOrder ++ ['\n'])

/-- `save_join_order_plans`; `fopen` with mode `w` empties the file. -/
def saveJoinOrderPlans (pathlist : List PathTree) : ElogM Unit := do
  modify fun s => { s with file := [] }
  forM pathlist (saveJoinOrderPlan aliasname)

/-! ## Join orders -/

/-- What is to be exported: how the base relations are joined.  `missing` is an
input that is not a tree of joins over plain scans. -/
inductive JoinOrder
  | rel (relid : Nat)
  | join (outer inner : JoinOrder)
  | missing
  deriving DecidableEq, Repr

open JoinOrder

namespace JoinOrder

def render (aliasname : Nat → List Char) : JoinOrder → List Char
  | .rel relid => aliasname relid
  | .join outer inner =>
    ['('] ++ render aliasname outer ++ [' '] ++ render aliasname inner ++ [')']
  | .missing => []

def leaves : JoinOrder → List Nat
  | .rel relid => [relid]
  | .join outer inner => outer.leaves ++ inner.leaves
  | .missing => []

/-- The inputs that are missing. -/
def missingInputs : JoinOrder → Nat
  | .rel _ => 0
  | .join outer inner => outer.missingInputs + inner.missingInputs
  | .missing => 1

end JoinOrder

/-- How the exporter treats a node type: a handled scan is listed, a handled unary
node is seen through. -/
inductive Treatment
  | handled
  | skipped
  | refused
  deriving DecidableEq, Repr

def ScanType.treatment : ScanType → Treatment
  | .seqScan | .indexScan | .indexOnlyScan | .bitmapHeapScan => .handled
  | .tidRangeScan => .refused
  | _ => .skipped

def UnaryType.treatment : UnaryType → Treatment
  | .projection | .material | .memoize | .gather | .gatherMerge | .sort | .agg
  | .groupingSets => .handled
  | .incrementalSort | .setOp | .limit => .refused
  | _ => .skipped

namespace PathTree

/-- The join order of a path, as far as joins and pass-through nodes lead. -/
def joinOrder : PathTree → JoinOrder
  | .scan type relid => if type.treatment = .handled then .rel relid else .missing
  | .join _ outer inner => .join outer.joinOrder inner.joinOrder
  | .unary type subpath => if type.treatment = .handled then subpath.joinOrder else .missing
  | _ => .missing

def VisitedNamed : PathTree → Prop
  | .scan type _ => type.treatment ≠ .refused
  | .join _ outer inner => outer.VisitedNamed ∧ inner.VisitedNamed
  | .unary type subpath =>
    type.treatment ≠ .refused ∧ (type.treatment = .handled → subpath.VisitedNamed)
  | _ => True

def reachedLeaves : PathTree → List Nat
  | .scan type relid => if type.treatment = .handled then [relid] else []
  | .join _ outer inner => outer.reachedLeaves ++ inner.reachedLeaves
  | .unary type subpath => if type.treatment = .handled then subpath.reachedLeaves else []
  | _ => []

/-- A tree of joins and pass-through nodes over plain scans. -/
def AllSeen : PathTree → Prop
  | .scan type _ => type.treatment = .handled
  | .join _ outer inner => outer.AllSeen ∧ inner.AllSeen
  | .unary type subpath => type.treatment = .handled ∧ subpath.AllSeen
  | _ => False

/-- The warnings, in the order they are logged: inner input first. -/
def warnings : PathTree → List NodeTag
  | path@(.scan type _) => if type.treatment = .skipped then [path.nodeTag] else []
  | .join _ outer inner => inner.warnings ++ outer.warnings
  | path@(.unary type subpath) =>
    if type.treatment = .handled then subpath.warnings
    else if type.treatment = .skipped then [path.nodeTag] else []
  | path => [path.nodeTag]

end PathTree

/-! ## What is exported -/

def ElogM.exec {α : Type} (x : ElogM α) (s : ExportState) : Except NodeTag α × ExportState :=
  (ExceptT.run x).run s

namespace ElogM

variable {α β : Type} {x : ElogM α} {f : α → ElogM β} {s s' : ExportState}

@[simp] theorem exec_pure (a : α) : (pure a : ElogM α).exec s = (.ok a, s) := rfl

@[simp] theorem exec_elogError : (elogError tag : ElogM α).exec s = (.error tag, s) := rfl

@[simp] theorem exec_elogWarning :
    (elogWarning tag).exec s = (.ok (), { s with log := s.log ++ [tag] }) := rfl

@[simp] theorem exec_fprintf (text : List Char) :
    (fprintf text).exec s = (.ok (), { s with file := s.file ++ text }) := rfl

theorem exec_bind_ok {a : α} (h : x.exec s = (.ok a, s')) : (x >>= f).exec s = (f a).exec s' := by
  unfold exec at h ⊢
  rw [ExceptT.run_bind, StateT.run_bind, h]
  rfl

theorem exec_bind_error {tag : NodeTag} (h : x.exec s = (.error tag, s')) :
    (x >>= f).exec s = (.error tag, s') := by
  unfold exec at h ⊢
  rw [ExceptT.run_bind, StateT.run_bind, h]
  rfl

end ElogM

open ElogM

section Export

variable (aliasname : Nat → List Char)

@[simp] theorem exec_catchWarning (s : ExportState) :
    (catchWarning tag).exec s = (.ok [], { s with log := s.log ++ [tag] }) := by
  rw [catchWarning, exec_bind_ok (exec_elogWarning tag), exec_pure]
  rfl

theorem catchJoinOrder_scan (type : ScanType) (relid : Nat) :
    catchJoinOrder aliasname (.scan type relid) = match type.treatment with
      | .handled => pure (aliasname relid)
      | .refused => elogError (scan type relid).nodeTag
      | _ => catchWarning (scan type relid).nodeTag := by
  cases type <;> rfl

theorem catchJoinOrder_unary (type : UnaryType) (subp : PathTree) :
    catchJoinOrder aliasname (.unary type subp) = match type.treatment with
      | .handled => catchJoinOrder aliasname subp >>= pure
      | .refused => elogError (unary type subp).nodeTag
      | _ => catchWarning (unary type subp).nodeTag := by
  cases type <;> rfl

/-- **What `catch_join_order` returns** when it meets no unnamed type: the rendered
join order, with one warning for each node that was skipped. -/
theorem catchJoinOrder_eq : ∀ (path : PathTree), path.VisitedNamed → ∀ s,
    (catchJoinOrder aliasname path).exec s =
      (.ok (path.joinOrder.render aliasname), { s with log := s.log ++ path.warnings })
  | .scan type relid, h, s => by
    rw [catchJoinOrder_scan]
    simp only [PathTree.VisitedNamed] at h
    cases ht : type.treatment <;>
      simp_all [joinOrder, warnings, render]
  | .join type outer inner, h, s => by
    have hi := catchJoinOrder_eq inner h.2 s
    have ho := catchJoinOrder_eq outer h.1 { s with log := s.log ++ inner.warnings }
    rw [catchJoinOrder, exec_bind_ok hi, exec_bind_ok ho, exec_pure]
    simp [catchJoin, joinOrder, warnings, render]
  | .unary type subpath, h, s => by
    rw [catchJoinOrder_unary]
    obtain ⟨hn, hs⟩ := h
    cases ht : type.treatment with
    | handled =>
      have he := catchJoinOrder_eq subpath (hs ht) s
      simp only [exec_bind_ok he, exec_pure]
      simp [joinOrder, warnings, ht]
    | refused => exact absurd ht hn
    | skipped => simp [joinOrder, warnings, render, ht]
  | .foreignScan _, _, s | .customScan _, _, s | .append _, _, s | .mergeAppend _, _, s
  | .result _, _, s | .groupResult, _, s | .minMaxAgg _, _, s | .recursiveUnion _ _, _, s => by
    simp [catchJoinOrder, joinOrder, warnings, render]

theorem catchJoinOrder_error : ∀ (path : PathTree), ¬ path.VisitedNamed → ∀ s,
    ∃ tag s', (catchJoinOrder aliasname path).exec s = (.error tag, s') ∧ s'.file = s.file
  | .scan type relid, h, s => by
    rw [catchJoinOrder_scan]
    simp only [PathTree.VisitedNamed, not_not] at h
    exact ⟨(scan type relid).nodeTag, s, by simp [h], rfl⟩
  | .join type outer inner, h, s => by
    rw [catchJoinOrder]
    by_cases hi : inner.VisitedNamed
    · have ho : ¬ outer.VisitedNamed := fun ho => h ⟨ho, hi⟩
      obtain ⟨tag, s', he, hf⟩ :=
        catchJoinOrder_error outer ho { s with log := s.log ++ inner.warnings }
      refine ⟨tag, s', ?_, hf⟩
      rw [exec_bind_ok (catchJoinOrder_eq aliasname inner hi s), exec_bind_error he]
    obtain ⟨tag, s', he, hf⟩ := catchJoinOrder_error inner hi s
    exact ⟨tag, s', exec_bind_error he, hf⟩
  | .unary type subpath, h, s => by
    rw [catchJoinOrder_unary]
    cases ht : type.treatment with
    | handled =>
      have hs : ¬ subpath.VisitedNamed := fun hs => h ⟨by simp [ht], fun _ => hs⟩
      obtain ⟨tag, s', he, hf⟩ := catchJoinOrder_error subpath hs s
      exact ⟨tag, s', exec_bind_error he, hf⟩
    | refused => exact ⟨_, s, rfl, rfl⟩
    | skipped => exact absurd ⟨by simp [ht], by simp [ht]⟩ h
  | .foreignScan _, h, s | .customScan _, h, s | .append _, h, s | .mergeAppend _, h, s
  | .result _, h, s | .groupResult, h, s | .minMaxAgg _, h, s | .recursiveUnion _ _, h, s =>
    absurd trivial h

def candidateLine (path : PathTree) : List Char := path.joinOrder.render aliasname ++ ['\n']

/-- The lines of the candidates before the first one with an unnamed type, where the export ends
with an `ERROR`. -/
def ExportedUpto (paths : List PathTree) (before : List Char)
    (outcome : Except NodeTag Unit × ExportState) : Prop :=
  ∃ done rest, paths = done ++ rest ∧ (∀ path ∈ done, path.VisitedNamed) ∧
    (∀ path ∈ rest.head?, ¬ path.VisitedNamed) ∧
    outcome.2.file = before ++ done.flatMap (candidateLine aliasname) ∧
    (outcome.1 = .ok () ↔ rest = [])

theorem saveLines_upto (paths : List PathTree) (s : ExportState) :
    ExportedUpto aliasname paths s.file
      (ElogM.exec (forM paths (saveJoinOrderPlan aliasname)) s) := by
  induction paths generalizing s with
  | nil => exact ⟨[], [], by simp⟩
  | cons path paths ih =>
    rw [List.forM_cons]
    by_cases hn : path.VisitedNamed
    · have hl : (saveJoinOrderPlan aliasname path).exec s = (.ok (),
          { log := s.log ++ path.warnings, file := s.file ++ candidateLine aliasname path }) := by
        rw [saveJoinOrderPlan, exec_bind_ok (catchJoinOrder_eq aliasname path hn s), exec_fprintf]
        rfl
      obtain ⟨done, rest, rfl, hd, hr, hf, hok⟩ := ih _
      rw [exec_bind_ok hl]
      refine ⟨path :: done, rest, rfl, forall_mem_cons.mpr ⟨hn, hd⟩, hr, ?_, hok⟩
      simpa using hf
    · obtain ⟨tag, s', he, hf⟩ := catchJoinOrder_error aliasname path hn s
      rw [saveJoinOrderPlan, exec_bind_error (exec_bind_error he)]
      exact ⟨[], path :: paths, by simp [hn, hf]⟩

/-- **The export of a candidate list** writes one line each, in place of what the file held, until a
candidate with an unnamed type aborts planning. -/
theorem saveJoinOrderPlans_upto (paths : List PathTree) (s : ExportState) :
    ExportedUpto aliasname paths [] ((saveJoinOrderPlans aliasname paths).exec s) :=
  saveLines_upto aliasname paths { s with file := [] }

end Export

/-! ## Which relations are listed -/

namespace PathTree

theorem leaves_joinOrder : ∀ path : PathTree, path.joinOrder.leaves = path.reachedLeaves
  | .scan type relid => by
    rw [joinOrder, reachedLeaves]
    split <;> rfl
  | .join _ outer inner => by
    rw [joinOrder, reachedLeaves, leaves, leaves_joinOrder outer, leaves_joinOrder inner]
  | .unary type subpath => by
    rw [joinOrder, reachedLeaves]
    split
    · exact leaves_joinOrder subpath
    · rfl
  | .foreignScan _ | .customScan _ | .append _ | .mergeAppend _ | .result _ | .groupResult
  | .minMaxAgg _ | .recursiveUnion _ _ => rfl

theorem warnings_length : ∀ path : PathTree, path.VisitedNamed →
    path.warnings.length = path.joinOrder.missingInputs
  | .scan type relid, h => by
    simp only [VisitedNamed] at h
    cases ht : type.treatment <;> simp_all [warnings, joinOrder, missingInputs]
  | .join _ outer inner, h => by
    rw [warnings, joinOrder, missingInputs, length_append, warnings_length outer h.1,
      warnings_length inner h.2, add_comm]
  | .unary type subpath, h => by
    obtain ⟨hn, hs⟩ := h
    cases ht : type.treatment with
    | handled => simpa [warnings, joinOrder, ht] using warnings_length subpath (hs ht)
    | refused => exact absurd ht hn
    | skipped => simp [warnings, joinOrder, missingInputs, ht]
  | .foreignScan _, _ | .customScan _, _ | .append _, _ | .mergeAppend _, _ | .result _, _
  | .groupResult, _ | .minMaxAgg _, _ | .recursiveUnion _ _, _ => rfl

theorem reachedLeaves_sublist : ∀ path : PathTree, path.reachedLeaves.Sublist path.baseLeaves
  | .scan type relid => by
    rw [reachedLeaves, baseLeaves]
    split <;> simp
  | .join _ outer inner => by
    rw [reachedLeaves, baseLeaves]
    exact (reachedLeaves_sublist outer).append (reachedLeaves_sublist inner)
  | .unary type subpath => by
    rw [reachedLeaves, baseLeaves]
    split
    · exact reachedLeaves_sublist subpath
    · exact List.nil_sublist _
  | .foreignScan _ | .customScan _ | .append _ | .mergeAppend _ | .result _ | .groupResult
  | .minMaxAgg _ | .recursiveUnion _ _ => List.nil_sublist _

theorem allSeen_spec : ∀ path : PathTree, path.AllSeen →
    path.VisitedNamed ∧ path.reachedLeaves = path.baseLeaves ∧ path.warnings = []
  | .scan type relid, h => by
    simp only [AllSeen] at h
    simp [VisitedNamed, reachedLeaves, baseLeaves, warnings, h]
  | .join _ outer inner, h => by
    obtain ⟨hno, hlo, hwo⟩ := allSeen_spec outer h.1
    obtain ⟨hni, hli, hwi⟩ := allSeen_spec inner h.2
    exact ⟨⟨hno, hni⟩, by rw [reachedLeaves, baseLeaves, hlo, hli], by rw [warnings, hwo, hwi]; rfl⟩
  | .unary type subpath, h => by
    obtain ⟨hn, hl, hw⟩ := allSeen_spec subpath h.2
    simp [VisitedNamed, reachedLeaves, baseLeaves, warnings, h.1, hn, hl, hw]
  | .foreignScan _, h | .customScan _, h | .append _, h | .mergeAppend _, h | .result _, h
  | .groupResult, h | .minMaxAgg _, h | .recursiveUnion _ _, h => h.elim

end PathTree

/-- **What an exported join order lists.**  If every node visited is of a type the
switch names, the export returns the rendered join order, in which an input that is
not seen through is an empty string, and logs one warning for each such input; the
order lists exactly the base relations reached through joins and pass-through nodes,
each once and outer before inner; over a tree of such nodes and plain scans these are
all of them, and nothing is logged. -/
theorem catchJoinOrder_lists_reached (aliasname : Nat → List Char) (path : PathTree)
    (h : path.VisitedNamed) (s : ExportState) :
    (catchJoinOrder aliasname path).exec s =
        (.ok (path.joinOrder.render aliasname), { s with log := s.log ++ path.warnings }) ∧
      path.warnings.length = path.joinOrder.missingInputs ∧
      path.joinOrder.leaves = path.reachedLeaves ∧
      path.reachedLeaves.Sublist path.baseLeaves ∧
      (path.AllSeen → path.warnings = [] ∧ path.reachedLeaves = path.baseLeaves) := by
  refine ⟨catchJoinOrder_eq aliasname path h s, path.warnings_length h, path.leaves_joinOrder,
    path.reachedLeaves_sublist, fun hseen => ?_⟩
  obtain ⟨-, hl, hlg⟩ := path.allSeen_spec hseen
  exact ⟨hlg, hl⟩

/-! ## Reading a join order back -/

/-- The joins of a path over the aliases of its scans. -/
inductive Skeleton
  | leaf (name : List Char)
  | join (outer inner : Skeleton)

open Skeleton

def isPlain (c : Char) : Bool := c != ' ' && c != '(' && c != ')'

namespace Skeleton

def text : Skeleton → List Char
  | leaf name => name
  | join outer inner => '(' :: (outer.text ++ ' ' :: (inner.text ++ [')']))

def Plain : Skeleton → Prop
  | leaf name => name ≠ [] ∧ ∀ c ∈ name, isPlain c
  | join outer inner => outer.Plain ∧ inner.Plain

/-- No text is the beginning of another that goes on with a separator. -/
theorem text_append_inj {a b : Skeleton} (ha : a.Plain) (hb : b.Plain) {x y : List Char}
    (hx : x.takeWhile isPlain = []) (hy : y.takeWhile isPlain = [])
    (h : a.text ++ x = b.text ++ y) : a = b ∧ x = y := by
  induction a generalizing b x y with
  | leaf name =>
    cases b with
    | leaf other =>
      simp only [text] at h
      have hr := congrArg (takeWhile isPlain) h
      rw [takeWhile_append_of_pos ha.2, takeWhile_append_of_pos hb.2, hx, hy,
        append_nil, append_nil] at hr
      subst hr
      exact ⟨rfl, append_cancel_left h⟩
    | join outer inner =>
      obtain ⟨c, rest, rfl⟩ := exists_cons_of_ne_nil ha.1
      have hc := ha.2 c (by simp)
      obtain ⟨rfl, -⟩ := cons.inj h
      exact absurd hc (by decide)
  | join outer inner ihouter ihinner =>
    cases b with
    | leaf name =>
      obtain ⟨c, rest, rfl⟩ := exists_cons_of_ne_nil hb.1
      have hc := hb.2 c (by simp)
      obtain ⟨rfl, -⟩ := cons.inj h
      exact absurd hc (by decide)
    | join outer' inner' =>
      simp only [text, cons_append, append_assoc, cons.injEq, true_and] at h
      obtain ⟨rfl, hrs⟩ := ihouter ha.1 hb.1 rfl rfl h
      obtain ⟨rfl, he⟩ := ihinner ha.2 hb.2 rfl rfl (cons.inj hrs).2
      exact ⟨rfl, (cons.inj he).2⟩

theorem text_inj {a b : Skeleton} (ha : a.Plain) (hb : b.Plain) : a.text = b.text ↔ a = b :=
  ⟨fun h => (text_append_inj ha hb rfl rfl (congrArg (· ++ []) h)).1, congrArg text⟩

end Skeleton

/-- The skeleton of a tree of joins and pass-through nodes over plain scans. -/
def PathTree.skeleton (aliasname : Nat → List Char) : PathTree → Skeleton
  | .scan _ relid => .leaf (aliasname relid)
  | .join _ outer inner => .join (outer.skeleton aliasname) (inner.skeleton aliasname)
  | .unary _ subpath => subpath.skeleton aliasname
  | _ => .leaf []

def PlainAliases (aliasname : Nat → List Char) : Prop :=
  ∀ relid, aliasname relid ≠ [] ∧ ∀ c ∈ aliasname relid, isPlain c

section Faithful

variable {aliasname aliasname' : Nat → List Char} {path path' : PathTree}
  (hplain : PlainAliases aliasname) (hseen : path.AllSeen)
include hplain

theorem PathTree.skeleton_spec : ∀ {path : PathTree}, path.AllSeen →
    (path.skeleton aliasname).Plain ∧
      path.joinOrder.render aliasname = (path.skeleton aliasname).text
  | .scan type relid, hseen => by
    simp only [AllSeen] at hseen
    exact ⟨hplain relid, by simp [joinOrder, hseen, render, skeleton, text]⟩
  | .join _ outer inner, hseen => by
    obtain ⟨ho, ht⟩ := skeleton_spec hseen.1
    obtain ⟨hi, ht'⟩ := skeleton_spec hseen.2
    refine ⟨⟨ho, hi⟩, ?_⟩
    simp [joinOrder, render, skeleton, text, ht, ht']
  | .unary type subpath, hseen => by
    have hs := skeleton_spec hseen.2
    simpa [joinOrder, hseen.1, skeleton] using hs

include hseen

theorem catchJoinOrder_skeleton (s : ExportState) :
    (catchJoinOrder aliasname path).exec s = (.ok (path.skeleton aliasname).text, s) := by
  obtain ⟨hn, -, hl⟩ := path.allSeen_spec hseen
  rw [catchJoinOrder_eq aliasname path hn, hl, append_nil, (skeleton_spec hplain hseen).2]

/-- **Join orders are exported faithfully**: the text can be read in one way only, as the
skeleton of the path, and two paths have the same text exactly if they have the same
skeleton. -/
theorem catchJoinOrder_faithful (hplain' : PlainAliases aliasname') (hseen' : path'.AllSeen)
    (s : ExportState) :
    ∃ text text', (catchJoinOrder aliasname path).exec s = (.ok text, s) ∧
      (catchJoinOrder aliasname' path').exec s = (.ok text', s) ∧
      (path.skeleton aliasname).Plain ∧
      (∀ tree : Skeleton, tree.Plain → (tree.text = text ↔ tree = path.skeleton aliasname)) ∧
      (text = text' ↔ path.skeleton aliasname = path'.skeleton aliasname') := by
  have ht := (skeleton_spec hplain hseen).1
  exact ⟨_, _, catchJoinOrder_skeleton hplain hseen s, catchJoinOrder_skeleton hplain' hseen' s,
    ht, fun tree h => text_inj h ht,
    text_inj ht (skeleton_spec hplain' hseen').1⟩

end Faithful

/-- Two tables called `a` and `b`. -/
def twoAliases : Nat → List Char
  | 1 => ['a']
  | _ => ['b']

/-- A plain scan joined with a subquery scan under a sort. -/
theorem catchJoinOrder_lists_reached_two :
    (join .mergeJoin (.scan .indexScan 1)
      (.unary .sort (.scan .subqueryScan 2))).VisitedNamed ∧
    (catchJoinOrder twoAliases (.join .mergeJoin (.scan .indexScan 1)
        (.unary .sort (.scan .subqueryScan 2)))).exec ⟨[], []⟩ =
      (.ok ['(', 'a', ' ', ')'], ⟨[.subqueryScanPath], []⟩) := by
  have hn : (join .mergeJoin (.scan .indexScan 1)
      (.unary .sort (.scan .subqueryScan 2))).VisitedNamed := by
    simp [PathTree.VisitedNamed, ScanType.treatment, UnaryType.treatment]
  exact ⟨hn, (catchJoinOrder_lists_reached twoAliases _ hn ⟨[], []⟩).1⟩

theorem catchJoinOrder_faithful_two : ∃ text text',
    (catchJoinOrder twoAliases (.join .hashJoin (.scan .seqScan 1) (.scan .indexScan 2))).exec
      ⟨[], []⟩ = (.ok text, ⟨[], []⟩) ∧
    (catchJoinOrder twoAliases (.unary .sort (.scan .seqScan 2))).exec ⟨[], []⟩ =
      (.ok text', ⟨[], []⟩) ∧ text ≠ text' := by
  have hplain : PlainAliases twoAliases := fun relid => by
    unfold twoAliases
    split <;> simp [isPlain]
  obtain ⟨text, text', h, h', -, -, hi⟩ := catchJoinOrder_faithful hplain
    (show (join .hashJoin (.scan .seqScan 1) (.scan .indexScan 2)).AllSeen from ⟨rfl, rfl⟩)
    hplain (show (unary .sort (.scan .seqScan 2)).AllSeen from ⟨rfl, rfl⟩) ⟨[], []⟩
  exact ⟨text, text', h, h', fun heq => nomatch hi.mp heq⟩

/-- A join with a subquery scan is exported without its inner relation, and a
`LIMIT` ends planning. -/
theorem export_drops_or_aborts :
    (catchJoinOrder twoAliases
        (.join .hashJoin (.scan .seqScan 1) (.scan .subqueryScan 2))).exec ⟨[], []⟩ =
      (.ok ['(', 'a', ' ', ')'], ⟨[.subqueryScanPath], []⟩) ∧
    (PathTree.join .hashJoin (.scan .seqScan 1) (.scan .subqueryScan 2)).baseLeaves = [1, 2] ∧
    (catchJoinOrder twoAliases (.unary .limit (.scan .seqScan 1))).exec ⟨[], []⟩ =
      (.error (.unaryPath .limit), ⟨[], []⟩) :=
  ⟨rfl, rfl, rfl⟩

end AthenaPG
