import Mathlib.Tactic

/-!
Depth-first search for a cycle through a given node.

A node that was visited before is not entered again; if it is the first node of all, then a
cycle is found, and the labels of the edges on the way are collected.

* `search`, `scan`: the search from a node, and along its edges;
* `no_cycle_of_search`: a search that finds nothing proves that there is no cycle through its
  first node;
* `cycle_of_search`: a search that finds something has found a cycle, with its labels;
* `cycle_avoids_or_meets`: a cycle avoids a set of nodes or is a cycle through one of them.
-/

namespace DepthFirst
open List
open Fintype (card)

variable {α ε : Type} [DecidableEq α]

/-- What a search has found, the nodes visited, and the labels of the cycle. -/
structure Outcome (α ε : Type) where
  found : Bool
  visited : List α
  labels : List ε

/-- Visits the ends of some edges until one of them leads to a cycle. -/
def scan (visit : α → List α → Outcome α ε) : List (α × Option ε) → List α → Outcome α ε
  | [], visited => ⟨false, visited, []⟩
  | (b, label) :: rest, visited =>
    if (visit b visited).found then
      ⟨true, (visit b visited).visited, (visit b visited).labels ++ label.toList⟩
    else scan visit rest (visit b visited).visited

def search (edges : α → List (α × Option ε)) : Nat → α → List α → Outcome α ε
  | 0, _, visited => ⟨false, visited, []⟩
  | fuel + 1, a, visited =>
    if a ∈ visited then ⟨visited.head? == some a, visited, []⟩
    else scan (search edges fuel) (edges a) (visited ++ [a])

/-- The nodes visited in the meantime are done with: their edges stay among the nodes visited,
and none of them leads back to the start. -/
structure Explored (edges : α → List (α × Option ε)) (start : α) (visited visited' : List α) :
    Prop where
  isPre : visited <+: visited'
  nodup : visited'.Nodup
  done : ∀ a ∈ visited', a ∉ visited → ∀ e ∈ edges a, e.1 ∈ visited' ∧ e.1 ≠ start

variable {edges : α → List (α × Option ε)} {start : α}

omit [DecidableEq α] in
theorem Explored.trans {v v1 v2 : List α} (h : Explored edges start v v1)
    (h' : Explored edges start v1 v2) : Explored edges start v v2 := by
  refine ⟨h.isPre.trans h'.isPre, h'.nodup, fun a ha hn e he => ?_⟩
  by_cases hm : a ∈ v1
  · obtain ⟨hen, hne⟩ := h.done a hm hn e he
    exact ⟨h'.isPre.subset hen, hne⟩
  exact h'.done a ha hm e he

/-- What a search leaves behind when it finds nothing. -/
def Finds (edges : α → List (α × Option ε)) (start : α) (visit : α → List α → Outcome α ε)
    (bound : Nat) : Prop :=
  ∀ a visited, visited.head? = some start → visited.Nodup → bound < visited.length + 1 →
    (visit a visited).found = false →
    Explored edges start visited (visit a visited).visited ∧ a ∈ (visit a visited).visited ∧
      a ≠ start

omit [DecidableEq α] in
theorem scan_explored {visit : α → List α → Outcome α ε} {bound : Nat}
    (hv : Finds edges start visit bound) (es : List (α × Option ε)) {visited : List α}
    (hs : visited.head? = some start) (hn : visited.Nodup)
    (hbn : bound < visited.length + 1) (hf : (scan visit es visited).found = false) :
    Explored edges start visited (scan visit es visited).visited ∧
      ∀ e ∈ es, e.1 ∈ (scan visit es visited).visited ∧ e.1 ≠ start := by
  induction es generalizing visited with
  | nil => exact ⟨⟨prefix_refl _, hn, fun a ha hnw => absurd ha hnw⟩, by simp⟩
  | cons e rest ih =>
    obtain ⟨b, label⟩ := e
    rw [scan] at hf ⊢
    split at hf
    · cases hf
    rename_i hb
    have hb : (visit b visited).found = false := by simpa using hb
    obtain ⟨hex, hmm, hne⟩ := hv b visited hs hn hbn hb
    have hp := hex.isPre
    have hl := hp.length_le
    have hh : (visit b visited).visited.head? = some start := by
      obtain ⟨more, hm⟩ := hp
      rw [← hm, head?_append, hs]
      rfl
    obtain ⟨hr, hen⟩ := ih hh hex.nodup (by omega) hf
    rw [if_neg (by simp [hb])]
    refine ⟨hex.trans hr, ?_⟩
    intro e' he'
    obtain rfl | he' := mem_cons.mp he'
    · exact ⟨hr.isPre.subset hmm, hne⟩
    · exact hen e' he'

theorem search_explored [Fintype α] (fuel : Nat) :
    Finds edges start (search edges fuel) (card α + 1 - fuel) := by
  induction fuel with
  | zero =>
    intro a visited hs hn hb hf
    have hl := hn.length_le_card
    omega
  | succ fuel ih =>
    intro a visited hs hn hb hf
    rw [search] at hf ⊢
    split at hf
    next hm =>
      rw [if_pos hm]
      refine ⟨⟨prefix_refl _, hn, fun a ha hnw => absurd ha hnw⟩, hm, ?_⟩
      rintro rfl
      simp [hs] at hf
    rename_i hnw
    rw [if_neg hnw]
    have hh : (visited ++ [a]).head? = some start := by
      rw [head?_append, hs]
      rfl
    have hn' : (visited ++ [a]).Nodup := by
      rw [← concat_eq_append]
      exact hn.concat hnw
    have hb' : card α + 1 - fuel < (visited ++ [a]).length + 1 := by
      rw [length_append, length_singleton]
      omega
    obtain ⟨hex, hen⟩ := scan_explored ih (edges a) hh hn' hb' hf
    have hm : a ∈ (scan (search edges fuel) (edges a) (visited ++ [a])).visited :=
      hex.isPre.subset (by simp)
    refine ⟨⟨(prefix_append _ _).trans hex.isPre, hex.nodup, ?_⟩, hm, ?_⟩
    · intro x hx hnw' e he
      by_cases hxa : x = a
      · subst hxa
        exact hen e he
      exact hex.done x hx (by simp [hnw', hxa]) e he
    rintro rfl
    exact hnw (mem_of_mem_head? hs)

def Edge (edges : α → List (α × Option ε)) (a b : α) : Prop := ∃ e ∈ edges a, e.1 = b

/-- **A search that finds nothing proves that there is no cycle through its first node.** -/
theorem no_cycle_of_search [Fintype α] {a : α}
    (h : (search edges (card α + 1) a []).found = false) :
    ¬ Relation.TransGen (Edge edges) a a := by
  have hf : Finds edges a (search edges (card α)) _ := search_explored _
  obtain ⟨hex, hen⟩ := scan_explored hf (edges a) rfl (nodup_singleton a) (by simp) h
  -- the nodes visited are closed under edges, and no edge leads back
  have hc : ∀ x ∈ (scan (search edges (card α)) (edges a) [a]).visited,
      ∀ y, Edge edges x y →
        y ∈ (scan (search edges (card α)) (edges a) [a]).visited ∧ y ≠ a := by
    rintro x hx y ⟨e, he, rfl⟩
    by_cases hxa : x = a
    · subst hxa
      exact hen e he
    exact hex.done x hx (by simpa using hxa) e he
  have hr : ∀ y, Relation.TransGen (Edge edges) a y →
      y ∈ (scan (search edges (card α)) (edges a) [a]).visited ∧ y ≠ a := by
    intro y hy
    induction hy with
    | single hed => exact hc a (hex.isPre.subset (by simp)) _ hed
    | tail _ hed ih => exact hc _ ih.1 _ hed
  exact fun hcy => (hr a hcy).2 rfl

omit [DecidableEq α] in
theorem path_avoids_or_meets {r : α → α → Prop} (s : α → Prop) {a b : α}
    (h : Relation.TransGen r a b) :
    Relation.TransGen (fun x y => r x y ∧ ¬ s x ∧ ¬ s y) a b ∨
      ∃ x, s x ∧ Relation.ReflTransGen r a x ∧ Relation.ReflTransGen r x b := by
  induction h with
  | @single b hab =>
    by_cases ha : s a
    · exact .inr ⟨a, ha, .refl, .single hab⟩
    by_cases hb : s b
    · exact .inr ⟨b, hb, .single hab, .refl⟩
    · exact .inl (.single ⟨hab, ha, hb⟩)
  | @tail b c hab hbc ih =>
    by_cases hc : s c
    · exact .inr ⟨c, hc, (hab.tail hbc).to_reflTransGen, .refl⟩
    obtain hav | ⟨x, hx, hax, hxb⟩ := ih
    · have hb : ¬ s b := by
        cases hav with
        | single h | tail _ h => exact h.2.2
      exact .inl (hav.tail ⟨hbc, hb, hc⟩)
    exact .inr ⟨x, hx, hax, hxb.tail hbc⟩

omit [DecidableEq α] in
/-- A cycle avoids a set of nodes or is a cycle through one of them. -/
theorem cycle_avoids_or_meets {r : α → α → Prop} (s : α → Prop) {a : α}
    (h : Relation.TransGen r a a) :
    Relation.TransGen (fun x y => r x y ∧ ¬ s x ∧ ¬ s y) a a ∨
      ∃ x, s x ∧ Relation.TransGen r x x := by
  obtain ha | ⟨x, hx, hax, hxa⟩ := path_avoids_or_meets s h
  · exact .inl ha
  · exact .inr ⟨x, hx, Relation.TransGen.trans_right hxa (h.trans_left hax)⟩

/-- A way along labelled edges. -/
inductive Walk (edge : α → α × Option ε → Prop) : α → List (α × Option ε) → α → Prop
  | nil (a : α) : Walk edge a [] a
  | cons {a b : α} {e : α × Option ε} {es : List (α × Option ε)} (he : edge a e)
      (h : Walk edge e.1 es b) : Walk edge a (e :: es) b

omit [DecidableEq α] in
theorem scan_isPre {visit : α → List α → Outcome α ε} (h : ∀ b v, v <+: (visit b v).visited)
    (es : List (α × Option ε)) (v : List α) : v <+: (scan visit es v).visited := by
  induction es generalizing v with
  | nil => exact prefix_refl v
  | cons e rest ih =>
    rw [scan]
    split
    · exact h e.1 v
    · exact (h e.1 v).trans (ih _)

theorem search_isPre (fuel : Nat) (a : α) (v : List α) : v <+: (search edges fuel a v).visited := by
  induction fuel generalizing a v with
  | zero => exact prefix_refl v
  | succ fuel ih =>
    rw [search]
    split
    · exact prefix_refl v
    · exact (prefix_append v [a]).trans (scan_isPre ih _ _)

/-- A way that a search has found, along new nodes until it comes back to the start. -/
def Found (edges : α → List (α × Option ε)) (start a : α) (visited : List α)
    (labels : List ε) : Prop :=
  ∃ es, Walk (fun x e => e ∈ edges x) a es start ∧ labels = (es.filterMap Prod.snd).reverse ∧
    ((a :: es.map Prod.fst).dropLast).Nodup ∧
    ∀ x ∈ (a :: es.map Prod.fst).dropLast, x ∉ visited

omit [DecidableEq α] in
theorem scan_found {visit : α → List α → Outcome α ε} (hpre : ∀ b v, v <+: (visit b v).visited)
    (hvi : ∀ b v, v.head? = some start → (visit b v).found = true →
      Found edges start b v (visit b v).labels)
    {es : List (α × Option ε)} {v : List α} (hs : v.head? = some start)
    (h : (scan visit es v).found = true) :
    ∃ e ∈ es, ∃ v' labels, v <+: v' ∧ Found edges start e.1 v' labels ∧
      (scan visit es v).labels = labels ++ e.2.toList := by
  induction es generalizing v with
  | nil => cases h
  | cons e rest ih =>
    rw [scan] at h ⊢
    split
    next hb => exact ⟨e, by simp, v, _, prefix_refl v, hvi e.1 v hs hb, rfl⟩
    rename_i hb
    rw [if_neg hb] at h
    have hp := hpre e.1 v
    have hs' : (visit e.1 v).visited.head? = some start := by
      obtain ⟨more, hm⟩ := hp
      rw [← hm, head?_append, hs]
      rfl
    obtain ⟨e', he, v', labels, hv, hf, hl⟩ := ih hs' h
    exact ⟨e', by simp [he], v', labels, hp.trans hv, hf, hl⟩

omit [DecidableEq α] in
theorem Found.cons {a : α} {e : α × Option ε} {v v' : List α} {labels : List ε}
    (h : Found edges start e.1 v' labels) (he : e ∈ edges a) (hv : v ++ [a] <+: v')
    (ha : a ∉ v) : Found edges start a v (labels ++ e.2.toList) := by
  obtain ⟨es, hw, rfl, hn, hf⟩ := h
  refine ⟨e :: es, .cons he hw, ?_, ?_, ?_⟩
  · cases hl : e.2 <;> simp [hl]
  · rw [map_cons, dropLast_cons_cons, nodup_cons]
    exact ⟨fun hm => hf a hm (hv.subset (by simp)), hn⟩
  intro x hx
  rw [map_cons, dropLast_cons_cons] at hx
  obtain rfl | hx := mem_cons.mp hx
  · exact ha
  · exact fun hm => hf x hx (hv.subset (by simp [hm]))

theorem search_found (fuel : Nat) {a : α} {v : List α} (hs : v.head? = some start)
    (h : (search edges fuel a v).found = true) :
    Found edges start a v (search edges fuel a v).labels := by
  induction fuel generalizing a v with
  | zero => cases h
  | succ fuel ih =>
    rw [search] at h ⊢
    split
    next hm =>
      rw [if_pos hm] at h
      obtain rfl : start = a := by simpa [hs] using h
      exact ⟨[], .nil start, rfl, by simp, by simp⟩
    rename_i hm
    rw [if_neg hm] at h
    have hs' : (v ++ [a]).head? = some start := by
      rw [head?_append, hs]
      rfl
    obtain ⟨e, he, v', labels, hv, hf, hl⟩ :=
      scan_found (search_isPre fuel) (fun b v hs hb => ih hs hb) hs' h
    rw [hl]
    exact hf.cons he hv hm

omit [DecidableEq α] in
theorem Walk.nodes_eq {edge : α → α × Option ε → Prop} {a b : α} {es : List (α × Option ε)}
    (h : Walk edge a es b) : a :: es.map Prod.fst = (a :: es.map Prod.fst).dropLast ++ [b] := by
  induction h with
  | nil a => rfl
  | cons he _ ih => rw [map_cons, dropLast_cons_cons, cons_append, ← ih]

omit [DecidableEq α] in
theorem Walk.exists_edge {edge : α → α × Option ε → Prop} {a b : α} {es : List (α × Option ε)}
    (h : Walk edge a es b) {e : α × Option ε} (hm : e ∈ es) : ∃ x, edge x e := by
  induction h with
  | nil a => cases hm
  | @cons a b e' es he _ ih =>
    obtain rfl | hm := mem_cons.mp hm
    · exact ⟨a, he⟩
    · exact ih hm

omit [DecidableEq α] in
theorem Walk.transGen {edge : α → α × Option ε → Prop} {a b : α} {es : List (α × Option ε)}
    (h : Walk edge a es b) (hne : es ≠ []) :
    Relation.TransGen (fun a b => ∃ label, edge a (b, label)) a b := by
  induction h with
  | nil a => exact absurd rfl hne
  | @cons a b e es he hw ih =>
    cases es with
    | nil =>
      cases hw
      exact .single ⟨e.2, he⟩
    | cons e' es => exact .head ⟨e.2, he⟩ (ih (by simp))

/-- **A search that finds something has found a cycle**, with its labels. -/
theorem cycle_of_search {fuel : Nat} {a : α} (h : (search edges fuel a []).found = true) :
    ∃ es, es ≠ [] ∧ Walk (fun x e => e ∈ edges x) a es a ∧ (es.map Prod.fst).Nodup ∧
      (search edges fuel a []).labels = (es.filterMap Prod.snd).reverse := by
  cases fuel with
  | zero => cases h
  | succ fuel =>
    rw [search, if_neg (by simp)] at h ⊢
    obtain ⟨e, he, v', labels, hv, ⟨es, hw, rfl, hn, hf⟩, hl⟩ :=
      scan_found (search_isPre fuel) (fun b v hs hb => search_found fuel hs hb) rfl h
    refine ⟨e :: es, by simp, .cons he hw, ?_, ?_⟩
    · rw [map_cons, hw.nodes_eq, nodup_append]
      refine ⟨hn, nodup_singleton a, fun x hx y hy hxy => hf x hx (hv.subset ?_)⟩
      rw [hxy]
      exact hy
    rw [hl]
    cases hl : e.2 <;> simp [hl]

end DepthFirst
