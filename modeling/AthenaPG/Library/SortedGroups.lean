import Mathlib.Data.List.GetD
import Mathlib.Tactic

/-!
Sorted lists that are cut into groups.

The first elements of the groups say in which group to look: the last one that starts at or
below the probe.

* `countP_flatten`: how many elements of the whole list are at most the probe.
* `mem_flatten_iff`: whether the probe is an element.
* `getD_of_group`, `countP_flatten_eq_zero`: the position of the last element at most the
  probe, found by searching that group alone.
-/

namespace AthenaPG.SortedGroups
open List
open List (length)

variable {α : Type} [LinearOrder α]

def heads (fallback : α) (groups : List (List α)) : List α :=
  groups.map fun group => group.headD fallback

/-- The last group whose first element is at most the probe; the first group if there is
none. -/
def groupOf (fallback : α) (groups : List (List α)) (x : α) : Nat :=
  (heads fallback groups).countP (fun y => decide (y ≤ x)) - 1

variable {alt : α} {gs : List (List α)} {x : α}

theorem groupOf_lt (alt x : α) (h : gs ≠ []) : groupOf alt gs x < gs.length := by
  have hle : (heads alt gs).countP (· ≤ x) ≤ gs.length := by
    simpa [heads] using
      (countP_le_length (p := fun y => decide (y ≤ x)) (l := heads alt gs))
  have hp := length_pos_iff.mpr h
  rw [groupOf]
  omega

omit [LinearOrder α] in
theorem headD_mem (alt : α) {group : List α} (h : group ≠ []) : group.headD alt ∈ group := by
  cases group with
  | nil => exact absurd rfl h
  | cons first group => exact mem_cons_self

theorem headD_le (alt : α) {group : List α} {rest : List (List α)} (hne : group ≠ [])
    (hs : (group :: rest).flatten.Pairwise (· < ·)) {y : α}
    (hy : y ∈ (group :: rest).flatten) : group.headD alt ≤ y := by
  cases group with
  | nil => exact absurd rfl hne
  | cons first group =>
    obtain rfl | hy := mem_cons.mp hy
    · exact le_refl _
    · exact ((pairwise_cons.mp hs).1 y hy).le

theorem countP_heads_eq_zero (hne : ∀ group ∈ gs, group ≠ []) (hlt : ∀ y ∈ gs.flatten, x < y) :
    (heads alt gs).countP (· ≤ x) = 0 := by
  rw [countP_eq_zero]
  intro y hy
  obtain ⟨group, hg, rfl⟩ := mem_map.mp hy
  have hm := mem_flatten.mpr ⟨group, hg, headD_mem alt (hne group hg)⟩
  simpa using hlt _ hm

theorem groupOf_cons {group : List α} {rest : List (List α)} (hne : ∀ g ∈ group :: rest, g ≠ [])
    (hs : (group :: rest).flatten.Pairwise (· < ·)) :
    (groupOf alt (group :: rest) x = 0 ∧ ∀ y ∈ rest.flatten, x < y) ∨
      (groupOf alt (group :: rest) x = groupOf alt rest x + 1 ∧
        (∀ y ∈ group, y < x) ∧
        0 < (heads alt rest).countP (· ≤ x)) := by
  have hne' : ∀ g ∈ rest, g ≠ [] := fun g hg => hne g (mem_cons_of_mem group hg)
  obtain ⟨_, hr, ha⟩ := pairwise_append.mp hs
  have ho : ([group.headD alt].countP fun y => decide (y ≤ x)) ≤ 1 := countP_le_length
  have hsp : heads alt (group :: rest) = [group.headD alt] ++ heads alt rest := rfl
  by_cases hb : ∀ y ∈ rest.flatten, x < y
  · refine .inl ⟨?_, hb⟩
    rw [groupOf, hsp, countP_append, countP_heads_eq_zero hne' hb]
    omega
  right
  push Not at hb
  obtain ⟨y, hy, hyx⟩ := hb
  cases rest with
  | nil => simp at hy
  | cons next others =>
    have hn := (headD_le alt (hne' next mem_cons_self) hr hy).trans hyx
    have hnx : next.headD alt ∈ (next :: others).flatten :=
      mem_flatten.mpr ⟨next, mem_cons_self, headD_mem alt (hne' _ mem_cons_self)⟩
    have hal : ∀ z ∈ group, z < x := fun z hz => (ha z hz _ hnx).trans_le hn
    have hf := hal _ (headD_mem alt (hne group mem_cons_self))
    refine ⟨?_, hal, countP_pos_iff.mpr ⟨_, mem_cons_self, by simpa using hn⟩⟩
    simp only [groupOf, heads, map_cons]
    rw [countP_cons_of_pos (by simpa using hf.le), countP_cons_of_pos (by simpa using hn)]
    omega

/-- **The elements at most the probe** are those of the groups before `groupOf`, and those
in it. -/
theorem countP_flatten (alt x : α) (hne : ∀ group ∈ gs, group ≠ [])
    (hs : gs.flatten.Pairwise (· < ·)) :
    gs.flatten.countP (· ≤ x) =
      ((gs.take (groupOf alt gs x)).map length).sum +
        (gs.getD (groupOf alt gs x) []).countP (· ≤ x) := by
  induction gs with
  | nil => simp
  | cons group rest ih =>
    obtain ⟨hgr, ha⟩ | ⟨hgr, hb, _⟩ := groupOf_cons hne hs
    · have hz : rest.flatten.countP (· ≤ x) = 0 := by
        rw [countP_eq_zero]
        exact fun y hy => by simpa using ha y hy
      rw [hgr, flatten_cons, countP_append, hz]
      simp
    have hc : group.countP (· ≤ x) = group.length := by
      rw [countP_eq_length]
      exact fun y hy => by simpa using (hb y hy).le
    have hr := ih (fun g hg => hne g (mem_cons_of_mem group hg)) (pairwise_append.mp hs).2.1
    rw [hgr, flatten_cons, countP_append, hc, hr, take_succ_cons,
      map_cons, sum_cons, getD_cons_succ, add_assoc]

theorem countP_group_pos (hne : ∀ group ∈ gs, group ≠ []) (hs : gs.flatten.Pairwise (· < ·))
    (hp : 0 < (heads alt gs).countP fun y => decide (y ≤ x)) :
    0 < (gs.getD (groupOf alt gs x) []).countP fun y => decide (y ≤ x) := by
  induction gs with
  | nil => simp [heads] at hp
  | cons group rest ih =>
    have hne' : ∀ g ∈ rest, g ≠ [] := fun g hg => hne g (mem_cons_of_mem group hg)
    obtain ⟨hgr, ha⟩ | ⟨hgr, _, hr⟩ := groupOf_cons hne hs
    · have hf : group.headD alt ≤ x := by
        by_contra hgt
        have hc : heads alt (group :: rest) = group.headD alt :: heads alt rest := rfl
        rw [hc, countP_cons_of_neg (by simpa using hgt), countP_heads_eq_zero hne' ha] at hp
        exact lt_irrefl _ hp
      rw [hgr, getD_cons_zero, countP_pos_iff]
      exact ⟨_, headD_mem alt (hne group mem_cons_self), by simpa using hf⟩
    rw [hgr, getD_cons_succ]
    exact ih hne' (pairwise_append.mp hs).2.1 hr

theorem countP_flatten_of_heads (hne : ∀ group ∈ gs, group ≠ []) (hs : gs.flatten.Pairwise (· < ·))
    (hh : (heads alt gs).countP (· ≤ x) = 0) :
    gs.flatten.countP (· ≤ x) = 0 := by
  cases gs with
  | nil => rfl
  | cons group rest =>
    have hf : ¬ group.headD alt ≤ x := by simpa using countP_eq_zero.mp hh _ mem_cons_self
    rw [countP_eq_zero]
    intro y hy
    have hle := headD_le alt (hne group mem_cons_self) hs hy
    simp only [decide_eq_true_eq]
    exact fun hyx => hf (hle.trans hyx)

/-- If that group has no element at most the probe, then no group has. -/
theorem countP_flatten_eq_zero (alt x : α) (hne : ∀ group ∈ gs, group ≠ [])
    (hs : gs.flatten.Pairwise (· < ·))
    (hz : (gs.getD (groupOf alt gs x) []).countP (· ≤ x) = 0) :
    gs.flatten.countP (· ≤ x) = 0 := by
  have hh : (heads alt gs).countP (· ≤ x) = 0 := by
    by_contra hp
    have := countP_group_pos hne hs (pos_of_ne_zero hp)
    omega
  exact countP_flatten_of_heads hne hs hh

omit [LinearOrder α] in
theorem heads_sublist (alt : α) (hne : ∀ group ∈ gs, group ≠ []) :
    (heads alt gs).Sublist gs.flatten := by
  induction gs with
  | nil => exact List.Sublist.slnil
  | cons group rest ih =>
    cases group with
    | nil => exact absurd rfl (hne [] mem_cons_self)
    | cons first group =>
      have hr := ih fun g hg => hne g (mem_cons_of_mem _ hg)
      exact (hr.trans (sublist_append_right group _)).cons_cons first

/-- **The probe is an element of the whole list if it is one of that group.** -/
theorem mem_flatten_iff (alt : α) (hne : ∀ group ∈ gs, group ≠ [])
    (hs : gs.flatten.Pairwise (· < ·)) : x ∈ gs.flatten ↔ x ∈ gs.getD (groupOf alt gs x) [] := by
  induction gs with
  | nil => simp
  | cons group rest ih =>
    rw [flatten_cons, mem_append]
    obtain ⟨hgr, ha⟩ | ⟨hgr, hb, _⟩ := groupOf_cons hne hs
    · rw [hgr, getD_cons_zero]
      exact or_iff_left fun hx => lt_irrefl x (ha x hx)
    rw [hgr, getD_cons_succ, ← ih (fun g hg => hne g (mem_cons_of_mem group hg))
      (pairwise_append.mp hs).2.1]
    exact or_iff_right fun hx => lt_irrefl x (hb x hx)

theorem getD_flatten {β : Type} (lists : List (List β)) (d : β) {i k : Nat}
    (hk : k < (lists.getD i []).length) :
    lists.flatten.getD (((lists.take i).map length).sum + k) d = (lists.getD i []).getD k d := by
  induction lists generalizing i with
  | nil => simp at hk
  | cons list lists ih =>
    cases i with
    | zero =>
      rw [getD_cons_zero] at hk ⊢
      rw [take_zero, map_nil, sum_nil, zero_add, flatten_cons, getD_append _ _ _ _ hk]
    | succ i =>
      rw [take_succ_cons, map_cons, sum_cons, flatten_cons, add_assoc,
        getD_append_right _ _ _ _ (by omega), Nat.add_sub_cancel_left]
      exact ih hk

/-- What is kept along with the elements, group by group: the entry of the last element at
most the probe, by its position in that group and in the whole list. -/
theorem getD_of_group (alt x : α) {β : Type} {lists : List (List β)} (d : β)
    (hne : ∀ group ∈ gs, group ≠ []) (hs : gs.flatten.Pairwise (· < ·))
    (hl : lists.map length = gs.map length)
    (hp : (gs.getD (groupOf alt gs x) []).countP (· ≤ x) ≠ 0) :
    (lists.getD (groupOf alt gs x) []).getD
        ((gs.getD (groupOf alt gs x) []).countP (· ≤ x) - 1) d =
      lists.flatten.getD (gs.flatten.countP (· ≤ x) - 1) d := by
  have hc := countP_flatten alt x hne hs
  have hle := (gs.getD (groupOf alt gs x) []).countP_le_length
    (p := fun y => decide (y ≤ x))
  have hg : (lists.getD (groupOf alt gs x) []).length = (gs.getD (groupOf alt gs x) []).length := by
    calc (lists.getD (groupOf alt gs x) []).length =
          (lists.map length).getD (groupOf alt gs x) 0 :=
          (getD_map lists [] length).symm
      _ = (gs.map length).getD (groupOf alt gs x) 0 := by rw [hl]
      _ = (gs.getD (groupOf alt gs x) []).length := getD_map gs [] length
  have ho : ((lists.take (groupOf alt gs x)).map length).sum =
      ((gs.take (groupOf alt gs x)).map length).sum := by
    rw [map_take, map_take, hl]
  have he := getD_flatten lists d (i := groupOf alt gs x)
    (k := (gs.getD (groupOf alt gs x) []).countP (· ≤ x) - 1)
    (by omega)
  rw [← he, ho, hc, Nat.add_sub_assoc (by omega)]

end AthenaPG.SortedGroups
