import Mathlib.Tactic

/-!
Loops over pairs of list members.

An outer loop visits the cells of a list, an inner loop the candidates that go
with a cell: the cells behind it, or another list.  Members are told apart by a
key, and a pair is what it is regardless of order.

* `nodup_pairs_cells`, `nodup_pairs_product`: such a loop makes no pair twice;
* `mem_pairs_cells`, `mem_pairs_product`: which pairs it makes.
-/

namespace AthenaPG.UnorderedPairs
open List

variable {α β : Type}

/-- The cells of a list, each with the cells behind it. -/
def cells : List α → List (α × List α)
  | [] => []
  | x :: xs => (x, xs) :: cells xs

@[simp] theorem map_fst_cells (L : List α) : (cells L).map Prod.fst = L := by
  induction L with
  | nil => rfl
  | cons x xs ih => simp [cells, ih]

variable {L : List α} {a b : α} {test : α → α → Bool}

theorem mem_of_mem_cells {c : α × List α} (h : c ∈ cells L) : c.1 ∈ L ∧ ∀ b ∈ c.2, b ∈ L := by
  induction L with
  | nil => simp [cells] at h
  | cons x xs ih =>
    obtain rfl | h := mem_cons.mp h
    · exact ⟨mem_cons_self .., fun b hb => mem_cons_of_mem _ hb⟩
    obtain ⟨h1, h2⟩ := ih h
    exact ⟨mem_cons_of_mem _ h1, fun b hb => mem_cons_of_mem _ (h2 b hb)⟩

theorem exists_mem_cells (ha : a ∈ L) (hb : b ∈ L) (hne : a ≠ b) :
    (∃ c ∈ cells L, c.1 = a ∧ b ∈ c.2) ∨ ∃ c ∈ cells L, c.1 = b ∧ a ∈ c.2 := by
  induction L with
  | nil => simp at ha
  | cons x xs ih =>
    obtain rfl | ha' := mem_cons.mp ha
    · obtain rfl | hb' := mem_cons.mp hb
      · exact absurd rfl hne
      · exact Or.inl ⟨(a, xs), mem_cons_self .., rfl, hb'⟩
    obtain rfl | hb' := mem_cons.mp hb
    · exact Or.inr ⟨(b, xs), mem_cons_self .., rfl, ha'⟩
    obtain ⟨c, hc, h⟩ | ⟨c, hc, h⟩ := ih ha' hb'
    · exact Or.inl ⟨c, mem_cons_of_mem _ hc, h⟩
    · exact Or.inr ⟨c, mem_cons_of_mem _ hc, h⟩

/-- The pairs a double loop makes: each first component with the candidates that
pass the test. -/
def pairs (test : α → α → Bool) (loop : List (α × List α)) : List (α × α) :=
  loop.flatMap fun c => (c.2.filter (test c.1)).map (c.1, ·)

theorem mem_pairs {loop : List (α × List α)} :
    (a, b) ∈ pairs test loop ↔ ∃ c ∈ loop, c.1 = a ∧ b ∈ c.2 ∧ test a b = true := by
  simp only [pairs, mem_flatMap, mem_map, mem_filter, Prod.mk.injEq]
  constructor
  · rintro ⟨c, hc, b', ⟨hb, ht⟩, rfl, rfl⟩
    exact ⟨c, hc, rfl, hb, ht⟩
  · rintro ⟨c, hc, rfl, hb, ht⟩
    exact ⟨c, hc, b, ⟨hb, ht⟩, rfl, rfl⟩

/-- A loop over the cells whose candidates are either the cells behind or a fixed
list. -/
theorem flatMap_cells_ite (test : α → α → Bool) (behind : Prop) [Decidable behind] (L M : List α) :
    ((cells L).flatMap fun c => ((if behind then c.2 else M).filter (test c.1)).map (c.1, ·)) =
      if behind then pairs test (cells L) else pairs test (L.map (·, M)) := by
  split
  · rfl
  rw [pairs, flatMap_map]
  nth_rewrite 2 [← map_fst_cells L]
  rw [flatMap_map]

def pairKey (key : α → β) (p : α × α) : Sym2 β := s(key p.1, key p.2)

/-- No pair is made twice if no candidate list repeats a key and the key of a first
component does not come back later. -/
theorem nodup_pairs (key : α → β) (test : α → α → Bool) {loop : List (α × List α)}
    (hin : ∀ c ∈ loop, (c.2.map key).Nodup)
    (ho : loop.Pairwise fun c d => key c.1 ≠ key d.1 ∧ ∀ b ∈ d.2, key c.1 ≠ key b) :
    ((pairs test loop).map (pairKey key)).Nodup := by
  rw [pairs, map_flatMap, nodup_flatMap]
  constructor
  · intro c hc
    have hs : ((c.2.filter (test c.1)).map key).Nodup :=
      (hin c hc).sublist (List.Sublist.map key filter_sublist)
    rw [map_map, nodup_map_iff_inj_on (List.Nodup.of_map key hs)]
    intro b hb b' hb' heq
    have hk : key b = key b' := by
      simp only [Function.comp_apply, pairKey, Sym2.eq_iff] at heq
      obtain ⟨_, h⟩ | ⟨h, h'⟩ := heq
      · exact h
      · exact h'.trans h
    exact inj_on_of_nodup_map hs hb hb' hk
  · refine ho.imp ?_
    intro c d hcd
    simp only [Function.onFun, disjoint_left, mem_map, mem_filter]
    rintro q ⟨p, ⟨b, _, rfl⟩, rfl⟩ ⟨p', ⟨b', ⟨hb', _⟩, rfl⟩, heq⟩
    simp only [pairKey, Sym2.eq_iff] at heq
    obtain ⟨h, _⟩ | ⟨_, h⟩ := heq
    · exact hcd.1 h.symm
    · exact hcd.2 b' hb' h.symm

/-- The loop over the cells behind. -/
theorem nodup_pairs_cells (key : α → β) (test : α → α → Bool) (hL : (L.map key).Nodup) :
    ((pairs test (cells L)).map (pairKey key)).Nodup := by
  apply nodup_pairs
  · intro c hc
    induction L with
    | nil => simp [cells] at hc
    | cons x xs ih =>
      obtain ⟨_, hxs⟩ := nodup_cons.mp hL
      obtain rfl | hc := mem_cons.mp hc
      · exact hxs
      · exact ih hxs hc
  induction L with
  | nil => exact List.Pairwise.nil
  | cons x xs ih =>
    obtain ⟨hx, hxs⟩ := nodup_cons.mp hL
    refine pairwise_cons.mpr ⟨?_, ih hxs⟩
    intro d hd
    obtain ⟨h1, h2⟩ := mem_of_mem_cells hd
    refine ⟨fun h => hx (h ▸ mem_map_of_mem h1), fun b hb h => hx (h ▸ mem_map_of_mem (h2 b hb))⟩

/-- The loop over two lists with different keys. -/
theorem nodup_pairs_product (key : α → β) (test : α → α → Bool) {M : List α}
    (hL : (L.map key).Nodup) (hM : (M.map key).Nodup) (hLM : ∀ a ∈ L, ∀ b ∈ M, key a ≠ key b) :
    ((pairs test (L.map (·, M))).map (pairKey key)).Nodup := by
  apply nodup_pairs
  · intro c hc
    obtain ⟨a, _, rfl⟩ := mem_map.mp hc
    exact hM
  rw [pairwise_map]
  have hne := pairwise_map.mp hL
  refine hne.imp_of_mem ?_
  intro a b ha _ hab
  exact ⟨hab, fun m hm => hLM a ha m hm⟩

theorem mem_pairs_cells (ha : a ∈ L) (hb : b ∈ L) (hne : a ≠ b) (hab : test a b = true)
    (hba : test b a = true) : (a, b) ∈ pairs test (cells L) ∨ (b, a) ∈ pairs test (cells L) := by
  obtain ⟨c, hc, rfl, h⟩ | ⟨c, hc, rfl, h⟩ := exists_mem_cells ha hb hne
  · exact Or.inl (mem_pairs.mpr ⟨c, hc, rfl, h, hab⟩)
  · exact Or.inr (mem_pairs.mpr ⟨c, hc, rfl, h, hba⟩)

theorem mem_pairs_product {M : List α} :
    (a, b) ∈ pairs test (L.map (·, M)) ↔ a ∈ L ∧ b ∈ M ∧ test a b = true := by
  rw [mem_pairs]
  constructor
  · rintro ⟨c, hc, rfl, hb, ht⟩
    obtain ⟨a, ha, rfl⟩ := mem_map.mp hc
    exact ⟨ha, hb, ht⟩
  · rintro ⟨ha, hb, ht⟩
    exact ⟨(a, M), mem_map_of_mem ha, rfl, hb, ht⟩

end AthenaPG.UnorderedPairs
