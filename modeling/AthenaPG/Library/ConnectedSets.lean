import Mathlib.Combinatorics.SimpleGraph.Acyclic
import Mathlib.Tactic

/-!
Connected finite sets of vertices.

* `connectedOn_union`: two connected sets with an edge between them form one;
* `ConnectedOn.exists_erase`: a connected set of two or more vertices has a vertex
  whose removal leaves it connected, with an edge back to it;
* `ConnectedOn.exists_adj_sdiff`: an edge leads out of every proper part.
-/

namespace AthenaPG.ConnectedSets

open SimpleGraph.Connected

variable {V : Type} {G : SimpleGraph V}

/-- The vertices of `S` are connected through `S`. -/
def ConnectedOn (G : SimpleGraph V) (S : Finset V) : Prop := (G.induce (S : Set V)).Connected

/-- An edge from `A` to `B`. -/
def Linked (G : SimpleGraph V) (A B : Finset V) : Prop := ∃ x ∈ A, ∃ y ∈ B, G.Adj x y

theorem Linked.symm {A B : Finset V} (h : Linked G A B) : Linked G B A := by
  obtain ⟨x, hx, y, hy, ha⟩ := h
  exact ⟨y, hy, x, hx, ha.symm⟩

theorem ConnectedOn.nonempty {S : Finset V} (h : ConnectedOn G S) : S.Nonempty := by
  obtain ⟨x⟩ := SimpleGraph.Connected.nonempty h
  exact ⟨x.1, x.2⟩

theorem connectedOn_singleton (x : V) : ConnectedOn G {x} := by
  have hs : Subsingleton ((({x} : Finset V) : Set V)) := by
    constructor
    rintro ⟨a, ha⟩ ⟨b, hb⟩
    simp only [Finset.coe_singleton, Set.mem_singleton_iff] at ha hb
    simp [ha, hb]
  have hne : Nonempty ((({x} : Finset V) : Set V)) := ⟨⟨x, by simp⟩⟩
  exact mk (SimpleGraph.Preconnected.of_subsingleton)

variable [DecidableEq V]

theorem connectedOn_union {A B : Finset V} (hA : ConnectedOn G A) (hB : ConnectedOn G B)
    (h : Linked G A B) : ConnectedOn G (A ∪ B) := by
  obtain ⟨x, hx, y, hy, ha⟩ := h
  unfold ConnectedOn
  rw [Finset.coe_union]
  exact SimpleGraph.connected_induce_union hA.preconnected hB.preconnected hx hy ha

theorem ConnectedOn.exists_adj_sdiff {S A : Finset V} (hS : ConnectedOn G S) (hA : A ⊆ S)
    (hne : A.Nonempty) (hp : A ≠ S) : Linked G A (S \ A) := by
  obtain ⟨x, hx⟩ := hne
  obtain ⟨y, hyS, hyA⟩ : ∃ y ∈ S, y ∉ A := by
    by_contra hno
    push Not at hno
    exact hp (Finset.Subset.antisymm hA hno)
  obtain ⟨p⟩ := hS.preconnected ⟨x, hA hx⟩ ⟨y, hyS⟩
  obtain ⟨d, -, hf, hs⟩ := p.exists_boundary_dart {v | v.1 ∈ A} hx hyA
  exact ⟨d.fst.1, hf, d.snd.1, Finset.mem_sdiff.mpr ⟨d.snd.2, hs⟩, d.adj⟩

theorem ConnectedOn.exists_erase {S : Finset V} (hS : ConnectedOn G S) (hc : 2 ≤ S.card) :
    ∃ x ∈ S, ConnectedOn G (S.erase x) ∧ Linked G (S.erase x) {x} := by
  have hnt : Nontrivial (S : Set V) := by
    obtain ⟨a, ha, b, hb, hab⟩ := Finset.one_lt_card.mp hc
    exact ⟨⟨a, ha⟩, ⟨b, hb⟩, fun h => hab (congrArg Subtype.val h)⟩
  obtain ⟨v, hv⟩ := exists_connected_induce_compl_singleton_of_finite_nontrivial hS
  -- what is left of the induced graph is the graph induced on what is left
  let f : (G.induce (S : Set V)).induce {v}ᶜ →g G.induce ((S.erase v.1 : Finset V) : Set V) :=
    { toFun := fun w => ⟨w.1.1, by
        have hw : w.1 ≠ v := w.2
        exact Finset.mem_coe.mpr (Finset.mem_erase.mpr
          ⟨fun h => hw (Subtype.ext h), w.1.2⟩)⟩
      map_rel' := fun h => h }
  have hs : Function.Surjective f := by
    rintro ⟨w, hw⟩
    obtain ⟨hne, hwS⟩ := Finset.mem_erase.mp (Finset.mem_coe.mp hw)
    exact ⟨⟨⟨w, hwS⟩, fun h => hne (congrArg Subtype.val h)⟩, rfl⟩
  have hr : ConnectedOn G (S.erase v.1) := hv.map f hs
  refine ⟨v.1, v.2, hr, ?_⟩
  have hne : S.erase v.1 ≠ S := by
    intro h
    have hn := Finset.notMem_erase v.1 S
    rw [h] at hn
    exact hn v.2
  have hl := hS.exists_adj_sdiff (Finset.erase_subset v.1 S) hr.nonempty hne
  rwa [Finset.sdiff_erase_self (Finset.mem_coe.mp v.2)] at hl

end AthenaPG.ConnectedSets
