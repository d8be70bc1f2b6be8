import Mathlib.Tactic

/-!
Finite tables whose elements carry their own key, no two of them the same one.

The elements stand in an arbitrary order; a table is used through `lookup`.

* `lookup_put`, `lookup_delete`: the operations as updates of the lookup function.
* `mem_entries_iff`: the elements are what can be looked up.
* `countP_put`, `countP_delete`: how the number of elements with a property changes.
-/

namespace AthenaPG
open List

structure KeyedTable {α κ : Type} (key : α → κ) where
  entries : List α
  nodup : (entries.map key).Nodup

namespace KeyedTable

variable {α κ : Type} [DecidableEq κ] {key : α → κ}

instance [DecidableEq α] : DecidableEq (KeyedTable key)
  | ⟨xs, _⟩, ⟨ys, _⟩ => decidable_of_iff (xs = ys) (by simp)

def empty : KeyedTable key := ⟨[], nodup_nil⟩

variable (t : KeyedTable key)

def lookup (k : κ) : Option α := t.entries.find? fun e => key e = k

/-- `e` in the place of the element with its key, or at the end. -/
def putList (key : α → κ) (e : α) : List α → List α
  | [] => [e]
  | x :: xs => if key x = key e then e :: xs else x :: putList key e xs

theorem map_putList (e : α) (xs : List α) :
    (putList key e xs).map key =
      if key e ∈ xs.map key then xs.map key else xs.map key ++ [key e] := by
  induction xs with
  | nil => simp [putList]
  | cons x xs ih =>
    by_cases hx : key x = key e
    · simp [putList, hx]
    have hx' : ¬ key e = key x := fun h => hx h.symm
    simp only [putList, if_neg hx, map_cons, ih, mem_cons, hx', false_or]
    split <;> simp

def put (e : α) : KeyedTable key where
  entries := putList key e t.entries
  nodup := by
    rw [map_putList]
    split
    · exact t.nodup
    next h => exact t.nodup.append (nodup_singleton _) (by simpa using h)

def delete (k : κ) : KeyedTable key where
  entries := t.entries.filter fun e => key e ≠ k
  nodup := t.nodup.sublist (filter_sublist.map key)

/-! ## Lookups -/

@[simp] theorem lookup_empty (k : κ) : (empty : KeyedTable key).lookup k = none := rfl

variable {t : KeyedTable key} {k : κ} {e : α}

theorem key_of_lookup (h : t.lookup k = some e) : key e = k := by simpa using find?_some h

theorem mem_of_lookup (h : t.lookup k = some e) : e ∈ t.entries := mem_of_find?_eq_some h

theorem lookup_eq_none : t.lookup k = none ↔ ∀ e ∈ t.entries, key e ≠ k := by simp [lookup]

theorem mem_entries_iff : e ∈ t.entries ↔ t.lookup (key e) = some e := by
  constructor
  · intro he
    cases h : t.lookup (key e) with
    | none => exact absurd rfl (lookup_eq_none.mp h e he)
    | some e' =>
      -- two elements with one key are the same element
      rw [inj_on_of_nodup_map t.nodup (mem_of_lookup h) he (key_of_lookup h)]
  · exact mem_of_lookup

theorem find?_putList (e : α) (xs : List α) (k : κ) :
    (putList key e xs).find? (fun e => key e = k) =
      if k = key e then some e else xs.find? fun e => key e = k := by
  induction xs with
  | nil =>
    by_cases hk : k = key e
    · simp [putList, hk]
    have hk' : ¬ key e = k := fun h => hk h.symm
    simp [putList, hk, hk']
  | cons x xs ih =>
    by_cases hx : key x = key e
    · by_cases hk : k = key e
      · simp [putList, hx, hk]
      have hk' : ¬ key e = k := fun h => hk h.symm
      simp [putList, hx, hk, hk']
    by_cases hxk : key x = k
    · have hk : ¬ k = key e := fun h => hx (hxk.trans h)
      simp [putList, hxk, hk]
    simp only [putList, if_neg hx, find?_cons, hxk, decide_false, ih]

theorem lookup_put (e : α) (k : κ) :
    (t.put e).lookup k = if k = key e then some e else t.lookup k :=
  find?_putList e t.entries k

theorem lookup_delete (j k : κ) : (t.delete j).lookup k = if k = j then none else t.lookup k := by
  simp only [lookup, delete, find?_filter]
  by_cases hk : k = j
  · subst hk
    simp
  rw [if_neg hk]
  congr 1
  funext e
  by_cases he : key e = k
  · simp [he, hk]
  · simp [he]

theorem empty_put_put {e' : α} (h : key e' = key e) :
    ((empty : KeyedTable key).put e).put e' = empty.put e' := by
  simp [put, empty, putList, h]

theorem empty_put_delete (e : α) : ((empty : KeyedTable key).put e).delete (key e) = empty := by
  simp [put, empty, putList, delete]

/-! ## Counting -/

def weight (p : α → Bool) (e : Option α) : Nat := if e.any p then 1 else 0

@[simp] theorem weight_some (p : α → Bool) (e : α) : weight p (some e) = if p e then 1 else 0 := rfl

@[simp] theorem weight_none (p : α → Bool) : weight p none = 0 := rfl

theorem countP_put (e : α) (p : α → Bool) :
    (t.put e).entries.countP p + weight p (t.lookup (key e)) =
      t.entries.countP p + weight p (some e) := by
  obtain ⟨xs, hn⟩ := t
  simp only [put, lookup]
  clear hn
  induction xs with
  | nil => simp [putList, countP_cons]
  | cons x xs ih =>
    by_cases hx : key x = key e
    · simp only [putList, if_true, find?_cons, hx, decide_true, countP_cons, weight_some]
      omega
    simp only [putList, if_false, find?_cons, hx, decide_false, countP_cons]
    omega

theorem countP_delete (k : κ) (p : α → Bool) :
    (t.delete k).entries.countP p + weight p (t.lookup k) = t.entries.countP p := by
  obtain ⟨xs, hn⟩ := t
  simp only [delete, lookup]
  induction xs with
  | nil => simp
  | cons x xs ih =>
    rw [map_cons, nodup_cons] at hn
    have ht := ih hn.2
    by_cases hx : key x = k
    · -- the key does not occur again
      have hf : xs.find? (fun e => key e = k) = none := by
        rw [find?_eq_none]
        intro e he heq
        exact hn.1 (by rw [hx, ← of_decide_eq_true heq]; exact mem_map_of_mem he)
      rw [hf] at ht
      simp only [filter_cons, hx, ne_eq, not_true_eq_false, decide_false, find?_cons,
        decide_true, countP_cons, weight_some, weight_none] at ht ⊢
      simp only [Bool.false_eq_true, if_false]
      omega
    simp only [filter_cons, hx, ne_eq, not_false_eq_true, decide_true, if_true,
      find?_cons, decide_false, countP_cons] at ht ⊢
    omega

end KeyedTable

end AthenaPG
