import Mathlib.Tactic

/-!
Quoted tokens.

A token ends at a quote that is not doubled; where an escape character is active, it
stands for itself only if doubled.

* `readQuoted_double`: text whose special characters are doubled reads back.
* `readQuoted_count`: in whatever reads, quotes and escape characters come in pairs.
-/

namespace AthenaPG.Quoting
open List

variable {α : Type} [DecidableEq α] {quote : α} {escape : Option α}

def Special (quote : α) (escape : Option α) (b : α) : Prop := b = quote ∨ some b = escape

instance (quote : α) (escape : Option α) (b : α) : Decidable (Special quote escape b) :=
  inferInstanceAs (Decidable (_ ∨ _))

/-- Read what follows an opening quote up to a closing quote at the very end.  There is
no value if the token ends earlier, does not end, or uses an escape sequence other than
a doubled escape character. -/
def readQuoted (quote : α) (escape : Option α) : List α → Option (List α)
  | [] => none
  | [b] => if b = quote then some [] else none
  | b :: b' :: rest =>
    if Special quote escape b then
      if b' = b then (readQuoted quote escape rest).map (b :: ·) else none
    else (readQuoted quote escape (b' :: rest)).map (b :: ·)

theorem readQuoted_special {b : α} (h : Special quote escape b) (rest : List α) :
    readQuoted quote escape (b :: b :: rest) = (readQuoted quote escape rest).map (b :: ·) := by
  rw [readQuoted, if_pos h, if_pos rfl]

theorem readQuoted_plain {b : α} (h : ¬ Special quote escape b) (rest : List α) :
    readQuoted quote escape (b :: rest) = (readQuoted quote escape rest).map (b :: ·) := by
  cases rest with
  | nil =>
    have hb : b ≠ quote := fun hb => h (Or.inl hb)
    simp [readQuoted, hb]
  | cons b' rest => rw [readQuoted, if_neg h]

/-- Text with doubled special characters reads back. -/
theorem readQuoted_double {doubled : α → Bool} (text : List α)
    (h : ∀ b ∈ text, doubled b = true ↔ Special quote escape b) :
    readQuoted quote escape
      (text.flatMap (fun b => if doubled b then [b, b] else [b]) ++ [quote]) = some text := by
  induction text with
  | nil => simp [readQuoted]
  | cons b text ih =>
    have ih := ih fun x hx => h x (by simp [hx])
    rw [flatMap_cons]
    by_cases hb : doubled b = true
    · rw [if_pos hb]
      simp only [cons_append, nil_append]
      rw [readQuoted_special ((h b (by simp)).mp hb), ih]
      rfl
    rw [if_neg hb]
    simp only [cons_append, nil_append]
    rw [readQuoted_plain (mt (h b (by simp)).mpr hb), ih]
    rfl

/-- The special characters of `text` are those of `value` in pairs, and a closing quote. -/
structure Paired (quote : α) (escape : Option α) (text value : List α) : Prop where
  quotes : text.count quote = 2 * value.count quote + 1
  escapes : ∀ e, escape = some e → e ≠ quote → text.count e = 2 * value.count e
  length : value.length + 1 ≤ text.length

variable {value text : List α}

theorem Paired.special (h : Paired quote escape text value) (b : α) :
    Paired quote escape (b :: b :: text) (b :: value) where
  quotes := by
    have hq := h.quotes
    simp only [count_cons]
    split <;> omega
  escapes e he hne := by
    have hq := h.escapes e he hne
    simp only [count_cons]
    split <;> omega
  length := by
    have hl := h.length
    simp only [length_cons]
    omega

theorem Paired.plain (h : Paired quote escape text value) {b : α}
    (hb : ¬ Special quote escape b) : Paired quote escape (b :: text) (b :: value) where
  quotes := by
    have hne : b ≠ quote := fun hq => hb (Or.inl hq)
    simpa [hne] using h.quotes
  escapes e he hne := by
    have hbe : b ≠ e := by
      rintro rfl
      exact hb (Or.inr he.symm)
    simpa [hbe] using h.escapes e he hne
  length := by
    have hl := h.length
    simp only [length_cons]
    omega

/-- What reads has its special characters in pairs, but for the closing quote. -/
theorem readQuoted_count (h : readQuoted quote escape text = some value) :
    Paired quote escape text value := by
  fun_induction readQuoted quote escape text generalizing value with
  | case1 => simp at h
  | case2 =>
    obtain rfl := Option.some.inj h
    exact ⟨by simp, fun e _ hne => by simp [Ne.symm hne], by simp⟩
  | case3 => simp at h
  | case4 b rest hb ih =>
    obtain ⟨value', hr, rfl⟩ := Option.map_eq_some_iff.mp h
    exact (ih hr).special b
  | case5 => simp at h
  | case6 b b' rest hb ih =>
    obtain ⟨value', hr, rfl⟩ := Option.map_eq_some_iff.mp h
    exact (ih hr).plain hb

end AthenaPG.Quoting
