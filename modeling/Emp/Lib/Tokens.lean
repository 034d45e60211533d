import Mathlib.Algebra.Order.Ring.Nat
import Mathlib.Data.List.TakeWhile

/-!
# Tokens of a text

`strtok_r` with one delimiter, and all that it finds in a text when it is called again and again.
Delimiters that follow each other count as one, and those at the ends count for nothing.

## Main definitions

* `strtok` — one call.
* `tokens` — what the calls give, one after the other.
* `joined` — parts with a delimiter between any two.
* `tokens_joined` — parts that were joined are found again.
-/

namespace Tokens

variable {α : Type*} [DecidableEq α] {d : α} {s r t : List α} {ts : List (List α)}

/-- `strtok_r`: the token, if there is one, and what is kept for the next call. -/
def strtok (d : α) (s : List α) : Option (List α) × List α :=
  match s.dropWhile (· = d) with
  | [] => (none, [])
  | c :: t => (some ((c :: t).takeWhile (· ≠ d)), ((c :: t).dropWhile (· ≠ d)).tail)

/-- A call that finds a token uses up some of the text. -/
theorem length_strtok_lt (h : strtok d s = (some t, r)) : r.length < s.length := by
  have hle : (s.dropWhile (· = d)).length ≤ s.length := List.length_dropWhile_le _ s
  rw [strtok] at h
  split at h
  next => simp at h
  next c x heq =>
    have hc : c ≠ d := by
      have := List.head?_dropWhile_not (fun x => decide (x = d)) s
      rw [heq] at this
      simpa using this
    rw [heq, List.length_cons] at hle
    have hr : (x.dropWhile (· ≠ d)).tail = r := by simpa [hc] using (Prod.mk.inj h).2
    have hx : (x.dropWhile (· ≠ d)).length ≤ x.length := List.length_dropWhile_le _ x
    rw [← hr, List.length_tail]
    omega

/-- What the calls find, one after the other. -/
def tokens (d : α) (s : List α) : List (List α) :=
  match _h : strtok d s with
  | (none, _) => []
  | (some t, r) => t :: tokens d r
termination_by s.length
decreasing_by exact length_strtok_lt _h

attribute [grind =] tokens

theorem tokens_of_none (h : strtok d s = (none, r)) : tokens d s = [] := by
  rw [tokens]
  split
  next => rfl
  next heq => simp [heq] at h

theorem tokens_of_some (h : strtok d s = (some t, r)) : tokens d s = t :: tokens d r := by
  rw [tokens]
  split
  next heq => simp [heq] at h
  next heq =>
    rw [h] at heq
    simp only [Prod.mk.injEq, Option.some.injEq] at heq
    rw [heq.1, heq.2]

/-- What a call finds is the first token, and the later calls find the others. -/
theorem strtok_fst (d : α) (s : List α) : (strtok d s).1 = (tokens d s).head? := by
  cases h : strtok d s with
  | mk o r =>
      cases o with
      | none => rw [tokens_of_none h]; rfl
      | some t => rw [tokens_of_some h]; rfl

theorem tokens_strtok_snd (d : α) (s : List α) :
    tokens d (strtok d s).2 = (tokens d s).tail := by
  cases h : strtok d s with
  | mk o r =>
      cases o with
      | none =>
          rw [tokens_of_none h]
          have hr : r = [] := by
            rw [strtok] at h
            split at h
            · exact (Prod.mk.inj h).2.symm
            · simp at h
          subst hr
          exact tokens_of_none rfl
      | some t => rw [tokens_of_some h]; rfl

/-- No token, one, or more. -/
theorem tokens_cases (d : α) (s : List α) : tokens d s = [] ∨ (∃ t, tokens d s = [t]) ∨
    ∃ t u ts, tokens d s = t :: u :: ts := by
  cases tokens d s with
  | nil => exact .inl rfl
  | cons t ts =>
      cases ts with
      | nil => exact .inr (.inl ⟨t, rfl⟩)
      | cons u ts => exact .inr (.inr ⟨t, u, ts, rfl⟩)

theorem strtok_singleton (ht : t ≠ []) (hd : d ∉ t) : strtok d t = (some t, []) := by
  have hall : ∀ x ∈ t, decide (x ≠ d) = true := fun x hx => by
    simpa using fun heq : x = d => hd (heq ▸ hx)
  obtain ⟨c, x, rfl⟩ := List.exists_cons_of_ne_nil ht
  have hc : c ≠ d := by simpa using hall c List.mem_cons_self
  rw [strtok, List.dropWhile_cons_of_neg (by simpa using hc)]
  simp only
  rw [List.takeWhile_eq_self_iff.mpr hall, List.dropWhile_eq_nil_iff.mpr hall]
  rfl

theorem strtok_cons (ht : t ≠ []) (hd : d ∉ t) : strtok d (t ++ d :: r) = (some t, r) := by
  have hall : ∀ x ∈ t, decide (x ≠ d) = true := fun x hx => by
    simpa using fun heq : x = d => hd (heq ▸ hx)
  obtain ⟨c, x, rfl⟩ := List.exists_cons_of_ne_nil ht
  have hc : c ≠ d := by simpa using hall c List.mem_cons_self
  rw [strtok, List.cons_append, List.dropWhile_cons_of_neg (by simpa using hc)]
  simp only
  rw [← List.cons_append, List.takeWhile_append_of_pos hall, List.dropWhile_append_of_pos hall]
  simp

/-- Parts with a delimiter between any two. -/
def joined (d : α) : List (List α) → List α
  | [] => []
  | [t] => t
  | t :: u :: ts => t ++ d :: joined d (u :: ts)

attribute [grind =] joined

/-- Parts that were joined are found again, if none is empty or has a delimiter in it. -/
theorem tokens_joined (h : ∀ t ∈ ts, t ≠ [] ∧ d ∉ t) : tokens d (joined d ts) = ts := by
  induction ts with
  | nil => exact tokens_of_none rfl
  | cons t ts ih =>
      obtain ⟨ht, hd⟩ := h t List.mem_cons_self
      have ih := ih fun u hu => h u (List.mem_cons_of_mem t hu)
      cases ts with
      | nil => rw [joined, tokens_of_some (strtok_singleton ht hd), tokens_of_none rfl]
      | cons u ts => rw [joined, tokens_of_some (strtok_cons ht hd), ih]

omit [DecidableEq α] in
theorem mem_joined {x : α} (h : x ∈ joined d ts) : x = d ∨ ∃ t ∈ ts, x ∈ t := by
  induction ts with
  | nil => simp [joined] at h
  | cons t ts ih =>
      cases ts with
      | nil => exact .inr ⟨t, List.mem_cons_self, h⟩
      | cons u ts =>
          rw [joined, List.mem_append, List.mem_cons] at h
          rcases h with h | h | h
          · exact .inr ⟨t, List.mem_cons_self, h⟩
          · exact .inl h
          · rcases ih h with h | ⟨v, hv, hx⟩
            · exact .inl h
            · exact .inr ⟨v, List.mem_cons_of_mem t hv, hx⟩

omit [DecidableEq α] in
theorem joined_ne_nil (hts : ts ≠ []) (h : ∀ t ∈ ts, t ≠ []) : joined d ts ≠ [] := by
  cases ts with
  | nil => exact absurd rfl hts
  | cons t ts =>
      have ht := h t List.mem_cons_self
      cases ts with
      | nil => exact ht
      | cons u ts => simp [joined]

end Tokens
