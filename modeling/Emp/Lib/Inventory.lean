import Mathlib.Data.List.Nodup
import Mathlib.Data.List.Perm.Basic
import Mathlib.Logic.Function.Basic

/-!
# Items in places

A family of lists, one for each place, holds a stock of items.  `Partitions` says that every item
is in one place, and in one position there.  Moving items from one place to another, taking an
item out of the stock and putting a new one in keep that.

## Main definitions

* `Inventory.Partitions` — the lists partition the stock.
* `Inventory.move` — some items of one place go to the end of another one.
-/

namespace Inventory

variable {κ α : Type*}

/-- Every item is in one place, once. -/
structure Partitions (place : κ → List α) (stock : List α) : Prop where
  distinct : stock.Nodup
  nodup : ∀ c, (place c).Nodup
  apart : ∀ {c c' a}, a ∈ place c → a ∈ place c' → c = c'
  mem_iff : ∀ a, a ∈ stock ↔ ∃ c, a ∈ place c

theorem Partitions.mem {place : κ → List α} {stock : List α} {c : κ} {a : α}
    (h : Partitions place stock) (ha : a ∈ place c) : a ∈ stock := (h.mem_iff a).mpr ⟨c, ha⟩

variable [DecidableEq κ]

/-- `xs` leave the place `c`, where `ys` stay, for `c'`. -/
def move (place : κ → List α) (c c' : κ) (xs ys : List α) : κ → List α :=
  Function.update (Function.update place c ys) c' (place c' ++ xs)

variable {place : κ → List α} {stock xs ys : List α} {c c' d : κ} {a : α}

@[simp] theorem move_target : move place c c' xs ys c' = place c' ++ xs := Function.update_self ..

theorem move_source (h : c ≠ c') : move place c c' xs ys c = ys := by
  rw [move, Function.update_of_ne h, Function.update_self]

theorem move_other (hd : d ≠ c) (hd' : d ≠ c') : move place c c' xs ys d = place d := by
  rw [move, Function.update_of_ne hd', Function.update_of_ne hd]

/-- What is in a place after a move. -/
theorem mem_move (hne : c ≠ c') : a ∈ move place c c' xs ys d ↔
    (d = c' ∧ a ∈ xs) ∨ (if d = c then a ∈ ys else a ∈ place d) := by
  by_cases hd' : d = c'
  · subst hd'
    rw [move_target, if_neg hne.symm, List.mem_append]
    tauto
  · by_cases hd : d = c
    · subst hd
      rw [move_source hne, if_pos rfl]
      tauto
    · rw [move_other hd hd', if_neg hd]
      tauto

namespace Partitions

/-- Moving items keeps the partition. -/
theorem move (h : Partitions place stock) (hne : c ≠ c') (hsplit : (xs ++ ys).Perm (place c)) :
    Partitions (move place c c' xs ys) stock := by
  have hnodup : (xs ++ ys).Nodup := hsplit.nodup_iff.mpr (h.nodup c)
  obtain ⟨hxs, hys, hdisj⟩ := List.nodup_append.mp hnodup
  have hx : ∀ {b}, b ∈ xs → b ∈ place c := fun hb => hsplit.mem_iff.mp (List.mem_append_left _ hb)
  have hy : ∀ {b}, b ∈ ys → b ∈ place c := fun hb => hsplit.mem_iff.mp (List.mem_append_right _ hb)
  -- an item that has not moved is where it was
  have hold : ∀ {d b}, (if d = c then b ∈ ys else b ∈ place d) → b ∈ place d := by
    intro d b hb
    split_ifs at hb with hd
    · exact hd ▸ hy hb
    · exact hb
  have hmoved : ∀ {d b}, b ∈ xs → ¬ (if d = c then b ∈ ys else b ∈ place d) := by
    intro d b hbx hb
    have hdc : d = c := h.apart (hold hb) (hx hbx)
    rw [if_pos hdc] at hb
    exact hdisj b hbx b hb rfl
  refine ⟨h.distinct, fun d => ?_, fun {d d' b} hb hb' => ?_, fun b => ?_⟩
  · by_cases hd' : d = c'
    · subst hd'
      rw [move_target]
      refine List.nodup_append.mpr ⟨h.nodup d, hxs, fun b hb b' hb' heq => ?_⟩
      subst heq
      exact hne (h.apart (hx hb') hb)
    · by_cases hd : d = c
      · subst hd
        rwa [move_source hne]
      · rw [move_other hd hd']
        exact h.nodup d
  · rw [mem_move hne] at hb hb'
    rcases hb with ⟨rfl, hbx⟩ | hb
    · rcases hb' with ⟨rfl, -⟩ | hb'
      · rfl
      · exact absurd hb' (hmoved hbx)
    · rcases hb' with ⟨rfl, hbx⟩ | hb'
      · exact absurd hb (hmoved hbx)
      · exact h.apart (hold hb) (hold hb')
  · rw [h.mem_iff]
    constructor
    · rintro ⟨d, hb⟩
      by_cases hd : d = c
      · subst hd
        rcases List.mem_append.mp (hsplit.mem_iff.mpr hb) with hbx | hby
        · exact ⟨c', (mem_move hne).mpr (.inl ⟨rfl, hbx⟩)⟩
        · exact ⟨d, (mem_move hne).mpr (.inr (by rwa [if_pos rfl]))⟩
      · exact ⟨d, (mem_move hne).mpr (.inr (by rwa [if_neg hd]))⟩
    · rintro ⟨d, hb⟩
      rcases (mem_move hne).mp hb with ⟨-, hbx⟩ | hb
      · exact ⟨c, hx hbx⟩
      · exact ⟨d, hold hb⟩

/-- A new item. -/
theorem add (h : Partitions place stock) (hnew : a ∉ stock) :
    Partitions (Function.update place c (place c ++ [a])) (a :: stock) := by
  have hnone : ∀ d, a ∉ place d := fun d hd => hnew (h.mem hd)
  have hmem : ∀ d b, b ∈ Function.update place c (place c ++ [a]) d ↔
      b ∈ place d ∨ (d = c ∧ b = a) := by
    intro d b
    by_cases hd : d = c
    · subst hd
      simp
    · simp [hd]
  refine ⟨List.nodup_cons.mpr ⟨hnew, h.distinct⟩, fun d => ?_, fun {d d' b} hb hb' => ?_, fun b => ?_⟩
  · by_cases hd : d = c
    · subst hd
      rw [Function.update_self]
      refine List.nodup_append.mpr ⟨h.nodup d, List.nodup_singleton a, fun b hb b' hb' heq => ?_⟩
      rw [List.mem_singleton] at hb'
      exact hnone d (hb' ▸ heq ▸ hb)
    · rw [Function.update_of_ne hd]
      exact h.nodup d
  · rw [hmem] at hb hb'
    rcases hb with hb | ⟨rfl, rfl⟩
    · rcases hb' with hb' | ⟨-, rfl⟩
      · exact h.apart hb hb'
      · exact absurd hb (hnone d)
    · rcases hb' with hb' | ⟨rfl, -⟩
      · exact absurd hb' (hnone d')
      · rfl
  · simp only [List.mem_cons, h.mem_iff, hmem]
    constructor
    · rintro (rfl | ⟨d, hd⟩)
      · exact ⟨c, .inr ⟨rfl, rfl⟩⟩
      · exact ⟨d, .inl hd⟩
    · rintro ⟨d, hd | ⟨-, rfl⟩⟩
      · exact .inr ⟨d, hd⟩
      · exact .inl rfl

/-- An item is taken out. -/
theorem remove [DecidableEq α] (h : Partitions place stock) (hsplit : (a :: ys).Perm (place c)) :
    Partitions (Function.update place c ys) (stock.erase a) := by
  have hnodup := List.nodup_cons.mp (hsplit.nodup_iff.mpr (h.nodup c))
  have ha : a ∈ place c := hsplit.mem_iff.mp (List.mem_cons_self ..)
  have hmem : ∀ d b, b ∈ Function.update place c ys d ↔ b ≠ a ∧ b ∈ place d := by
    intro d b
    by_cases hd : d = c
    · subst hd
      rw [Function.update_self, ← hsplit.mem_iff, List.mem_cons]
      constructor
      · intro hb
        exact ⟨fun heq => hnodup.1 (heq ▸ hb), .inr hb⟩
      · rintro ⟨hne, hb⟩
        exact hb.resolve_left hne
    · rw [Function.update_of_ne hd]
      exact ⟨fun hb => ⟨fun heq => hd (h.apart (heq ▸ hb) ha), hb⟩, fun hb => hb.2⟩
  refine ⟨h.distinct.erase a, fun d => ?_, fun {d d' b} hb hb' => ?_, fun b => ?_⟩
  · by_cases hd : d = c
    · subst hd
      rw [Function.update_self]
      exact hnodup.2
    · rw [Function.update_of_ne hd]
      exact h.nodup d
  · exact h.apart ((hmem d b).mp hb).2 ((hmem d' b).mp hb').2
  · rw [h.distinct.mem_erase_iff, h.mem_iff]
    simp only [hmem, exists_and_left]

end Partitions

end Inventory
