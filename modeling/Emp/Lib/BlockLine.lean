import Mathlib.Data.List.Basic
import Mathlib.Order.Nat

/-!
# Sweeps over a line of blocks

Some slots of a line are taken by blocks, which are runs of slots.  A sweep moves a cursor up
the line, skips empty slots and visits the block at the cursor.  A block that is left by its
own length and not by its end carries the cursor's offset in the block along, so the cursor
lags behind the heads of the next blocks until it has crossed as many empty slots.

## Main definitions

* `BlockLine` — the line with its blocks.
* `BlockLine.Visits`, `BlockLine.Complete` — a sweep visits blocks of a range only, and all.
* `BlockLine.lag`, `BlockLine.Reached` — how far behind its head a sweep comes upon a block.
-/

namespace Emp

/-- A line of slots with the blocks that take them. -/
structure BlockLine (β : Type*) where
  block : ℕ → Option β
  first : β → ℕ
  size : β → ℕ
  inside : ∀ {i : ℕ} {b : β}, block i = some b → first b ≤ i ∧ i < first b + size b
  run : ∀ {i : ℕ} {b : β}, block i = some b →
    ∀ j, first b ≤ j → j < first b + size b → block j = some b

namespace BlockLine

variable {β : Type*} (L : BlockLine β)

/-- The block has a slot in the range. -/
def Meets (a z : ℕ) (b : β) : Prop := ∃ i, a ≤ i ∧ i < z ∧ L.block i = some b

/-- No block lies on both sides of the slot's start. -/
def Fresh (a : ℕ) : Prop := ∀ b, L.block a = some b → L.first b = a

/-- The blocks are blocks of the range, each once and in the order of the line. -/
structure Visits (a z : ℕ) (l : List β) : Prop where
  ascending : l.Pairwise fun b c => L.first b < L.first c
  meets : ∀ b ∈ l, L.Meets a z b

/-- No block of the range is missing. -/
def Complete (a z : ℕ) (l : List β) : Prop := ∀ b, L.Meets a z b → b ∈ l

/-- How far behind the head of its block a slot is. -/
def offset (a : ℕ) : ℕ := ((L.block a).map fun b => a - L.first b).getD 0

/-- What is left of the lag behind a slot. -/
def drift (shift : β → Bool) (k i : ℕ) : ℕ :=
  match L.block i with
  | none => k - 1
  | some b => if shift b then k else 0

def driftTo (shift : β → Bool) (k a m : ℕ) : ℕ :=
  (List.range' a (m - a)).foldl (L.drift shift) k

/-- How far behind its head a sweep from `a` comes upon a block, if it has not lost a block
before; `shift` are the blocks that the sweep leaves by their length. -/
def lag (shift : β → Bool) (a : ℕ) (b : β) : ℕ := L.driftTo shift (L.offset a) a (L.first b)

/-- Where the sweep goes on behind the block at the cursor. -/
def leave (shift : β → Bool) (a : ℕ) (b : β) : ℕ :=
  if shift b then a + L.size b else L.first b + L.size b

/-- No block of the range is shorter than the lag or ends the range within it. -/
def Reached (shift : β → Bool) (a z : ℕ) : Prop :=
  ∀ b, L.Meets a z b → L.lag shift a b < L.size b ∧ L.first b + L.lag shift a b < z

variable {L} {a e i k m n z : ℕ} {b c : β} {l l' : List β} {shift : β → Bool}

/-! ### Blocks and ranges -/

theorem Meets.mono (h : L.Meets a z b) (ha : m ≤ a) (hz : z ≤ n) : L.Meets m n b := by
  obtain ⟨i, hai, hiz, hi⟩ := h
  exact ⟨i, ha.trans hai, hiz.trans_le hz, hi⟩

theorem Meets.split (h : L.Meets a z b) (m : ℕ) : L.Meets a m b ∨ L.Meets m z b := by
  obtain ⟨i, hai, hiz, hi⟩ := h
  rcases Nat.lt_or_ge i m with hlt | hge
  · exact .inl ⟨i, hai, hlt, hi⟩
  · exact .inr ⟨i, hge, hiz, hi⟩

theorem not_meets_of_empty (h : ∀ i, a ≤ i → i < z → L.block i = none) : ¬ L.Meets a z b := by
  rintro ⟨i, hai, hiz, hi⟩
  exact Option.some_ne_none b (hi.symm.trans (h i hai hiz))

theorem fresh_stop (h : L.block i = some b) : L.Fresh (L.first b + L.size b) := by
  intro c hc
  obtain ⟨hbi, hib⟩ := L.inside h
  obtain ⟨hcb, hbc⟩ := L.inside hc
  by_contra hne
  -- the last slot of `b` would be a slot of `c` too
  have hlast := L.run hc (L.first b + L.size b - 1) (by omega) (by omega)
  have hlast' := L.run h (L.first b + L.size b - 1) (by omega) (by omega)
  obtain rfl : c = b := Option.some.inj (hlast.symm.trans hlast')
  exact absurd hbc (Nat.lt_irrefl _)

theorem fresh_succ (h : L.block a = none) : L.Fresh (a + 1) := by
  intro b hb
  have hin := L.inside hb
  by_contra hne
  have hat := L.run hb a (by omega) (by omega)
  exact Option.some_ne_none b (hat.symm.trans h)

/-- A block met from a fresh slot on starts there or behind. -/
theorem Fresh.le_first (hm : L.Fresh m) (h : L.Meets m z b) : m ≤ L.first b := by
  obtain ⟨i, hmi, -, hi⟩ := h
  by_contra hlt
  have hin := L.run hi m (Nat.le_of_lt (Nat.lt_of_not_le hlt)) (hmi.trans_lt (L.inside hi).2)
  exact hlt (hm b hin).ge

theorem Meets.at_first (h : L.Meets a z b) : L.block (L.first b) = some b := by
  obtain ⟨i, -, -, hi⟩ := h
  obtain ⟨hfi, hif⟩ := L.inside hi
  exact L.run hi _ le_rfl (by omega)

theorem Meets.first_lt (h : L.Meets a z b) : L.first b < z := by
  obtain ⟨i, -, hiz, hi⟩ := h
  exact (L.inside hi).1.trans_lt hiz

theorem Meets.lt_stop (h : L.Meets a z b) : a < L.first b + L.size b := by
  obtain ⟨i, hai, -, hi⟩ := h
  exact hai.trans_lt (L.inside hi).2

theorem Meets.size_pos (h : L.Meets a z b) : 0 < L.size b := by
  obtain ⟨i, -, -, hi⟩ := h
  have hin := L.inside hi
  omega

/-! ### Visits -/

theorem visits_nil (a z : ℕ) : L.Visits a z [] :=
  ⟨List.Pairwise.nil, fun _ hb => absurd hb List.not_mem_nil⟩

theorem Visits.mono (h : L.Visits m z l) (ha : a ≤ m) : L.Visits a z l :=
  ⟨h.ascending, fun b hb => (h.meets b hb).mono ha le_rfl⟩

/-- The block at the cursor comes first, when the sweep goes on behind it. -/
theorem Visits.cons (h : L.Visits m z l) (hb : L.block a = some b) (haz : a < z)
    (hm : L.first b + L.size b ≤ m) : L.Visits a z (b :: l) := by
  have hin := L.inside hb
  refine ⟨List.pairwise_cons.mpr ⟨fun c hc => ?_, h.ascending⟩, fun c hc => ?_⟩
  · have hle := (fresh_stop hb).le_first ((h.meets c hc).mono hm le_rfl)
    omega
  · rcases List.mem_cons.mp hc with rfl | hc
    · exact ⟨a, le_rfl, haz, hb⟩
    · exact (h.meets c hc).mono (by omega) le_rfl

theorem Visits.singleton (hb : L.block a = some b) (haz : a < z) : L.Visits a z [b] :=
  (visits_nil (L.first b + L.size b) z).cons hb haz le_rfl

/-- Every block is visited once. -/
theorem Visits.nodup (h : L.Visits a z l) : l.Nodup :=
  h.ascending.imp fun hlt heq => absurd (heq ▸ hlt) (Nat.lt_irrefl _)

theorem Complete.cons (h : L.Complete (L.first b + L.size b) z l) (hb : L.block a = some b) :
    L.Complete a z (b :: l) := by
  intro c hc
  rcases hc.split (L.first b + L.size b) with ⟨i, hai, hi, hci⟩ | hc
  · have hin := L.run hb i ((L.inside hb).1.trans hai) hi
    exact Option.some.inj (hci.symm.trans hin) ▸ List.mem_cons_self ..
  · exact List.mem_cons_of_mem _ (h c hc)

theorem Complete.skip (h : L.Complete m z l) (hempty : ∀ i, a ≤ i → i < m → L.block i = none) :
    L.Complete a z l := fun c hc =>
  h c ((hc.split m).resolve_left (not_meets_of_empty hempty))

theorem complete_of_le (h : z ≤ a) : L.Complete a z l := by
  rintro b ⟨i, hai, hiz, -⟩
  omega

/-! ### The lag -/

theorem le_leave (hb : L.block a = some b) : L.first b + L.size b ≤ L.leave shift a b := by
  have hin := L.inside hb
  rw [leave]
  split_ifs <;> omega

theorem driftTo_self (k a : ℕ) : L.driftTo shift k a a = k := by
  rw [driftTo, Nat.sub_self, List.range'_zero, List.foldl_nil]

theorem driftTo_trans (ham : a ≤ m) (hmn : m ≤ n) :
    L.driftTo shift k a n = L.driftTo shift (L.driftTo shift k a m) m n := by
  have happend := List.range'_append_1 (s := a) (m := m - a) (n := n - m)
  rw [Nat.add_sub_cancel' ham] at happend
  have hlen : m - a + (n - m) = n - a := by omega
  rw [driftTo, driftTo, driftTo, ← List.foldl_append, happend, hlen]

theorem driftTo_succ : L.driftTo shift k a (a + 1) = L.drift shift k a := by
  rw [driftTo, Nat.add_sub_cancel_left, List.range'_one, List.foldl_cons, List.foldl_nil]

theorem driftTo_zero (ham : a ≤ m) : L.driftTo shift 0 a m = 0 := by
  induction m, ham using Nat.le_induction with
  | base => exact driftTo_self 0 a
  | succ m ham ih =>
      rw [driftTo_trans ham (Nat.le_succ m), ih, driftTo_succ, drift]
      cases L.block m with
      | none => rfl
      | some b => simp only [ite_self]

/-- Empty slots make up for the lag. -/
theorem driftTo_of_empty (ham : a ≤ m) (h : ∀ i, a ≤ i → i < m → L.block i = none) :
    L.driftTo shift k a m = k - (m - a) := by
  induction m, ham using Nat.le_induction with
  | base => rw [driftTo_self, Nat.sub_self, Nat.sub_zero]
  | succ m ham ih =>
      rw [driftTo_trans ham (Nat.le_succ m), ih fun i hai him => h i hai (Nat.lt_succ_of_lt him),
        driftTo_succ, drift, h m ham (Nat.lt_succ_self m)]
      simp only
      omega

/-- A block keeps the lag, or ends it. -/
theorem driftTo_of_block (hb : L.block a = some b) (ham : a < m)
    (hm : m ≤ L.first b + L.size b) :
    L.driftTo shift k a m = if shift b then k else 0 := by
  induction m, ham using Nat.le_induction with
  | base => rw [driftTo_succ, drift, hb]
  | succ m ham ih =>
      have hat : L.block m = some b :=
        L.run hb m ((L.inside hb).1.trans (Nat.le_of_lt ham)) hm
      rw [driftTo_trans (Nat.le_of_lt ham) (Nat.le_succ m), ih (Nat.le_of_succ_le hm),
        driftTo_succ, drift, hat]
      simp only
      split_ifs <;> rfl

theorem offset_of_block (hb : L.block a = some b) : L.offset a = a - L.first b := by
  rw [offset, hb, Option.map_some, Option.getD_some]

theorem Fresh.offset (h : L.Fresh a) : L.offset a = 0 := by
  rw [BlockLine.offset]
  cases ha : L.block a with
  | none => rfl
  | some b => rw [Option.map_some, Option.getD_some, h b ha, Nat.sub_self]

theorem lag_of_first_le (h : L.first b ≤ a) : L.lag shift a b = L.offset a := by
  rw [lag, driftTo, Nat.sub_eq_zero_of_le h, List.range'_zero, List.foldl_nil]

/-- Behind the block at the cursor the lag is how far the sweep goes on behind its end. -/
theorem driftTo_stop (hb : L.block a = some b) :
    L.driftTo shift (L.offset a) a (L.first b + L.size b) =
      L.leave shift a b - (L.first b + L.size b) := by
  have hin := L.inside hb
  rw [driftTo_of_block hb hin.2 le_rfl, offset_of_block hb, leave]
  split_ifs <;> omega

/-- The lag at the next block. -/
theorem lag_next (hb : L.block a = some b) (hc : L.first b + L.size b ≤ L.first c)
    (hempty : ∀ i, L.first b + L.size b ≤ i → i < L.first c → L.block i = none) :
    L.lag shift a c = L.leave shift a b - L.first c := by
  have hin := L.inside hb
  rw [lag, driftTo_trans hin.2.le hc, driftTo_stop hb, driftTo_of_empty hc hempty]
  omega

/-- From a fresh slot on, the next block of a range, behind empty slots. -/
theorem Fresh.exists_next (he : L.Fresh e) (h : L.Meets e z b) :
    ∃ c, L.Meets e z c ∧ e ≤ L.first c ∧ L.first c ≤ L.first b ∧
      ∀ i, e ≤ i → i < L.first c → L.block i = none := by
  have hex : ∃ i, e ≤ i ∧ (L.block i).isSome := by
    obtain ⟨i, hei, -, hi⟩ := h
    exact ⟨i, hei, Option.isSome_iff_exists.mpr ⟨b, hi⟩⟩
  obtain ⟨hle, hsome⟩ := Nat.find_spec hex
  have hmin : ∀ i, e ≤ i → i < Nat.find hex → L.block i = none := by
    intro i hei hlt
    by_contra hne
    exact Nat.find_min hex hlt ⟨hei, Option.isSome_iff_ne_none.mpr hne⟩
  have hb : L.block (L.first b) = some b := h.at_first
  have hleb : Nat.find hex ≤ L.first b :=
    Nat.find_min' hex ⟨he.le_first h, Option.isSome_iff_exists.mpr ⟨b, hb⟩⟩
  obtain ⟨c, hc⟩ := Option.isSome_iff_exists.mp hsome
  have hmeets : L.Meets e z c := ⟨_, hle, hleb.trans_lt h.first_lt, hc⟩
  have hfirst : L.first c ≤ Nat.find hex := (L.inside hc).1
  exact ⟨c, hmeets, he.le_first hmeets, hfirst.trans hleb,
    fun i hei hlt => hmin i hei (hlt.trans_le hfirst)⟩

/-- A sweep that has gone on behind a block comes upon the later ones with the same lag, unless
it has lost a block. -/
theorem lag_leave (hb : L.block a = some b)
    (hkept : ∀ c, L.Meets (L.first b + L.size b) (L.leave shift a b) c →
      L.leave shift a b < L.first c + L.size c)
    (hc : L.Meets (L.leave shift a b) z c) :
    L.lag shift a c = L.lag shift (L.leave shift a b) c := by
  have hin := L.inside hb
  have he : L.first b + L.size b ≤ L.leave shift a b := le_leave hb
  have hfresh := fresh_stop hb
  set m := L.leave shift a b with hm
  by_cases hinside : ∃ d, L.block m = some d ∧ L.first d < m
  · obtain ⟨d, hd, hdm⟩ := hinside
    have hind := L.inside hd
    have hed : L.first b + L.size b ≤ L.first d := hfresh.le_first ⟨m, he, Nat.lt_succ_self m, hd⟩
    have hempty : ∀ i, L.first b + L.size b ≤ i → i < L.first d → L.block i = none := by
      intro i hei hid
      by_contra hne
      obtain ⟨c', hc'⟩ := Option.ne_none_iff_exists'.mp hne
      have hin' := L.inside hc'
      have hstop := hkept c' ⟨i, hei, hid.trans hdm, hc'⟩
      have hsame := L.run hc' m (by omega) hstop
      obtain rfl : c' = d := Option.some.inj (hsame.symm.trans hd)
      omega
    have hlag : L.lag shift a d = m - L.first d := lag_next hb hed hempty
    have hoffset : L.offset m = m - L.first d := offset_of_block hd
    by_cases hcd : c = d
    · rw [hcd, hlag, lag_of_first_le hdm.le, hoffset]
    · -- the later block starts behind `d`, up to whose end both lags are the same
      have hdc : L.first d + L.size d ≤ L.first c := by
        rcases hc.split (L.first d + L.size d) with ⟨i, hmi, hid, hi⟩ | hc'
        · have hat := L.run hd i (hdm.le.trans hmi) hid
          exact absurd (Option.some.inj (hi.symm.trans hat)) hcd
        · exact (fresh_stop hd).le_first hc'
      have hfirst : L.block (L.first d) = some d := L.run hd _ le_rfl (by omega)
      rw [lag, driftTo_trans (show a ≤ L.first d by omega) (show L.first d ≤ L.first c by omega),
        ← lag, hlag, driftTo_trans (show L.first d ≤ L.first d + L.size d by omega) hdc,
        driftTo_of_block hfirst (by omega) le_rfl, lag,
        driftTo_trans hind.2.le hdc, driftTo_of_block hd hind.2 le_rfl, hoffset]
  · have hfreshm : L.Fresh m := fun d hd => by
      by_contra hne
      exact hinside ⟨d, hd, lt_of_le_of_ne (L.inside hd).1 hne⟩
    have hempty : ∀ i, L.first b + L.size b ≤ i → i < m → L.block i = none := by
      intro i hei him
      by_contra hne
      obtain ⟨d, hd⟩ := Option.ne_none_iff_exists'.mp hne
      have hind := L.inside hd
      have hat := L.run hd m (by omega) (hkept d ⟨i, hei, him, hd⟩)
      have hfirst := hfreshm d hat
      omega
    rw [lag, lag, driftTo_trans (show a ≤ m by omega) (hfreshm.le_first hc),
      driftTo_trans hin.2.le he, driftTo_stop hb, driftTo_of_empty he hempty, hfreshm.offset,
      ← hm, Nat.sub_self]

/-- Behind the block at the cursor. -/
theorem complete_cons_iff (hb : L.block a = some b) (hz : L.leave shift a b < z)
    (hv : L.Visits (L.leave shift a b) z l)
    (ih : L.Complete (L.leave shift a b) z l ↔ L.Reached shift (L.leave shift a b) z) :
    L.Complete a z (b :: l) ↔ L.Reached shift a z := by
  have hin := L.inside hb
  have he : L.first b + L.size b ≤ L.leave shift a b := le_leave hb
  have hfresh := fresh_stop hb
  by_cases hkept : ∀ c, L.Meets (L.first b + L.size b) (L.leave shift a b) c →
      L.leave shift a b < L.first c + L.size c
  · have hrest : ∀ c, L.Meets a z c → c = b ∨ L.Meets (L.leave shift a b) z c := by
      intro c hc
      rcases hc.split (L.first b + L.size b) with ⟨i, hai, hi, hci⟩ | hc
      · exact .inl (Option.some.inj (hci.symm.trans (L.run hb i (hin.1.trans hai) hi)))
      · rcases hc.split (L.leave shift a b) with hc | hc
        · have hat := L.run hc.at_first _ hc.first_lt.le (hkept c hc)
          exact .inr ⟨_, le_rfl, hz, hat⟩
        · exact .inr hc
    have hself : L.lag shift a b < L.size b ∧ L.first b + L.lag shift a b < z := by
      rw [lag_of_first_le hin.1, offset_of_block hb]
      omega
    refine ⟨fun h c hc => ?_, fun h c hc => ?_⟩
    · rcases hrest c hc with rfl | hc
      · exact hself
      · rw [lag_leave hb hkept hc]
        refine ih.mp (fun d hd => ?_) c hc
        refine (List.mem_cons.mp (h d (hd.mono (by omega) le_rfl))).resolve_left ?_
        rintro rfl
        exact absurd hd.lt_stop (not_lt.mpr he)
    · rcases hrest c hc with rfl | hc
      · exact List.mem_cons_self ..
      · refine List.mem_cons_of_mem _ (ih.mpr (fun d hd => ?_) c hc)
        rw [← lag_leave hb hkept hd]
        exact h d (hd.mono (by omega) le_rfl)
  · -- the first block behind is lost
    push Not at hkept
    obtain ⟨c, hc, hlost⟩ := hkept
    obtain ⟨d, hd, hed, hdc, hempty⟩ := hfresh.exists_next hc
    have hdlost : L.first d + L.size d ≤ L.leave shift a b := by
      rcases hc.split (L.first d + L.size d) with ⟨i, hei, hid, hi⟩ | hc'
      · have hic := L.inside hi
        have hat := L.run hd.at_first i (hdc.trans hic.1) hid
        obtain rfl : c = d := Option.some.inj (hi.symm.trans hat)
        exact hlost
      · exact ((fresh_stop hd.at_first).le_first hc').trans hc.first_lt.le
    have hin' : L.Meets a z d := hd.mono (by omega) hz.le
    refine ⟨fun h => ?_, fun h => ?_⟩
    · rcases List.mem_cons.mp (h d hin') with rfl | hmem
      · omega
      · exact absurd (hv.meets d hmem).lt_stop (not_lt.mpr hdlost)
    · have hlag := (h d hin').1
      rw [lag_next hb hed hempty] at hlag
      omega

/-- The block at the cursor is the last one that the sweep comes upon. -/
theorem complete_singleton_iff (hb : L.block a = some b) (haz : a < z)
    (hz : z ≤ L.leave shift a b) : L.Complete a z [b] ↔ L.Reached shift a z := by
  have hin := L.inside hb
  by_cases hmore : ∃ c, L.Meets (L.first b + L.size b) z c
  · obtain ⟨c, hc⟩ := hmore
    obtain ⟨d, hd, hed, -, hempty⟩ := (fresh_stop hb).exists_next hc
    have hin' : L.Meets a z d := hd.mono (by omega) le_rfl
    refine ⟨fun h => ?_, fun h => ?_⟩
    · obtain rfl := List.mem_singleton.mp (h d hin')
      omega
    · have hlag := (h d hin').2
      have hlt := hd.first_lt
      rw [lag_next hb hed hempty] at hlag
      omega
  · have hall : ∀ c, L.Meets a z c → c = b := by
      intro c hc
      rcases hc.split (L.first b + L.size b) with ⟨i, hai, hi, hci⟩ | hc
      · exact Option.some.inj (hci.symm.trans (L.run hb i (hin.1.trans hai) hi))
      · exact absurd ⟨c, hc⟩ hmore
    refine ⟨fun _ c hc => ?_, fun _ c hc => List.mem_singleton.mpr (hall c hc)⟩
    rw [hall c hc, lag_of_first_le hin.1, offset_of_block hb]
    omega

/-- Over empty slots up to a fresh one. -/
theorem complete_skip_iff (hempty : ∀ i, a ≤ i → i < m → L.block i = none) (ham : a < m)
    (hm : L.Fresh m) (ih : L.Complete m z l ↔ L.Reached shift m z) :
    L.Complete a z l ↔ L.Reached shift a z := by
  have hrest : ∀ c, L.Meets a z c → L.Meets m z c := fun c hc =>
    (hc.split m).resolve_left (not_meets_of_empty hempty)
  have hfresh : L.Fresh a := fun b hb => by
    rw [hempty a le_rfl ham] at hb
    cases hb
  have hlag : ∀ c, L.Meets m z c → L.lag shift a c = L.lag shift m c := by
    intro c hc
    rw [lag, lag, hfresh.offset, hm.offset, driftTo_zero (ham.le.trans (hm.le_first hc)),
      driftTo_zero (hm.le_first hc)]
  refine ⟨fun h c hc => ?_, fun h => Complete.skip (ih.mpr fun c hc => ?_) hempty⟩
  · rw [hlag c (hrest c hc)]
    exact ih.mp (fun d hd => h d (hd.mono ham.le le_rfl)) c (hrest c hc)
  · rw [← hlag c hc]
    exact h c (hc.mono ham.le le_rfl)

/-- Nothing is left to visit. -/
theorem complete_nil_iff (h : ∀ i, a ≤ i → i < z → L.block i = none) :
    L.Complete a z [] ↔ L.Reached shift a z :=
  ⟨fun _ _ hc => absurd hc (not_meets_of_empty h), fun _ _ hc => absurd hc (not_meets_of_empty h)⟩

/-- A sweep that leaves every block by its end loses none. -/
theorem reached_of_no_shift (h : ∀ b, L.Meets a z b → shift b = false) : L.Reached shift a z := by
  intro b hb
  have hstop := hb.lt_stop
  have hlt := hb.first_lt
  have hpos := hb.size_pos
  by_cases ha : L.Fresh a
  · rw [lag, ha.offset, driftTo_zero (ha.le_first hb)]
    omega
  · obtain ⟨c, hc⟩ : ∃ c, L.block a = some c := by
      by_contra hnone
      exact ha fun c hc => absurd ⟨c, hc⟩ hnone
    have hin := L.inside hc
    have haz : a < z := by
      obtain ⟨i, hai, hiz, -⟩ := hb
      omega
    by_cases hbc : b = c
    · rw [hbc, lag_of_first_le hin.1, offset_of_block hc]
      omega
    · have hle : L.first c + L.size c ≤ L.first b := by
        rcases hb.split (L.first c + L.size c) with ⟨i, hai, hi, hbi⟩ | hb'
        · exact absurd (Option.some.inj (hbi.symm.trans (L.run hc i (hin.1.trans hai) hi))) hbc
        · exact (fresh_stop hc).le_first hb'
      rw [lag, driftTo_trans hin.2.le hle, driftTo_stop hc, leave, h c ⟨a, le_rfl, haz, hc⟩]
      simp only [Bool.false_eq_true, if_false, Nat.sub_self]
      rw [driftTo_zero hle]
      omega

theorem reached_succ (shift : β → Bool) (a : ℕ) : L.Reached shift a (a + 1) := by
  rintro b ⟨i, hai, hi, hb⟩
  obtain rfl : i = a := by omega
  have hin := L.inside hb
  rw [lag_of_first_le hin.1, offset_of_block hb]
  omega

end BlockLine

end Emp
