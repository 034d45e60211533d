import Mathlib.Data.Nat.Notation
import Mathlib.Algebra.Order.Ring.Nat
import Mathlib.Tactic.Ring

/-!
# Tilings by aligned runs of powers of two

A range of the natural numbers is tiled by runs of `2 ^ p` numbers that start at a multiple of
`2 ^ p`, as a buddy allocator keeps them.  The tiling is given by the order `ord x` of the run
that each `x` lies in; two numbers lie in the same run of order `p` when they agree above bit
`p`.

## Main definitions

* `alignDown` — the first number of the run of a given order.
* `Tiled a b ord` — `ord` tiles `[a, b)`.
* `Tiled.replace` — a part of a tiling that is a union of runs is tiled anew.
* `strides` — the first members of the runs, found by going from run to run.
* `Consecutive` — a list of runs, given by start and order, that fill a range one after the
  other.
-/

/-- The first number of the run of `2 ^ p` numbers that `x` lies in. -/
def alignDown (p x : ℕ) : ℕ := x / 2 ^ p * 2 ^ p

/-- Every `x` of `[a, b)` lies in a run of its order inside `[a, b)`, all of whose members have
that order. -/
def Tiled (a b : ℕ) (ord : ℕ → ℕ) : Prop :=
  ∀ x, a ≤ x → x < b → ∀ y, y / 2 ^ ord x = x / 2 ^ ord x → a ≤ y ∧ y < b ∧ ord y = ord x

/-- The numbers met on the way from `a` to `b` in strides of the runs' lengths. -/
def strides (ord : ℕ → ℕ) : ℕ → ℕ → ℕ → List ℕ
  | 0, _, _ => []
  | n + 1, a, b => if a < b then a :: strides ord n (a + 2 ^ ord a) b else []

attribute [grind =] strides

/-- The runs of a list follow each other from `a` to `b`. -/
def Consecutive : ℕ → ℕ → List (ℕ × ℕ) → Prop
  | a, b, [] => a = b
  | a, b, q :: rest => q.1 = a ∧ Consecutive (a + 2 ^ q.2) b rest

section Tiling

variable {a b c p q x y : ℕ} {ord ord' : ℕ → ℕ}

theorem alignDown_le (p x : ℕ) : alignDown p x ≤ x := Nat.div_mul_le_self x (2 ^ p)

theorem lt_alignDown_add (p x : ℕ) : x < alignDown p x + 2 ^ p := by
  have h := Nat.lt_div_mul_add (a := x) (Nat.two_pow_pos p)
  exact h

theorem alignDown_eq (p x : ℕ) : alignDown p x = x - x % 2 ^ p := by
  have h := Nat.div_add_mod' x (2 ^ p)
  rw [alignDown]
  omega

theorem dvd_alignDown (p x : ℕ) : 2 ^ p ∣ alignDown p x := Dvd.intro_left _ rfl

theorem alignDown_div (p x : ℕ) : alignDown p x / 2 ^ p = x / 2 ^ p :=
  Nat.mul_div_cancel _ (Nat.two_pow_pos p)

/-- The run of order `p` from a multiple `a` of `2 ^ p` on. -/
theorem div_eq_iff_of_dvd (h : 2 ^ p ∣ a) : y / 2 ^ p = a / 2 ^ p ↔ a ≤ y ∧ y < a + 2 ^ p := by
  obtain ⟨k, rfl⟩ := h
  have hpos := Nat.two_pow_pos p
  rw [Nat.mul_div_cancel_left _ hpos, Nat.div_eq_iff hpos, mul_comm k]
  omega

/-- Two numbers in one run are in one run of every larger order. -/
theorem div_eq_of_le (hpq : p ≤ q) (h : y / 2 ^ p = x / 2 ^ p) : y / 2 ^ q = x / 2 ^ q := by
  obtain ⟨k, rfl⟩ := Nat.exists_eq_add_of_le hpq
  rw [pow_add, ← Nat.div_div_eq_div_mul, ← Nat.div_div_eq_div_mul, h]

theorem alignDown_congr (h : y / 2 ^ p = x / 2 ^ p) : alignDown p y = alignDown p x := by
  rw [alignDown, alignDown, h]

theorem alignDown_of_dvd (h : 2 ^ p ∣ x) : alignDown p x = x := by
  rw [alignDown, Nat.div_mul_cancel h]

/-- A run of order `p` is the lower or the upper half of one of order `p + 1`. -/
theorem lower_or_upper (h : 2 ^ p ∣ x) :
    x = alignDown (p + 1) x ∨ x = alignDown (p + 1) x + 2 ^ p := by
  obtain ⟨m, rfl⟩ := h
  have hhalf : alignDown (p + 1) (2 ^ p * m) = 2 ^ p * (m / 2 * 2) := by
    rw [alignDown, pow_succ, Nat.mul_div_mul_left _ _ (Nat.two_pow_pos p), ← Nat.mul_assoc,
      mul_comm (m / 2), Nat.mul_assoc]
  rw [hhalf, ← Nat.mul_add_one]
  rcases Nat.mod_two_eq_zero_or_one m with hm | hm
  · refine .inl ?_
    congr 1
    omega
  · refine .inr ?_
    congr 1
    omega

/-- A run that starts below a multiple of its length ends there at most. -/
theorem add_le_of_dvd_of_lt (hx : 2 ^ p ∣ x) (ha : 2 ^ p ∣ a) (h : x < a) : x + 2 ^ p ≤ a := by
  obtain ⟨m, rfl⟩ := hx
  obtain ⟨n, rfl⟩ := ha
  rw [← Nat.mul_add_one]
  exact Nat.mul_le_mul_left _ (Nat.lt_of_mul_lt_mul_left h)

/-- Runs of one order between two multiples. -/
theorem tiled_const (ha : 2 ^ p ∣ a) (hb : 2 ^ p ∣ b) (h : ∀ x, a ≤ x → x < b → ord x = p) :
    Tiled a b ord := by
  intro x hax hxb y hy
  rw [h x hax hxb] at hy ⊢
  obtain ⟨m, rfl⟩ := ha
  obtain ⟨n, rfl⟩ := hb
  have hrange : ∀ z, 2 ^ p * m ≤ z ∧ z < 2 ^ p * n ↔ m ≤ z / 2 ^ p ∧ z / 2 ^ p < n := by
    intro z
    rw [Nat.le_div_iff_mul_le (Nat.two_pow_pos p), Nat.div_lt_iff_lt_mul (Nat.two_pow_pos p),
      mul_comm m, mul_comm n]
  obtain ⟨hay, hyb⟩ := (hrange y).mpr (hy ▸ (hrange x).mp ⟨hax, hxb⟩)
  exact ⟨hay, hyb, h y hay hyb⟩

/-- A run of its own order. -/
theorem tiled_run (ha : 2 ^ p ∣ a) (h : ∀ x, a ≤ x → x < a + 2 ^ p → ord x = p) :
    Tiled a (a + 2 ^ p) ord :=
  tiled_const ha (Nat.dvd_add ha (dvd_refl _)) h

/-- Two tilings side by side. -/
theorem Tiled.append (h : Tiled a b ord) (h' : Tiled b c ord) (hab : a ≤ b) (hbc : b ≤ c) :
    Tiled a c ord := by
  intro x hax hxc y hy
  by_cases hxb : x < b
  · obtain ⟨hay, hyb, hord⟩ := h x hax hxb y hy
    exact ⟨hay, hyb.trans_le hbc, hord⟩
  · obtain ⟨hby, hyc, hord⟩ := h' x (not_lt.mp hxb) hxc y hy
    exact ⟨hab.trans hby, hyc, hord⟩

theorem tiled_empty (a : ℕ) (ord : ℕ → ℕ) : Tiled a a ord := fun _ hx hx' =>
  absurd hx' (not_lt.mpr hx)

theorem Tiled.congr (h : Tiled a b ord) (heq : ∀ x, a ≤ x → x < b → ord' x = ord x) :
    Tiled a b ord' := by
  intro x hax hxb y hy
  rw [heq x hax hxb] at hy ⊢
  obtain ⟨hay, hyb, hord⟩ := h x hax hxb y hy
  exact ⟨hay, hyb, (heq y hay hyb).trans hord⟩

/-- The run that a member of a tiled range lies in. -/
theorem Tiled.run (h : Tiled a b ord) (hax : a ≤ x) (hxb : x < b) :
    a ≤ alignDown (ord x) x ∧ alignDown (ord x) x + 2 ^ ord x ≤ b ∧
      ∀ y, alignDown (ord x) x ≤ y → y < alignDown (ord x) x + 2 ^ ord x → ord y = ord x := by
  have hmem : ∀ y, alignDown (ord x) x ≤ y → y < alignDown (ord x) x + 2 ^ ord x →
      a ≤ y ∧ y < b ∧ ord y = ord x := by
    intro y hy hy'
    refine h x hax hxb y ?_
    rw [← alignDown_div (ord x) x]
    exact (div_eq_iff_of_dvd (dvd_alignDown _ _)).mpr ⟨hy, hy'⟩
  have hpos := Nat.two_pow_pos (ord x)
  refine ⟨(hmem _ le_rfl (by omega)).1, ?_, fun y hy hy' => (hmem y hy hy').2.2⟩
  have hlast := (hmem (alignDown (ord x) x + 2 ^ ord x - 1) (by omega) (by omega)).2.1
  omega

/-- What is left of a tiling behind its first run. -/
theorem Tiled.tail (h : Tiled a b ord) (hab : a < b) :
    alignDown (ord a) a = a ∧ a + 2 ^ ord a ≤ b ∧ Tiled a (a + 2 ^ ord a) ord ∧
      Tiled (a + 2 ^ ord a) b ord := by
  obtain ⟨hle, hend, hrun⟩ := h.run le_rfl hab
  have halign : alignDown (ord a) a = a := le_antisymm (alignDown_le _ _) hle
  rw [halign] at hend hrun
  have hdvd : 2 ^ ord a ∣ a := Dvd.intro_left (a / 2 ^ ord a) halign
  refine ⟨halign, hend, tiled_run hdvd hrun, fun x hax hxb y hy => ?_⟩
  have hpos := Nat.two_pow_pos (ord a)
  obtain ⟨hay, hyb, hord⟩ := h x (by omega) hxb y hy
  refine ⟨?_, hyb, hord⟩
  by_contra hlt
  -- otherwise `x` would lie in the first run, as `y` does
  have hya : ord y = ord a := hrun y hay (by omega)
  rw [← hord, hya] at hy
  have hin := (div_eq_iff_of_dvd hdvd).mpr ⟨hay, not_le.mp hlt⟩
  have := (div_eq_iff_of_dvd hdvd).mp (hy.symm.trans hin)
  omega

/-- The first run of a tiling has no other first member. -/
theorem Tiled.eq_of_alignDown (h : Tiled a b ord) (hab : a < b) (hax : a ≤ x)
    (hx : x < a + 2 ^ ord a) (hself : alignDown (ord x) x = x) : x = a := by
  obtain ⟨halign, -, hrun, -⟩ := h.tail hab
  have hpos := Nat.two_pow_pos (ord a)
  have hdiv := (div_eq_iff_of_dvd (Dvd.intro_left _ halign)).mpr ⟨hax, hx⟩
  have hord : ord x = ord a := (hrun a le_rfl (by omega) x hdiv).2.2
  rw [hord] at hself
  exact hself.symm.trans ((alignDown_congr hdiv).trans halign)

/-- **Tiling anew.**  A part `[b, c)` of a tiled range that is a union of runs may be tiled in
another way. -/
theorem Tiled.replace {d : ℕ} (h : Tiled a d ord) (hold : Tiled b c ord)
    (hnew : Tiled b c ord') (hab : a ≤ b) (hcd : c ≤ d)
    (hout : ∀ x, ¬ (b ≤ x ∧ x < c) → ord' x = ord x) : Tiled a d ord' := by
  intro x hax hxd y hy
  by_cases hx : b ≤ x ∧ x < c
  · obtain ⟨hby, hyc, hord⟩ := hnew x hx.1 hx.2 y hy
    exact ⟨hab.trans hby, hyc.trans_le hcd, hord⟩
  · rw [hout x hx] at hy ⊢
    obtain ⟨hay, hyd, hord⟩ := h x hax hxd y hy
    refine ⟨hay, hyd, ?_⟩
    have hy' : ¬ (b ≤ y ∧ y < c) := by
      -- otherwise the run of `y` in the old tiling, which holds `x`, would lie in the part
      intro hin
      obtain ⟨hbx, hxc, -⟩ := hold y hin.1 hin.2 x (by rw [hord, hy])
      exact hx ⟨hbx, hxc⟩
    rw [hout y hy', hord]

/-- The first members of the runs are the numbers met in strides. -/
theorem Tiled.strides_eq {n : ℕ} (h : Tiled a b ord) (hab : a ≤ b) (hn : b - a ≤ n) :
    strides ord n a b = (List.range' a (b - a)).filter fun x => alignDown (ord x) x = x := by
  induction n generalizing a with
  | zero =>
      rw [Nat.le_zero.mp hn]
      rfl
  | succ n ih =>
      rw [strides]
      by_cases hlt : a < b
      · rw [if_pos hlt]
        obtain ⟨halign, hend, hrun, hrest⟩ := h.tail hlt
        have hpos := Nat.two_pow_pos (ord a)
        have hsplit : List.range' a (b - a) =
            List.range' a (2 ^ ord a) ++ List.range' (a + 2 ^ ord a) (b - (a + 2 ^ ord a)) := by
          rw [List.range'_append_1]
          congr 1
          omega
        -- the first run has no other first member
        have hfirst : (List.range' a (2 ^ ord a)).filter (fun x => alignDown (ord x) x = x) =
            [a] := by
          obtain ⟨m, hm⟩ := Nat.exists_eq_add_one.mpr hpos
          rw [hm, List.range'_succ, List.filter_cons_of_pos (by simpa using halign),
            List.filter_eq_nil_iff.mpr]
          intro x hx hself
          rw [List.mem_range'_1] at hx
          have := h.eq_of_alignDown hlt (by omega) (by omega) (of_decide_eq_true hself)
          omega
        rw [hsplit, List.filter_append, hfirst, ih hrest hend (by omega)]
        rfl
      · rw [if_neg hlt, Nat.sub_eq_zero_of_le (not_lt.mp hlt)]
        rfl

/-- The runs of a tiling follow each other. -/
theorem Tiled.consecutive {n : ℕ} (h : Tiled a b ord) (hab : a ≤ b) (hn : b - a ≤ n) :
    Consecutive a b ((strides ord n a b).map fun x => (x, ord x)) := by
  induction n generalizing a with
  | zero => exact Nat.le_antisymm hab (Nat.sub_eq_zero_iff_le.mp (Nat.le_zero.mp hn))
  | succ n ih =>
      rw [strides]
      by_cases hlt : a < b
      · rw [if_pos hlt]
        obtain ⟨-, hend, -, hrest⟩ := h.tail hlt
        have hpos := Nat.two_pow_pos (ord a)
        have hleft : b - (a + 2 ^ ord a) ≤ n := by omega
        exact ⟨rfl, ih hrest hend hleft⟩
      · rw [if_neg hlt]
        exact Nat.le_antisymm hab (not_lt.mp hlt)

theorem Tiled.mem_strides {n : ℕ} (h : Tiled a b ord) (hab : a ≤ b) (hn : b - a ≤ n) :
    x ∈ strides ord n a b ↔ (a ≤ x ∧ x < b) ∧ alignDown (ord x) x = x := by
  have hrange : a + (b - a) = b := by omega
  rw [h.strides_eq hab hn, List.mem_filter, List.mem_range'_1, hrange, decide_eq_true_iff]

theorem Consecutive.le_start {l : List (ℕ × ℕ)} {r : ℕ × ℕ} (h : Consecutive a b l)
    (hr : r ∈ l) : a ≤ r.1 := by
  induction l generalizing a with
  | nil => cases hr
  | cons q rest ih =>
      obtain ⟨hq, hrest⟩ := h
      rcases List.mem_cons.mp hr with rfl | hr
      · exact hq.ge
      · exact (Nat.le_add_right _ _).trans (ih hrest hr)

/-- The runs of a list are disjoint and make up the range. -/
theorem Consecutive.existsUnique {l : List (ℕ × ℕ)} (h : Consecutive a b l) (hax : a ≤ x)
    (hxb : x < b) : ∃ q ∈ l, (q.1 ≤ x ∧ x < q.1 + 2 ^ q.2) ∧
      ∀ r ∈ l, r.1 ≤ x ∧ x < r.1 + 2 ^ r.2 → r = q := by
  induction l generalizing a with
  | nil =>
      obtain rfl : a = b := h
      omega
  | cons q rest ih =>
      obtain ⟨rfl, hrest⟩ := h
      by_cases hx : x < q.1 + 2 ^ q.2
      · refine ⟨q, List.mem_cons_self, ⟨hax, hx⟩, fun r hr hin => ?_⟩
        rcases List.mem_cons.mp hr with rfl | hr
        · rfl
        · have := hrest.le_start hr
          omega
      · obtain ⟨r, hr, hin, huniq⟩ := ih hrest (not_lt.mp hx)
        refine ⟨r, List.mem_cons_of_mem _ hr, hin, fun s hs hin' => ?_⟩
        rcases List.mem_cons.mp hs with rfl | hs
        · omega
        · exact huniq s hs hin'

end Tiling
