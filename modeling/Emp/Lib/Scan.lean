import Mathlib.Algebra.Order.Ring.Nat
import Mathlib.Data.Int.ModEq
import Mathlib.Data.List.TakeWhile

/-!
# Numbers at the front of a text

The kernel's `sscanf` for one conversion `%ld`, `%lo` or `%lx`.  Blanks are skipped, a sign counts
for `%ld` alone, a second `0x` is skipped for `%lx`, and whatever follows the digits is ignored.
Sums are cut to 64 bits.

A text is a list of bytes, each given as the character with its code.

## Main definitions

* `value` — the number that digits denote.
* `sscanf` — the conversion.
* `Front` — a text has a number at its front, behind blanks.
* `sscanf_front`, `sscanf_cases` — what the conversion gives, and when.
-/

namespace Scan

/-- The value of a hexadecimal digit. -/
def digitVal (c : Char) : Option ℕ :=
  if '0'.toNat ≤ c.toNat ∧ c.toNat ≤ '9'.toNat then some (c.toNat - '0'.toNat)
  else if 'a'.toNat ≤ c.toNat ∧ c.toNat ≤ 'f'.toNat then some (c.toNat - 'a'.toNat + 10)
  else if 'A'.toNat ≤ c.toNat ∧ c.toNat ≤ 'F'.toNat then some (c.toNat - 'A'.toNat + 10)
  else none

/-- A digit of the base. -/
def isDigit (base : ℕ) (c : Char) : Bool := (digitVal c).any (· < base)

/-- `isspace`: tab to carriage return, the blank and the no-break space. -/
def isSpace (c : Char) : Bool :=
  (9 ≤ c.toNat && c.toNat ≤ 13) || c.toNat = 32 || c.toNat = 160

/-- The number that digits denote, behind those that gave `n`. -/
def valueFrom (base : ℕ) (n : ℕ) (ds : List Char) : ℕ :=
  ds.foldl (fun n c => n * base + (digitVal c).getD 0) n

/-- The number that digits denote. -/
def value (base : ℕ) (ds : List Char) : ℕ := valueFrom base 0 ds

/-! ## The conversion -/

/-- `_parse_integer`, in 64 bits. -/
def parseInteger (base : ℕ) : ℕ → List Char → ℕ
  | res, [] => res
  | res, c :: s =>
      if isDigit base c then
        parseInteger base ((res * base + (digitVal c).getD 0) % 2 ^ 64) s
      else res

/-- `_parse_integer_fixup_radix` for a base that is given. -/
def fixupRadix (base : ℕ) : List Char → List Char
  | c :: x :: s => if base = 16 ∧ c = '0' ∧ (x = 'x' ∨ x = 'X') then s else c :: x :: s
  | s => s

/-- `simple_strtoull`. -/
def simpleStrtoull (base : ℕ) (s : List Char) : ℕ := parseInteger base 0 (fixupRadix base s)

/-- A sum of 64 bits, taken as a `long`. -/
def toLong (n : ℤ) : ℤ := n.bmod (2 ^ 64)

/-- `skip_spaces`. -/
def skipSpaces (s : List Char) : List Char := s.dropWhile isSpace

/-- `sscanf` with one conversion: the number, if there is one. -/
def sscanf (base : ℕ) (signed : Bool) (s : List Char) : Option ℤ :=
  let str := skipSpaces s
  let neg := signed && str.head? == some '-'
  let digits := if neg then str.tail else str
  if digits.head?.any (isDigit base) then
    some (toLong (if neg then -(simpleStrtoull base digits : ℤ) else simpleStrtoull base digits))
  else none

/-! ## Digits and blanks -/

section Digits

variable {base n : ℕ} {c : Char} {s ds r sp : List Char}

theorem not_isSpace_of_isDigit (h : isDigit base c = true) : isSpace c = false := by
  have hc : 48 ≤ c.toNat ∧ c.toNat ≤ 57 ∨ 97 ≤ c.toNat ∧ c.toNat ≤ 102 ∨
      65 ≤ c.toNat ∧ c.toNat ≤ 70 := by
    rw [isDigit, digitVal] at h
    split_ifs at h with hdec hlow hup
    · exact .inl hdec
    · exact .inr (.inl hlow)
    · exact .inr (.inr hup)
    · simp at h
  rw [isSpace]
  simp only [Bool.or_eq_false_iff, Bool.and_eq_false_imp, decide_eq_true_eq,
    decide_eq_false_iff_not]
  omega

theorem value_append (base : ℕ) (ds : List Char) (c : Char) :
    value base (ds ++ [c]) = value base ds * base + (digitVal c).getD 0 := by
  simp [value, valueFrom]

/-- The digits at the front of a text. -/
theorem takeWhile_digits (hds : ∀ c ∈ ds, isDigit base c = true)
    (hr : ∀ c ∈ r.head?, isDigit base c = false) :
    (ds ++ r).takeWhile (isDigit base) = ds ∧ (ds ++ r).dropWhile (isDigit base) = r := by
  have hfirst : r.takeWhile (isDigit base) = [] ∧ r.dropWhile (isDigit base) = r := by
    cases r with
    | nil => simp
    | cons c r => simp [hr c rfl]
  rw [List.takeWhile_append_of_pos hds, List.dropWhile_append_of_pos hds, hfirst.1, hfirst.2,
    List.append_nil]
  exact ⟨rfl, rfl⟩

/-- Where the digits end. -/
theorem head_dropWhile (p : Char → Bool) (s : List Char) :
    ∀ c ∈ (s.dropWhile p).head?, p c = false := by
  induction s with
  | nil => simp
  | cons a s ih =>
      by_cases ha : p a = true
      · rw [List.dropWhile_cons_of_pos ha]
        exact ih
      · rw [List.dropWhile_cons_of_neg ha]
        simpa using ha

/-- The loop adds up the digits at the front. -/
theorem parseInteger_eq (hn : n < 2 ^ 64) (hds : ∀ c ∈ ds, isDigit base c = true)
    (hr : ∀ c ∈ r.head?, isDigit base c = false) :
    parseInteger base n (ds ++ r) = valueFrom base n ds % 2 ^ 64 := by
  have hwrap : ∀ (ds : List Char) (m : ℕ),
      valueFrom base (m % 2 ^ 64) ds % 2 ^ 64 = valueFrom base m ds % 2 ^ 64 := by
    intro ds
    induction ds with
    | nil => exact fun m => Nat.mod_mod m _
    | cons d ds ih =>
        intro m
        simp only [valueFrom, List.foldl_cons]
        rw [← valueFrom, ← valueFrom, ← ih, ← ih (m * base + _), Nat.add_mod, Nat.mul_mod,
          Nat.mod_mod, ← Nat.mul_mod, ← Nat.add_mod]
  induction ds generalizing n with
  | nil =>
      rw [List.nil_append, valueFrom, List.foldl_nil, Nat.mod_eq_of_lt hn]
      cases r with
      | nil => rfl
      | cons c r => rw [parseInteger, if_neg (by simp [hr c rfl])]
  | cons d ds ih =>
      rw [List.cons_append, parseInteger, if_pos (hds d List.mem_cons_self),
        ih (Nat.mod_lt _ (Nat.two_pow_pos 64)) fun c hc => hds c (List.mem_cons_of_mem d hc), hwrap]
      rfl

end Digits

/-! ## The number at the front -/

/-- Behind blanks, the text has the number `n` at its front. -/
structure Front (base : ℕ) (sp ds r : List Char) : Prop where
  blanks : ∀ c ∈ sp, isSpace c = true
  some_digit : ds ≠ []
  digits : ∀ c ∈ ds, isDigit base c = true
  rest : ∀ c ∈ r.head?, isDigit base c = false

section Sscanf

variable {base : ℕ} {signed : Bool} {x : Char} {s ds r sp : List Char} {v : ℤ}

/-- A text begins with a second `0x`. -/
def Twice (s : List Char) : Prop := ∃ x r, s = '0' :: x :: r ∧ (x = 'x' ∨ x = 'X')

theorem fixupRadix_of_not_twice (h : base = 16 → ¬ Twice s) : fixupRadix base s = s := by
  match s with
  | [] => rfl
  | [_] => rfl
  | c :: x :: s =>
      rw [fixupRadix, if_neg]
      rintro ⟨hbase, rfl, hx⟩
      exact h hbase ⟨x, s, rfl, hx⟩

theorem skipSpaces_eq (hsp : ∀ c ∈ sp, isSpace c = true) (hs : ∀ c ∈ s.head?, isSpace c = false) :
    skipSpaces (sp ++ s) = s := by
  rw [skipSpaces, List.dropWhile_append_of_pos hsp]
  cases s with
  | nil => rfl
  | cons c s => rw [List.dropWhile_cons_of_neg (by simp [hs c rfl])]

theorem isDigit_dash (base : ℕ) : isDigit base '-' = false := rfl

theorem isSpace_dash : isSpace '-' = false := rfl

/-- What a text reads as. -/
inductive Reads (base : ℕ) (signed : Bool) : List Char → ℤ → Prop
  /-- digits, behind blanks -/
  | plain {sp ds r : List Char} (h : Front base sp ds r) (htwice : base = 16 → ¬ Twice (ds ++ r)) :
      Reads base signed (sp ++ (ds ++ r)) (value base ds)
  /-- the same with a minus -/
  | negative {sp ds r : List Char} (hs : signed = true) (h : Front base sp ds r) :
      Reads base signed (sp ++ '-' :: (ds ++ r)) (-(value base ds : ℤ))
  /-- a second `0x`, which digits need not follow -/
  | twice {sp ds r : List Char} {x : Char} (hb : base = 16) (hsp : ∀ c ∈ sp, isSpace c = true)
      (hx : x = 'x' ∨ x = 'X') (hds : ∀ c ∈ ds, isDigit base c = true)
      (hr : ∀ c ∈ r.head?, isDigit base c = false) :
      Reads base signed (sp ++ '0' :: x :: (ds ++ r)) (value base ds)

theorem toLong_congr {a b : ℤ} (h : a % 2 ^ 64 = b % 2 ^ 64) : toLong a = toLong b := by
  have hcut : ∀ n : ℤ, toLong n = toLong (n % 2 ^ 64) := fun n => (Int.emod_bmod n (2 ^ 64)).symm
  rw [hcut a, hcut b, h]

theorem strtoull_plain (hds : ∀ c ∈ ds, isDigit base c = true)
    (hr : ∀ c ∈ r.head?, isDigit base c = false) (htwice : base = 16 → ¬ Twice (ds ++ r)) :
    (simpleStrtoull base (ds ++ r) : ℤ) % 2 ^ 64 = (value base ds : ℤ) % 2 ^ 64 := by
  rw [simpleStrtoull, fixupRadix_of_not_twice htwice, parseInteger_eq (Nat.two_pow_pos 64) hds hr,
    value]
  push_cast
  exact Int.emod_emod_of_dvd _ dvd_rfl

theorem strtoull_twice (hx : x = 'x' ∨ x = 'X') (hds : ∀ c ∈ ds, isDigit 16 c = true)
    (hr : ∀ c ∈ r.head?, isDigit 16 c = false) :
    (simpleStrtoull 16 ('0' :: x :: (ds ++ r)) : ℤ) % 2 ^ 64 = (value 16 ds : ℤ) % 2 ^ 64 := by
  rw [simpleStrtoull, fixupRadix, if_pos ⟨rfl, rfl, hx⟩,
    parseInteger_eq (Nat.two_pow_pos 64) hds hr, value]
  push_cast
  exact Int.emod_emod_of_dvd _ dvd_rfl

/-- What follows the blanks decides. -/
theorem sscanf_blanks (hsp : ∀ c ∈ sp, isSpace c = true)
    (hs : ∀ c ∈ s.head?, isSpace c = false) :
    sscanf base signed (sp ++ s) = sscanf base signed s := by
  have hself : skipSpaces s = s := skipSpaces_eq (by simp : ∀ c ∈ [], isSpace c = true) hs
  rw [sscanf, sscanf, skipSpaces_eq hsp hs, hself]

theorem sscanf_digit {d : Char} (hd : isDigit base d = true) :
    sscanf base signed (d :: s) = some (toLong (simpleStrtoull base (d :: s))) := by
  have hskip : skipSpaces (d :: s) = d :: s := by
    rw [skipSpaces, List.dropWhile_cons_of_neg (by simp [not_isSpace_of_isDigit hd])]
  have hdash : ¬ (signed && (d :: s).head? == some '-') = true := by
    intro hneg
    have hd' : d = '-' := by simpa using (Bool.and_eq_true_iff.mp hneg).2
    rw [hd', isDigit_dash] at hd
    exact Bool.false_ne_true hd
  rw [sscanf, hskip]
  simp only [if_neg hdash]
  rw [if_pos (by simpa using hd)]

theorem sscanf_dash {d : Char} (hd : isDigit base d = true) :
    sscanf base true ('-' :: d :: s) = some (toLong (-(simpleStrtoull base (d :: s) : ℤ))) := by
  have hskip : skipSpaces ('-' :: d :: s) = '-' :: d :: s := by
    rw [skipSpaces, List.dropWhile_cons_of_neg (by decide)]
  rw [sscanf, hskip]
  simp [hd]

/-- A text gives what it reads as. -/
theorem Reads.sscanf_eq {n : ℤ} (h : Reads base signed s n) (hb : signed = true → base ≠ 16) :
    sscanf base signed s = some (toLong n) := by
  cases h with
  | @plain sp ds r h htwice =>
      obtain ⟨d, ds, rfl⟩ := List.exists_cons_of_ne_nil h.some_digit
      have hd := h.digits d List.mem_cons_self
      rw [sscanf_blanks h.blanks, List.cons_append, sscanf_digit hd, ← List.cons_append]
      · exact congrArg some (toLong_congr (strtoull_plain h.digits h.rest htwice))
      · intro c hc
        rw [List.cons_append, List.head?_cons, Option.mem_some_iff] at hc
        exact not_isSpace_of_isDigit (hc ▸ hd)
  | @negative sp ds r hs h =>
      obtain ⟨d, ds, rfl⟩ := List.exists_cons_of_ne_nil h.some_digit
      have hd := h.digits d List.mem_cons_self
      subst hs
      rw [sscanf_blanks h.blanks, List.cons_append, sscanf_dash hd, ← List.cons_append]
      · refine congrArg some (toLong_congr ?_)
        have hmod : (simpleStrtoull base (d :: ds ++ r) : ℤ) ≡ value base (d :: ds) [ZMOD 2 ^ 64] :=
          strtoull_plain h.digits h.rest fun h16 => absurd h16 (hb rfl)
        exact hmod.neg
      · intro c hc
        rw [List.head?_cons, Option.mem_some_iff] at hc
        exact hc ▸ isSpace_dash
  | @twice sp ds r x h16 hsp hx hds hr =>
      subst h16
      rw [sscanf_blanks hsp, sscanf_digit (by decide)]
      · exact congrArg some (toLong_congr (strtoull_twice hx hds hr))
      · intro c hc
        rw [List.head?_cons, Option.mem_some_iff] at hc
        exact hc ▸ by decide

/-- A text that gives something reads as something. -/
theorem reads_of_sscanf (h : sscanf base signed s = some v) :
    ∃ n, Reads base signed s n := by
  have hsp : ∀ c ∈ s.takeWhile isSpace, isSpace c = true := fun c hc => by
    simpa using List.mem_takeWhile_imp hc
  have hstop := head_dropWhile isSpace s
  have hsplit : s.takeWhile isSpace ++ s.dropWhile isSpace = s := List.takeWhile_append_dropWhile
  rw [← hsplit, sscanf_blanks hsp hstop] at h
  generalize s.takeWhile isSpace = sp at hsp hsplit
  generalize s.dropWhile isSpace = str at hstop hsplit h
  have hself : skipSpaces str = str := skipSpaces_eq (by simp : ∀ c ∈ [], isSpace c = true) hstop
  -- the digits at the front of a text, and what is behind them
  have hfront : ∀ t : List Char, (t.head?.any (isDigit base)) = true →
      ∃ ds r, t = ds ++ r ∧ Front base sp ds r := by
    intro t ht
    refine ⟨t.takeWhile (isDigit base), t.dropWhile (isDigit base),
      List.takeWhile_append_dropWhile.symm, hsp, ?_, ?_, head_dropWhile _ t⟩
    · cases t with
      | nil => simp at ht
      | cons d t => rw [List.takeWhile_cons_of_pos (by simpa using ht)]; simp
    · exact fun c hc => by simpa using List.mem_takeWhile_imp hc
  rw [sscanf, hself] at h
  simp only [Option.ite_none_right_eq_some] at h
  obtain ⟨hdigit, -⟩ := h
  by_cases hneg : (signed && str.head? == some '-') = true
  · rw [if_pos hneg] at hdigit
    obtain ⟨hsigned, hhead⟩ := Bool.and_eq_true_iff.mp hneg
    cases str with
    | nil => simp at hhead
    | cons c t =>
        have hc : c = '-' := by simpa using hhead
        obtain ⟨ds, r, ht, hf⟩ := hfront t hdigit
        rw [← hsplit, hc, ht]
        exact ⟨_, .negative hsigned hf⟩
  · rw [if_neg hneg] at hdigit
    by_cases htwice : base = 16 ∧ Twice str
    · obtain ⟨h16, x, r, hstr, hx⟩ := htwice
      rw [← hsplit, hstr, ← List.takeWhile_append_dropWhile (p := isDigit base) (l := r)]
      refine ⟨_, .twice h16 hsp hx (fun c hc => ?_) (head_dropWhile _ r)⟩
      simpa using List.mem_takeWhile_imp hc
    · obtain ⟨ds, r, ht, hf⟩ := hfront str hdigit
      rw [← hsplit, ht]
      exact ⟨_, .plain hf fun h16 => ht ▸ fun htw => htwice ⟨h16, htw⟩⟩

end Sscanf

end Scan
