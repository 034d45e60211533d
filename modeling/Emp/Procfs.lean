import Emp.Lib.Scan

/-!
# Sizes in control files

A size is written to a control file as a number with a unit, and read from it in the largest unit
that it has.  The parser takes the unit off from the right, letter by letter, before it knows the
base of the number, and leaves the number to `sscanf`.

## Main definitions

* `sizeWrite` — the parser, `__size_write`.
* `sizeRead` — the printer, `__size_read`.
* `denote` — the size that a text denotes.
* `sizeOk_iff_parses` — where the parser does what it should.
-/

namespace Emp

open Scan

/-- `PROC_BUF_SIZE`. -/
def procBufSize : ℕ := 64

def kbOrder : ℕ := 10

def mbOrder : ℕ := 20

def gbOrder : ℕ := 30

def errInval : ℤ := -22

def errFault : ℤ := -14

/-! ## The parser -/

/-- A character at the end is overwritten with NUL, unless it is the only one. -/
def stripLast (p : Char → Bool) (buffer : List Char) : List Char :=
  if 1 < buffer.length ∧ buffer.getLast?.any p = true then buffer.dropLast else buffer

def isNewline (c : Char) : Bool := c = '\n'

def isB (c : Char) : Bool := c = 'B' || c = 'b'

def isI (c : Char) : Bool := c = 'i' || c = 'I'

/-- The order of a unit. -/
def unitOrder (c : Char) : Option ℕ :=
  if c = 'G' ∨ c = 'g' then some gbOrder
  else if c = 'M' ∨ c = 'm' then some mbOrder
  else if c = 'K' ∨ c = 'k' then some kbOrder
  else none

def isUnit (c : Char) : Bool := (unitOrder c).isSome

/-- The buffer without newline, `B` and `i`. -/
def stripSuffix (buffer : List Char) : List Char :=
  stripLast isI (stripLast isB (stripLast isNewline buffer))

/-- The order that the last character stands for. -/
def lastOrder (buffer : List Char) : ℕ :=
  if 1 < buffer.length then (buffer.getLast?.bind unitOrder).getD 0 else 0

/-- `__strtol`; `none` is an error. -/
def strtol : List Char → Option ℤ
  | '0' :: ptr =>
      match ptr with
      | [] => some 0
      | '\n' :: _ => some 0
      | 'x' :: ptr => sscanf 16 false ptr
      | ptr => sscanf 8 false ptr
  | ptr => sscanf 10 true ptr

/-- `__size_write` on the bytes that are written, where `fault` says that they cannot be copied;
`none` is a write behind the end of the buffer. -/
def sizeWrite (fault : Bool) (buf : List Char) : Option ℤ :=
  if buf.length < 1 ∨ procBufSize < buf.length then some errInval
  else if fault then some errFault
  else
    -- `strnlen`
    let buffer := stripSuffix (buf.takeWhile (· ≠ '\x00'))
    let order := lastOrder buffer
    let buffer := stripLast isUnit buffer
    -- `buffer[end] = 0`, where `end > 1`
    if procBufSize ≤ buffer.length then none
    else match strtol buffer with
      | none => some errInval
      | some val => some (toLong (val * 2 ^ order))

/-! ## The printer -/

/-- `%ld` of a value that is not negative as a `long`. -/
def printLd (val : ℕ) : List Char := Nat.toDigits 10 val

/-- `__size_read`: the text that is printed. -/
def sizeRead (val : ℕ) : List Char :=
  if 2 ^ gbOrder ≤ val then printLd (val >>> gbOrder) ++ " GiB\n".toList
  else if 2 ^ mbOrder < val then printLd (val >>> mbOrder) ++ " MiB\n".toList
  else if 2 ^ kbOrder < val then printLd (val >>> kbOrder) ++ " KiB\n".toList
  else printLd val ++ " B\n".toList

/-- The order of the unit in which a size is printed. -/
def printOrder (val : ℕ) : ℕ :=
  if 2 ^ gbOrder ≤ val then gbOrder
  else if 2 ^ mbOrder < val then mbOrder
  else if 2 ^ kbOrder < val then kbOrder
  else 0

/-! ## What a text denotes -/

/-- One character less, if it is of that kind. -/
def skipOne (p : Char → Bool) : List Char → List Char
  | c :: s => if p c then s else c :: s
  | [] => []

/-- The order of what follows a number: a blank, a unit, `i`, `B` and a newline, each of which may
be missing. -/
def suffixOrder (s : List Char) : Option ℕ :=
  let s := skipOne (· = ' ') s
  let order := (s.head?.bind unitOrder).getD 0
  if skipOne isNewline (skipOne isB (skipOne isI (skipOne isUnit s))) = [] then some order else none

/-- The size denoted by the digits of the base, and what follows them. -/
def denoteIn (base : ℕ) (s : List Char) : Option ℕ :=
  (suffixOrder (s.dropWhile (isDigit base))).map fun order =>
    value base (s.takeWhile (isDigit base)) * 2 ^ order

/-- The size that a text denotes: a decimal, octal or hexadecimal number, which is as long as the
digits go, and a unit. -/
def denote : List Char → Option ℕ
  | '0' :: 'x' :: s => if s.takeWhile (isDigit 16) = [] then none else denoteIn 16 s
  | '0' :: s => denoteIn 8 s
  | s => if s.takeWhile (isDigit 10) = [] then none else denoteIn 10 s

example : denote "0x1F MiB\n".toList = some (31 * 2 ^ 20) := by decide

/-! ## When the parser does what it should -/

/-- The number that the code finds at the front of a text. -/
inductive Begins : List Char → ℤ → Prop
  | zero {ptr : List Char} (h : ∀ c ∈ ptr.head?, c = '\n') : Begins ('0' :: ptr) 0
  | hex {ptr : List Char} {n : ℤ} (h : Reads 16 false ptr n) : Begins ('0' :: 'x' :: ptr) n
  | octal {ptr : List Char} {n : ℤ} (hptr : ptr.head? ≠ some '\n') (h : Reads 8 false ptr n) :
      Begins ('0' :: ptr) n
  | decimal {ptr : List Char} {n : ℤ} (hptr : ptr.head? ≠ some '0') (h : Reads 10 true ptr n) :
      Begins ptr n

/-- What the parser takes off: all behind a NUL, and a newline, `B` and `i`. -/
def stripped (t : List Char) : List Char := stripSuffix (t.takeWhile (· ≠ '\x00'))

/-- The parser takes nothing off a text that fills the buffer. -/
def Overruns (t : List Char) : Prop :=
  t.length = procBufSize ∧ '\x00' ∉ t ∧
    ∀ c ∈ t.getLast?, ¬ (isNewline c || isB c || isI c || isUnit c) = true

/-- The last digit of a hexadecimal number is `B`, and no unit follows. -/
def EndsInB (t : List Char) : Prop :=
  ∃ ds c nl, t = '0' :: 'x' :: (ds ++ c :: nl) ∧ (∀ d ∈ ds, isDigit 16 d = true) ∧ isB c = true ∧
    (nl = [] ∨ nl = ['\n'])

/-- A zero with a blank behind it. -/
def ZeroBlank (t : List Char) : Prop := ∃ s, t = '0' :: ' ' :: s

/-- The parser does with a text what it should: a size that fits into a signed word is returned,
every other text gives a negative number. -/
def SizeOk (t : List Char) : Prop :=
  (∀ n, denote t = some n → n < 2 ^ 63 → sizeWrite false t = some n) ∧
    ((∀ n, denote t = some n → 2 ^ 63 ≤ n) → ∃ r < 0, sizeWrite false t = some r)

/-- A size that fits is in a text that fits into the buffer, its last digit is no `B`, and it is not
a zero with a blank.  What another text has at its front, times what its last letter stands for, is
negative as a signed word. -/
def Parses (t : List Char) : Prop :=
  (∀ n, denote t = some n → n < 2 ^ 63 →
      t.length ≤ procBufSize ∧ ¬ Overruns t ∧ ¬ EndsInB t ∧ ¬ ZeroBlank t) ∧
    ((∀ n, denote t = some n → 2 ^ 63 ≤ n) → ¬ Overruns t ∧ (t.length ≤ procBufSize →
      ∀ n, Begins (stripLast isUnit (stripped t)) n →
        toLong (n * 2 ^ lastOrder (stripped t)) < 0))

/-! ### The front of a text -/

section Front

variable {b t s x : List Char} {n v r : ℤ} {p q : Char → Bool}

theorem strtol_zero (hs : s.head? ≠ some '\n') (hs' : s ≠ []) (hx : s.head? ≠ some 'x') :
    strtol ('0' :: s) = sscanf 8 false s := by
  simp only [strtol]
  split
  next heq => exact absurd rfl hs'
  next heq => exact absurd rfl hs
  next heq => exact absurd rfl hx
  next => rfl

theorem strtol_other (hs : s.head? ≠ some '0') : strtol s = sscanf 10 true s := by
  unfold strtol
  split
  next => exact absurd rfl hs
  next => rfl

theorem Begins.strtol_eq (h : Begins b n) : strtol b = some (toLong n) := by
  cases h with
  | @zero ptr hptr =>
      cases ptr with
      | nil => rfl
      | cons c ptr =>
          rw [hptr c rfl]
          rfl
  | hex h => exact h.sscanf_eq (by simp)
  | @octal ptr n hptr h =>
      have hread := h.sscanf_eq (by simp)
      rw [← hread]
      refine strtol_zero hptr ?_ ?_
      · rintro rfl
        simp [sscanf, skipSpaces] at hread
      · cases ptr with
        | nil => simp
        | cons c ptr =>
            rintro hc
            rw [Option.some.inj hc] at hread
            simp [sscanf, skipSpaces, isSpace, isDigit, digitVal] at hread
  | decimal hptr h =>
      rw [strtol_other hptr]
      exact h.sscanf_eq (by simp)

theorem begins_of_strtol (h : strtol b = some v) : ∃ n, Begins b n := by
  by_cases hb : b.head? = some '0'
  · cases b with
    | nil => simp at hb
    | cons c s =>
        obtain rfl : c = '0' := by simpa using hb
        by_cases hnl : ∀ c ∈ s.head?, c = '\n'
        · exact ⟨0, .zero hnl⟩
        · have hs : s ≠ [] := by
            rintro rfl
            simp at hnl
          have hs' : s.head? ≠ some '\n' := by
            intro heq
            rw [heq] at hnl
            simp at hnl
          by_cases hx : s.head? = some 'x'
          · cases s with
            | nil => exact absurd rfl hs
            | cons c s =>
                obtain rfl : c = 'x' := by simpa using hx
                obtain ⟨n, hn⟩ := reads_of_sscanf (show sscanf 16 false s = some v from h)
                exact ⟨n, .hex hn⟩
          · rw [strtol_zero hs' hs hx] at h
            obtain ⟨n, hn⟩ := reads_of_sscanf h
            exact ⟨n, .octal hs' hn⟩
  · rw [strtol_other hb] at h
    obtain ⟨n, hn⟩ := reads_of_sscanf h
    exact ⟨n, .decimal hb hn⟩

end Front

/-! ### Taking letters off -/

section Strip

variable {b t s x y : List Char} {c : Char} {p q : Char → Bool} {o : ℕ}

/-- One character of that kind, or none. -/
def OneOf (p : Char → Bool) (x : List Char) : Prop := x = [] ∨ ∃ c, x = [c] ∧ p c = true

/-- The last character is not of that kind. -/
def NotLast (p : Char → Bool) (s : List Char) : Prop := ∀ c ∈ s.getLast?, p c = false

theorem oneOf_nil : OneOf p [] := .inl rfl

theorem OneOf.forall_mem (h : OneOf p x) : ∀ c ∈ x, p c = true := by
  rcases h with rfl | ⟨c, rfl, hc⟩
  · simp
  · simpa using hc

theorem NotLast.append (h : NotLast p s) (hx : OneOf q x) (hq : ∀ c, q c = true → p c = false) :
    NotLast p (s ++ x) := by
  rcases hx with rfl | ⟨c, rfl, hc⟩
  · rwa [List.append_nil]
  · simpa [NotLast] using hq c hc

theorem stripLast_append (hs : s ≠ []) (hlast : x = [] → NotLast p s) (hx : OneOf p x) :
    stripLast p (s ++ x) = s := by
  rcases hx with rfl | ⟨c, rfl, hc⟩
  · rw [List.append_nil, stripLast, if_neg]
    rintro ⟨-, hany⟩
    obtain ⟨c, hc, hp⟩ := (Option.any_eq_true ..).mp hany
    exact absurd ((hlast rfl c hc).symm.trans hp) Bool.false_ne_true
  · have hlen := List.length_pos_iff.mpr hs
    rw [stripLast, if_pos]
    · exact List.dropLast_concat
    · refine ⟨?_, by simpa using hc⟩
      rw [List.length_append, List.length_singleton]
      omega

/-- `skipOne` takes off one character of that kind, or none. -/
theorem skipOne_split (p : Char → Bool) (s : List Char) :
    ∃ x, s = x ++ skipOne p s ∧ OneOf p x ∧ (x = [] → ∀ c ∈ s.head?, p c = false) := by
  cases s with
  | nil => exact ⟨[], rfl, oneOf_nil, by simp⟩
  | cons c s =>
      by_cases hc : p c = true
      · exact ⟨[c], by simp [skipOne, hc], .inr ⟨c, rfl, hc⟩, by simp⟩
      · exact ⟨[], by simp [skipOne, hc], oneOf_nil, by simpa using hc⟩

/-- What may follow a number. -/
structure Suffix (sp u i b nl : List Char) : Prop where
  blank : OneOf (· = ' ') sp
  unit : OneOf isUnit u
  letterI : OneOf isI i
  letterB : OneOf isB b
  newline : OneOf isNewline nl

theorem suffix_of_order (h : suffixOrder s = some o) : ∃ sp u i b nl,
    s = sp ++ u ++ i ++ b ++ nl ∧ Suffix sp u i b nl ∧
      o = (u.head?.bind unitOrder).getD 0 := by
  obtain ⟨sp, hsp, hblank, -⟩ := skipOne_split (· = ' ') s
  obtain ⟨u, hu, hunit, hnone⟩ := skipOne_split isUnit (skipOne (· = ' ') s)
  obtain ⟨i, hi, hI, -⟩ := skipOne_split isI (skipOne isUnit (skipOne (· = ' ') s))
  obtain ⟨b, hb, hB, -⟩ := skipOne_split isB (skipOne isI (skipOne isUnit (skipOne (· = ' ') s)))
  obtain ⟨nl, hnl, hN, -⟩ := skipOne_split isNewline
    (skipOne isB (skipOne isI (skipOne isUnit (skipOne (· = ' ') s))))
  rw [suffixOrder] at h
  simp only [Option.ite_none_right_eq_some, Option.some.injEq] at h
  obtain ⟨hend, horder⟩ := h
  rw [hend, List.append_nil] at hnl
  refine ⟨sp, u, i, b, nl, ?_, ⟨hblank, hunit, hI, hB, hN⟩, ?_⟩
  · simp only [List.append_assoc]
    rw [← hnl, ← hb, ← hi, ← hu, ← hsp]
  · rw [← horder]
    generalize skipOne (· = ' ') s = t at hu hnone
    rcases hunit with rfl | ⟨c, rfl, -⟩
    · cases t with
      | nil => rfl
      | cons c t =>
          have hc : unitOrder c = none := by simpa [isUnit] using hnone rfl c rfl
          simp [hc]
    · rw [hu]
      rfl

/-- The letters of the classes are different, and none of them is NUL. -/
theorem letters (c : Char) :
    (isNewline c = true → isB c = false ∧ isI c = false ∧ isUnit c = false ∧ c ≠ '\x00') ∧
    (isB c = true → isNewline c = false ∧ isI c = false ∧ isUnit c = false ∧ c ≠ '\x00') ∧
    (isI c = true → isNewline c = false ∧ isB c = false ∧ isUnit c = false ∧ c ≠ '\x00') ∧
    (isUnit c = true → isNewline c = false ∧ isB c = false ∧ isI c = false ∧ c ≠ '\x00') ∧
    (c = ' ' → isNewline c = false ∧ isB c = false ∧ isI c = false ∧ isUnit c = false ∧
      c ≠ '\x00') := by
  have hunit : isUnit c = true ↔ c = 'G' ∨ c = 'g' ∨ c = 'M' ∨ c = 'm' ∨ c = 'K' ∨ c = 'k' := by
    rw [isUnit, unitOrder]
    split_ifs <;> simp <;> tauto
  simp only [isNewline, isB, isI, Bool.or_eq_true, decide_eq_true_eq, hunit]
  refine ⟨?_, ?_, ?_, ?_, ?_⟩
  · rintro rfl
    decide
  · rintro (rfl | rfl) <;> decide
  · rintro (rfl | rfl) <;> decide
  · rintro (rfl | rfl | rfl | rfl | rfl | rfl) <;> decide
  · rintro rfl
    decide

/-- A number with a suffix, of which `B` does not take a digit. -/
theorem stripped_eq {num sp u i b nl : List Char} (hnum : num ≠ []) (hs : Suffix sp u i b nl)
    (hnl : NotLast isNewline num) (hB : b = [] → NotLast isB (num ++ sp ++ u ++ i))
    (hI : NotLast isI num) (hnul : '\x00' ∉ num) :
    stripped (num ++ sp ++ u ++ i ++ b ++ nl) = num ++ sp ++ u := by
  have hne : num ++ sp ++ u ++ i ++ b ≠ [] := by simp [hnum]
  have hall : ∀ c ∈ num ++ sp ++ u ++ i ++ b ++ nl, decide (c ≠ '\x00') = true := by
    intro c hc
    rw [decide_eq_true_eq]
    simp only [List.mem_append] at hc
    rcases hc with ((((hc | hc) | hc) | hc) | hc) | hc
    · exact fun heq => hnul (heq ▸ hc)
    · exact ((letters c).2.2.2.2 (by simpa using hs.blank.forall_mem c hc)).2.2.2.2
    · exact ((letters c).2.2.2.1 (hs.unit.forall_mem c hc)).2.2.2
    · exact ((letters c).2.2.1 (hs.letterI.forall_mem c hc)).2.2.2
    · exact ((letters c).2.1 (hs.letterB.forall_mem c hc)).2.2.2
    · exact ((letters c).1 (hs.newline.forall_mem c hc)).2.2.2
  have hblank : ∀ c : Char, decide (c = ' ') = true →
      isNewline c = false ∧ isI c = false := by
    intro c hc
    have hl := (letters c).2.2.2.2 (by simpa using hc)
    exact ⟨hl.1, hl.2.2.1⟩
  have hnl' : NotLast isNewline (num ++ sp ++ u ++ i ++ b) :=
    (((hnl.append hs.blank fun c hc => (hblank c hc).1).append hs.unit
      fun c hc => ((letters c).2.2.2.1 hc).1).append hs.letterI
      fun c hc => ((letters c).2.2.1 hc).1).append hs.letterB
      fun c hc => ((letters c).2.1 hc).1
  have hI' : NotLast isI (num ++ sp ++ u) :=
    (hI.append hs.blank fun c hc => (hblank c hc).2).append hs.unit
      fun c hc => ((letters c).2.2.2.1 hc).2.2.1
  rw [stripped, stripSuffix, List.takeWhile_eq_self_iff.mpr hall,
    stripLast_append hne (fun _ => hnl') hs.newline,
    stripLast_append (by simp [hnum]) hB hs.letterB,
    stripLast_append (by simp [hnum]) (fun _ => hI') hs.letterI]

/-- What is left of it, and the order. -/
theorem unit_eq {num sp u i b nl : List Char} (hnum : num ≠ []) (hs : Suffix sp u i b nl)
    (hu : NotLast isUnit num) : stripLast isUnit (num ++ sp ++ u) = num ++ sp ∧
      lastOrder (num ++ sp ++ u) = (u.head?.bind unitOrder).getD 0 := by
  have hu' : NotLast isUnit (num ++ sp) := hu.append hs.blank fun c hc =>
    ((letters c).2.2.2.2 (by simpa using hc)).2.2.2.1
  have hlen := List.length_pos_iff.mpr hnum
  refine ⟨stripLast_append (by simp [hnum]) (fun _ => hu') hs.unit, ?_⟩
  rcases hs.unit with rfl | ⟨c, rfl, -⟩
  · rw [List.append_nil, lastOrder]
    split_ifs
    · cases hlast : (num ++ sp).getLast? with
      | none => rfl
      | some c =>
          have hc : unitOrder c = none := by simpa [isUnit] using hu' c hlast
          simp [hc]
    · rfl
  · rw [lastOrder, if_pos, List.getLast?_concat]
    · rfl
    · simp only [List.length_append, List.length_singleton]
      omega

end Strip

/-! ### Texts that denote a size -/

section Denote

variable {base n o : ℕ} {num ds t s sp u i b nl : List Char} {c : Char}

/-- Digits are no letters of a suffix; `B` is a hexadecimal one. -/
theorem letters_of_digit (h : isDigit base c = true) : isNewline c = false ∧ isI c = false ∧
    isUnit c = false ∧ c ≠ '\x00' ∧ c ≠ ' ' ∧ (base ≤ 11 → isB c = false) := by
  have hne : ∀ d, digitVal d = none → c ≠ d := by
    rintro d hd rfl
    simp [isDigit, hd] at h
  have hunit : isUnit c = false := by
    rw [isUnit, unitOrder, if_neg, if_neg, if_neg]
    · rfl
    · simp [hne 'K' rfl, hne 'k' rfl]
    · simp [hne 'M' rfl, hne 'm' rfl]
    · simp [hne 'G' rfl, hne 'g' rfl]
  refine ⟨?_, ?_, hunit, hne _ rfl, hne _ rfl, fun hbase => ?_⟩
  · simp [isNewline, hne '\n' rfl]
  · simp [isI, hne 'I' rfl, hne 'i' rfl]
  · rw [isB, Bool.or_eq_false_iff, decide_eq_false_iff_not, decide_eq_false_iff_not]
    refine ⟨?_, ?_⟩
    · rintro rfl
      simp [isDigit, digitVal] at h
      omega
    · rintro rfl
      simp [isDigit, digitVal] at h
      omega

/-- A numeral of the base with these digits. -/
inductive Numeral : ℕ → List Char → List Char → Prop
  | hex {ds : List Char} (hds : ds ≠ []) (h : ∀ c ∈ ds, isDigit 16 c = true) :
      Numeral 16 ('0' :: 'x' :: ds) ds
  | octal {ds : List Char} (h : ∀ c ∈ ds, isDigit 8 c = true) : Numeral 8 ('0' :: ds) ds
  | decimal {ds : List Char} (hds : ds ≠ []) (h : ∀ c ∈ ds, isDigit 10 c = true)
      (hzero : ds.head? ≠ some '0') : Numeral 10 ds ds

theorem Numeral.ne_nil (h : Numeral base num ds) : num ≠ [] := by
  cases h with
  | hex => simp
  | octal => simp
  | decimal hds => exact hds

/-- The last character of a numeral is a digit. -/
theorem Numeral.last (h : Numeral base num ds) : ∀ c ∈ num.getLast?, isDigit base c = true := by
  intro c hc
  cases h with
  | hex hds h =>
      rw [List.getLast?_cons_cons, List.getLast?_cons_of_ne_nil hds] at hc
      exact h c (List.mem_of_getLast? hc)
  | octal h =>
      have hmem := List.mem_of_getLast? hc
      rcases List.mem_cons.mp hmem with rfl | hmem
      · rfl
      · exact h c hmem
  | decimal hds h => exact h c (List.mem_of_getLast? hc)

theorem Numeral.nul (h : Numeral base num ds) : '\x00' ∉ num := by
  have hno : ∀ base : ℕ, (∀ c ∈ ds, isDigit base c = true) → '\x00' ∉ ds :=
    fun base hds hmem => (letters_of_digit (hds _ hmem)).2.2.2.1 rfl
  cases h with
  | hex hds h => simpa using hno 16 h
  | octal h => simpa using hno 8 h
  | decimal hds h => exact hno 10 h

/-- A text that denotes a size is a numeral with a suffix, in which the digits do not go on. -/
theorem denote_cases (h : denote t = some n) : ∃ base num ds sp u i b nl,
    Numeral base num ds ∧ Suffix sp u i b nl ∧ t = num ++ sp ++ u ++ i ++ b ++ nl ∧
      (∀ c ∈ (sp ++ u ++ i ++ b ++ nl).head?, isDigit base c = false) ∧
      n = value base ds * 2 ^ (u.head?.bind unitOrder).getD 0 := by
  have hin : ∀ base s, denoteIn base s = some n → ∃ sp u i b nl, Suffix sp u i b nl ∧
      s = s.takeWhile (isDigit base) ++ (sp ++ u ++ i ++ b ++ nl) ∧
      (∀ c ∈ (sp ++ u ++ i ++ b ++ nl).head?, isDigit base c = false) ∧
      n = value base (s.takeWhile (isDigit base)) * 2 ^ (u.head?.bind unitOrder).getD 0 := by
    intro base s hs
    obtain ⟨o, ho, hn⟩ := Option.map_eq_some_iff.mp hs
    obtain ⟨sp, u, i, b, nl, hsplit, hsuf, rfl⟩ := suffix_of_order ho
    refine ⟨sp, u, i, b, nl, hsuf, ?_, ?_, hn.symm⟩
    · rw [← hsplit, List.takeWhile_append_dropWhile]
    · rw [← hsplit]
      exact head_dropWhile _ s
  have hmem : ∀ base, ∀ s : List Char, ∀ c ∈ s.takeWhile (isDigit base), isDigit base c = true :=
    fun base s c hc => by simpa using List.mem_takeWhile_imp hc
  unfold denote at h
  split at h
  next s =>
    obtain ⟨hds, h⟩ := (Option.ite_none_left_eq_some ..).mp h
    obtain ⟨sp, u, i, b, nl, hsuf, hs, hr, hn⟩ := hin 16 s h
    refine ⟨16, _, _, sp, u, i, b, nl, .hex hds (hmem 16 s), hsuf, ?_, hr, hn⟩
    simpa [List.append_assoc] using hs
  next s _ =>
    obtain ⟨sp, u, i, b, nl, hsuf, hs, hr, hn⟩ := hin 8 s h
    refine ⟨8, _, _, sp, u, i, b, nl, .octal (hmem 8 s), hsuf, ?_, hr, hn⟩
    simpa [List.append_assoc] using hs
  next s hx hzero =>
    obtain ⟨hds, h⟩ := (Option.ite_none_left_eq_some ..).mp h
    obtain ⟨sp, u, i, b, nl, hsuf, hs, hr, hn⟩ := hin 10 t h
    refine ⟨10, _, _, sp, u, i, b, nl, .decimal hds (hmem 10 t) ?_, hsuf, ?_, hr, hn⟩
    · cases t with
      | nil => simp
      | cons c t =>
          by_cases hc : isDigit 10 c = true
          · rw [List.takeWhile_cons_of_pos hc]
            intro heq
            exact hzero t (by rw [Option.some.inj heq])
          · rw [List.takeWhile_cons_of_neg hc]
            simp
    · simpa [List.append_assoc] using hs

/-- The parser finds the numeral, unless it is a zero with a blank. -/
theorem Numeral.begins (h : Numeral base num ds) (hsp : OneOf (· = ' ') sp)
    (hz : num = ['0'] → sp = []) : Begins (num ++ sp) (value base ds) := by
  have hr : ∀ base, ∀ c ∈ sp.head?, isDigit base c = false := by
    intro base c hc
    have hblank : c = ' ' := by simpa using hsp.forall_mem c (List.mem_of_mem_head? hc)
    rw [hblank]
    rfl
  have hno : ∀ c ∈ ([] : List Char), isSpace c = true := by simp
  cases h with
  | hex hds h =>
      refine .hex (.plain ⟨hno, hds, h, hr 16⟩ fun _ => ?_)
      rintro ⟨x, r, heq, hx⟩
      have hmem : x ∈ ds ++ sp := heq ▸ by simp
      rcases List.mem_append.mp hmem with hmem | hmem
      · have hdigit := h x hmem
        rcases hx with rfl | rfl <;> exact absurd hdigit (by decide)
      · have hblank : x = ' ' := by simpa using hsp.forall_mem x hmem
        rcases hx with rfl | rfl <;> exact absurd hblank (by decide)
  | octal h =>
      by_cases hds : ds = []
      · subst hds
        rw [hz rfl]
        exact .zero (by simp)
      · refine .octal ?_ (.plain ⟨hno, hds, h, hr 8⟩ fun h16 => absurd h16 (by decide))
        obtain ⟨d, ds', rfl⟩ := List.exists_cons_of_ne_nil hds
        intro heq
        have hd := h d List.mem_cons_self
        rw [Option.some.inj heq] at hd
        exact absurd hd (by decide)
  | decimal hds h hzero =>
      refine .decimal ?_ (.plain ⟨hno, hds, h, hr 10⟩ fun h16 => absurd h16 (by decide))
      obtain ⟨d, ds', rfl⟩ := List.exists_cons_of_ne_nil hds
      exact hzero

end Denote

/-! ### The buffer -/

section Buffer

variable {t s : List Char} {p : Char → Bool} {n : ℕ} {r : ℤ}

theorem length_stripLast_le (p : Char → Bool) (s : List Char) :
    (stripLast p s).length ≤ s.length := by
  rw [stripLast]
  split_ifs
  · rw [List.length_dropLast]
    omega
  · exact le_rfl

/-- What has still the full length has lost nothing. -/
theorem stripLast_full (hs : s.length ≤ procBufSize)
    (h : procBufSize ≤ (stripLast p s).length) : stripLast p s = s ∧ NotLast p s := by
  have h64 : procBufSize = 64 := rfl
  by_cases hp : 1 < s.length ∧ s.getLast?.any p = true
  · rw [stripLast, if_pos hp, List.length_dropLast] at h
    omega
  · have hself : stripLast p s = s := if_neg hp
    rw [hself] at h
    refine ⟨hself, fun c hc => ?_⟩
    have hany : s.getLast?.any p = false := by
      rw [not_and, Bool.not_eq_true] at hp
      exact hp (by omega)
    rw [Option.mem_def.mp hc] at hany
    simpa using hany

theorem overruns_iff (ht : t.length ≤ procBufSize) :
    procBufSize ≤ (stripLast isUnit (stripped t)).length ↔ Overruns t := by
  constructor
  · intro h
    have hle : (t.takeWhile (· ≠ '\x00')).length ≤ procBufSize :=
      (List.takeWhile_sublist _).length_le.trans ht
    rw [stripped, stripSuffix] at h
    have hnl := (length_stripLast_le isNewline _).trans hle
    have hB := (length_stripLast_le isB _).trans hnl
    have hI := (length_stripLast_le isI _).trans hB
    obtain ⟨hu, hlastU⟩ := stripLast_full hI h
    rw [hu] at h
    obtain ⟨hi, hlastI⟩ := stripLast_full hB h
    rw [hi] at h hlastU
    obtain ⟨hb, hlastB⟩ := stripLast_full hnl h
    rw [hb] at h hlastU hlastI
    obtain ⟨hn, hlastN⟩ := stripLast_full hle h
    rw [hn] at h hlastU hlastI hlastB
    have hall : t.takeWhile (· ≠ '\x00') = t :=
      (List.takeWhile_prefix _).eq_of_length (by have := (List.takeWhile_sublist
        (fun c : Char => decide (c ≠ '\x00')) (l := t)).length_le; omega)
    rw [hall] at h hlastU hlastI hlastB hlastN
    refine ⟨by omega, fun hnul => ?_, fun c hc => ?_⟩
    · exact absurd (List.takeWhile_eq_self_iff.mp hall _ hnul) (by decide)
    · simp [hlastN c hc, hlastB c hc, hlastI c hc, hlastU c hc]
  · rintro ⟨hlen, hnul, hlast⟩
    have hall : t.takeWhile (· ≠ '\x00') = t :=
      List.takeWhile_eq_self_iff.mpr fun c hc => by
        rw [decide_eq_true_eq]
        exact fun heq => hnul (heq ▸ hc)
    have hno : ∀ p : Char → Bool, (∀ c, p c = true →
        (isNewline c || isB c || isI c || isUnit c) = true) → stripLast p t = t := by
      intro p hp
      refine if_neg fun hstrip => ?_
      obtain ⟨c, hc, hpc⟩ := (Option.any_eq_true ..).mp hstrip.2
      exact hlast c hc (hp c hpc)
    rw [stripped, stripSuffix, hall, hno isNewline fun c hc => by simp [hc],
      hno isB fun c hc => by simp [hc], hno isI fun c hc => by simp [hc],
      hno isUnit fun c hc => by simp [hc]]
    exact hlen.ge

theorem sizeWrite_of_overruns (h : Overruns t) : sizeWrite false t = none := by
  have hlen : t.length = 64 := h.1
  have hfull := (overruns_iff h.1.le).mpr h
  rw [sizeWrite, if_neg (by rw [procBufSize]; omega), if_neg (by decide)]
  simp only [stripped] at hfull ⊢
  exact if_pos hfull

theorem sizeWrite_of_length (hpos : t ≠ []) (hlen : t.length ≤ procBufSize) (h : ¬ Overruns t) :
    sizeWrite false t = some (match strtol (stripLast isUnit (stripped t)) with
      | none => errInval
      | some val => toLong (val * 2 ^ lastOrder (stripped t))) := by
  have hpos' := List.length_pos_iff.mpr hpos
  rw [sizeWrite, if_neg (by omega), if_neg (by decide)]
  rw [← overruns_iff hlen] at h
  simp only [stripped] at h ⊢
  rw [if_neg h]
  split <;> rfl

end Buffer

/-! ### The parser and the sizes -/

section Sizes

variable {base n : ℕ} {num ds t s sp u i b nl : List Char} {c : Char} {r : ℤ}

/-- The parser splits a text as it should, unless it takes the last digit for a `B`. -/
theorem stripped_of_numeral (hnum : Numeral base num ds) (hs : Suffix sp u i b nl)
    (hr : ∀ c ∈ (sp ++ u ++ i ++ b ++ nl).head?, isDigit base c = false)
    (hB : ¬ EndsInB (num ++ sp ++ u ++ i ++ b ++ nl)) :
    stripped (num ++ sp ++ u ++ i ++ b ++ nl) = num ++ sp ++ u := by
  have hlast := hnum.last
  refine stripped_eq hnum.ne_nil hs (fun c hc => (letters_of_digit (hlast c hc)).1) ?_
    (fun c hc => (letters_of_digit (hlast c hc)).2.1) hnum.nul
  rintro rfl
  have hchain : NotLast isB num → NotLast isB (num ++ sp ++ u ++ i) := fun h =>
    ((h.append hs.blank fun c hc => ((letters c).2.2.2.2 (by simpa using hc)).2.1).append hs.unit
      fun c hc => ((letters c).2.2.2.1 hc).2.1).append hs.letterI
      fun c hc => ((letters c).2.2.1 hc).2.1
  cases hnum with
  | octal h => exact hchain fun c hc => (letters_of_digit (hlast c hc)).2.2.2.2.2 (by decide)
  | decimal hds h hzero =>
      exact hchain fun c hc => (letters_of_digit (hlast c hc)).2.2.2.2.2 (by decide)
  | hex hds h =>
      by_cases hmid : sp ++ u ++ i = []
      · -- the last digit is the last character but the newline
        intro c hc
        rw [List.append_assoc, List.append_assoc, ← List.append_assoc sp, hmid,
          List.append_nil] at hc
        by_contra hisB
        obtain ⟨ds', heq⟩ := List.getLast?_eq_some_iff.mp (show ds.getLast? = some c by
          rwa [List.getLast?_cons_cons, List.getLast?_cons_of_ne_nil hds] at hc)
        refine hB ⟨ds', c, nl, ?_, ?_, Bool.eq_true_of_not_eq_false hisB, ?_⟩
        · simp only [List.append_eq_nil_iff] at hmid
          simp [heq, hmid.1.1, hmid.1.2, hmid.2]
        · exact fun d hd => h d (heq ▸ List.mem_append_left _ hd)
        · rcases hs.newline with rfl | ⟨c, rfl, hc⟩
          · exact .inl rfl
          · exact .inr (by simpa [isNewline] using hc)
      · intro c hc
        rw [List.append_assoc, List.append_assoc, ← List.append_assoc sp,
          List.getLast?_append, List.getLast?_eq_some_getLast hmid, Option.some_or] at hc
        have hmem : c ∈ sp ++ u ++ i := Option.some.inj hc ▸ List.getLast_mem hmid
        rw [List.mem_append, List.mem_append] at hmem
        rcases hmem with (hmem | hmem) | hmem
        · exact ((letters c).2.2.2.2 (by simpa using hs.blank.forall_mem c hmem)).2.1
        · exact ((letters c).2.2.2.1 (hs.unit.forall_mem c hmem)).2.1
        · exact ((letters c).2.2.1 (hs.letterI.forall_mem c hmem)).2.1

theorem toLong_of_lt (h : n < 2 ^ 63) : toLong n = n := by
  have h64 : ((2 ^ 64 : ℕ) : ℤ) = 18446744073709551616 := rfl
  refine Int.bmod_eq_of_le ?_ ?_
  · rw [h64]
    omega
  · rw [h64]
    omega

theorem toLong_lt (n : ℤ) : toLong n < 2 ^ 63 := by
  have h64 : ((2 ^ 64 : ℕ) : ℤ) = 18446744073709551616 := rfl
  have hlt := Int.bmod_lt (x := n) (m := 2 ^ 64) (by decide)
  rw [h64] at hlt
  rw [toLong]
  omega

/-- A text that denotes a size, and that the parser splits as it should. -/
theorem sizeWrite_of_denote (h : denote t = some n) (hn : n < 2 ^ 63)
    (hlen : t.length ≤ procBufSize) (hover : ¬ Overruns t) (hB : ¬ EndsInB t) :
    (¬ ZeroBlank t → sizeWrite false t = some (n : ℤ)) ∧
      (ZeroBlank t → sizeWrite false t = some errInval) := by
  obtain ⟨base, num, ds, sp, u, i, b, nl, hnum, hsuf, rfl, hr, rfl⟩ := denote_cases h
  obtain ⟨hunit, horder⟩ := unit_eq hnum.ne_nil hsuf
    fun c hc => (letters_of_digit (hnum.last c hc)).2.2.1
  rw [sizeWrite_of_length (by simp [hnum.ne_nil]) hlen hover,
    stripped_of_numeral hnum hsuf hr hB, hunit, horder]
  generalize (u.head?.bind unitOrder).getD 0 = o at hn ⊢
  refine ⟨fun hz => ?_, fun hz => ?_⟩
  · have hzero : num = ['0'] → sp = [] := by
      rintro rfl
      rcases hsuf.blank with hsp | ⟨c, rfl, hc⟩
      · exact hsp
      · have hc' : c = ' ' := by simpa using hc
        exact absurd ⟨u ++ i ++ b ++ nl, by simp [hc']⟩ hz
    have hval : value base ds < 2 ^ 63 :=
      lt_of_le_of_lt (Nat.le_mul_of_pos_right _ (Nat.two_pow_pos o)) hn
    have hprod : toLong ((value base ds : ℤ) * 2 ^ o) = ((value base ds * 2 ^ o : ℕ) : ℤ) := by
      rw [← toLong_of_lt hn]
      push_cast
      rfl
    rw [(hnum.begins hsuf.blank hzero).strtol_eq, toLong_of_lt hval]
    exact congrArg some hprod
  · -- a blank is what follows the zero
    obtain ⟨s, hs⟩ := hz
    have hsecond : num = ['0'] ∧ sp = [' '] := by
      cases hnum with
      | hex => simp at hs
      | decimal hds h hzero =>
          obtain ⟨d, ds', rfl⟩ := List.exists_cons_of_ne_nil hds
          refine absurd ?_ hzero
          simpa using congrArg List.head? hs
      | octal hall =>
          cases ds with
          | cons d ds =>
              have hd : d = ' ' := by
                have := congrArg (fun s => s.tail.head?) hs
                simpa using this
              exact absurd hd (letters_of_digit (hall d List.mem_cons_self)).2.2.2.2.1
          | nil =>
              refine ⟨rfl, ?_⟩
              rcases hsuf.blank with rfl | ⟨c, rfl, hc⟩
              · have hmem : ' ' ∈ u ++ i ++ b ++ nl := by
                  have heq : u ++ i ++ b ++ nl = ' ' :: s := by simpa using hs
                  rw [heq]
                  exact List.mem_cons_self
                simp only [List.mem_append] at hmem
                rcases hmem with ((hmem | hmem) | hmem) | hmem
                · exact absurd (hsuf.unit.forall_mem _ hmem) (by decide)
                · exact absurd (hsuf.letterI.forall_mem _ hmem) (by decide)
                · exact absurd (hsuf.letterB.forall_mem _ hmem) (by decide)
                · exact absurd (hsuf.newline.forall_mem _ hmem) (by decide)
              · rw [show c = ' ' by simpa using hc]
    rw [hsecond.1, hsecond.2]
    rfl

/-- A hexadecimal number that ends in `B` loses its last digit. -/
theorem sizeWrite_endsInB (h : EndsInB t) (hdenote : denote t = some n) (hn : n < 2 ^ 63)
    (hlen : t.length ≤ procBufSize) (hover : ¬ Overruns t) : sizeWrite false t ≠ some (n : ℤ) := by
  obtain ⟨ds, c, nl, rfl, hds, hc, hnl⟩ := h
  have hdigit : digitVal c = some 11 := by
    rw [isB, Bool.or_eq_true, decide_eq_true_eq, decide_eq_true_eq] at hc
    rcases hc with rfl | rfl <;> rfl
  have hds' : ∀ d ∈ ds ++ [c], isDigit 16 d = true := by
    intro d hd
    rcases List.mem_append.mp hd with hd | hd
    · exact hds d hd
    · rw [List.mem_singleton.mp hd, isDigit, hdigit]
      rfl
  have hnl' : ∀ c ∈ nl.head?, isDigit 16 c = false := by
    rcases hnl with rfl | rfl
    · simp
    · simpa using (show isDigit 16 '\n' = false from rfl)
  have horder : suffixOrder nl = some 0 := by
    rcases hnl with rfl | rfl <;> rfl
  have hvalue : n = value 16 ds * 16 + 11 := by
    have hsplit : ds ++ c :: nl = ds ++ [c] ++ nl := by simp
    obtain ⟨htake, hdrop⟩ := takeWhile_digits hds' hnl'
    rw [denote, if_neg, denoteIn, hsplit, htake, hdrop, horder] at hdenote
    · have heq := Option.some.inj hdenote
      rw [value_append, hdigit] at heq
      simpa using heq.symm
    · rw [hsplit, htake]
      simp
  have hlast : ∀ d ∈ ('0' :: 'x' :: ds).getLast?,
      isNewline d = false ∧ isI d = false ∧ isUnit d = false := by
    intro d hd
    have hmem : d ∈ 'x' :: ds := List.mem_of_getLast? (by rwa [List.getLast?_cons_cons] at hd)
    rcases List.mem_cons.mp hmem with rfl | hmem
    · decide
    · have hl := letters_of_digit (hds d hmem)
      exact ⟨hl.1, hl.2.1, hl.2.2.1⟩
  have hsuf : Suffix [] [] [] [c] nl := by
    refine ⟨oneOf_nil, oneOf_nil, oneOf_nil, .inr ⟨c, rfl, hc⟩, ?_⟩
    rcases hnl with rfl | rfl
    · exact oneOf_nil
    · exact .inr ⟨_, rfl, rfl⟩
  have hstrip : stripped ('0' :: 'x' :: (ds ++ c :: nl)) = '0' :: 'x' :: ds := by
    have hnul : '\x00' ∉ '0' :: 'x' :: ds := by
      simpa using fun hmem : '\x00' ∈ ds => (letters_of_digit (hds _ hmem)).2.2.2.1 rfl
    have heq := stripped_eq (List.cons_ne_nil '0' ('x' :: ds)) hsuf (fun d hd => (hlast d hd).1)
      (by simp) (fun d hd => (hlast d hd).2.1) hnul
    simpa using heq
  obtain ⟨hunit, horder'⟩ := unit_eq (List.cons_ne_nil '0' ('x' :: ds)) hsuf
    fun d hd => (hlast d hd).2.2
  simp only [List.append_nil] at hunit horder'
  rw [sizeWrite_of_length (by simp) hlen hover, hstrip, hunit, horder']
  intro heq
  by_cases hnil : ds = []
  · rw [hnil] at heq
    have hneg : errInval = (n : ℤ) := Option.some.inj heq
    rw [errInval] at hneg
    omega
  · have hval : value 16 ds < 2 ^ 63 := by omega
    have hbegins := ((Numeral.hex hnil hds).begins oneOf_nil fun h => by simp at h).strtol_eq
    rw [List.append_nil, toLong_of_lt hval] at hbegins
    rw [hbegins] at heq
    have hsame : toLong (value 16 ds) = n := by simpa using heq
    rw [toLong_of_lt hval] at hsame
    omega

/-- A size that fits is returned exactly if none of the four things happens. -/
theorem sizeWrite_eq_iff (h : denote t = some n) (hn : n < 2 ^ 63) :
    sizeWrite false t = some (n : ℤ) ↔
      t.length ≤ procBufSize ∧ ¬ Overruns t ∧ ¬ EndsInB t ∧ ¬ ZeroBlank t := by
  have hneg : some errInval ≠ some (n : ℤ) := by
    rw [errInval]
    intro heq
    have := Option.some.inj heq
    omega
  constructor
  · intro hw
    have hlen : t.length ≤ procBufSize := by
      by_contra hlen
      rw [sizeWrite, if_pos (by omega)] at hw
      exact hneg hw
    have hover : ¬ Overruns t := fun hover =>
      Option.some_ne_none _ (hw.symm.trans (sizeWrite_of_overruns hover))
    have hB : ¬ EndsInB t := fun hB => sizeWrite_endsInB hB h hn hlen hover hw
    refine ⟨hlen, hover, hB, fun hz => hneg ?_⟩
    rw [← hw, ← (sizeWrite_of_denote h hn hlen hover hB).2 hz]
  · rintro ⟨hlen, hover, hB, hz⟩
    exact (sizeWrite_of_denote h hn hlen hover hB).1 hz

theorem toLong_mul (a b : ℤ) : toLong (toLong a * b) = toLong (a * b) := Int.bmod_mul_bmod

/-- A text is rejected exactly if the number that the code finds in it has its sign bit set. -/
theorem sizeWrite_neg_iff : (∃ r < 0, sizeWrite false t = some r) ↔
    ¬ Overruns t ∧ (t.length ≤ procBufSize →
      ∀ n, Begins (stripLast isUnit (stripped t)) n →
        toLong (n * 2 ^ lastOrder (stripped t)) < 0) := by
  by_cases hlen : t.length ≤ procBufSize
  · by_cases hnil : t = []
    · subst hnil
      refine ⟨fun _ => ⟨fun hover => absurd hover.1 (by decide), fun _ n hn => ?_⟩,
        fun _ => ⟨errInval, by decide, rfl⟩⟩
      have hnone : strtol (stripLast isUnit (stripped [])) = none := rfl
      exact absurd (hnone.symm.trans hn.strtol_eq) (Option.some_ne_none _).symm
    · by_cases hover : Overruns t
      · refine ⟨?_, fun h => absurd hover h.1⟩
        rintro ⟨r, -, hw⟩
        exact absurd (hw.symm.trans (sizeWrite_of_overruns hover)) (Option.some_ne_none _)
      · rw [sizeWrite_of_length hnil hlen hover]
        cases hval : strtol (stripLast isUnit (stripped t)) with
        | none =>
            refine ⟨fun _ => ⟨hover, fun _ n hn => ?_⟩, fun _ => ⟨errInval, by decide, rfl⟩⟩
            exact absurd (hval.symm.trans hn.strtol_eq) (Option.some_ne_none _).symm
        | some v =>
            have hkey : ∀ n, Begins (stripLast isUnit (stripped t)) n →
                toLong (v * 2 ^ lastOrder (stripped t)) =
                  toLong (n * 2 ^ lastOrder (stripped t)) := by
              intro n hn
              rw [Option.some.inj (hval.symm.trans hn.strtol_eq), toLong_mul]
            constructor
            · rintro ⟨r, hr, hw⟩
              refine ⟨hover, fun _ n hn => ?_⟩
              have hv : toLong (v * 2 ^ lastOrder (stripped t)) = r := Option.some.inj hw
              rw [← hkey n hn, hv]
              exact hr
            · rintro ⟨-, hall⟩
              obtain ⟨n, hn⟩ := begins_of_strtol hval
              refine ⟨toLong (v * 2 ^ lastOrder (stripped t)), ?_, rfl⟩
              rw [hkey n hn]
              exact hall hlen n hn
  · have hlong : sizeWrite false t = some errInval := by
      rw [sizeWrite, if_pos (by omega)]
    refine ⟨fun _ => ⟨fun hover => hlen hover.1.le, fun h => absurd h hlen⟩,
      fun _ => ⟨errInval, by decide, hlong⟩⟩

/-- **The parser, text by text.** -/
theorem sizeOk_iff (t : List Char) : SizeOk t ↔ Parses t := by
  refine and_congr ?_ (imp_congr_right fun _ => sizeWrite_neg_iff)
  refine forall_congr' fun n => ⟨fun h hd hn => ?_, fun h hd hn => ?_⟩
  · exact (sizeWrite_eq_iff hd hn).mp (h hd hn)
  · exact (sizeWrite_eq_iff hd hn).mpr (h hd hn)

end Sizes

/-! ### Reading back what was printed -/

section Print

variable {m o val : ℕ} {rest t : List Char} {r : ℤ} {fault : Bool}

theorem head?_append_left {α : Type*} {xs ys : List α} (h : xs ≠ []) :
    (xs ++ ys).head? = xs.head? := by
  obtain ⟨x, xs', rfl⟩ := List.exists_cons_of_ne_nil h
  rfl

theorem head_toDigits (hm : 0 < m) : (Nat.toDigits 10 m).head? ≠ some '0' := by
  induction m using Nat.strongRecOn with
  | ind m ih =>
      by_cases hlt : m < 10
      · have hchar : ∀ k < 10, 0 < k → k.digitChar ≠ '0' := by decide
        rw [Nat.toDigits_of_lt_base hlt, List.head?_cons]
        exact fun heq => hchar m hlt hm (Option.some.inj heq)
      · rw [Nat.toDigits_of_base_le (by decide) (by omega)]
        have hdiv := ih (m / 10) (by omega) (by omega)
        rwa [head?_append_left Nat.toDigits_ne_nil]

theorem isDigit_of_decimal {c : Char} (hc : c.isDigit = true) :
    isDigit 10 c = true ∧ (digitVal c).getD 0 = c.toNat - '0'.toNat := by
  have hrange : 48 ≤ c.toNat ∧ c.toNat ≤ 57 := by
    simpa [Char.isDigit, UInt32.le_iff_toNat_le] using hc
  have hval : digitVal c = some (c.toNat - '0'.toNat) := if_pos hrange
  refine ⟨?_, by rw [hval]; rfl⟩
  have hsmall : c.toNat - '0'.toNat < 10 := by
    rw [show '0'.toNat = 48 from rfl]
    omega
  rw [isDigit, hval]
  simpa using hsmall

theorem valueFrom_eq_ofDigitChars (n : ℕ) (ds : List Char) (hds : ∀ c ∈ ds, c.isDigit = true) :
    valueFrom 10 n ds = Nat.ofDigitChars 10 ds n := by
  induction ds generalizing n with
  | nil => rfl
  | cons d ds ih =>
      have hd := (isDigit_of_decimal (hds d List.mem_cons_self)).2
      rw [Nat.ofDigitChars_cons, ← ih _ fun c hc => hds c (List.mem_cons_of_mem d hc), valueFrom,
        valueFrom, List.foldl_cons, hd, Nat.mul_comm]

/-- A decimal number and a suffix denote what they should. -/
theorem denote_printLd (hm : 0 < m) (hrest : suffixOrder rest = some o)
    (hr : ∀ c ∈ rest.head?, isDigit 10 c = false) :
    denote (printLd m ++ rest) = some (m * 2 ^ o) := by
  have hdec : ∀ c ∈ printLd m, c.isDigit = true := fun c hc =>
    Nat.isDigit_of_mem_toDigits (by decide) (by decide) hc
  obtain ⟨htake, hdrop⟩ := takeWhile_digits (fun c hc => (isDigit_of_decimal (hdec c hc)).1) hr
  have hne : printLd m ≠ [] := Nat.toDigits_ne_nil
  have hhead : (printLd m ++ rest).head? ≠ some '0' := by
    rw [head?_append_left hne]
    exact head_toDigits hm
  have hvalue : value 10 (printLd m) = m := by
    rw [value, valueFrom_eq_ofDigitChars 0 _ hdec, printLd, Nat.ofDigitChars_ten_toDigits]
  have hdenote : denote (printLd m ++ rest) = denoteIn 10 (printLd m ++ rest) := by
    unfold denote
    split
    next heq => rw [heq] at hhead; exact absurd rfl hhead
    next heq => rw [heq] at hhead; exact absurd rfl hhead
    next => rw [if_neg (by rw [htake]; exact hne)]
  rw [hdenote, denoteIn, htake, hdrop, hrest, hvalue, Option.map_some]

theorem sizeRead_eq (val : ℕ) : ∃ rest, sizeRead val = printLd (val / 2 ^ printOrder val) ++ rest ∧
    rest.length ≤ 5 ∧ suffixOrder rest = some (printOrder val) ∧
      ∀ c ∈ rest.head?, isDigit 10 c = false := by
  have hblank : ∀ s : List Char, ∀ c ∈ (' ' :: s).head?, isDigit 10 c = false := by
    intro s c hc
    rw [List.head?_cons, Option.mem_some_iff] at hc
    exact hc ▸ rfl
  rw [sizeRead, printOrder]
  split_ifs
  · exact ⟨" GiB\n".toList, by rw [Nat.shiftRight_eq_div_pow], by simp, rfl, hblank _⟩
  · exact ⟨" MiB\n".toList, by rw [Nat.shiftRight_eq_div_pow], by simp, rfl, hblank _⟩
  · exact ⟨" KiB\n".toList, by rw [Nat.shiftRight_eq_div_pow], by simp, rfl, hblank _⟩
  · exact ⟨" B\n".toList, by rw [Nat.pow_zero, Nat.div_one], by simp, rfl, hblank _⟩

theorem sizeWrite_lt (h : sizeWrite fault t = some r) : r < 2 ^ 63 := by
  have herr : errInval < 2 ^ 63 ∧ errFault < 2 ^ 63 := by decide
  simp only [sizeWrite] at h
  split_ifs at h
  · exact Option.some.inj h ▸ herr.1
  · exact Option.some.inj h ▸ herr.2
  · split at h
    · exact Option.some.inj h ▸ herr.1
    · exact Option.some.inj h ▸ toLong_lt _

/-- What was printed is read back, rounded down to the unit it was printed in, unless it is zero or
does not fit into a signed word. -/
theorem sizeWrite_sizeRead_iff (val : ℕ) : sizeWrite false (sizeRead val) =
      some ((val / 2 ^ printOrder val * 2 ^ printOrder val : ℕ) : ℤ) ↔ val ≠ 0 ∧ val < 2 ^ 63 := by
  have horder : 2 ^ printOrder val ≤ val ∨ val = 0 := by
    rw [printOrder]
    split_ifs <;> simp only [kbOrder, mbOrder, gbOrder] at * <;> omega
  constructor
  · intro h
    refine ⟨?_, ?_⟩
    · rintro rfl
      have hzero : sizeWrite false (sizeRead 0) = some errInval := rfl
      rw [hzero] at h
      exact absurd (Option.some.inj h) (by decide)
    · by_contra hbig
      have hlt := sizeWrite_lt h
      have hG : printOrder val = 30 := if_pos (by rw [gbOrder]; omega)
      rw [hG] at hlt
      omega
  · rintro ⟨hne, hlt⟩
    have hle := horder.resolve_right hne
    obtain ⟨rest, htext, hlen, hsuf, hr⟩ := sizeRead_eq val
    have hm : 0 < val / 2 ^ printOrder val := Nat.div_pos hle (Nat.two_pow_pos _)
    have hmul : val / 2 ^ printOrder val * 2 ^ printOrder val ≤ val := Nat.div_mul_le_self _ _
    have hmle : val / 2 ^ printOrder val ≤ val := Nat.div_le_self _ _
    have hdigits : (printLd (val / 2 ^ printOrder val)).length ≤ 19 :=
      (Nat.length_toDigits_le_iff (by decide) (by decide)).mpr
        (lt_of_le_of_lt hmle (hlt.trans (by decide)))
    have hshort : (sizeRead val).length ≤ 24 := by
      rw [htext, List.length_append]
      omega
    have hhead : (sizeRead val).head? ≠ some '0' := by
      rw [htext, printLd, head?_append_left Nat.toDigits_ne_nil]
      exact head_toDigits hm
    have hdenote := denote_printLd hm hsuf hr
    rw [← htext] at hdenote
    refine (sizeWrite_eq_iff hdenote (lt_of_le_of_lt hmul hlt)).mpr ⟨?_, ?_, ?_, ?_⟩
    · exact hshort.trans (by decide)
    · intro hover
      have hfull : (sizeRead val).length = 64 := hover.1
      omega
    · rintro ⟨ds, c, nl, heq, -⟩
      rw [heq] at hhead
      exact hhead rfl
    · rintro ⟨s, heq⟩
      rw [heq] at hhead
      exact hhead rfl

end Print

/-- **Sizes in control files.**  For every text, the parser does what it should exactly if the text
meets the condition; and what was printed for a size is read back exactly if the size is not zero
and fits into a signed word. -/
theorem sizeOk_iff_parses (t : List Char) (val : ℕ) : (SizeOk t ↔ Parses t) ∧
    (sizeWrite false (sizeRead val) =
      some ((val / 2 ^ printOrder val * 2 ^ printOrder val : ℕ) : ℤ) ↔ val ≠ 0 ∧ val < 2 ^ 63) :=
  ⟨sizeOk_iff t, sizeWrite_sizeRead_iff val⟩

/-- A hexadecimal number that ends in `B`, a zero with a unit, a number that does not fit, and a
number with other text behind it. -/
theorem not_sizeOk : ¬ SizeOk "0x1B\n".toList ∧ ¬ SizeOk "0 B\n".toList ∧
    ¬ SizeOk "9223372036854775808K\n".toList ∧ ¬ SizeOk "12 apples\n".toList := by
  refine ⟨fun h => ?_, fun h => ?_, fun h => ?_, fun h => ?_⟩
  · have hw : sizeWrite false "0x1B\n".toList = some 1 := by decide
    exact absurd (hw.symm.trans (h.1 27 (by decide) (by decide))) (by decide)
  · have hw : sizeWrite false "0 B\n".toList = some errInval := by decide
    exact absurd (hw.symm.trans (h.1 0 (by decide) (by decide))) (by decide)
  · have hd : denote "9223372036854775808K\n".toList = some (2 ^ 73) := by decide
    have hw : sizeWrite false "9223372036854775808K\n".toList = some 0 := by decide
    obtain ⟨r, hr, hneg⟩ := h.2 fun n hn => by
      rw [← Option.some.inj (hd.symm.trans hn)]
      decide
    rw [Option.some.inj (hneg.symm.trans hw)] at hr
    exact absurd hr (by decide)
  · have hd : denote "12 apples\n".toList = none := by decide
    have hw : sizeWrite false "12 apples\n".toList = some 12 := by decide
    obtain ⟨r, hr, hneg⟩ := h.2 fun n hn => by
      rw [hd] at hn
      exact absurd hn.symm (Option.some_ne_none n)
    rw [Option.some.inj (hneg.symm.trans hw)] at hr
    exact absurd hr (by decide)

end Emp
