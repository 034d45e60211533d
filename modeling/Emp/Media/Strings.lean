import Emp.Media.Setup

/-!
# What the path of the memory may be

The text is a list of donors, each of them a path, a size and an argument, if it is well formed.
The library makes one request for each of them.  Of the other texts it turns down those with a
donor that fails one of its own two checks, behind donors that have a size.

## Main definitions

* `DonorEntry`, `Spells` — a donor, and the texts that stand for a list of donors.
* `served` — what should be done about a list of donors.
* `MediaOk` — the call does what it should with a text.
* `RefusedInTime` — the other texts that are turned down.
* `mediaOk_iff` — where the call does what it should.
-/

namespace Emp.Media

open Scan Tokens

/-! ## Well-formed texts -/

/-- A decimal number below a bound. -/
structure Decimal (bound : ℕ) (ds : List Char) : Prop where
  some_digit : ds ≠ []
  digits : ∀ c ∈ ds, isDigit 10 c = true
  lt : value 10 ds < bound

/-- A donor, in words. -/
structure DonorEntry where
  path : List Char
  size : List Char
  arg : Option (List Char)

/-- The sizes and arguments of a kind of donor. -/
inductive Fields : DonorDevType → List Char → Option (List Char) → Prop
  /-- the memory of the host, in MiB -/
  | dram {size : List Char} (h : Decimal (2 ^ 63) size)
      (hmin : minimumLocalCacheSize ≤ value 10 size) : Fields .dram size none
  /-- as much of it as the container may have -/
  | limit : Fields .dram ['-', '1'] none
  /-- a port, a base or a node -/
  | donor {t : DonorDevType} {size arg : List Char} (ht : t ≠ .dram) (h : Decimal (2 ^ 63) size)
      (harg : Decimal (2 ^ 31) arg) : Fields t size (some arg)
  /-- a node on which the process allocates the memory itself -/
  | node {size node : List Char} (h : Decimal (2 ^ 63) size) (hnode : Decimal (2 ^ 31) node) :
      Fields .memdev size (some ('-' :: node))

namespace DonorEntry

variable (e : DonorEntry)

/-- A donor is well formed. -/
structure WellFormed : Prop where
  path_ne_nil : e.path ≠ []
  path_chars : ∀ c ∈ e.path, c ≠ '|' ∧ c ≠ ':' ∧ isQuote c = false
  fields : Fields (empGetDonorDevType e.path) e.size e.arg

def fields : List (List Char) := e.path :: e.size :: e.arg.toList

/-- `path:size[:arg]`. -/
def text : List Char := joined ':' e.fields

/-- The request that a donor stands for, unless the library cannot get what it needs for it. -/
def request (env : Env) (rs : List Request) : Option Request :=
  if env.malloc rs = false then none
  else match empGetDonorDevType e.path, e.arg with
    | .dram, _ =>
        let size :=
          if e.size = ['-', '1'] then getContainerMemoryLimit (env.memoryMax rs)
          else value 10 e.size
        if size = sizeMax ∨ size < minimumLocalCacheSize then none
        else some (.setDram ⟨e.path, .dram, size, none, none⟩)
    | .rdma, some arg =>
        some (.connDonor ⟨e.path, .rdma, value 10 e.size, some (env.inetAddr e.path),
          some (value 10 arg)⟩)
    | .memdev, some arg =>
        if arg.head? = some '-' then
          (env.numaAllocOnnode rs (value 10 e.size * 2 ^ 20 % 2 ^ 64) (value 10 arg.tail)).map
            fun ptr => .connDonor ⟨e.path, .memdev, value 10 e.size, some ptr,
              some (value 10 arg.tail)⟩
        else some (.connDonor ⟨e.path, .memdev, value 10 e.size, some 0, some (value 10 arg)⟩)
    | t, some arg => some (.connDonor ⟨e.path, t, value 10 e.size, some 0, some (value 10 arg)⟩)
    | _, none => none

end DonorEntry

/-- A list of donors with bars between any two. -/
def listText (es : List DonorEntry) : List Char := joined '|' (es.map DonorEntry.text)

/-- A text stands for a list of donors, in quotes or without. -/
structure Spells (s : List Char) (es : List DonorEntry) : Prop where
  some_entry : es ≠ []
  wellFormed : ∀ e ∈ es, e.WellFormed
  quotes : s = listText es ∨ ∃ q, isQuote q = true ∧ s = q :: (listText es ++ [q])

/-- One request after the other up to the first that fails, then the last one; and whether none
failed. -/
def served (env : Env) : List DonorEntry → List Request → List Request × Bool
  | [], rs => (rs ++ [.finiConn], env.ioctl (rs ++ [.finiConn]) = 0)
  | e :: es, rs =>
      match e.request env rs with
      | none => (rs, false)
      | some q =>
          if env.ioctl (rs ++ [q]) = 0 then served env es (rs ++ [q]) else (rs ++ [q], false)

/-- An outcome is the one that was served: the requests are the same, and zero is returned if none
failed. -/
def Outcome.Is (o : Outcome) (w : List Request × Bool) : Prop :=
  o.requests = w.1 ∧ ∃ r, o.result = .ok r ∧ (r = 0 ↔ w.2 = true)

/-- An error is returned. -/
def Outcome.Error (o : Outcome) : Prop := ∃ r, r ≠ 0 ∧ o.result = .ok r

/-- The call does what it should with a text: it serves a list of donors, and returns an error for
any other text. -/
def MediaOk (env : Env) (s : List Char) : Prop :=
  (∀ es, Spells s es →
      (empSetupMedia env s).Is (if env.strdup = false then ([], false) else served env es [])) ∧
    ((¬ ∃ es, Spells s es) → (empSetupMedia env s).Error)

/-! ## The other texts -/

/-- What is left of a text without its quotes: all of it if it has none, and otherwise what stands
between the first two quotes of one kind that follow each other. -/
def Unquoted (s t : List Char) : Prop :=
  (∀ c ∈ s, isQuote c = false) ∧ t = s ∨
    ∃ pre q post, s = pre ++ q :: (t ++ q :: post) ∧ isQuote q = true ∧
      (∀ c ∈ t, isQuote c = false) ∧ (pre.filter isQuote ++ [q]).IsChain (· ≠ ·)

/-- The library turns a donor down itself: the argument is missing, or the memory of the host is
less than the minimum. -/
def Refused (token : List Char) : Prop :=
  ∃ path size rest, tokens ':' token = path :: size :: rest ∧
    (empGetDonorDevType path ≠ .dram ∧ rest = [] ∨
      empGetDonorDevType path = .dram ∧ 0 ≤ atol size ∧ atol size < minimumLocalCacheSize)

/-- A donor is turned down, and those before it have a size at least. -/
def RefusedInTime (s : List Char) : Prop :=
  ∃ t, Unquoted s t ∧ ∃ pre token post, tokens '|' t = pre ++ token :: post ∧
    (∀ u ∈ pre, 2 ≤ (tokens ':' u).length) ∧ Refused token

/-! ## Numbers -/

section Numbers

variable {b : ℕ} {ds : List Char}

theorem Decimal.exists_cons (h : Decimal b ds) :
    ∃ d r, ds = d :: r ∧ isDigit 10 d = true ∧ isBlank d = false ∧ d ≠ '-' ∧ d ≠ '+' := by
  obtain ⟨d, r, rfl⟩ := List.exists_cons_of_ne_nil h.some_digit
  have hd := h.digits d List.mem_cons_self
  refine ⟨d, r, rfl, hd, ?_, ?_, ?_⟩
  · have hspace := not_isSpace_of_isDigit hd
    rw [isSpace, Bool.or_eq_false_iff] at hspace
    exact hspace.1
  · rintro rfl
    exact Bool.false_ne_true hd
  · rintro rfl
    exact Bool.false_ne_true hd

theorem Decimal.takeWhile_eq (h : Decimal b ds) : ds.takeWhile (isDigit 10) = ds :=
  List.takeWhile_eq_self_iff.mpr h.digits

/-- `atol` stays in a `long`. -/
theorem atol_mem (s : List Char) : -2 ^ 63 ≤ atol s ∧ atol s < 2 ^ 63 := by
  simp only [atol]
  omega

theorem Decimal.atol_eq (h : Decimal b ds) (hb : b ≤ 2 ^ 63) : atol ds = value 10 ds := by
  have hlt := h.lt
  have htake := h.takeWhile_eq
  obtain ⟨d, r, rfl, -, hblank, hminus, hplus⟩ := h.exists_cons
  have hdrop : (d :: r).dropWhile isBlank = d :: r := List.dropWhile_cons_of_neg (by simp [hblank])
  have hneg : ((d :: r).head? == some '-') = false := by simpa using hminus
  have hpos : ((d :: r).head? == some '+') = false := by simpa using hplus
  simp only [atol, hdrop, hneg, hpos, Bool.or_self, Bool.false_eq_true, if_false, htake]
  omega

theorem Decimal.atol_neg (h : Decimal b ds) (hb : b ≤ 2 ^ 63) :
    atol ('-' :: ds) = -(value 10 ds : ℤ) := by
  have hlt := h.lt
  rw [atol, List.dropWhile_cons_of_neg (by decide)]
  simp only [List.head?_cons, beq_self_eq_true, Bool.true_or, if_true, List.tail_cons]
  rw [h.takeWhile_eq]
  omega

theorem Decimal.toSizeT_atol (h : Decimal (2 ^ 63) ds) : toSizeT (atol ds) = value 10 ds := by
  have hlt := h.lt
  rw [h.atol_eq le_rfl, toSizeT]
  omega

theorem toUnsigned_bmod (n : ℤ) : toUnsigned (n.bmod (2 ^ 32)) = toUnsigned n :=
  congrArg Int.toNat (Int.bmod_emod (x := n) (m := 2 ^ 32))

theorem Decimal.toUnsigned_atoi (h : Decimal (2 ^ 31) ds) :
    toUnsigned (atoi ds) = value 10 ds := by
  have hlt := h.lt
  rw [atoi, h.atol_eq (by decide), toUnsigned_bmod, toUnsigned]
  omega

/-- A node behind a dash is negated twice. -/
theorem Decimal.toUnsigned_neg (h : Decimal (2 ^ 31) ds) :
    toUnsigned (-(toUnsigned (atoi ('-' :: ds)) : ℤ)) = value 10 ds := by
  have hlt := h.lt
  rw [atoi, h.atol_neg (by decide), toUnsigned_bmod, toUnsigned, toUnsigned]
  omega

theorem Decimal.head?_ne (h : Decimal b ds) : ds.head? ≠ some '-' := by
  obtain ⟨d, r, rfl, -, -, hminus, -⟩ := h.exists_cons
  simpa using hminus

/-- A digit is no delimiter and no quote. -/
theorem not_delimiter_of_isDigit {c : Char} (h : isDigit 10 c = true) :
    c ≠ '|' ∧ c ≠ ':' ∧ isQuote c = false := by
  refine ⟨?_, ?_, ?_⟩
  · rintro rfl
    exact Bool.false_ne_true h
  · rintro rfl
    exact Bool.false_ne_true h
  · by_contra hq
    rw [Bool.not_eq_false, isQuote, Bool.or_eq_true, decide_eq_true_eq, decide_eq_true_eq] at hq
    rcases hq with rfl | rfl <;> exact Bool.false_ne_true h

end Numbers

/-! ## One donor -/

section Turns

variable {env : Env} {rs : List Request} {token path size : List Char} {rest : List (List Char)}
  {turn : Turn}

/-- The loop ends with an error. -/
def Turn.Stops (turn : Turn) (rs : List Request) : Prop :=
  ∃ r, r ≠ 0 ∧ (turn = .leave r ∨ turn = .done rs r)

theorem connectEntry_of_nil (h : tokens ':' token = []) :
    connectEntry env rs token = .misuse .missing := by
  have hfst := strtok_fst ':' token
  rw [h] at hfst
  rw [connectEntry]
  split
  next => rfl
  next heq => simp [heq] at hfst

theorem connectEntry_of_singleton (h : tokens ':' token = [path]) :
    connectEntry env rs token =
      if env.malloc rs = false then .done rs errNomem else .misuse .missing := by
  have hfst := strtok_fst ':' token
  have hsnd := tokens_strtok_snd ':' token
  rw [h] at hfst hsnd
  rw [connectEntry]
  split
  next heq => simp [heq] at hfst
  next p s heq =>
    rw [heq] at hsnd
    have hnone := strtok_fst ':' s
    rw [hsnd] at hnone
    split_ifs
    · rfl
    · simp only
      split
      next => rfl
      next heq' => simp [heq'] at hnone

theorem connectEntry_of_cons (h : tokens ':' token = path :: size :: rest) :
    connectEntry env rs token =
      if env.malloc rs = false then .done rs errNomem
      else if empGetDonorDevType path = .dram then
        setDram env rs ⟨path, empGetDonorDevType path, toSizeT (atol size), none, none⟩
      else connDonor env rs ⟨path, empGetDonorDevType path, toSizeT (atol size), none, none⟩
        rest.head? := by
  have hfst := strtok_fst ':' token
  have hsnd := tokens_strtok_snd ':' token
  rw [h] at hfst hsnd
  rw [connectEntry]
  split
  next heq => simp [heq] at hfst
  next p s heq =>
    rw [heq] at hfst hsnd
    obtain rfl : p = path := by simpa using hfst
    have hfst' := strtok_fst ':' s
    have hsnd' := tokens_strtok_snd ':' s
    rw [hsnd] at hfst' hsnd'
    split_ifs
    · rfl
    all_goals
      simp only
      split
      next heq' => simp [heq'] at hfst'
      next z s' heq' =>
        rw [heq'] at hfst' hsnd'
        obtain rfl : z = size := by simpa using hfst'
        have hthird := strtok_fst ':' s'
        rw [hsnd'] at hthird
        simp_all

theorem stops_done {r : ℤ} (h : r ≠ 0) : (Turn.done rs r).Stops rs := ⟨r, h, .inr rfl⟩

theorem stops_leave {r : ℤ} (h : r ≠ 0) : (Turn.leave r).Stops rs := ⟨r, h, .inl rfl⟩

/-- A donor with a size leads to a request or ends the loop with an error. -/
theorem stops_or_issue (env : Env) (rs : List Request) (h : 2 ≤ (tokens ':' token).length) :
    (connectEntry env rs token).Stops rs ∨ ∃ q, connectEntry env rs token = issue env rs q := by
  obtain hnil | ⟨path, hone⟩ | ⟨path, size, rest, htokens⟩ := tokens_cases ':' token
  · simp [hnil] at h
  · simp [hone] at h
  · rw [connectEntry_of_cons htokens]
    split_ifs
    · exact .inl (stops_done (by decide))
    · rw [setDram]
      split
      · exact .inl (stops_leave (by decide))
      · split_ifs
        · exact .inl (stops_leave (by decide))
        · exact .inr ⟨_, rfl⟩
    · unfold connDonor
      split
      · exact .inl (stops_done (by decide))
      · simp only
        split
        · exact .inr ⟨_, rfl⟩
        · split_ifs
          · split
            · exact .inl (stops_done (by decide))
            · exact .inr ⟨_, rfl⟩
          · exact .inr ⟨_, rfl⟩
        · exact .inr ⟨_, rfl⟩

/-- A donor that is turned down ends the loop with an error. -/
theorem Refused.stops (h : Refused token) : (connectEntry env rs token).Stops rs := by
  obtain ⟨path, size, rest, htokens, h⟩ := h
  rw [connectEntry_of_cons htokens]
  by_cases hmalloc : env.malloc rs = false
  · rw [if_pos hmalloc]
    exact stops_done (by decide)
  · rw [if_neg hmalloc]
    rcases h with ⟨htype, hrest⟩ | ⟨htype, hnonneg, hlt⟩
    · rw [if_neg htype, hrest]
      exact stops_done (by decide)
    · have hmin : minimumLocalCacheSize = 4096 := rfl
      have hsize : toSizeT (atol size) < minimumLocalCacheSize := by
        rw [toSizeT]
        omega
      have hmax : toSizeT (atol size) ≠ sizeMax := by
        rw [sizeMax]
        omega
      rw [if_pos htype, setDram, dramSize]
      simp only [if_neg hmax, if_pos hsize]
      exact stops_leave (by decide)

end Turns

/-! ## A list of donors -/

section Lists

variable {env : Env} {rs : List Request} {e : DonorEntry} {es : List DonorEntry} {s : List Char}

theorem Fields.chars {t : DonorDevType} {size : List Char} {arg : Option (List Char)}
    (h : Fields t size arg) : ∀ f ∈ size :: arg.toList,
      f ≠ [] ∧ ∀ c ∈ f, c ≠ '|' ∧ c ≠ ':' ∧ isQuote c = false := by
  have hdecimal : ∀ {b : ℕ} {ds : List Char}, Decimal b ds →
      ds ≠ [] ∧ ∀ c ∈ ds, c ≠ '|' ∧ c ≠ ':' ∧ isQuote c = false := fun hds =>
    ⟨hds.some_digit, fun c hc => not_delimiter_of_isDigit (hds.digits c hc)⟩
  cases h with
  | dram h hmin => simpa using hdecimal h
  | limit => simp [isQuote]
  | donor ht h harg => simpa using ⟨hdecimal h, hdecimal harg⟩
  | node h hnode =>
      simp only [Option.toList_some, List.forall_mem_cons]
      refine ⟨hdecimal h, ⟨by simp, ?_, fun c hc => (hdecimal hnode).2 c hc⟩, by simp⟩
      decide

theorem DonorEntry.WellFormed.chars (h : e.WellFormed) : ∀ f ∈ e.fields,
    f ≠ [] ∧ ∀ c ∈ f, c ≠ '|' ∧ c ≠ ':' ∧ isQuote c = false := by
  intro f hf
  rcases List.mem_cons.mp hf with rfl | hf
  · exact ⟨h.path_ne_nil, h.path_chars⟩
  · exact h.fields.chars f hf

theorem DonorEntry.WellFormed.tokens_text (h : e.WellFormed) : tokens ':' e.text = e.fields :=
  tokens_joined fun f hf => ⟨(h.chars f hf).1, fun hc => ((h.chars f hf).2 ':' hc).2.1 rfl⟩

theorem DonorEntry.WellFormed.text_chars (h : e.WellFormed) :
    e.text ≠ [] ∧ ∀ c ∈ e.text, c ≠ '|' ∧ isQuote c = false := by
  refine ⟨joined_ne_nil (List.cons_ne_nil e.path _) fun f hf => (h.chars f hf).1, fun c hc => ?_⟩
  rcases mem_joined hc with rfl | ⟨f, hf, hc⟩
  · decide
  · exact ⟨((h.chars f hf).2 c hc).1, ((h.chars f hf).2 c hc).2.2⟩

/-- A well-formed donor leads to its request, or to an error if the library cannot get what it
needs. -/
theorem connectEntry_text (env : Env) (rs : List Request) (h : e.WellFormed) :
    (∃ q, e.request env rs = some q ∧ connectEntry env rs e.text = issue env rs q) ∨
      e.request env rs = none ∧ (connectEntry env rs e.text).Stops rs := by
  have htokens := h.tokens_text
  have hf := h.fields
  obtain ⟨path, size, arg⟩ := e
  rw [connectEntry_of_cons htokens, DonorEntry.request]
  by_cases hmalloc : env.malloc rs = false
  · rw [if_pos hmalloc, if_pos hmalloc]
    exact .inr ⟨rfl, stops_done (by decide)⟩
  · rw [if_neg hmalloc, if_neg hmalloc]
    simp only at hf ⊢
    generalize empGetDonorDevType path = t at hf
    cases hf with
    | dram hsize hmin =>
        have hlt := hsize.lt
        have hmax : value 10 size ≠ sizeMax := by
          rw [sizeMax]
          omega
        have hdash : size ≠ ['-', '1'] := fun heq => hsize.head?_ne (by rw [heq]; rfl)
        refine .inl ⟨.setDram ⟨path, .dram, value 10 size, none, none⟩, ?_, ?_⟩
        · simp only [if_neg hdash]
          rw [if_neg (by omega)]
        · rw [if_pos rfl, setDram, dramSize]
          simp only [hsize.toSizeT_atol, if_neg hmax]
          rw [if_neg (by omega)]
    | limit =>
        have hsize : toSizeT (atol ['-', '1']) = sizeMax := rfl
        rw [if_pos rfl, setDram, dramSize]
        simp only [hsize, if_true]
        by_cases hmax : getContainerMemoryLimit (env.memoryMax rs) = sizeMax
        · simp only [hmax, ne_eq, not_true_eq_false, if_false, true_or, if_true]
          exact .inr ⟨trivial, stops_leave (by decide)⟩
        · rw [if_pos hmax]
          by_cases hmin : getContainerMemoryLimit (env.memoryMax rs) < minimumLocalCacheSize
          · simp only [hmin, or_true, if_true]
            exact .inr ⟨trivial, stops_leave (by decide)⟩
          · simp only [hmax, hmin, or_self, if_false]
            exact .inl ⟨_, rfl, rfl⟩
    | @donor t size arg ht hsize harg =>
        have hdash := harg.head?_ne
        rw [if_neg ht, hsize.toSizeT_atol]
        simp only [Option.toList_some, List.head?_cons, connDonor, harg.toUnsigned_atoi]
        cases t with
        | dram => exact absurd rfl ht
        | nvme => exact .inl ⟨_, rfl, rfl⟩
        | rdma => exact .inl ⟨_, rfl, rfl⟩
        | pmem => exact .inl ⟨_, rfl, rfl⟩
        | memdev =>
            simp only [if_neg hdash]
            exact .inl ⟨_, rfl, rfl⟩
    | @node size node hsize hnode =>
        rw [if_neg (show DonorDevType.memdev ≠ .dram by decide), hsize.toSizeT_atol]
        simp only [Option.toList_some, List.head?_cons, connDonor, hnode.toUnsigned_neg, if_true,
          List.tail_cons]
        cases env.numaAllocOnnode rs (value 10 size * 2 ^ 20 % 2 ^ 64) (value 10 node) with
        | none => exact .inr ⟨rfl, stops_done (by decide)⟩
        | some ptr => exact .inl ⟨_, rfl, rfl⟩

theorem finish_is (env : Env) (rs : List Request) :
    (finish env rs (some 0)).Is (served env [] rs) := by
  rw [finish, if_pos rfl, served]
  refine ⟨rfl, _, rfl, ?_⟩
  by_cases h : env.ioctl (rs ++ [.finiConn]) = 0
  · simp [h]
  · simp [h, errInval]

theorem connectAll_stops {token : List Char} (ts : List (List Char)) (ret : Option ℤ)
    (h : (connectEntry env rs token).Stops rs) :
    (connectAll env (token :: ts) rs ret).requests = rs ∧
      (connectAll env (token :: ts) rs ret).Error := by
  obtain ⟨r, hr, h | h⟩ := h
  · rw [connectAll, h]
    exact ⟨rfl, r, hr, rfl⟩
  · rw [connectAll, h]
    simp only [if_pos hr, finish, if_neg hr]
    exact ⟨trivial, errInval, by decide, rfl⟩

/-- The loop serves the donors of a list. -/
theorem connectAll_texts (h : ∀ e ∈ es, e.WellFormed) {ret : Option ℤ}
    (hret : es = [] → ret = some 0) :
    (connectAll env (es.map DonorEntry.text) rs ret).Is (served env es rs) := by
  induction es generalizing rs ret with
  | nil =>
      rw [hret rfl]
      exact finish_is env rs
  | cons e es ih =>
      have hes := fun e he => h e (List.mem_cons_of_mem _ he)
      rw [List.map_cons]
      rcases connectEntry_text env rs (h e List.mem_cons_self) with
        ⟨q, hq, hturn⟩ | ⟨hnone, hstops⟩
      · rw [connectAll, hturn, served, hq, issue]
        by_cases hret : env.ioctl (rs ++ [q]) = 0
        · simp only [hret, ne_eq, not_true_eq_false, if_false, if_true]
          exact ih hes fun _ => rfl
        · simp only [ne_eq, hret, not_false_eq_true, if_true, if_false, finish]
          exact ⟨rfl, errInval, rfl, by simp [errInval]⟩
      · obtain ⟨hrs, r, hr, hresult⟩ := connectAll_stops (es.map DonorEntry.text) ret hstops
        rw [served, hnone]
        exact ⟨hrs, r, hresult, by simpa using hr⟩

end Lists

/-! ## Quotes -/

section Quotes

variable {str s t : List Char} {q : Char}

/-- Behind a quote, the text ends at the next quote if it is the same, and otherwise between two
later ones. -/
theorem quoteScan_some (hq : isQuote q = true) : quoteScan (some q) str s = some t ↔
    (∃ x post, s = x ++ q :: post ∧ (∀ c ∈ x, isQuote c = false) ∧ t = str ++ x) ∨
      ∃ pre r post, s = pre ++ r :: (t ++ r :: post) ∧ isQuote r = true ∧
        (∀ c ∈ t, isQuote c = false) ∧ (q :: (pre.filter isQuote ++ [r])).IsChain (· ≠ ·) := by
  induction s generalizing q str with
  | nil => simp [quoteScan]
  | cons c s ih =>
      by_cases hqc : q = c
      · subst hqc
        rw [quoteScan, if_pos rfl]
        refine ⟨fun h => .inl ⟨[], s, rfl, by simp, by simpa using h.symm⟩, ?_⟩
        rintro (⟨x, post, heq, hx, rfl⟩ | ⟨pre, r, post, heq, -, -, hchain⟩)
        · cases x with
          | nil => rw [List.append_nil]
          | cons a x =>
              rw [List.cons_append, List.cons.injEq] at heq
              rw [heq.1, hx a List.mem_cons_self] at hq
              exact absurd hq Bool.false_ne_true
        · cases pre with
          | nil =>
              rw [List.nil_append, List.cons.injEq] at heq
              simp [heq.1] at hchain
          | cons a pre =>
              rw [List.cons_append, List.cons.injEq] at heq
              rw [← heq.1, List.filter_cons_of_pos hq] at hchain
              simp at hchain
      · rw [quoteScan, if_neg (by simpa using hqc)]
        by_cases hc : isQuote c = true
        · rw [if_pos hc, ih hc]
          constructor
          · rintro (⟨x, post, rfl, hx, rfl⟩ | ⟨pre, r, post, rfl, hr, ht, hchain⟩)
            · exact .inr ⟨[], c, post, rfl, hc, hx, by simpa using hqc⟩
            · refine .inr ⟨c :: pre, r, post, rfl, hr, ht, ?_⟩
              rw [List.filter_cons_of_pos hc, List.cons_append, List.isChain_cons_cons]
              exact ⟨hqc, hchain⟩
          · rintro (⟨x, post, heq, hx, rfl⟩ | ⟨pre, r, post, heq, hr, ht, hchain⟩)
            · cases x with
              | nil =>
                  rw [List.nil_append, List.cons.injEq] at heq
                  exact absurd heq.1.symm hqc
              | cons a x =>
                  rw [List.cons_append, List.cons.injEq] at heq
                  rw [heq.1, hx a List.mem_cons_self] at hc
                  exact absurd hc Bool.false_ne_true
            · cases pre with
              | nil =>
                  rw [List.nil_append, List.cons.injEq] at heq
                  exact .inl ⟨t, post, by rw [heq.2, heq.1], ht, rfl⟩
              | cons a pre =>
                  rw [List.cons_append, List.cons.injEq] at heq
                  rw [← heq.1, List.filter_cons_of_pos hc, List.cons_append,
                    List.isChain_cons_cons] at hchain
                  exact .inr ⟨pre, r, post, heq.2, hr, ht, hchain.2⟩
        · rw [if_neg hc, ih hq]
          constructor
          · rintro (⟨x, post, rfl, hx, rfl⟩ | ⟨pre, r, post, rfl, hr, ht, hchain⟩)
            · exact .inl ⟨c :: x, post, rfl, List.forall_mem_cons.mpr ⟨by simpa using hc, hx⟩,
                by simp⟩
            · refine .inr ⟨c :: pre, r, post, rfl, hr, ht, ?_⟩
              rwa [List.filter_cons_of_neg hc]
          · rintro (⟨x, post, heq, hx, rfl⟩ | ⟨pre, r, post, heq, hr, ht, hchain⟩)
            · cases x with
              | nil =>
                  rw [List.nil_append, List.cons.injEq] at heq
                  exact absurd heq.1.symm hqc
              | cons a x =>
                  rw [List.cons_append, List.cons.injEq] at heq
                  exact .inl ⟨x, post, heq.2, (List.forall_mem_cons.mp hx).2, by simp [heq.1]⟩
            · cases pre with
              | nil =>
                  rw [List.nil_append, List.cons.injEq] at heq
                  exact absurd (heq.1 ▸ hr) hc
              | cons a pre =>
                  rw [List.cons_append, List.cons.injEq] at heq
                  rw [← heq.1, List.filter_cons_of_neg hc] at hchain
                  exact .inr ⟨pre, r, post, heq.2, hr, ht, hchain⟩

theorem quoteScan_none : quoteScan none str s = some t ↔
    ((∀ c ∈ s, isQuote c = false) ∧ t = str ++ s) ∨
      ∃ pre r post, s = pre ++ r :: (t ++ r :: post) ∧ isQuote r = true ∧
        (∀ c ∈ t, isQuote c = false) ∧ (pre.filter isQuote ++ [r]).IsChain (· ≠ ·) := by
  induction s generalizing str with
  | nil =>
      rw [quoteScan, Option.some.injEq]
      simpa using eq_comm
  | cons c s ih =>
      rw [quoteScan, if_neg (Option.some_ne_none c).symm]
      by_cases hc : isQuote c = true
      · rw [if_pos hc, quoteScan_some hc]
        constructor
        · rintro (⟨x, post, rfl, hx, rfl⟩ | ⟨pre, r, post, rfl, hr, ht, hchain⟩)
          · exact .inr ⟨[], c, post, rfl, hc, hx, by simp⟩
          · refine .inr ⟨c :: pre, r, post, rfl, hr, ht, ?_⟩
            rwa [List.filter_cons_of_pos hc]
        · rintro (⟨hall, -⟩ | ⟨pre, r, post, heq, hr, ht, hchain⟩)
          · rw [hall c List.mem_cons_self] at hc
            exact absurd hc Bool.false_ne_true
          · cases pre with
            | nil =>
                rw [List.nil_append, List.cons.injEq] at heq
                exact .inl ⟨t, post, by rw [heq.2, heq.1], ht, rfl⟩
            | cons a pre =>
                rw [List.cons_append, List.cons.injEq] at heq
                rw [← heq.1, List.filter_cons_of_pos hc] at hchain
                exact .inr ⟨pre, r, post, heq.2, hr, ht, hchain⟩
      · rw [if_neg hc, ih]
        refine or_congr ?_ ⟨?_, ?_⟩
        · simp [hc]
        · rintro ⟨pre, r, post, rfl, hr, ht, hchain⟩
          refine ⟨c :: pre, r, post, rfl, hr, ht, ?_⟩
          rwa [List.filter_cons_of_neg hc]
        · rintro ⟨pre, r, post, heq, hr, ht, hchain⟩
          cases pre with
          | nil =>
              rw [List.nil_append, List.cons.injEq] at heq
              exact absurd (heq.1 ▸ hr) hc
          | cons a pre =>
              rw [List.cons_append, List.cons.injEq] at heq
              rw [← heq.1, List.filter_cons_of_neg hc] at hchain
              exact ⟨pre, r, post, heq.2, hr, ht, hchain⟩

/-- The loop over the quotes leaves the text without them. -/
theorem quoteScan_iff : quoteScan none [] s = some t ↔ Unquoted s t := by
  rw [quoteScan_none, List.nil_append, Unquoted]

end Quotes

/-! ## The whole text -/

section Texts

variable {env : Env} {s t : List Char} {es : List DonorEntry}

theorem listText_chars (h : ∀ e ∈ es, e.WellFormed) : ∀ c ∈ listText es, isQuote c = false := by
  intro c hc
  rcases mem_joined hc with rfl | ⟨u, hu, hc⟩
  · decide
  · obtain ⟨e, he, rfl⟩ := List.mem_map.mp hu
    exact ((h e he).text_chars.2 c hc).2

theorem tokens_listText (h : ∀ e ∈ es, e.WellFormed) :
    tokens '|' (listText es) = es.map DonorEntry.text := by
  refine tokens_joined fun u hu => ?_
  obtain ⟨e, he, rfl⟩ := List.mem_map.mp hu
  exact ⟨(h e he).text_chars.1, fun hbar => ((h e he).text_chars.2 '|' hbar).1 rfl⟩

theorem Spells.unquoted (h : Spells s es) : Unquoted s (listText es) := by
  have hchars := listText_chars h.wellFormed
  rcases h.quotes with rfl | ⟨q, hq, rfl⟩
  · exact .inl ⟨hchars, rfl⟩
  · exact .inr ⟨[], q, [], rfl, hq, hchars, by simp⟩

theorem empSetupMedia_of_unquoted (hdup : env.strdup ≠ false) (h : Unquoted s t) :
    empSetupMedia env s = connectAll env (tokens '|' t) [] none := by
  rw [empSetupMedia, if_neg hdup, quoteScan_iff.mpr h]
  exact connectLoop_eq env t [] none

/-- A list of donors is served. -/
theorem Spells.is_served (h : Spells s es) :
    (empSetupMedia env s).Is (if env.strdup = false then ([], false) else served env es []) := by
  by_cases hdup : env.strdup = false
  · rw [empSetupMedia, if_pos hdup, if_pos hdup]
    exact ⟨rfl, errNomem, rfl, by simp [errNomem]⟩
  · rw [if_neg hdup, empSetupMedia_of_unquoted hdup h.unquoted, tokens_listText h.wellFormed]
    exact connectAll_texts h.wellFormed fun hnil => absurd hnil h.some_entry

/-- A donor that is turned down behind others that have a size. -/
theorem connectAll_error {pre post : List (List Char)} {token : List Char}
    (hpre : ∀ u ∈ pre, 2 ≤ (tokens ':' u).length) (h : Refused token) (rs : List Request)
    (ret : Option ℤ) : (connectAll env (pre ++ token :: post) rs ret).Error := by
  induction pre generalizing rs ret with
  | nil => exact (connectAll_stops post ret h.stops).2
  | cons u pre ih =>
      rcases stops_or_issue env rs (hpre u List.mem_cons_self) with hstops | ⟨q, hq⟩
      · exact (connectAll_stops _ _ hstops).2
      · rw [List.cons_append, connectAll, hq, issue]
        by_cases hret : env.ioctl (rs ++ [q]) = 0
        · simp only [hret, ne_eq, not_true_eq_false, if_false]
          exact ih (fun v hv => hpre v (List.mem_cons_of_mem u hv)) (rs ++ [q]) (some 0)
        · simp only [ne_eq, hret, not_false_eq_true, if_true, finish, if_false]
          exact ⟨errInval, by decide, rfl⟩

theorem RefusedInTime.error (h : RefusedInTime s) : (empSetupMedia env s).Error := by
  obtain ⟨t, ht, pre, token, post, htokens, hpre, hrefused⟩ := h
  by_cases hdup : env.strdup = false
  · rw [empSetupMedia, if_pos hdup]
    exact ⟨errNomem, by decide, rfl⟩
  · rw [empSetupMedia_of_unquoted hdup ht, htokens]
    exact connectAll_error hpre hrefused [] none

/-- The C library and the kernel agree to all. -/
def agreeable : Env where
  strdup := true
  malloc := fun _ => true
  memoryMax := fun _ => some "8589934592".toList
  numaAllocOnnode := fun _ _ _ => some 4096
  inetAddr := fun _ => 0
  ioctl := fun _ => 0

theorem limit_agreeable (rs : List Request) :
    getContainerMemoryLimit (agreeable.memoryMax rs) = 8192 :=
  show getContainerMemoryLimit (some "8589934592".toList) = 8192 by decide

/-- If all agree, a donor with a size leads to a request, unless the library turns it down. -/
theorem issue_of_agreeable {token path size : List Char} {rest : List (List Char)}
    (h : tokens ':' token = path :: size :: rest) (hr : ¬ Refused token) (rs : List Request) :
    ∃ q, connectEntry agreeable rs token = issue agreeable rs q := by
  rw [connectEntry_of_cons h, if_neg (by simp [agreeable])]
  by_cases htype : empGetDonorDevType path = .dram
  · have hmin : minimumLocalCacheSize = 4096 := rfl
    rw [if_pos htype, setDram, dramSize]
    simp only [limit_agreeable, hmin]
    by_cases hmax : toSizeT (atol size) = sizeMax
    · simp only [hmax]
      exact ⟨_, rfl⟩
    · have hlarge : ¬ toSizeT (atol size) < 4096 := by
        intro hlt
        refine hr ⟨path, size, rest, h, .inr ⟨htype, ?_⟩⟩
        have hbounds := atol_mem size
        rw [toSizeT] at hlt
        omega
      simp only [if_neg hmax, if_neg hlarge]
      exact ⟨_, rfl⟩
  · cases rest with
    | nil => exact absurd ⟨path, size, [], h, .inl ⟨htype, rfl⟩⟩ hr
    | cons arg rest =>
        rw [if_neg htype]
        simp only [List.head?_cons, connDonor]
        split
        · exact ⟨_, rfl⟩
        · split_ifs
          · exact ⟨_, rfl⟩
          · exact ⟨_, rfl⟩
        · exact ⟨_, rfl⟩

/-- If all agree, an error means that a donor is turned down. -/
theorem refused_of_error {ts : List (List Char)} {rs : List Request} {ret : Option ℤ}
    (hret : ∀ r ∈ ret, r = 0) (h : (connectAll agreeable ts rs ret).Error) :
    ∃ pre token post, ts = pre ++ token :: post ∧ (∀ u ∈ pre, 2 ≤ (tokens ':' u).length) ∧
      Refused token := by
  induction ts generalizing rs ret with
  | nil =>
      obtain ⟨r, hr, hresult⟩ := h
      cases ret with
      | none => simp [connectAll, finish] at hresult
      | some ret =>
          rw [hret ret rfl] at hresult
          simp [connectAll, finish, agreeable] at hresult
          exact absurd hresult.symm hr
  | cons token ts ih =>
      rw [connectAll] at h
      obtain hnil | ⟨path, hone⟩ | ⟨path, size, rest, htokens⟩ := tokens_cases ':' token
      · obtain ⟨r, -, hresult⟩ := h
        simp [connectEntry_of_nil hnil] at hresult
      · obtain ⟨r, -, hresult⟩ := h
        simp [connectEntry_of_singleton hone, agreeable] at hresult
      · by_cases hr : Refused token
        · exact ⟨[], token, ts, rfl, by simp, hr⟩
        · obtain ⟨q, hq⟩ := issue_of_agreeable htokens hr rs
          rw [hq] at h
          obtain ⟨pre, u, post, rfl, hpre, hu⟩ := @ih (rs ++ [q]) (some 0) (by simp) h
          refine ⟨token :: pre, u, post, rfl, List.forall_mem_cons.mpr ⟨?_, hpre⟩, hu⟩
          simp [htokens]

end Texts

/-- **The path of the memory.**  The call does what it should with a text, whatever the C library
and the kernel answer, exactly if the text stands for a list of donors, or has a donor that is
turned down, behind others that have a size. -/
theorem mediaOk_iff (s : List Char) :
    (∀ env, MediaOk env s) ↔ (∃ es, Spells s es) ∨ RefusedInTime s := by
  constructor
  · intro h
    by_cases hs : ∃ es, Spells s es
    · exact .inl hs
    · have herror := (h agreeable).2 hs
      cases hscan : quoteScan none [] s with
      | none =>
          obtain ⟨r, -, hresult⟩ := herror
          simp [empSetupMedia, hscan, agreeable] at hresult
      | some t =>
          have ht := quoteScan_iff.mp hscan
          rw [empSetupMedia_of_unquoted (by simp [agreeable]) ht] at herror
          obtain ⟨pre, token, post, htokens, hpre, hr⟩ := refused_of_error (by simp) herror
          exact .inr ⟨t, ht, pre, token, post, htokens, hpre, hr⟩
  · intro h env
    refine ⟨fun es hes => hes.is_served, fun hnone => ?_⟩
    exact (h.resolve_left hnone).error

theorem MediaOk.result {env : Env} {s : List Char} (h : MediaOk env s) :
    ∃ r, (empSetupMedia env s).result = .ok r := by
  by_cases hs : ∃ es, Spells s es
  · obtain ⟨es, hes⟩ := hs
    obtain ⟨-, r, hr, -⟩ := h.1 es hes
    exact ⟨r, hr⟩
  · obtain ⟨r, -, hr⟩ := h.2 hs
    exact ⟨r, hr⟩

/-- A quote that is not closed, the empty text, and a donor without a size. -/
theorem not_mediaOk : ¬ MediaOk agreeable ['"', 'd', 'r', 'a', 'm', ':', '8', '1', '9', '2'] ∧
    ¬ MediaOk agreeable [] ∧ ¬ MediaOk agreeable ['d', 'r', 'a', 'm'] := by
  refine ⟨fun h => ?_, fun h => ?_, fun h => ?_⟩
  · obtain ⟨r, hr⟩ := h.result
    have hrun : (empSetupMedia agreeable
      ['"', 'd', 'r', 'a', 'm', ':', '8', '1', '9', '2']).result = .error .overrun := rfl
    exact absurd (hrun.symm.trans hr) (by simp)
  · obtain ⟨r, hr⟩ := h.result
    rw [empSetupMedia_of_unquoted (t := []) (by simp [agreeable]) (quoteScan_iff.mp rfl),
      tokens_of_none rfl] at hr
    simp [connectAll, finish] at hr
  · obtain ⟨r, hr⟩ := h.result
    have htokens : ∀ d, d ∉ ['d', 'r', 'a', 'm'] →
        tokens d ['d', 'r', 'a', 'm'] = [['d', 'r', 'a', 'm']] := by
      intro d hd
      rw [tokens_of_some (strtok_singleton (by simp) hd), tokens_of_none rfl]
    have hquotes : Unquoted ['d', 'r', 'a', 'm'] ['d', 'r', 'a', 'm'] :=
      .inl ⟨by simp [isQuote], rfl⟩
    rw [empSetupMedia_of_unquoted (by simp [agreeable]) hquotes, htokens '|' (by decide),
      connectAll, connectEntry_of_singleton (htokens ':' (by decide))] at hr
    simp [agreeable] at hr

end Emp.Media
