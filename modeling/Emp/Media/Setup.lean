import Emp.Lib.Scan
import Emp.Lib.Tokens

/-!
# The path of the memory

A process gives the memory it wants as a text: donors with a bar between any two, each of them a
path, a size and an argument with colons between.  The text may stand in quotes.  The library cuts
it up, and asks the kernel for one donor after the other.

A C string is the list of the characters before its NUL.

## Main definitions

* `empGetDonorDevType` — the kind of a donor, by the front of its path.
* `quoteScan` — the loop that looks for quotes.
* `connectEntry` — one turn of the loop over the donors.
* `empSetupMedia` — the whole call.
-/

namespace Emp.Media

open Scan Tokens

def errInval : ℤ := -22

def errNomem : ℤ := -12

/-- `enum donor_dev_type`. -/
inductive DonorDevType
  | dram | nvme | rdma | pmem | memdev
  deriving DecidableEq, Repr

/-- `emp_get_donor_dev_type`. -/
def empGetDonorDevType (path : List Char) : DonorDevType :=
  if "dram".toList.isPrefixOf path || "DRAM".toList.isPrefixOf path then .dram
  else if "memdev".toList.isPrefixOf path || "MEMDEV".toList.isPrefixOf path then .memdev
  else if "/dev/nvme".toList.isPrefixOf path then .nvme
  else if "/dev/ram".toList.isPrefixOf path then .nvme
  else if "/dev/pmem".toList.isPrefixOf path then .nvme
  else .rdma

/-- `struct donor_info`, where `none` is a field that was not set. -/
structure DonorInfo where
  path : List Char
  devType : DonorDevType
  size : ℕ
  /-- the union of `addr`, `ptr` and `loc` -/
  loc : Option ℕ
  /-- the union of `port`, `base` and `node` -/
  arg : Option ℕ
  deriving DecidableEq

/-- The requests to the kernel. -/
inductive Request
  /-- `IOCTL_CONN_DONOR` -/
  | connDonor (donor : DonorInfo)
  /-- `IOCTL_SET_DRAM` -/
  | setDram (donor : DonorInfo)
  /-- `IOCTL_FINI_CONN` -/
  | finiConn
  deriving DecidableEq

/-- What the C library and the kernel answer, after the requests that were made. -/
structure Env where
  /-- `strdup` gets memory -/
  strdup : Bool
  /-- `malloc` gets memory -/
  malloc : List Request → Bool
  /-- the first line of `memory.max`, or of the file that stands for it -/
  memoryMax : List Request → Option (List Char)
  /-- `numa_alloc_onnode` of a size on a node; `none` is `NULL` -/
  numaAllocOnnode : List Request → ℕ → ℕ → Option ℕ
  inetAddr : List Char → ℕ
  /-- the answer to the last of the requests -/
  ioctl : List Request → ℤ

/-! ## Numbers -/

/-- `isspace`. -/
def isBlank (c : Char) : Bool := (9 ≤ c.toNat && c.toNat ≤ 13) || c.toNat = 32

/-- `strtol` in base ten, which stops at the ends of a `long`. -/
def atol (s : List Char) : ℤ :=
  let s := s.dropWhile isBlank
  let neg := s.head? == some '-'
  let digits := if neg || s.head? == some '+' then s.tail else s
  let n : ℤ := value 10 (digits.takeWhile (isDigit 10))
  max (-2 ^ 63) (min (2 ^ 63 - 1) (if neg then -n else n))

/-- `atoi`: the low half of `atol`. -/
def atoi (s : List Char) : ℤ := (atol s).bmod (2 ^ 32)

/-- An `int` as an `unsigned int`. -/
def toUnsigned (n : ℤ) : ℕ := (n % 2 ^ 32).toNat

/-- A `long` as a `size_t`. -/
def toSizeT (n : ℤ) : ℕ := (n % 2 ^ 64).toNat

/-- `(size_t) -1`. -/
def sizeMax : ℕ := 2 ^ 64 - 1

/-- `MINIMUM_LOCAL_CACHE_SIZE`, in MiB. -/
def minimumLocalCacheSize : ℕ := 4 <<< 10

/-- `get_container_memory_limit`, in MiB. -/
def getContainerMemoryLimit (line : Option (List Char)) : ℕ :=
  match line with
  | none => sizeMax
  | some buffer => if buffer = "max".toList then sizeMax else toSizeT (atol buffer / 2 ^ 20)

/-! ## Quotes -/

def isQuote (c : Char) : Bool := c = '"' || c = '\''

/-- The loop that looks for quotes, with the terminator that it has, `none` for NUL, and what is
between `str` and `c`.  The result is the text from `str` on; `none` is a loop that runs behind the
end of the text. -/
def quoteScan : Option Char → List Char → List Char → Option (List Char)
  | none, str, [] => some str
  | some _, _, [] => none
  | term, str, c :: s =>
      if term = some c then some str
      else if isQuote c then quoteScan (some c) [] s
      else quoteScan term (str ++ [c]) s

/-! ## One donor -/

/-- What is wrong with a use of memory. -/
inductive Misuse
  /-- the text is read behind its end -/
  | overrun
  /-- a field is used that is missing -/
  | missing
  /-- `ret` is used before it is set -/
  | unset
  deriving DecidableEq

/-- How a turn of the loop ends. -/
inductive Turn
  | misuse (m : Misuse)
  /-- `return` -/
  | leave (r : ℤ)
  /-- the end of the turn, with the requests made so far and `ret` -/
  | done (rs : List Request) (ret : ℤ)

section Entry

variable (env : Env) (rs : List Request)

/-- A request is made, and its answer is `ret`. -/
def issue (q : Request) : Turn := .done (rs ++ [q]) (env.ioctl (rs ++ [q]))

/-- `-1` stands for the limit of the container. -/
def dramSize (size : ℕ) : Option ℕ :=
  if size = sizeMax then
    let limit := getContainerMemoryLimit (env.memoryMax rs)
    if limit ≠ sizeMax then some limit else none
  else some size

/-- The branch for the memory of the host. -/
def setDram (donor : DonorInfo) : Turn :=
  match dramSize env rs donor.size with
  | none => .leave errNomem
  | some size =>
      if size < minimumLocalCacheSize then .leave errNomem
      else issue env rs (.setDram { donor with size := size })

/-- The branch for all others, where `subtoken` is the third field. -/
def connDonor (donor : DonorInfo) (subtoken : Option (List Char)) : Turn :=
  match subtoken with
  | none => .done rs errInval
  | some arg =>
      let n := toUnsigned (atoi arg)
      match donor.devType with
      | .rdma =>
          issue env rs
            (.connDonor { donor with loc := some (env.inetAddr donor.path), arg := some n })
      | .memdev =>
          if arg.head? = some '-' then
            let node := toUnsigned (-n)
            match env.numaAllocOnnode rs (donor.size * 2 ^ 20 % 2 ^ 64) node with
            | none => .done rs errNomem
            | some ptr =>
                issue env rs (.connDonor { donor with loc := some ptr, arg := some node })
          else issue env rs (.connDonor { donor with loc := some 0, arg := some n })
      | _ => issue env rs (.connDonor { donor with loc := some 0, arg := some n })

/-- One turn of the loop over the donors. -/
def connectEntry (token : List Char) : Turn :=
  match strtok ':' token with
  -- `strlen` of `NULL`
  | (none, _) => .misuse .missing
  | (some path, saveptr2) =>
      if env.malloc rs = false then .done rs errNomem
      else
        let devType := empGetDonorDevType path
        match strtok ':' saveptr2 with
        -- `atol` of `NULL`
        | (none, _) => .misuse .missing
        | (some size, saveptr2) =>
            let donor : DonorInfo := ⟨path, devType, toSizeT (atol size), none, none⟩
            if devType = .dram then setDram env rs donor
            else connDonor env rs donor (strtok ':' saveptr2).1

end Entry

/-! ## The whole call -/

/-- The requests that were made, and what is returned. -/
structure Outcome where
  requests : List Request
  result : Except Misuse ℤ

/-- What follows the loop. -/
def finish (env : Env) (rs : List Request) : Option ℤ → Outcome
  | none => ⟨rs, .error .unset⟩
  | some ret =>
      if ret = 0 then
        ⟨rs ++ [.finiConn], .ok (if env.ioctl (rs ++ [.finiConn]) = 0 then 0 else errInval)⟩
      else ⟨rs, .ok errInval⟩

/-- The loop over the donors, with the text that `strtok_r` has left, and with `ret` once it is
set. -/
def connectLoop (env : Env) (str : List Char) (rs : List Request) (ret : Option ℤ) : Outcome :=
  match _h : strtok '|' str with
  | (none, _) => finish env rs ret
  | (some token, saveptr1) =>
      match connectEntry env rs token with
      | .misuse m => ⟨rs, .error m⟩
      | .leave r => ⟨rs, .ok r⟩
      | .done rs ret =>
          if ret ≠ 0 then finish env rs (some ret) else connectLoop env saveptr1 rs (some ret)
termination_by str.length
decreasing_by exact length_strtok_lt _h

/-- `emp_setup_media` of a text. -/
def empSetupMedia (env : Env) (path : List Char) : Outcome :=
  if env.strdup = false then ⟨[], .ok errNomem⟩
  else match quoteScan none [] path with
    | none => ⟨[], .error .overrun⟩
    | some str => connectLoop env str [] none

/-! ## The loop, donor by donor -/

/-- The loop over the tokens. -/
def connectAll (env : Env) : List (List Char) → List Request → Option ℤ → Outcome
  | [], rs, ret => finish env rs ret
  | token :: ts, rs, _ =>
      match connectEntry env rs token with
      | .misuse m => ⟨rs, .error m⟩
      | .leave r => ⟨rs, .ok r⟩
      | .done rs ret =>
          if ret ≠ 0 then finish env rs (some ret) else connectAll env ts rs (some ret)

theorem connectLoop_eq (env : Env) (str : List Char) (rs : List Request) (ret : Option ℤ) :
    connectLoop env str rs ret = connectAll env (tokens '|' str) rs ret := by
  induction hn : str.length using Nat.strongRecOn generalizing str rs ret with
  | ind n ih =>
      rw [connectLoop]
      split
      next h => rw [tokens_of_none h, connectAll]
      next token saveptr1 h =>
        rw [tokens_of_some h, connectAll]
        cases connectEntry env rs token with
        | misuse m => rfl
        | leave r => rfl
        | done rs ret =>
            simp only
            rw [ih saveptr1.length (hn ▸ length_strtok_lt h) saveptr1 rs (some ret) rfl]

end Emp.Media
