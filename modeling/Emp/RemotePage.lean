import Mathlib.Data.Nat.Notation

/-!
# Remote page words

A descriptor names the remote copy of its subblock in one word.  A word is free,
or it names a page: the id of the memory region that holds it and its offset
there, in pages.  A word that is shared after a fork goes through a counted
wrapper; the wrapper is part of `Emp.Cow.RemoteWord`, and the allocator never sees it.

## Main definitions

* `RemotePage` — a plain word.
* `RemotePage.isFree` — the test of a free word.
-/

namespace Emp

/-- A plain remote page word: `FREE_REMOTE_PAGE_VAL`, or the region and the page
offset that `make_remote_page_val` packs. -/
inductive RemotePage
  | free
  | page (mrid offset : ℕ)
  deriving DecidableEq, Repr, Inhabited

/-- `is_remote_page_free`. -/
def RemotePage.isFree : RemotePage → Bool
  | .free => true
  | .page _ _ => false

@[simp] theorem RemotePage.isFree_free : RemotePage.free.isFree = true := rfl
@[simp] theorem RemotePage.isFree_page (mrid offset : ℕ) :
    (RemotePage.page mrid offset).isFree = false := rfl

theorem RemotePage.isFree_iff {rp : RemotePage} : rp.isFree = true ↔ rp = .free := by
  cases rp <;> simp

end Emp
