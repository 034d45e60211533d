import Mathlib.Data.Int.Notation
import Mathlib.Data.Nat.Notation
import Mathlib.Logic.Function.Basic

/-!
# Work requests, connection contexts and their counters

A work request carries one subblock to or from a donor.  It is allocated from its
region, posted on a connection context through the donor's table of operations,
waited for, and freed.  Requests and contexts are named by numbers that stand for
their addresses.

## Main definitions

* `WorkRequest`, `Context`, `Dma` — the records, and all of them together.
* `allocWorkRequest`, `freeWorkRequest` — the region's cache of requests.
* `Dma.setWr`, `Dma.setContext` — the two updates all other operations are made of.
-/

namespace Emp

/-- `enum wr_state`. -/
inductive WrState
  | init
  | ready
  | postRead
  | postWrite
  | send
  | prFailed
  | pwFailed
  deriving DecidableEq, Repr

/-- The three tables of donor operations. -/
inductive DmaOps
  | rdma
  | nvme
  | memdev
  deriving DecidableEq, Repr

/-- A work request.  `memreg` is the region whose cache it comes from and `mrid` the
region that its copy of the remote page word names. -/
structure WorkRequest where
  live : Bool
  dmaOps : DmaOps
  memreg : ℕ
  mrid : ℕ
  gpa : ℕ
  context : ℕ
  state : WrState
  /-- `errors` of a block device request, `m_errors` of a memory device request; both
  are zero or negative, and this is the number without the sign. -/
  errno : ℕ
  /-- Whether `wait` of a block device request has been completed. -/
  waitDone : Bool
  wrRefc : ℤ
  headWr : ℕ
  ehWr : Option ℕ
  entangledWrLen : ℤ
  chainedOps : Bool
  /-- `IB_SEND_SIGNALED`. -/
  signaled : Bool
  /-- The requests that are freed with this one. -/
  remotePages : List ℕ
  /-- The local page is mapped for the device. -/
  mapped : Bool
  /-- Whether a read has arrived, and then whether the last word of the local page
  differs from `EMPTY_PAGE`, the word that was put there before; it arrives last. -/
  arrived : Option Bool

/-- A connection context. -/
structure Context where
  wrLen : ℤ
  pending : ℤ
  chainedOps : Bool
  /-- `poll_context == POLL_CONTEXT_MEMPOLL`. -/
  mempoll : Bool

/-- All requests, contexts and the `wr_len` of all regions; and what the clear
operations did: the fetches after which the remote page was given up, those after which
the local page may be mapped (`local_page->w` is null), the blocks of writes, by their
head, that were unlocked, and those among them whose local pages were reclaimed. -/
structure Dma where
  wr : ℕ → WorkRequest
  context : ℕ → Context
  mrWrLen : ℕ → ℤ
  gaveUp : ℕ → Bool
  mappable : ℕ → Bool
  finished : ℕ → Bool
  reclaimed : ℕ → Bool

namespace Dma

def setWr (s : Dma) (w : ℕ) (r : WorkRequest) : Dma := { s with wr := Function.update s.wr w r }

def setContext (s : Dma) (c : ℕ) (x : Context) : Dma :=
  { s with context := Function.update s.context c x }

variable (s : Dma) (w c : ℕ) (r : WorkRequest) (x : Context)

@[simp] theorem wr_setWr : (s.setWr w r).wr = Function.update s.wr w r := rfl
@[simp] theorem context_setWr : (s.setWr w r).context = s.context := rfl
@[simp] theorem mrWrLen_setWr : (s.setWr w r).mrWrLen = s.mrWrLen := rfl
@[simp] theorem wr_setContext : (s.setContext c x).wr = s.wr := rfl
@[simp] theorem context_setContext :
    (s.setContext c x).context = Function.update s.context c x := rfl
@[simp] theorem mrWrLen_setContext : (s.setContext c x).mrWrLen = s.mrWrLen := rfl

/-- `atomic_add(n, &head_wr->wr_refc)`. -/
def addRefc (w : ℕ) (n : ℤ) : Dma :=
  s.setWr w { s.wr w with wrRefc := (s.wr w).wrRefc + n }

/-- `atomic_add(n, &context->wr_len)`. -/
def addWrLen (c : ℕ) (n : ℤ) : Dma :=
  s.setContext c { s.context c with wrLen := (s.context c).wrLen + n }

/-- `atomic_add(n, &context->pending)`. -/
def addPending (c : ℕ) (n : ℤ) : Dma :=
  s.setContext c { s.context c with pending := (s.context c).pending + n }

/-- `WRITE_ONCE(w->state, next)`. -/
def setState (w : ℕ) (next : WrState) : Dma := s.setWr w { s.wr w with state := next }

theorem wr_addRefc_self (n : ℤ) :
    (s.addRefc w n).wr w = { s.wr w with wrRefc := (s.wr w).wrRefc + n } := by
  simp [addRefc]

theorem wr_addRefc_of_ne {w v : ℕ} (h : v ≠ w) (n : ℤ) : (s.addRefc w n).wr v = s.wr v := by
  simp [addRefc, h]

@[simp] theorem wr_addPending (n : ℤ) : (s.addPending c n).wr = s.wr := rfl

@[simp] theorem mempoll_addPending (n : ℤ) (d : ℕ) :
    ((s.addPending c n).context d).mempoll = (s.context d).mempoll := by
  by_cases h : d = c <;> simp [addPending, h]

theorem pending_addPending (n : ℤ) (d : ℕ) :
    ((s.addPending c n).context d).pending =
      (s.context d).pending + if c = d then n else 0 := by
  by_cases h : c = d
  · subst h
    simp [addPending]
  · simp [addPending, h, Ne.symm h]

theorem wr_setState (next : WrState) (v : ℕ) :
    (s.setState w next).wr v =
      { s.wr v with state := if v = w then next else (s.wr v).state } := by
  by_cases h : v = w
  · subst h
    simp [setState]
  · simp [setState, h]

@[simp] theorem context_setState (next : WrState) : (s.setState w next).context = s.context := rfl

/-- Every other field of every request survives. -/
theorem wr_addRefc (v : ℕ) (n : ℤ) :
    ∃ m, (s.addRefc w n).wr v = { s.wr v with wrRefc := m } := by
  by_cases h : v = w
  · subst h
    exact ⟨_, wr_addRefc_self s v n⟩
  · exact ⟨(s.wr v).wrRefc, wr_addRefc_of_ne s h n⟩

/-- What recording a completion may change: the state, the error and the end of a
request, and `pending` of a context. -/
structure Recorded (s s' : Dma) : Prop where
  wr : ∀ v, ∃ st e d, s'.wr v = { s.wr v with state := st, errno := e, waitDone := d }
  context : ∀ c, ∃ n, s'.context c = { s.context c with pending := n }
  mrWrLen : s'.mrWrLen = s.mrWrLen
  gaveUp : s'.gaveUp = s.gaveUp
  mappable : s'.mappable = s.mappable
  finished : s'.finished = s.finished
  reclaimed : s'.reclaimed = s.reclaimed

namespace Recorded

variable {s s' s'' : Dma}

theorem refl (s : Dma) : Recorded s s :=
  ⟨fun v => ⟨(s.wr v).state, (s.wr v).errno, (s.wr v).waitDone, rfl⟩,
    fun c => ⟨(s.context c).pending, rfl⟩, rfl, rfl, rfl, rfl, rfl⟩

theorem trans (h : Recorded s s') (h' : Recorded s' s'') : Recorded s s'' := by
  refine ⟨?_, ?_, h'.mrWrLen.trans h.mrWrLen, h'.gaveUp.trans h.gaveUp,
    h'.mappable.trans h.mappable, h'.finished.trans h.finished, h'.reclaimed.trans h.reclaimed⟩
  · intro v
    obtain ⟨st, e, d, hv⟩ := h.wr v
    obtain ⟨st', e', d', hv'⟩ := h'.wr v
    exact ⟨st', e', d', by rw [hv', hv]⟩
  · intro c
    obtain ⟨n, hc⟩ := h.context c
    obtain ⟨n', hc'⟩ := h'.context c
    exact ⟨n', by rw [hc', hc]⟩

theorem setState (s : Dma) (w : ℕ) (next : WrState) : Recorded s (s.setState w next) := by
  refine ⟨?_, fun c => ⟨(s.context c).pending, rfl⟩, rfl, rfl, rfl, rfl, rfl⟩
  intro v
  exact ⟨_, (s.wr v).errno, (s.wr v).waitDone, wr_setState s w next v⟩

theorem addPending (s : Dma) (c : ℕ) (n : ℤ) : Recorded s (s.addPending c n) := by
  refine ⟨fun v => ⟨(s.wr v).state, (s.wr v).errno, (s.wr v).waitDone, rfl⟩, ?_,
    rfl, rfl, rfl, rfl, rfl⟩
  intro d
  by_cases h : d = c
  · subst h
    exact ⟨(s.context d).pending + n, by simp [Dma.addPending]⟩
  · exact ⟨(s.context d).pending, by simp [Dma.addPending, h]⟩

/-- A list of completions. -/
theorem foldl {ε : Type*} {f : Dma → ε → Dma} (hf : ∀ s e, Recorded s (f s e)) (l : List ε)
    (s : Dma) : Recorded s (l.foldl f s) := by
  induction l generalizing s with
  | nil => exact refl s
  | cons e l ih => exact (hf s e).trans (ih (f s e))

end Recorded

end Dma

/-- `alloc_work_request` from region `m` with the table's `init_wr`, followed by
`init_wr_remote_page` and the `gpa` of the request. -/
def allocWorkRequest (s : Dma) (ops : DmaOps) (w m mrid gpa : ℕ) : Dma :=
  { s.setWr w { s.wr w with
      live := true, dmaOps := ops, memreg := m, mrid := mrid, gpa := gpa,
      waitDone := (s.wr w).waitDone && ops != .nvme
      signaled := (s.wr w).signaled && ops != .rdma } with
    mrWrLen := Function.update s.mrWrLen m (s.mrWrLen m + 1) }

/-- `free_work_request`: the region is looked up by the request's remote page word. -/
def freeWorkRequest (s : Dma) (w : ℕ) : Dma :=
  let m := (s.wr w).mrid
  { s.setWr w { s.wr w with live := false } with
    mrWrLen := Function.update s.mrWrLen m (s.mrWrLen m - 1) }

/-- Nothing was posted yet; contexts allow no chains. -/
def quiet : Dma where
  wr _ := ⟨false, .rdma, 0, 0, 0, 0, .init, 0, false, 0, 0, none, 0, false, false, [], false,
    none⟩
  context _ := ⟨0, 0, false, false⟩
  mrWrLen _ := 0
  gaveUp _ := false
  mappable _ := false
  finished _ := false
  reclaimed _ := false

end Emp
