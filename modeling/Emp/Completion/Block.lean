import Emp.Rdma
import Emp.Lib.Scatter
import Mathlib

/-!
# Completions of the requests of one block

A block's requests are posted one by one on their contexts, or gathered in a chain
that is posted as a whole.  Their completions then arrive in any order: one for each
independent request, one for a chain that succeeds, and one for every request of a
chain that fails.

## Main definitions

* `BlockPost` — how a block is posted; `postBlock` posts it.
* `completions` — the completions that will arrive.
* `CompletionOk` — what the waiters rely on.
-/

namespace Emp

open Scatter

/-- A block of `n` requests, in the order of posting; request `0` is the head.  Those
from `chain` on form a chain. -/
structure BlockPost where
  write : Bool
  n : ℕ
  context : ℕ → ℕ
  chain : Option ℕ

namespace BlockPost

variable (p : BlockPost)

/-- How many requests are posted on their own. -/
def lead : ℕ := p.chain.getD p.n

/-- The posts the code makes from state `s`.  Chained writes always start at the head
of the block, and a chain is on one context, one that allows chains; a context that
allows chains takes no independent write.  Reads whose completion is delivered are on
contexts that are not memory-polled. -/
structure Valid (s : Dma) : Prop where
  pos : 0 < p.n
  chain_lt : ∀ c, p.chain = some c → c < p.n
  chain_write : ∀ c, p.chain = some c → p.write = true → c = 0
  chain_context : ∀ c, p.chain = some c → ∀ i, c ≤ i → i < p.n → p.context i = p.context c
  chained : ∀ i, p.lead ≤ i → i < p.n → (s.context (p.context i)).chainedOps = true
  single : p.write = true → ∀ i < p.lead, (s.context (p.context i)).chainedOps = false
  signaled : ∀ i < p.n, (s.context (p.context i)).mempoll = false

/-- The head argument of a post. -/
def headWr (i : ℕ) : Option ℕ := if i = 0 then none else some 0

/-- Post request `i`. -/
def postOne (s : Dma) (i : ℕ) : Dma :=
  if p.write then (rdmaPostWrite s i (p.context i) (headWr i) false).1
  else rdmaPostRead s i (p.context i) (headWr i) (decide (p.lead ≤ i))

/-- The loops of `fetch_block` and `evict_block` over the first `k` subblocks. -/
def postUpto (s : Dma) (k : ℕ) : Dma := (List.range k).foldl p.postOne s

/-- Post the whole block. -/
def postBlock (s : Dma) : Dma :=
  match p.chain with
  | none => p.postUpto s p.n
  | some c => rdmaPostWorkReq (p.postUpto s p.n) c (p.n - 1) 0 (p.n - c : ℕ)

/-- Whether request `i`, or its chain, fails. -/
def fails (failed : ℕ → Bool) (i : ℕ) : Bool := if p.lead ≤ i then failed p.lead else failed i

/-- The completions of the block: on an error all requests of a chain receive one. -/
def completions (failed : ℕ → Bool) : List (ℕ × Bool) :=
  (List.range p.lead).map (fun i => (i, !failed i)) ++
    match p.chain with
    | none => []
    | some c =>
        if failed c then (List.range' c (p.n - c)).map fun i => (i, false)
        else [(p.n - 1, true)]

/-- One completion. -/
def deliver (s : Dma) (e : ℕ × Bool) : Dma :=
  if p.write then handleRdmaWrite s e.1 e.2 else handleRdmaRead s e.1 e.2

def deliverAll (s : Dma) (l : List (ℕ × Bool)) : Dma := l.foldl p.deliver s

/-- The requests that are waited for: a chain of writes only through its head. -/
def Waited (i : ℕ) : Prop := i < p.n ∧ (p.write = true → p.chain.isSome → i = 0)

/-- The wait loop of request `i`. -/
def wait (s : Dma) (i : ℕ) : Option ℤ := if p.write then rdmaWaitWrite s i else rdmaWaitRead s i

/-- What the wait should return. -/
def result (failed : ℕ → Bool) (i : ℕ) : ℤ := if p.fails failed i then -1 else 0

end BlockPost

def WrState.isFailed : WrState → Bool
  | .prFailed | .pwFailed => true
  | _ => false

/-- What the waiters of a block posted in `s` rely on when the completions `l` arrive
in this order: in the end every waiter leaves its loop; whenever one leaves, it
reports a failure exactly if its request, or its chain, failed; a recorded failure
stays; and every context's `pending` is back at its value before the posts. -/
structure CompletionOk (p : BlockPost) (failed : ℕ → Bool) (s : Dma) (l : List (ℕ × Bool)) :
    Prop where
  leaves : ∀ i, p.Waited i →
    p.wait (p.deliverAll (p.postBlock s) l) i = some (p.result failed i)
  exact : ∀ l₁ l₂, l = l₁ ++ l₂ → ∀ i, p.Waited i →
    p.wait (p.deliverAll (p.postBlock s) l₁) i = none ∨
      p.wait (p.deliverAll (p.postBlock s) l₁) i = some (p.result failed i)
  kept : ∀ l₁ e l₂, l = l₁ ++ e :: l₂ → ∀ i < p.n,
    ((p.deliverAll (p.postBlock s) l₁).wr i).state.isFailed = true →
      ((p.deliverAll (p.postBlock s) (l₁ ++ [e])).wr i).state.isFailed = true
  pending : ∀ c, ((p.deliverAll (p.postBlock s) l).context c).pending = (s.context c).pending

/-! ## The block after its posts -/

namespace BlockPost

variable {p : BlockPost} {s s' : Dma} {i k : ℕ}

/-- What request `i` contributes to `pending`: nothing if it is inside a chain, all of
the chain if it is its last. -/
def amount (p : BlockPost) (i : ℕ) : ℤ :=
  if i < p.lead then 1 else if i = p.n - 1 then (p.n - p.lead : ℕ) else 0

/-- The record of a request that was posted and not completed. -/
structure Posted (p : BlockPost) (i : ℕ) (r : WorkRequest) : Prop where
  state : r.state = if p.write then .postWrite else .postRead
  headWr : r.headWr = 0
  context : r.context = p.context i
  chainedOps : r.chainedOps = decide (p.lead ≤ i)
  entangled : r.entangledWrLen = if p.lead ≤ i then 0 else 1
  signaled : r.signaled = !decide (p.lead ≤ i)

/-- Raising the reference count of the head does not touch the rest of its record. -/
theorem Posted.addRefc {r : WorkRequest} (h : p.Posted i r) (n : ℤ) :
    p.Posted i { r with wrRefc := n } :=
  ⟨h.state, h.headWr, h.context, h.chainedOps, h.entangled, h.signaled⟩

theorem headWr_getD (i : ℕ) : (headWr i).getD i = 0 := by
  by_cases h : i = 0
  · simp [headWr, h]
  · simp [headWr, h]

/-- The state after the first `k` posts. -/
structure Upto (p : BlockPost) (s : Dma) (k : ℕ) (s' : Dma) : Prop where
  posted : ∀ i < k, p.Posted i (s'.wr i)
  chainedOps : ∀ c, (s'.context c).chainedOps = (s.context c).chainedOps
  mempoll : ∀ c, (s'.context c).mempoll = (s.context c).mempoll
  pending : ∀ c, (s'.context c).pending = (s.context c).pending +
    ((List.range k).map fun i => if i < p.lead ∧ p.context i = c then (1 : ℤ) else 0).sum

/-- The flag with which request `i` is posted. -/
theorem chain_flag (hchain : p.lead ≤ i → (s.context (p.context i)).chainedOps = true)
    (hsingle : p.write = true → i < p.lead → (s.context (p.context i)).chainedOps = false) :
    (p.write = true → (s.context (p.context i)).chainedOps = decide (p.lead ≤ i)) ∧
      (decide (p.lead ≤ i) && (s.context (p.context i)).chainedOps) = decide (p.lead ≤ i) := by
  by_cases hl : p.lead ≤ i
  · simp [hl, hchain hl]
  · refine ⟨?_, by simp [hl]⟩
    intro hw
    simpa [hl] using hsingle hw (by omega)

/-- One post. -/
theorem postOne_spec (hchain : p.lead ≤ i → (s.context (p.context i)).chainedOps = true)
    (hsingle : p.write = true → i < p.lead → (s.context (p.context i)).chainedOps = false)
    (hsignal : (s.context (p.context i)).mempoll = false) :
    p.Posted i ((p.postOne s i).wr i) ∧
      (∀ j, j ≠ i → ∃ n, (p.postOne s i).wr j = { s.wr j with wrRefc := n }) ∧
      (p.postOne s i).context =
        if p.lead ≤ i then s.context else (s.addPending (p.context i) 1).context := by
  obtain ⟨hwrite, hread⟩ := chain_flag hchain hsingle
  have hhead := headWr_getD i
  by_cases hw : p.write = true
  · have hflag := hwrite hw
    have hpost : p.Posted i (postedWrite s i (p.context i) (headWr i)) := by
      constructor <;> simp [postedWrite, hw, hflag, hhead]
    simp only [postOne, if_pos hw, wr_rdmaPostWrite, context_rdmaPostWrite, hflag,
      decide_eq_true_eq, and_true]
    split
    · refine ⟨?_, ?_⟩
      · obtain ⟨m, hm⟩ := Dma.wr_addRefc (s.setWr i (postedWrite s i (p.context i) (headWr i)))
          ((headWr i).getD i) i 1
        rw [hm]
        simpa using hpost.addRefc m
      · intro j hj
        obtain ⟨m, hm⟩ := Dma.wr_addRefc (s.setWr i (postedWrite s i (p.context i) (headWr i)))
          ((headWr i).getD i) j 1
        exact ⟨m, by rw [hm]; simp [hj]⟩
    · exact ⟨by simpa using hpost, fun j hj => ⟨(s.wr j).wrRefc, by simp [hj]⟩⟩
  · have hpost : p.Posted i (postedRead s i (p.context i) (headWr i) (decide (p.lead ≤ i))) := by
      constructor <;> simp [postedRead, hw, hhead, hsignal]
    simp only [postOne, if_neg hw, wr_rdmaPostRead, context_rdmaPostRead, hread,
      decide_eq_true_eq, and_true]
    refine ⟨?_, ?_⟩
    · obtain ⟨m, hm⟩ := Dma.wr_addRefc
        (s.setWr i (postedRead s i (p.context i) (headWr i) (decide (p.lead ≤ i))))
        ((headWr i).getD i) i 1
      rw [hm]
      simpa using hpost.addRefc m
    · intro j hj
      obtain ⟨m, hm⟩ := Dma.wr_addRefc
        (s.setWr i (postedRead s i (p.context i) (headWr i) (decide (p.lead ≤ i))))
        ((headWr i).getD i) j 1
      exact ⟨m, by rw [hm]; simp [hj]⟩

theorem upto_postUpto (hv : p.Valid s) : ∀ k ≤ p.n, p.Upto s k (p.postUpto s k) := by
  intro k
  induction k with
  | zero =>
      intro _
      refine ⟨fun i hi => absurd hi (Nat.not_lt_zero i), fun _ => rfl, fun _ => rfl, ?_⟩
      intro c
      simp [postUpto]
  | succ k ih =>
      intro hk
      have hprev := ih (by omega)
      have hstep : p.postUpto s (k + 1) = p.postOne (p.postUpto s k) k := by
        simp [postUpto, List.range_succ]
      obtain ⟨hself, hother, hctx⟩ := postOne_spec (p := p) (s := p.postUpto s k) (i := k)
        (by intro hl; rw [hprev.chainedOps]; exact hv.chained k hl (by omega))
        (by intro hw hl; rw [hprev.chainedOps]; exact hv.single hw k hl)
        (by rw [hprev.mempoll]; exact hv.signaled k (by omega))
      rw [hstep]
      refine ⟨?_, ?_, ?_, ?_⟩
      · intro i hi
        by_cases hik : i = k
        · rw [hik]; exact hself
        · obtain ⟨n, hn⟩ := hother i hik
          rw [hn]
          exact (hprev.posted i (by omega)).addRefc n
      · intro c
        rw [hctx, ← hprev.chainedOps c]
        split
        · rfl
        · by_cases hc : c = p.context k <;> simp [Dma.addPending, hc]
      · intro c
        rw [hctx, ← hprev.mempoll c]
        split
        · rfl
        · by_cases hc : c = p.context k <;> simp [Dma.addPending, hc]
      · intro c
        rw [List.range_succ, List.map_append, List.sum_append, ← add_assoc, ← hprev.pending c, hctx]
        split
        · next hl =>
          have hnot : ¬ (k < p.lead ∧ p.context k = c) := by omega
          simp [hnot]
        · next hl =>
          by_cases hc : p.context k = c
          · subst hc
            have hlt : k < p.lead := by omega
            simp [Dma.addPending, hlt]
          · simp [Dma.addPending, hc, Ne.symm hc]

/-- The posted block before any completion: what the handlers read of it. -/
structure InFlight (p : BlockPost) (s : Dma) : Prop where
  headWr : ∀ i < p.n, (s.wr i).headWr = 0
  context : ∀ i < p.n, (s.wr i).context = p.context i
  chainedOps : ∀ i < p.n, (s.wr i).chainedOps = decide (p.lead ≤ i)
  ehWr : ∀ c, p.chain = some c → (s.wr 0).ehWr = some c
  /-- What the handler takes off `pending`. -/
  amount : ∀ i < p.n,
    (if p.write then if (s.wr i).signaled then (s.wr 0).entangledWrLen else 0
      else (s.wr i).entangledWrLen) = p.amount i
  mempoll : ∀ i < p.n, (s.context (p.context i)).mempoll = false

theorem lead_of_chain {c : ℕ} (h : p.chain = some c) : p.lead = c := by simp [lead, h]

theorem lead_of_none (h : p.chain = none) : p.lead = p.n := by simp [lead, h]

theorem lead_le (hv : p.Valid s) : p.lead ≤ p.n := by
  cases hc : p.chain with
  | none => exact Nat.le_of_eq (lead_of_none hc)
  | some c =>
      rw [lead_of_chain hc]
      exact Nat.le_of_lt (hv.chain_lt c hc)

theorem inFlight_postBlock (hv : p.Valid s) : p.InFlight (p.postBlock s) := by
  have hpos := hv.pos
  have hup := upto_postUpto hv p.n (Nat.le_refl _)
  cases hc : p.chain with
  | none =>
      have hlead := lead_of_none hc
      simp only [postBlock, hc]
      refine ⟨fun i hi => (hup.posted i hi).headWr, fun i hi => (hup.posted i hi).context,
        fun i hi => (hup.posted i hi).chainedOps, fun _ h => (by cases hc.symm.trans h), ?_, ?_⟩
      · intro i hi
        have hi' := hup.posted i hi
        have h0 := hup.posted 0 hpos
        have hi₀ : ¬ p.n ≤ i := by omega
        have h₀ : p.n ≠ 0 := by omega
        simp [hi'.signaled, hi'.entangled, h0.entangled, amount, hlead, hi, hi₀, h₀]
      · intro i hi
        rw [hup.mempoll]
        exact hv.signaled i hi
  | some c =>
      have hlead := lead_of_chain hc
      have hlt := hv.chain_lt c hc
      have hstate : ((p.postUpto s p.n).wr c).state = if p.write then .postWrite else .postRead :=
        (hup.posted c hlt).state
      have hm := markEnd_fields (p.postUpto s p.n) (p.n - 1) c 0 (p.n - c : ℕ)
      have he := markEnd_entangled (p.postUpto s p.n) (p.n - 1) c 0 (p.n - c : ℕ)
      simp only [postBlock, hc, rdmaPostWorkReq]
      refine ⟨?_, ?_, ?_, ?_, ?_, ?_⟩
      · intro i hi
        rw [Dma.wr_addPending, (hm i).2.1]
        exact (hup.posted i hi).headWr
      · intro i hi
        rw [Dma.wr_addPending, (hm i).2.2.1]
        exact (hup.posted i hi).context
      · intro i hi
        rw [Dma.wr_addPending, (hm i).2.2.2.1]
        exact (hup.posted i hi).chainedOps
      · intro c' hc'
        rw [Dma.wr_addPending, markEnd_ehWr]
        exact hc'.symm ▸ hc ▸ rfl
      · intro i hi
        rw [Dma.wr_addPending, (hm i).2.2.2.2, he i, he 0, hstate, (hup.posted i hi).signaled,
          (hup.posted i hi).entangled, (hup.posted 0 hpos).entangled]
        by_cases hw : p.write = true
        · have hc0 : c = 0 := hv.chain_write c hc hw
          subst hc0
          simp [hw, hlead, amount]
        · by_cases hi' : i = p.n - 1
          · have hle : p.lead ≤ p.n - 1 := by omega
            have hnot : ¬ p.n - 1 < c := by omega
            simp [hw, hlead, amount, hi', hnot]
          · by_cases hl : p.lead ≤ i
            · have hnot : ¬ i < p.lead := by omega
              simp [hw, amount, hi', hl, hnot]
            · have hlt' : i < p.lead := by omega
              simp [hw, amount, hi', hl, hlt']
      · intro i hi
        rw [Dma.mempoll_addPending, context_markEnd, hup.mempoll]
        exact hv.signaled i hi

/-- The request's state before its completion. -/
theorem state_postBlock (hv : p.Valid s) (hi : i < p.n) :
    ((p.postBlock s).wr i).state = if p.write then .postWrite else .postRead := by
  have hup := upto_postUpto hv p.n (Nat.le_refl _)
  cases hc : p.chain with
  | none =>
      simp only [postBlock, hc]
      exact (hup.posted i hi).state
  | some c =>
      simp only [postBlock, hc, rdmaPostWorkReq]
      rw [Dma.wr_addPending, (markEnd_fields _ _ _ _ _ i).1]
      exact (hup.posted i hi).state

/-- `pending` after the posts. -/
theorem pending_postBlock (hv : p.Valid s) (c : ℕ) :
    ((p.postBlock s).context c).pending = (s.context c).pending +
      (((List.range p.n).map fun i => if i < p.lead ∧ p.context i = c then (1 : ℤ) else 0).sum +
        if p.lead < p.n ∧ p.context p.lead = c then ((p.n - p.lead : ℕ) : ℤ) else 0) := by
  have hup := upto_postUpto hv p.n (Nat.le_refl _)
  cases hc : p.chain with
  | none => simp [postBlock, hc, hup.pending, lead_of_none hc]
  | some d =>
      have hlt := hv.chain_lt d hc
      have hlead := lead_of_chain hc
      simp only [postBlock, hc, rdmaPostWorkReq, (hup.posted d hlt).context]
      rw [Dma.pending_addPending, context_markEnd, hup.pending, hlead, add_assoc]
      simp [hlt]

end BlockPost

end Emp
