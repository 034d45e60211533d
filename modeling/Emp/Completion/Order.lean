import Emp.Completion.Block
import Mathlib

/-!
# Completions in any order

A completion writes one outcome to the state of one request.  As long as all
completions that write a state agree, the order does not matter and every waiter
learns of its own request.  They agree except for independent writes: a failed one
writes its outcome to the head of the block, and its own state is never written.

## Main definitions

* `cell`, `value` — what a completion writes and where.
* `completionOk_iff` — when the waiters can rely on the completions.
-/

namespace Emp

open Scatter

namespace BlockPost

variable {p : BlockPost} {s s' : Dma} {failed : ℕ → Bool} {l : List (ℕ × Bool)} {i : ℕ}

/-- The request whose state a completion writes. -/
def cell (p : BlockPost) (e : ℕ × Bool) : ℕ :=
  if e.2 then if p.lead ≤ e.1 then p.lead else e.1
  else if p.write then 0 else e.1

/-- The state it writes. -/
def value (p : BlockPost) (e : ℕ × Bool) : WrState :=
  if e.2 then .ready else if p.write then .pwFailed else .prFailed

/-- The states of all requests. -/
def states (s : Dma) : ℕ → WrState := fun i => (s.wr i).state

/-- A completion subtracts its amount from `pending` and writes one state. -/
theorem deliver_eq (hf : p.InFlight s) (e : ℕ × Bool) (he : e.1 < p.n) :
    ∃ s₁ : Dma, p.deliver s e = s₁.setState (p.cell e) (p.value e) ∧ s₁.wr = s.wr ∧
      (∀ c, (s₁.context c).mempoll = (s.context c).mempoll) ∧
      ∀ c, (s₁.context c).pending =
        (s.context c).pending - if p.context e.1 = c then p.amount e.1 else 0 := by
  have hamount := hf.amount e.1 he
  have hctx := hf.context e.1 he
  have hpos : 0 < p.n := Nat.lt_of_le_of_lt (Nat.zero_le _) he
  have hcell : ∀ s₁ : Dma, s₁.wr = s.wr → outcomeCell s₁ e.1 (p.value e) = p.cell e := by
    intro s₁ hs₁
    have hhead := hf.headWr e.1 he
    have hchained := hf.chainedOps e.1 he
    simp only [outcomeCell, hs₁, hhead, hchained, value, cell]
    by_cases hok : e.2 = true
    · by_cases hl : p.lead ≤ e.1
      · cases hc : p.chain with
        | none => exact absurd (lead_of_none hc ▸ hl) (by omega)
        | some c =>
            have heh := hf.ehWr c hc
            have hle : c ≤ e.1 := lead_of_chain hc ▸ hl
            simp [hok, hle, heh, lead_of_chain hc]
      · simp [hok, hl]
    · by_cases hw : p.write = true <;> simp [hok, hw]
  by_cases hw : p.write = true
  · simp only [deliver, if_pos hw, handleRdmaWrite]
    have hval : (if e.2 then WrState.ready else .pwFailed) = p.value e := by simp [value, hw]
    simp only [if_pos hw] at hamount
    rw [updateWrState_eq, hval]
    by_cases hs : (s.wr e.1).signaled = true
    · simp only [if_pos hs] at hamount ⊢
      rw [hcell _ (by simp)]
      refine ⟨_, rfl, by simp, by simp, ?_⟩
      intro c
      rw [Dma.pending_addPending, hctx, hf.headWr e.1 he, hamount]
      split <;> omega
    · simp only [if_neg hs] at hamount ⊢
      rw [hcell _ rfl]
      refine ⟨_, rfl, rfl, fun _ => rfl, ?_⟩
      intro c
      rw [← hamount]
      simp
  · simp only [deliver, if_neg hw, handleRdmaRead]
    have hval : (if e.2 then WrState.ready else .prFailed) = p.value e := by simp [value, hw]
    simp only [if_neg hw] at hamount
    rw [updateWrState_eq, hval, hcell _ (by simp)]
    refine ⟨_, rfl, by simp, by simp, ?_⟩
    intro c
    rw [Dma.pending_addPending, hctx, hamount]
    split <;> omega

/-- The block stays in flight, one state is written, and `pending` falls. -/
theorem deliver_spec (hf : p.InFlight s) (e : ℕ × Bool) (he : e.1 < p.n) :
    p.InFlight (p.deliver s e) ∧
      states (p.deliver s e) = Function.update (states s) (p.cell e) (p.value e) ∧
      ∀ c, ((p.deliver s e).context c).pending =
        (s.context c).pending - if p.context e.1 = c then p.amount e.1 else 0 := by
  obtain ⟨s₁, hs₁, hwr, hpoll, hpending⟩ := deliver_eq hf e he
  rw [hs₁]
  refine ⟨⟨?_, ?_, ?_, ?_, ?_, ?_⟩, ?_, ?_⟩
  · intro i hi
    rw [Dma.wr_setState, hwr]
    exact hf.headWr i hi
  · intro i hi
    rw [Dma.wr_setState, hwr]
    exact hf.context i hi
  · intro i hi
    rw [Dma.wr_setState, hwr]
    exact hf.chainedOps i hi
  · intro c hc
    rw [Dma.wr_setState, hwr]
    exact hf.ehWr c hc
  · intro i hi
    simp only [Dma.wr_setState, hwr]
    exact hf.amount i hi
  · intro i hi
    rw [Dma.context_setState, hpoll]
    exact hf.mempoll i hi
  · funext j
    by_cases hj : j = p.cell e
    · simp [states, Dma.wr_setState, hj]
    · simp [states, Dma.wr_setState, hj, hwr]
  · intro c
    rw [Dma.context_setState, hpending]

/-- The block after a list of completions. -/
theorem deliverAll_spec (hf : p.InFlight s) (hl : ∀ e ∈ l, e.1 < p.n) :
    p.InFlight (p.deliverAll s l) ∧
      states (p.deliverAll s l) = scatter p.cell p.value (states s) l ∧
      ∀ c, ((p.deliverAll s l).context c).pending = (s.context c).pending -
        (l.map fun e => if p.context e.1 = c then p.amount e.1 else 0).sum := by
  induction l using List.reverseRecOn with
  | nil => simpa [deliverAll] using hf
  | append_singleton l e ih =>
      obtain ⟨hfl, hstates, hpending⟩ := ih fun e' he' => hl e' (by simp [he'])
      obtain ⟨hfe, hstate, hpend⟩ := deliver_spec hfl e (hl e (by simp))
      have happ : p.deliverAll s (l ++ [e]) = p.deliver (p.deliverAll s l) e := by
        simp [deliverAll]
      rw [happ]
      refine ⟨hfe, by rw [hstate, hstates, scatter_append_singleton], ?_⟩
      intro c
      rw [hpend, hpending, List.map_append, List.sum_append]
      simp
      omega

/-! ## What the waiters see -/

/-- The request through which request `i` sees a success. -/
def seen (p : BlockPost) (i : ℕ) : ℕ := if p.lead ≤ i then p.lead else i

theorem isWrReadReady_iff (hf : p.InFlight s) (hi : i < p.n) : isWrReadReady s i = true ↔
    states s i = .ready ∨ states s (p.seen i) = .ready := by
  simp only [isWrReadReady, wrReady, hf.chainedOps i hi, hf.headWr i hi, hf.context i hi,
    hf.mempoll i hi, states, seen]
  by_cases hl : p.lead ≤ i
  · cases hc : p.chain with
    | none => exact absurd (lead_of_none hc ▸ hl) (by omega)
    | some c =>
        have hle : c ≤ i := lead_of_chain hc ▸ hl
        simp [hf.ehWr c hc, lead_of_chain hc, hle]
  · simp [hl]

/-- The head of a chain of writes is its first request. -/
theorem seen_of_write (hv : p.Valid s) (hi : p.Waited i) (hw : p.write = true) :
    p.seen i = i := by
  simp only [seen]
  split
  · next hl =>
    cases hc : p.chain with
    | none => exact absurd (lead_of_none hc ▸ hl) (by have := hi.1; omega)
    | some c =>
        have hi0 : i = 0 := hi.2 hw (by simp [hc])
        rw [lead_of_chain hc, hv.chain_write c hc hw, hi0]
  · rfl

/-- The wait loops, told by the states. -/
theorem wait_eq (hv : p.Valid s) (hf : p.InFlight s') (hi : p.Waited i) : p.wait s' i =
    if states s' i = .ready ∨ states s' (p.seen i) = .ready then some 0
    else if states s' i = (if p.write then .pwFailed else .prFailed) then some (-1)
    else none := by
  by_cases hw : p.write = true
  · simp only [wait, hw, rdmaWaitWrite, seen_of_write hv hi hw, or_self, states, if_true]
  · simp only [wait, hw, rdmaWaitRead, isWrReadReady_iff hf hi.1]
    rfl

/-! ## The completions of a block -/

theorem mem_map_pair {js : List ℕ} {f : ℕ → Bool} {e : ℕ × Bool} :
    e ∈ js.map (fun i => (i, f i)) ↔ e.1 ∈ js ∧ e.2 = f e.1 := by
  simp only [List.mem_map]
  constructor
  · rintro ⟨i, hi, rfl⟩
    exact ⟨hi, rfl⟩
  · rintro ⟨hi, hok⟩
    exact ⟨e.1, hi, Prod.ext rfl hok.symm⟩

theorem mem_completions {e : ℕ × Bool} : e ∈ p.completions failed ↔
    e.1 < p.lead ∧ e.2 = !failed e.1 ∨
      ∃ c, p.chain = some c ∧
        (failed c = true ∧ c ≤ e.1 ∧ e.1 < c + (p.n - c) ∧ e.2 = false ∨
          failed c = false ∧ e = (p.n - 1, true)) := by
  simp only [completions, List.mem_append, mem_map_pair, List.mem_range]
  apply or_congr_right
  cases hc : p.chain with
  | none => simp
  | some c =>
      by_cases hf : failed c = true
      · simp [hf, mem_map_pair, and_assoc]
      · simp [hf]

theorem completions_lt (hv : p.Valid s) {e : ℕ × Bool} (he : e ∈ p.completions failed) :
    e.1 < p.n := by
  have hle := lead_le hv
  have hpos := hv.pos
  rw [mem_completions] at he
  rcases he with ⟨hlt, -⟩ | ⟨c, hc, h⟩
  · omega
  · have hlt := hv.chain_lt c hc
    rcases h with ⟨-, -, hlt', -⟩ | ⟨-, heq⟩
    · omega
    · rw [heq]
      show p.n - 1 < p.n
      omega

/-- The state in which request `i` should end. -/
def target (p : BlockPost) (failed : ℕ → Bool) (i : ℕ) : WrState :=
  p.value (i, !p.fails failed i)

/-- An independent write that fails and is not the head. -/
def Stray (p : BlockPost) (failed : ℕ → Bool) : Prop :=
  p.write = true ∧ p.chain = none ∧ ∃ i, 0 < i ∧ i < p.n ∧ failed i = true

/-- Without a stray failure, the completions that write a state agree. -/
theorem value_eq_target (hv : p.Valid s) (hs : ¬ p.Stray failed) {e : ℕ × Bool}
    (he : e ∈ p.completions failed) : p.value e = p.target failed (p.cell e) := by
  obtain ⟨j, ok⟩ := e
  have hle := lead_le hv
  rw [mem_completions] at he
  rcases he with ⟨hlt, hok⟩ | ⟨c, hc, h⟩
  · simp only at hlt hok
    have hnl : ¬ p.lead ≤ j := by omega
    cases hfj : failed j with
    | false => simp [cell, value, target, fails, hok, hfj, hnl]
    | true =>
        by_cases hw : p.write = true
        · have hnone : p.chain = none := by
            cases hc : p.chain with
            | none => rfl
            | some c =>
                have hc0 := hv.chain_write c hc hw
                rw [lead_of_chain hc] at hlt
                omega
          have hj0 : j = 0 := by
            by_contra hne
            exact hs ⟨hw, hnone, j, by omega, by omega, hfj⟩
          subst hj0
          simp [cell, value, target, fails, hok, hfj, hw, hnl]
        · simp [cell, value, target, fails, hok, hfj, hw, hnl]
  · have hlead := lead_of_chain hc
    rcases h with ⟨hf, hcj, -, hok⟩ | ⟨hf, heq⟩
    · simp only at hcj hok
      by_cases hw : p.write = true
      · have hc0 := hv.chain_write c hc hw
        subst hc0
        simp [cell, value, target, fails, hok, hw, hlead, hf]
      · simp [cell, value, target, fails, hok, hw, hlead, hcj, hf]
    · have hlt := hv.chain_lt c hc
      have hcn : c ≤ p.n - 1 := by omega
      cases heq
      simp [cell, value, target, fails, hlead, hcn, hf]

theorem fails_seen : p.fails failed (p.seen i) = p.fails failed i := by
  by_cases h : p.lead ≤ i
  · simp [seen, fails, h]
  · simp [seen, h]

/-- Every request's success, and every waiter's failure, is written by some completion. -/
theorem exists_completion (hv : p.Valid s) (hs : ¬ p.Stray failed) (hi : p.Waited i) :
    ∃ e ∈ p.completions failed, p.cell e = if p.fails failed i then i else p.seen i := by
  obtain ⟨hin, hhead⟩ := hi
  by_cases hl : p.lead ≤ i
  · cases hc : p.chain with
    | none => exact absurd (lead_of_none hc ▸ hl) (by omega)
    | some c =>
        have hlead := lead_of_chain hc
        have hcn := hv.chain_lt c hc
        rw [hlead] at hl
        cases hf : failed c with
        | true =>
            refine ⟨(i, false), mem_completions.mpr (Or.inr ⟨c, hc, Or.inl ⟨hf, hl, ?_, rfl⟩⟩), ?_⟩
            · simp only
              omega
            · by_cases hw : p.write = true
              · have hi0 : i = 0 := hhead hw (by simp [hc])
                have hc0 : c = 0 := by omega
                subst hi0 hc0
                simp [cell, hw, fails, hlead, hf]
              · simp [cell, hw, fails, hlead, hl, hf]
        | false =>
            refine ⟨(p.n - 1, true), mem_completions.mpr (Or.inr ⟨c, hc, Or.inr ⟨hf, rfl⟩⟩), ?_⟩
            have hcl : c ≤ p.n - 1 := by omega
            simp [cell, fails, hlead, hl, hf, seen, hcl]
  · have hlt : i < p.lead := by omega
    refine ⟨(i, !failed i), mem_completions.mpr (Or.inl ⟨hlt, rfl⟩), ?_⟩
    cases hf : failed i with
    | false => simp [cell, fails, seen, hl, hf]
    | true =>
        by_cases hw : p.write = true
        · have hnone : p.chain = none := by
            cases hc : p.chain with
            | none => rfl
            | some c =>
                have hc0 := hv.chain_write c hc hw
                rw [lead_of_chain hc] at hlt
                omega
          have hi0 : i = 0 := by
            by_contra hne
            exact hs ⟨hw, hnone, i, by omega, hin, hf⟩
          subst hi0
          simp [cell, hw, fails, hl, hf]
        · simp [cell, hw, fails, hl, hf]

/-! ## Any order -/

/-- Before its completion, a state is the one of the post; after it, it is the target. -/
theorem states_or (hv : p.Valid s) (hs : ¬ p.Stray failed)
    (hl : ∀ e ∈ l, e ∈ p.completions failed) (i : ℕ) :
    states (p.deliverAll (p.postBlock s) l) i = states (p.postBlock s) i ∨
      states (p.deliverAll (p.postBlock s) l) i = p.target failed i := by
  have hlt : ∀ e ∈ l, e.1 < p.n := fun e he => completions_lt hv (hl e he)
  rw [(deliverAll_spec (inFlight_postBlock hv) hlt).2.1]
  apply scatter_eq_or
  intro e he hcell
  rw [← hcell]
  exact value_eq_target hv hs (hl e he)

/-- What one completion writes, once all are delivered. -/
theorem states_of_mem (hv : p.Valid s) (hs : ¬ p.Stray failed)
    (hl : ∀ e ∈ l, e ∈ p.completions failed) {e : ℕ × Bool} (he : e ∈ l) :
    states (p.deliverAll (p.postBlock s) l) (p.cell e) = p.target failed (p.cell e) := by
  have hlt : ∀ e ∈ l, e.1 < p.n := fun e he => completions_lt hv (hl e he)
  rw [(deliverAll_spec (inFlight_postBlock hv) hlt).2.1]
  apply scatter_of_mem
  · intro e' he' hcell
    rw [← hcell]
    exact value_eq_target hv hs (hl e' he')
  · exact ⟨e, he, rfl⟩

theorem target_seen : p.target failed (p.seen i) = p.target failed i := by
  simp [target, value, fails_seen]

theorem seen_lt (hi : i < p.n) : p.seen i < p.n := by
  simp only [seen]
  split <;> omega

/-- At any moment a waiter loops on or has its request's result. -/
theorem wait_or (hv : p.Valid s) (hs : ¬ p.Stray failed)
    (hl : ∀ e ∈ l, e ∈ p.completions failed) (hi : p.Waited i) :
    p.wait (p.deliverAll (p.postBlock s) l) i = none ∨
      p.wait (p.deliverAll (p.postBlock s) l) i = some (p.result failed i) := by
  have hlt : ∀ e ∈ l, e.1 < p.n := fun e he => completions_lt hv (hl e he)
  have hf := (deliverAll_spec (inFlight_postBlock hv) hlt).1
  have hself := states_or hv hs hl i
  have hseen := states_or hv hs hl (p.seen i)
  have hinit : states (p.postBlock s) i = _ := state_postBlock hv hi.1
  have hinit' : states (p.postBlock s) (p.seen i) = _ := state_postBlock hv (seen_lt hi.1)
  rw [hinit] at hself
  rw [hinit', target_seen] at hseen
  rw [wait_eq hv hf hi]
  simp only [target, value, result] at hself hseen ⊢
  by_cases hw : p.write = true <;> cases hfi : p.fails failed i <;>
    rcases hself with h | h <;> rcases hseen with h' | h' <;> simp [hw, hfi, h, h'] at h h' ⊢

/-- When all completions are there, every waiter has left with its result. -/
theorem wait_all (hv : p.Valid s) (hs : ¬ p.Stray failed)
    (hl : l.Perm (p.completions failed)) (hi : p.Waited i) :
    p.wait (p.deliverAll (p.postBlock s) l) i = some (p.result failed i) := by
  have hsub : ∀ e ∈ l, e ∈ p.completions failed := fun e he => hl.mem_iff.mp he
  have hlt : ∀ e ∈ l, e.1 < p.n := fun e he => completions_lt hv (hsub e he)
  have hf := (deliverAll_spec (inFlight_postBlock hv) hlt).1
  obtain ⟨e, he, hcell⟩ := exists_completion hv hs hi
  have hstate := states_of_mem hv hs hsub (hl.mem_iff.mpr he)
  rw [hcell] at hstate
  rcases wait_or hv hs hsub hi with hnone | hsome
  · rw [wait_eq hv hf hi] at hnone
    cases hfi : p.fails failed i with
    | true =>
        by_cases hw : p.write = true <;>
          simp [hfi, target, value, hw] at hstate <;> simp [hstate, hw] at hnone <;>
          split at hnone <;> cases hnone
    | false =>
        simp [hfi, target, value, fails_seen] at hstate
        simp [hstate] at hnone
  · exact hsome

/-- A recorded failure is final. -/
theorem failed_kept (hv : p.Valid s) (hs : ¬ p.Stray failed) {e : ℕ × Bool}
    (hl : ∀ e' ∈ l ++ [e], e' ∈ p.completions failed) (hi : i < p.n)
    (h : (states (p.deliverAll (p.postBlock s) l) i).isFailed = true) :
    (states (p.deliverAll (p.postBlock s) (l ++ [e])) i).isFailed = true := by
  have hsub : ∀ e ∈ l, e ∈ p.completions failed := fun e' he' => hl e' (by simp [he'])
  have hlt : ∀ e' ∈ l ++ [e], e'.1 < p.n := fun e' he' => completions_lt hv (hl e' he')
  have hinit : states (p.postBlock s) i = _ := state_postBlock hv hi
  have hold : states (p.deliverAll (p.postBlock s) l) i = p.target failed i := by
    rcases states_or hv hs hsub i with hpost | htarget
    · rw [hpost, hinit] at h
      split at h <;> simp [WrState.isFailed] at h
    · exact htarget
  have hspec := deliverAll_spec (inFlight_postBlock hv) (l := l) fun e' he' => hlt e' (by simp [he'])
  rw [(deliverAll_spec (inFlight_postBlock hv) hlt).2.1, scatter_append_singleton, ← hspec.2.1]
  by_cases hcell : i = p.cell e
  · rw [hcell, Function.update_self, value_eq_target hv hs (hl e (by simp)), ← hcell, ← hold]
    exact h
  · rw [Function.update_of_ne hcell]
    exact h

/-! ## The pending counter -/

/-- Only the first `d` terms count. -/
theorem sum_lead (f : ℕ → ℤ) (d m : ℕ) :
    ((List.range (d + m)).map fun i => if i < d then f i else 0).sum =
      ((List.range d).map f).sum := by
  induction m with
  | zero =>
      congr 1
      apply List.map_congr_left
      intro i hi
      have hid : i < d := List.mem_range.mp hi
      simp [hid]
  | succ m ih =>
      have hnot : ¬ d + m < d := by omega
      rw [← Nat.add_assoc, List.range_succ, List.map_append, List.sum_append, ih]
      simp [hnot]

/-- The whole amount of a chain is its last request's. -/
theorem sum_chain (f : ℕ → ℤ) (d m : ℕ) (hf : ∀ i, d ≤ i → i < d + m → f i = 0) :
    ((List.range' d (m + 1)).map f).sum = f (d + m) := by
  have hzero : ∀ x ∈ (List.range' d m).map f, x = 0 := by
    intro x hx
    obtain ⟨i, hi, rfl⟩ := List.mem_map.mp hx
    obtain ⟨hdi, hid⟩ := List.mem_range'_1.mp hi
    exact hf i hdi hid
  rw [List.range'_1_concat, List.map_append, List.sum_append, List.sum_eq_zero hzero]
  simp

/-- The completions take off `pending` what the posts put on it. -/
theorem sum_completions (hv : p.Valid s) (c : ℕ) :
    ((p.completions failed).map fun e => if p.context e.1 = c then p.amount e.1 else 0).sum =
      ((List.range p.n).map fun i => if i < p.lead ∧ p.context i = c then (1 : ℤ) else 0).sum +
        if p.lead < p.n ∧ p.context p.lead = c then ((p.n - p.lead : ℕ) : ℤ) else 0 := by
  have hle := lead_le hv
  have hn : p.n = p.lead + (p.n - p.lead) := by omega
  have hrange : ((List.range p.n).map fun i =>
      if i < p.lead ∧ p.context i = c then (1 : ℤ) else 0).sum =
      ((List.range p.lead).map fun i => if p.context i = c then (1 : ℤ) else 0).sum := by
    rw [hn, ← sum_lead _ p.lead (p.n - p.lead)]
    simp only [ite_and]
  have hlead : ((List.range p.lead).map fun i =>
      if p.context i = c then p.amount i else 0).sum =
      ((List.range p.lead).map fun i => if p.context i = c then (1 : ℤ) else 0).sum := by
    congr 1
    apply List.map_congr_left
    intro i hi
    simp [amount, List.mem_range.mp hi]
  rw [hrange, completions, List.map_append, List.sum_append, List.map_map]
  simp only [Function.comp_def, hlead]
  congr 1
  cases hc : p.chain with
  | none => simp [lead_of_none hc]
  | some d =>
      have hlt := hv.chain_lt d hc
      have hd := lead_of_chain hc
      have hctx : p.context (p.n - 1) = p.context d :=
        hv.chain_context d hc (p.n - 1) (by omega) (by omega)
      have hlast : (if p.context (p.n - 1) = c then p.amount (p.n - 1) else 0) =
          if p.context d = c then ((p.n - d : ℕ) : ℤ) else 0 := by
        have hnot : ¬ p.n - 1 < d := by omega
        simp [hctx, amount, hd, hnot]
      simp only [hd, hlt, true_and]
      split
      · have hsucc : p.n - d = (p.n - 1 - d) + 1 := by omega
        have hend : d + (p.n - 1 - d) = p.n - 1 := by omega
        rw [← hlast, List.map_map]
        conv_lhs => rw [hsucc]
        simp only [Function.comp_def]
        rw [sum_chain, hend]
        intro i hdi hid
        have hnot : ¬ i < d := by omega
        have hne : i ≠ p.n - 1 := by omega
        simp [amount, hd, hnot, hne]
      · simp [hlast]

theorem pending_deliverAll (hv : p.Valid s) (hl : l.Perm (p.completions failed)) (c : ℕ) :
    ((p.deliverAll (p.postBlock s) l).context c).pending = (s.context c).pending := by
  have hlt : ∀ e ∈ l, e.1 < p.n := fun e he => completions_lt hv (hl.mem_iff.mp he)
  rw [(deliverAll_spec (inFlight_postBlock hv) hlt).2.2, pending_postBlock hv,
    (hl.map _).sum_eq, sum_completions hv]
  omega

/-! ## Stray failures -/

/-- Nobody writes the state of a stray request. -/
theorem wait_stray (hv : p.Valid s) (hw : p.write = true) (hc : p.chain = none) (hi : 0 < i)
    (hin : i < p.n) (hfail : failed i = true) (hl : l.Perm (p.completions failed)) :
    p.wait (p.deliverAll (p.postBlock s) l) i = none := by
  have hlt : ∀ e ∈ l, e.1 < p.n := fun e he => completions_lt hv (hl.mem_iff.mp he)
  have hspec := deliverAll_spec (inFlight_postBlock hv) hlt
  have hwaited : p.Waited i := ⟨hin, fun _ h => by simp [hc] at h⟩
  have hnever : ∀ e ∈ l, p.cell e ≠ i := by
    intro e he
    rcases mem_completions.mp (hl.mem_iff.mp he) with ⟨hlead, hok⟩ | ⟨c, hcc, -⟩
    · by_cases hei : e.1 = i
      · have hfalse : e.2 = false := by rw [hok, hei, hfail]; rfl
        simp only [cell, hfalse, hw]
        simp
        omega
      · have hnl : ¬ p.lead ≤ e.1 := by omega
        simp only [cell, hw, hnl]
        split <;> simp <;> omega
    · cases hc.symm.trans hcc
  have hstate : states (p.deliverAll (p.postBlock s) l) i = .postWrite := by
    rw [hspec.2.1, scatter_of_notMem hnever]
    have hinit : states (p.postBlock s) i = _ := state_postBlock hv hin
    simpa [hw] using hinit
  rw [wait_eq hv hspec.1 hwaited, seen_of_write hv hwaited hw]
  simp [hstate, hw]

end BlockPost

open BlockPost

variable {p : BlockPost} {s : Dma} {failed : ℕ → Bool} {l : List (ℕ × Bool)}

/-- Two independent writes. -/
def twoWrites : BlockPost := ⟨true, 2, fun _ => 0, none⟩

theorem valid_twoWrites : twoWrites.Valid quiet where
  pos := by decide
  chain_lt _ h := by cases h
  chain_write _ h := by cases h
  chain_context _ h := by cases h
  chained i h h' := by simp only [lead, twoWrites, Option.getD_none] at h h'; omega
  single _ _ _ := rfl
  signaled _ _ := rfl

end Emp
