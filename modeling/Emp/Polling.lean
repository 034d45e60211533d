import Emp.DonorMemRw

/-!
# Polling a read

A poll should tell whether the read is over: if it is not, nothing changes, and if it
is, the read is released as the blocking wait releases it.  The poll of a read is judged
in the state after the completions that it takes in.

## Main definitions

* `Completed` — the read is over.
* `PollOk` — what one poll should do; `PollsOk` for one poll after the other.
* `pollUntil`, `waitOver` — poll until done; wait over the same completions.
* `polling_iff` — when polling can be relied on.
-/

namespace Emp

variable {s : Dma} {w : ℕ} {found : Found} {polls : List Found}

/-- The completions found are recorded. -/
def record (s : Dma) (w : ℕ) (found : Found) : Dma :=
  match (s.wr w).dmaOps with
  | .rdma => empProcessCq s found.cq
  | .nvme => empWrBlkPoll s found.blk
  | .memdev => s

/-- The state that a poll judges: an RDMA poll that can tell at once does not look into
the queue. -/
def judged (s : Dma) (w : ℕ) (found : Found) : Dma :=
  if (s.wr w).dmaOps = .rdma ∧ (isWrReadReady s w = true ∨ (s.wr w).state = .prFailed) then s
  else record s w found

/-- The read is over: its completion is recorded, or it has arrived on a memory-polled
context. -/
def Completed (s : Dma) (w : ℕ) : Prop :=
  match (s.wr w).dmaOps with
  | .rdma => wrReady s w = true ∨ (s.wr w).state = .prFailed ∨
      (s.context (s.wr w).context).mempoll = true ∧ (s.wr w).arrived.isSome = true
  | .nvme => (s.wr w).waitDone = true
  | .memdev => True

/-- What a poll should do.  When it reports that the read is not over, it has only
recorded completions; when it reports that it is, it has left what the blocking wait
leaves, with the mapping undone and `wr_len` one smaller. -/
structure PollOk (s : Dma) (w : ℕ) (found : Found) : Prop where
  done_iff : (tryClearFetchingWorkRequest s w found).2 = true ↔ Completed (judged s w found) w
  kept : (tryClearFetchingWorkRequest s w found).2 = false →
    (tryClearFetchingWorkRequest s w found).1 = judged s w found ∧
      ((judged s w found).wr w).live = (s.wr w).live ∧
      ((judged s w found).wr w).mapped = (s.wr w).mapped ∧
      ∀ c, ((judged s w found).context c).wrLen = (s.context c).wrLen
  cleared : (tryClearFetchingWorkRequest s w found).2 = true →
    clearFetchingWorkRequest (judged s w found) w =
      some (tryClearFetchingWorkRequest s w found).1
  released : (tryClearFetchingWorkRequest s w found).2 = true →
    ((tryWaitRead s w found).1.wr w).mapped = false ∧
      ((tryWaitRead s w found).1.context (s.wr w).context).wrLen =
        (s.context (s.wr w).context).wrLen - 1

/-- Every poll of a sequence that ends with the first that reports the end. -/
def PollsOk (s : Dma) (w : ℕ) : List Found → Prop
  | [] => True
  | found :: polls => PollOk s w found ∧
      ((tryClearFetchingWorkRequest s w found).2 = false →
        PollsOk (tryClearFetchingWorkRequest s w found).1 w polls)

/-- Poll until done. -/
def pollUntil (s : Dma) (w : ℕ) : List Found → Option Dma
  | [] => none
  | found :: polls =>
      let r := tryClearFetchingWorkRequest s w found
      if r.2 then some r.1 else pollUntil r.1 w polls

/-- The blocking wait, while the same completions arrive. -/
def waitOver (s : Dma) (w : ℕ) : List Found → Option Dma
  | [] => clearFetchingWorkRequest s w
  | found :: polls =>
      match clearFetchingWorkRequest s w with
      | some s' => some s'
      | none => waitOver (record s w found) w polls

/-- The donor is RDMA, and the poll does not come upon a read that failed, nor upon one
that arrived on a memory-polled context with the marker itself as its last word. -/
def Reliable (s : Dma) (w : ℕ) (found : Found) : Prop :=
  (s.wr w).dmaOps = .rdma ∧
    (isWrReadReady (judged s w found) w = true ∨
      ((judged s w found).wr w).state ≠ .prFailed ∧
        ¬ (((judged s w found).context (s.wr w).context).mempoll = true ∧
          ((judged s w found).wr w).arrived.isSome = true))

/-- Every poll of a sequence is reliable. -/
def PollsReliable (s : Dma) (w : ℕ) : List Found → Prop
  | [] => True
  | found :: polls => Reliable s w found ∧
      ((tryClearFetchingWorkRequest s w found).2 = false →
        PollsReliable (tryClearFetchingWorkRequest s w found).1 w polls)

/-! ## Recording completions -/

theorem recorded_record (s : Dma) (w : ℕ) (found : Found) : s.Recorded (record s w found) := by
  simp only [record]
  split
  · exact recorded_empProcessCq s _
  · exact recorded_empWrBlkPoll s _
  · exact Dma.Recorded.refl s

theorem recorded_judged (s : Dma) (w : ℕ) (found : Found) : s.Recorded (judged s w found) := by
  simp only [judged]
  split
  · exact Dma.Recorded.refl s
  · exact recorded_record s w found

theorem dmaOps_judged : ((judged s w found).wr w).dmaOps = (s.wr w).dmaOps := by
  obtain ⟨st, e, d, h⟩ := (recorded_judged s w found).wr w
  rw [h]

/-! ## One poll -/

/-- The RDMA poll, told by the state it judges. -/
theorem rdmaTryWaitRead_eq (h : (s.wr w).dmaOps = .rdma) :
    rdmaTryWaitRead s w found.cq =
      if isWrReadReady (judged s w found) w then (keepMarker (judged s w found) w, 1)
      else if (s.wr w).state = .prFailed then (judged s w found, -1)
      else (judged s w found, 0) := by
  simp only [rdmaTryWaitRead, judged, record, h, true_and]
  by_cases hready : isWrReadReady s w = true
  · simp [hready]
  · by_cases hfailed : (s.wr w).state = .prFailed
    · simp [hready, hfailed]
    · simp [hready, hfailed]

/-- The end of a wait. -/
theorem endWait_spec {s' : Dma} (hr : s.Recorded s') (w : ℕ) (n : ℤ) :
    ((endWait s' w n).context (s.wr w).context).wrLen =
        (s.context (s.wr w).context).wrLen - n ∧
      ((s'.wr w).dmaOps = .rdma → ((endWait s' w n).wr w).mapped = false) := by
  obtain ⟨st, e, d, hw⟩ := hr.wr w
  obtain ⟨m, hc⟩ := hr.context (s.wr w).context
  have hctx : (s'.wr w).context = (s.wr w).context := by rw [hw]
  refine ⟨?_, ?_⟩
  · simp only [endWait, destroyLocalPage, Dma.addWrLen, hctx]
    split <;> simp [hc] <;> omega
  · intro hops
    simp [endWait, destroyLocalPage, hops, Dma.addWrLen]

/-- What the two clears do with an RDMA read that is ready. -/
theorem clear_of_ready (found : Found) (hops : (s.wr w).dmaOps = .rdma)
    (h : isWrReadReady (judged s w found) w = true) :
    tryClearFetchingWorkRequest s w found =
        (putFetchingWorkRequest (endWait (keepMarker (judged s w found) w) w 1) w, true) ∧
      clearFetchingWorkRequest (judged s w found) w =
        some (putFetchingWorkRequest (endWait (keepMarker (judged s w found) w) w 1) w) ∧
      (tryWaitRead s w found).1 = endWait (keepMarker (judged s w found) w) w 1 := by
  have hops' : ((judged s w found).wr w).dmaOps = .rdma := by rw [dmaOps_judged, hops]
  have htry : tryWaitRead s w found = (endWait (keepMarker (judged s w found) w) w 1, 1) := by
    simp [tryWaitRead, opsTryWaitRead, hops, rdmaTryWaitRead_eq hops, h]
  refine ⟨?_, ?_, by rw [htry]⟩
  · simp [tryClearFetchingWorkRequest, htry]
  · simp [clearFetchingWorkRequest, waitRead, opsWaitRead, hops', rdmaWaitRead, h]

theorem pollOk_of_reliable (h : Reliable s w found) : PollOk s w found := by
  obtain ⟨hops, hcase⟩ := h
  have hrec := recorded_judged s w found
  have hops' : ((judged s w found).wr w).dmaOps = .rdma := by rw [dmaOps_judged, hops]
  obtain ⟨st, e, d, hw⟩ := hrec.wr w
  have hctx : ((judged s w found).wr w).context = (s.wr w).context := by rw [hw]
  by_cases hready : isWrReadReady (judged s w found) w = true
  · obtain ⟨htry, hclear, hwait⟩ := clear_of_ready found hops hready
    have hcompleted : Completed (judged s w found) w := by
      simp only [Completed, hops']
      simp only [isWrReadReady, Bool.or_eq_true, Bool.and_eq_true, decide_eq_true_eq] at hready
      rcases hready with hwr | ⟨hpoll, harrived⟩
      · exact Or.inl hwr
      · exact Or.inr (Or.inr ⟨hpoll, by simp [harrived]⟩)
    have hkeep := hrec.trans (recorded_keepMarker _ w)
    have hkops : ((keepMarker (judged s w found) w).wr w).dmaOps = .rdma := by
      obtain ⟨st', e', d', hk⟩ := hkeep.wr w
      rw [hk]
      exact hops
    obtain ⟨hlen, hmap⟩ := endWait_spec hkeep w 1
    refine ⟨by simp [htry, hcompleted], by simp [htry], ?_, ?_⟩
    · intro _
      rw [hclear, htry]
    · intro _
      rw [hwait]
      exact ⟨hmap hkops, hlen⟩
  · obtain ⟨hfailed, harrived⟩ := hcase.resolve_left hready
    have hfailed₀ : (s.wr w).state ≠ .prFailed := by
      intro hf
      have hj : judged s w found = s := by simp [judged, hops, hf]
      exact hfailed (by rw [hj, hf])
    have htry : tryClearFetchingWorkRequest s w found = (judged s w found, false) := by
      simp [tryClearFetchingWorkRequest, tryWaitRead, opsTryWaitRead, hops,
        rdmaTryWaitRead_eq hops, hready, hfailed₀]
    have hnot : ¬ Completed (judged s w found) w := by
      simp only [Completed, hops', hctx]
      rintro (hwr | hf | harr)
      · exact hready (by simp [isWrReadReady, hwr])
      · exact hfailed hf
      · exact harrived harr
    refine ⟨by simp [htry, hnot], ?_, by simp [htry], by simp [htry]⟩
    intro _
    refine ⟨by rw [htry], by rw [hw], by rw [hw], ?_⟩
    intro c
    obtain ⟨n, hc⟩ := hrec.context c
    rw [hc]

/-- The block device reports a read in flight as over, and one that is over without an
error as in flight; after an error nothing is released. -/
theorem not_pollOk_nvme (hops : (s.wr w).dmaOps = .nvme) : ¬ PollOk s w found := by
  intro h
  have hj : judged s w found = empWrBlkPoll s found.blk := by simp [judged, record, hops]
  have hops' : ((judged s w found).wr w).dmaOps = .nvme := by rw [dmaOps_judged, hops]
  have hrec := recorded_judged s w found
  have hdone := h.done_iff
  simp only [Completed, hops'] at hdone
  rw [hj] at hdone hops' hrec
  by_cases hwait : ((empWrBlkPoll s found.blk).wr w).waitDone = true
  · by_cases herrno : ((empWrBlkPoll s found.blk).wr w).errno = 0
    · have hfalse : (tryClearFetchingWorkRequest s w found).2 = false := by
        simp [tryClearFetchingWorkRequest, tryWaitRead, opsTryWaitRead, hops, empBdevTryWaitRw,
          hwait, herrno]
      rw [hdone.mpr hwait] at hfalse
      cases hfalse
    · have hne : -(((empWrBlkPoll s found.blk).wr w).errno : ℤ) ≠ 1 := by omega
      have hlen := (h.released (hdone.mpr hwait)).2
      have htry : (tryWaitRead s w found).1 = (empWrBlkPoll s found.blk).setState w .ready := by
        simp [tryWaitRead, opsTryWaitRead, hops, empBdevTryWaitRw, hwait, hne]
      obtain ⟨n, hc⟩ := hrec.context (s.wr w).context
      rw [htry, Dma.context_setState, hc] at hlen
      simp only at hlen
      omega
  · have htrue : (tryClearFetchingWorkRequest s w found).2 = true := by
      simp [tryClearFetchingWorkRequest, tryWaitRead, opsTryWaitRead, hops, empBdevTryWaitRw, hwait]
    exact hwait (hdone.mp htrue)

/-- The memory device reports a read that succeeded as in flight, and does not release
one that failed. -/
theorem not_pollOk_memdev (hops : (s.wr w).dmaOps = .memdev) : ¬ PollOk s w found := by
  intro h
  have hj : judged s w found = s := by simp [judged, record, hops]
  have hdone := h.done_iff
  simp only [hj, Completed, hops, iff_true] at hdone
  have hne : -((s.wr w).errno : ℤ) ≠ 1 := by omega
  have htry : tryWaitRead s w found = (s, -((s.wr w).errno : ℤ)) := by
    simp [tryWaitRead, opsTryWaitRead, hops, empMemdevWait, hne]
  have hlen := (h.released hdone).2
  rw [htry] at hlen
  simp only at hlen
  omega

theorem reliable_of_pollOk (h : PollOk s w found) : Reliable s w found := by
  cases hops : (s.wr w).dmaOps with
  | nvme => exact absurd h (not_pollOk_nvme hops)
  | memdev => exact absurd h (not_pollOk_memdev hops)
  | rdma =>
      have hrec := recorded_judged s w found
      obtain ⟨st, e, d, hw⟩ := hrec.wr w
      have hctx : ((judged s w found).wr w).context = (s.wr w).context := by rw [hw]
      have hops' : ((judged s w found).wr w).dmaOps = .rdma := by rw [dmaOps_judged, hops]
      refine ⟨hops, ?_⟩
      by_cases hready : isWrReadReady (judged s w found) w = true
      · exact Or.inl hready
      · right
        have hdone := h.done_iff
        simp only [Completed, hops', hctx] at hdone
        by_cases hfailed₀ : (s.wr w).state = .prFailed
        · -- a recorded failure is reported, and nothing is released
          have htry : tryWaitRead s w found = (judged s w found, -1) := by
            simp [tryWaitRead, opsTryWaitRead, hops, rdmaTryWaitRead_eq hops, hready, hfailed₀]
          have htrue : (tryClearFetchingWorkRequest s w found).2 = true := by
            simp [tryClearFetchingWorkRequest, htry]
          have hlen := (h.released htrue).2
          obtain ⟨n, hc⟩ := hrec.context (s.wr w).context
          rw [htry, hc] at hlen
          simp only at hlen
          omega
        · have hfalse : (tryClearFetchingWorkRequest s w found).2 = false := by
            simp [tryClearFetchingWorkRequest, tryWaitRead, opsTryWaitRead, hops,
              rdmaTryWaitRead_eq hops, hready, hfailed₀]
          rw [hfalse] at hdone
          refine ⟨?_, ?_⟩
          · intro hf
            exact absurd (hdone.mpr (Or.inr (Or.inl hf))) (by decide)
          · intro harr
            exact absurd (hdone.mpr (Or.inr (Or.inr harr))) (by decide)

/-! ## Poll after poll -/

theorem pollsOk_iff (s : Dma) (w : ℕ) (polls : List Found) :
    PollsOk s w polls ↔ PollsReliable s w polls := by
  induction polls generalizing s with
  | nil => exact Iff.rfl
  | cons found polls ih =>
      simp only [PollsOk, PollsReliable, ih]
      exact and_congr_left fun _ => ⟨reliable_of_pollOk, pollOk_of_reliable⟩

theorem waitOver_of_clear {s' : Dma} (h : clearFetchingWorkRequest s w = some s') :
    waitOver s w polls = some s' := by
  cases polls with
  | nil => exact h
  | cons found polls => simp [waitOver, h]

/-- The blocking wait goes on at a read that is neither ready nor failed. -/
theorem clear_of_not_ready (hops : (s.wr w).dmaOps = .rdma) (hready : ¬ isWrReadReady s w = true)
    (hfailed : (s.wr w).state ≠ .prFailed) : clearFetchingWorkRequest s w = none := by
  simp [clearFetchingWorkRequest, waitRead, opsWaitRead, hops, rdmaWaitRead, hready, hfailed]

/-- A reliable poll and one turn of the blocking wait. -/
theorem waitOver_cons (h : Reliable s w found) :
    waitOver s w (found :: polls) = waitOver (judged s w found) w polls := by
  obtain ⟨hops, hcase⟩ := h
  by_cases hready : isWrReadReady s w = true
  · have hj : judged s w found = s := by simp [judged, hops, hready]
    have hclear := (clear_of_ready found hops (by rw [hj]; exact hready)).2.1
    rw [hj] at hclear ⊢
    rw [waitOver_of_clear hclear, waitOver_of_clear hclear]
  · by_cases hfailed : (s.wr w).state = .prFailed
    · have hj : judged s w found = s := by simp [judged, hops, hfailed]
      rw [hj] at hcase
      exact absurd hfailed (hcase.resolve_left hready).1
    · have hj : judged s w found = record s w found := by simp [judged, hready, hfailed]
      simp [waitOver, clear_of_not_ready hops hready hfailed, hj]

/-- Polling until done is the blocking wait. -/
theorem pollUntil_eq_waitOver (s : Dma) (w : ℕ) (found : Found) (polls : List Found)
    (h : PollsReliable s w (found :: polls)) :
    pollUntil s w (found :: polls) = waitOver s w (found :: polls) := by
  induction polls generalizing s found with
  | nil =>
      have hok := pollOk_of_reliable h.1
      rw [waitOver_cons h.1]
      cases hdone : (tryClearFetchingWorkRequest s w found).2 with
      | true => simp [pollUntil, waitOver, hdone, hok.cleared hdone]
      | false =>
          have hnot : ¬ Completed (judged s w found) w := by
            rw [← hok.done_iff, hdone]
            decide
          have hops' : ((judged s w found).wr w).dmaOps = .rdma := by rw [dmaOps_judged, h.1.1]
          simp only [Completed, hops'] at hnot
          have hready : ¬ isWrReadReady (judged s w found) w = true := by
            intro hr
            have htrue := (clear_of_ready _ h.1.1 hr).1
            rw [htrue] at hdone
            cases hdone
          have hfailed : ((judged s w found).wr w).state ≠ .prFailed :=
            fun hf => hnot (Or.inr (Or.inl hf))
          simp [pollUntil, waitOver, hdone, clear_of_not_ready hops' hready hfailed]
  | cons found' polls ih =>
      have hok := pollOk_of_reliable h.1
      rw [waitOver_cons h.1]
      cases hdone : (tryClearFetchingWorkRequest s w found).2 with
      | true =>
          rw [waitOver_of_clear (hok.cleared hdone)]
          simp [pollUntil, hdone]
      | false =>
          have hnext := ih (judged s w found) found' (by
            have := h.2 hdone
            rwa [(hok.kept hdone).1] at this)
          rw [← hnext, ← (hok.kept hdone).1]
          rw [pollUntil, if_neg (by simp [hdone])]

/-- What polling promises: every poll does what it should, and polling until done is
the blocking wait. -/
structure PollingOk (s : Dma) (w : ℕ) (polls : List Found) : Prop where
  each : PollsOk s w polls
  blocking : polls ≠ [] → pollUntil s w polls = waitOver s w polls

/-- Polling can be relied on exactly for reads from RDMA donors that no poll comes upon
after a failure, or after a page that ends with the marker has arrived unnoticed. -/
theorem polling_iff (s : Dma) (w : ℕ) (polls : List Found) :
    PollingOk s w polls ↔ PollsReliable s w polls := by
  constructor
  · intro h
    exact (pollsOk_iff s w polls).mp h.each
  · intro h
    refine ⟨(pollsOk_iff s w polls).mpr h, ?_⟩
    intro hne
    cases polls with
    | nil => exact absurd rfl hne
    | cons found polls => exact pollUntil_eq_waitOver s w found polls h

/-- A read from a block device that was posted on a fresh request, in state `s`. -/
def nvmeRead (s : Dma) : Dma := postRead s ⟨.nvme, 0, 0, 0, 0⟩ 0 none false 0

/-- A poll of a block device read in flight reports that it is over, frees the request,
and leaves it counted on its context. -/
theorem not_pollingOk_nvme :
    ¬ PollingOk (nvmeRead quiet) 0 [⟨[], []⟩] ∧
      (tryClearFetchingWorkRequest (nvmeRead quiet) 0 ⟨[], []⟩).2 = true ∧
      ((tryClearFetchingWorkRequest (nvmeRead quiet) 0 ⟨[], []⟩).1.wr 0).live = false ∧
      ((tryClearFetchingWorkRequest (nvmeRead quiet) 0 ⟨[], []⟩).1.context 0).wrLen = 1 := by
  refine ⟨?_, by decide, by decide, by decide⟩
  intro h
  have hdone : Completed (judged (nvmeRead quiet) 0 ⟨[], []⟩) 0 :=
    h.each.1.done_iff.mp (by decide)
  exact absurd (show (((judged (nvmeRead quiet) 0 ⟨[], []⟩).wr 0).waitDone = true) from hdone)
    (by decide)

end Emp
