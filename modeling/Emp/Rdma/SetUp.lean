import Emp.Lib.Census
import Emp.Rdma.Connection

/-!
# What the state of a context says

`ctrl_state` should tell how far a context has come: that it is ready, that the donor has
another size, or that it was never connected.  The three handlers that advance it commute, but
a size that does not match is stored in the middle of the same enumeration: what is added to it
afterwards makes a connected context look like one with an address error.  And the loop that
creates the contexts counts a reference for each of them, also for one that it could not create,
whose slot is left pointing to freed memory.

## Main definitions

* `RdmaConn.SetUp` — what should hold of a connection.
* `RdmaConn.Orderly` — the steps that keep it.
* `RdmaContext.Inv` — the invariant of a context.
-/

namespace Emp

namespace RdmaContext

variable {c : RdmaContext}

/-- What the state of a context says about it. -/
structure StateOk (c : RdmaContext) : Prop where
  ready : c.ctrlState = contextReady ↔ c.isConnected ≠ 0 ∧ c.sendMsg = .completed ∧
    c.recvDone = .completed ∧ c.recvMsg.size = c.rdmaSize
  invlSize : c.ctrlState = contextInvlSize ↔ c.isConnected ≠ 0 ∧ c.recvDone = .completed ∧
    c.recvMsg.size ≠ c.rdmaSize
  connected : c.isConnected ≠ 0 → c.ctrlState ≠ contextAddrError ∧ c.ctrlState ≠ contextRejected

/-- The send is over, or there was none. -/
def SendOver (c : RdmaContext) : Prop :=
  c.sendMsg = .refused ∨ c.sendMsg = .failed ∨ c.sendMsg = .completed

/-- A message of another size has come. -/
def Mismatch (c : RdmaContext) : Prop := c.recvDone = .completed ∧ c.recvMsg.size ≠ c.rdmaSize

/-- How often the state has been advanced: when the send was to be posted, when it completed,
and when the donor's message came. -/
def advances (c : RdmaContext) : ℕ :=
  (if c.sendMsg = .idle then 0 else 1) + (if c.sendMsg = .completed then 1 else 0) +
    if c.recvDone = .completed then 1 else 0

/-- A context that was not connected yet, or never will be. -/
structure Unconnected (c : RdmaContext) : Prop where
  send : c.sendMsg = .idle
  recv : c.recvDone ≠ .completed
  phase : c.phase ≠ .established ∧ c.phase ≠ .sending ∧ c.phase ≠ .up
  state : c.ctrlState = contextConnecting ∨
    c.phase = .destroyed ∧ (c.ctrlState = contextAddrError ∨ c.ctrlState = contextRejected)

/-- A context that is connected. -/
structure Connected (c : RdmaContext) : Prop where
  isConnected : c.isConnected = 1
  phase : c.phase ≠ .resolveAddr ∧ c.phase ≠ .resolveRoute ∧ c.phase ≠ .connect
  send : c.phase = .established ↔ c.sendMsg = .idle
  mismatch : c.Mismatch → c.ctrlState = contextInvlSize ∧ c.SendOver
  state : ¬ c.Mismatch → c.ctrlState = c.advances

/-- The invariant of a context: it is being destroyed, not connected or connected. -/
def Inv (c : RdmaContext) : Prop :=
  if c.scheduled then
    c.isConnected = 0 ∧ contextDestroying ≤ c.ctrlState ∧ (c.phase = .up ∨ c.phase = .destroyed)
  else if c.isConnected = 0 then c.Unconnected else c.Connected

theorem advances_le (c : RdmaContext) : c.advances ≤ 3 := by
  simp only [advances]
  split_ifs <;> omega

/-- All three have advanced the state. -/
theorem advances_eq_three :
    c.advances = 3 ↔ c.sendMsg = .completed ∧ c.recvDone = .completed := by
  by_cases hs : c.sendMsg = .completed
  · by_cases hr : c.recvDone = .completed <;> simp [advances, hs, hr]
  · by_cases hi : c.sendMsg = .idle <;> by_cases hr : c.recvDone = .completed <;>
      simp [advances, hs, hi, hr]

/-- The invariant tells what the state says. -/
theorem stateOk_of_inv (h : c.Inv) : c.StateOk := by
  simp only [Inv] at h
  split_ifs at h with hd hc
  · -- being destroyed
    obtain ⟨hc, hstate, -⟩ := h
    have hne : ∀ n < contextDestroying, c.ctrlState ≠ n := fun n hn => (hn.trans_le hstate).ne'
    exact ⟨iff_of_false (hne _ (by decide)) fun hr => hr.1 hc,
      iff_of_false (hne _ (by decide)) fun hr => hr.1 hc, fun hcon => absurd hc hcon⟩
  · -- not connected
    have hne : c.ctrlState ≠ contextReady ∧ c.ctrlState ≠ contextInvlSize := by
      rcases h.state with hst | ⟨-, hst | hst⟩ <;> rw [hst] <;> decide
    exact ⟨iff_of_false hne.1 fun hr => hr.1 hc, iff_of_false hne.2 fun hr => hr.1 hc,
      fun hcon => absurd hc hcon⟩
  · by_cases hm : c.Mismatch
    · obtain ⟨hst, -⟩ := h.mismatch hm
      refine ⟨iff_of_false ?_ fun hr => hm.2 hr.2.2.2, iff_of_true hst ⟨hc, hm⟩, fun _ => ?_⟩
      · rw [hst]
        decide
      · rw [hst]
        decide
    · have hst := h.state hm
      have hne : ∀ n, 3 < n → c.ctrlState ≠ n := fun n hn =>
        hst ▸ ((advances_le c).trans_lt hn).ne
      refine ⟨?_, iff_of_false (hne _ (by decide)) fun hr => hm hr.2,
        fun _ => ⟨hne _ (by decide), hne _ (by decide)⟩⟩
      rw [hst, advances_eq_three]
      constructor
      · rintro ⟨hs, hr⟩
        exact ⟨hc, hs, hr, by_contra fun hne => hm ⟨hr, hne⟩⟩
      · exact fun hr => ⟨hr.2.1, hr.2.2.1⟩

/-! ## The events of a context -/

theorem inv_create (id size : ℕ) (mempoll : Bool) : (create id size mempoll).Inv := by
  simp only [Inv, create, Bool.false_eq_true, if_false, if_true]
  exact ⟨rfl, nofun, ⟨nofun, nofun, nofun⟩, .inl rfl⟩

/-- Before it is connected a context is in one of the first three phases. -/
theorem unconnected_of_phase (h : c.Inv)
    (hp : c.phase = .resolveAddr ∨ c.phase = .resolveRoute ∨ c.phase = .connect) :
    c.scheduled = false ∧ c.isConnected = 0 ∧ c.Unconnected ∧ c.ctrlState = contextConnecting := by
  simp only [Inv] at h
  split_ifs at h with hd hc
  · rcases h.2.2 with hu | hu <;> simp [hu] at hp
  · refine ⟨by simpa using hd, hc, h, ?_⟩
    rcases h.state with hst | ⟨hph, -⟩
    · exact hst
    · simp [hph] at hp
  · obtain ⟨ha, hr, hco⟩ := h.phase
    rcases hp with hp | hp | hp
    · exact absurd hp ha
    · exact absurd hp hr
    · exact absurd hp hco

/-- In the handler of the event a context is connected. -/
theorem connected_of_phase (h : c.Inv) (hp : c.phase = .established ∨ c.phase = .sending) :
    c.scheduled = false ∧ c.isConnected ≠ 0 ∧ c.Connected := by
  simp only [Inv] at h
  split_ifs at h with hd hc
  · rcases h.2.2 with hu | hu <;> simp [hu] at hp
  · obtain ⟨he, hs, -⟩ := h.phase
    rcases hp with hp | hp
    · exact absurd hp he
    · exact absurd hp hs
  · exact ⟨by simpa using hd, hc, h⟩

theorem inv_unconnected {c' : RdmaContext} (hs : c'.scheduled = false) (hc : c'.isConnected = 0)
    (h : c'.Unconnected) : c'.Inv := by
  simpa [Inv, hs, hc] using h

theorem inv_connected {c' : RdmaContext} (hs : c'.scheduled = false) (hc : c'.isConnected ≠ 0)
    (h : c'.Connected) : c'.Inv := by
  simpa [Inv, hs, hc] using h

theorem inv_addrResolved (h : c.Inv) (hp : c.phase = .resolveAddr) (setup recv route : Bool) :
    (c.addrResolved setup recv route).Inv := by
  obtain ⟨hs, hc, hu, hst⟩ := unconnected_of_phase h (.inl hp)
  cases setup <;> cases recv <;> cases route <;>
    exact inv_unconnected hs hc ⟨hu.send, by simp [addrResolved, postRecvMsg, hu.recv],
      by simp [addrResolved], .inl hst⟩

theorem inv_routeResolved (h : c.Inv) (hp : c.phase = .resolveRoute) (ok : Bool) :
    (c.routeResolved ok).Inv := by
  obtain ⟨hs, hc, hu, hst⟩ := unconnected_of_phase h (.inr (.inl hp))
  cases ok <;> exact inv_unconnected hs hc ⟨hu.send, hu.recv, by simp [routeResolved], .inl hst⟩

theorem inv_establish (h : c.Inv) (hp : c.phase = .connect) : c.establish.Inv := by
  obtain ⟨hs, hc, hu, hst⟩ := unconnected_of_phase h (.inr (.inr hp))
  refine inv_connected hs (Nat.succ_ne_zero _) ⟨by simp [establish, hc], by simp [establish],
    iff_of_true rfl hu.send, fun hm => absurd hm.1 hu.recv, fun _ => ?_⟩
  rw [show c.establish.ctrlState = 0 from hst]
  simp [establish, advances, hu.send, hu.recv]

theorem inv_reportError (h : c.Inv)
    (hp : c.phase = .resolveAddr ∨ c.phase = .resolveRoute ∨ c.phase = .connect)
    {state : ℕ} (hstate : state = contextAddrError ∨ state = contextRejected) :
    (c.reportError state).Inv := by
  obtain ⟨hs, hc, hu, -⟩ := unconnected_of_phase h hp
  exact inv_unconnected hs hc ⟨hu.send, hu.recv, by simp [reportError], .inr ⟨rfl, hstate⟩⟩

theorem inv_postSendMsg (h : c.Inv) (hp : c.phase = .established) (ok : Bool) :
    (c.postSendMsg ok).Inv := by
  obtain ⟨hs, hc, hcon⟩ := connected_of_phase h (.inl hp)
  have hidle := hcon.send.mp hp
  have hno : ¬ c.Mismatch := by
    intro hm
    rcases (hcon.mismatch hm).2 with ho | ho | ho <;> simp [hidle] at ho
  have hst : c.ctrlState = c.advances := hcon.state hno
  cases ok <;>
    refine inv_connected hs hc ⟨hcon.isConnected, by simp [postSendMsg], by simp [postSendMsg],
      fun hm => absurd hm hno, fun _ => ?_⟩ <;>
    simp [postSendMsg, advances, hst, hidle, Nat.add_comm]

theorem inv_sendReturned (h : c.Inv) (hp : c.phase = .sending) : c.sendReturned.Inv := by
  obtain ⟨hs, hc, hcon⟩ := connected_of_phase h (.inr hp)
  refine inv_connected hs hc ⟨hcon.isConnected, by simp [sendReturned], ?_, hcon.mismatch,
    hcon.state⟩
  rw [show c.sendReturned.sendMsg = c.sendMsg from rfl, ← hcon.send]
  simp [sendReturned, hp]

theorem inv_otherEvent (h : c.Inv) (hp : c.phase ≠ .established) :
    Inv { c with phase := .destroyed } := by
  simp only [Inv] at h ⊢
  split_ifs at h ⊢ with hd hc
  · exact ⟨h.1, h.2.1, .inr trivial⟩
  · refine ⟨h.send, h.recv, ⟨nofun, nofun, nofun⟩, ?_⟩
    rcases h.state with hst | ⟨-, hst⟩
    · exact .inl hst
    · exact .inr ⟨rfl, hst⟩
  · refine ⟨h.isConnected, ⟨nofun, nofun, nofun⟩, ?_, h.mismatch, h.state⟩
    rw [← h.send]
    exact iff_of_false nofun hp

theorem inv_scheduleDestroyContext (h : c.Inv) (hp : c.phase = .up ∨ c.phase = .destroyed) :
    c.scheduleDestroyContext.Inv := by
  simp only [scheduleDestroyContext]
  split_ifs
  · exact ⟨rfl, le_rfl, hp⟩
  · exact h

/-- A completion of the send. -/
theorem inv_handleSendMsg (h : c.Inv) (hp : c.sendMsg = .posted) (ok : Bool) :
    (c.handleSendMsg ok).Inv := by
  simp only [Inv] at h
  split_ifs at h with hd hc
  · obtain ⟨hc, hst, hph⟩ := h
    cases ok
    · simpa [Inv, handleSendMsg, hd] using ⟨hc, hst, hph⟩
    · simp only [Inv, handleSendMsg, hd, if_true]
      exact ⟨hc, Nat.le_succ_of_le hst, hph⟩
  · rw [h.send] at hp
    cases hp
  · have hno : ¬ c.Mismatch := by
      intro hm
      rcases (h.mismatch hm).2 with ho | ho | ho <;> simp [hp] at ho
    have hst := h.state hno
    have hne : c.phase ≠ .established := by
      rw [ne_eq, h.send, hp]
      decide
    cases ok <;>
      refine inv_connected (by simpa [handleSendMsg] using hd) hc ⟨h.isConnected, h.phase,
        iff_of_false hne (by simp [handleSendMsg]), fun hm => absurd hm hno, fun _ => ?_⟩ <;>
      simp [handleSendMsg, advances, hst, hp, Nat.add_right_comm]

/-- A receive that failed changes nothing that the invariant is about. -/
theorem inv_handleRecvMsg_none (h : c.Inv) (hp : c.recvDone = .posted) :
    (c.handleRecvMsg none).Inv := by
  simp only [Inv] at h
  split_ifs at h with hd hc
  · simpa [Inv, handleRecvMsg, hd] using h
  · exact inv_unconnected (by simpa [handleRecvMsg] using hd) hc
      ⟨h.send, by simp [handleRecvMsg], h.phase, h.state⟩
  · have hno : ¬ c.Mismatch := fun hm => by simp [hm.1] at hp
    refine inv_connected (by simpa [handleRecvMsg] using hd) hc ⟨h.isConnected, h.phase, h.send,
      fun hm => by simp [Mismatch, handleRecvMsg] at hm, fun _ => ?_⟩
    rw [show (c.handleRecvMsg none).ctrlState = c.ctrlState from rfl, h.state hno]
    simp only [handleRecvMsg, advances, hp]
    rfl

/-- A message finds the context connected, or being destroyed, and one of another size finds
the send over. -/
def RecvOk (c : RdmaContext) (m : Message) : Prop :=
  c.scheduled = true ∨ c.isConnected ≠ 0 ∧ (m.size = c.rdmaSize ∨ c.SendOver)

theorem inv_handleRecvMsg_some (h : c.Inv) (hp : c.recvDone = .posted) {m : Message}
    (hok : c.RecvOk m) : (c.handleRecvMsg (some m)).Inv := by
  simp only [Inv] at h
  split_ifs at h with hd hc
  · simpa [Inv, handleRecvMsg, hd, h.1] using h.2
  · rcases hok with hok | hok
    · exact absurd hok hd
    · exact absurd hc hok.1
  · have hno : ¬ c.Mismatch := fun hm => by simp [hm.1] at hp
    have hst := h.state hno
    by_cases hm : c.rdmaSize = m.size
    · have hrec : c.handleRecvMsg (some m) = { c with
          pending := c.pending - 1, wrLen := c.wrLen - 1, recvDone := .completed, recvMsg := m,
          rdmaAddr := m.addr, rdmaRkey := m.rkey, ctrlState := c.ctrlState + 1 } := by
        simp [handleRecvMsg, hc, hm]
      rw [hrec]
      refine inv_connected (by simpa using hd) hc ⟨h.isConnected, h.phase, h.send,
        fun hmis => absurd hm.symm hmis.2, fun _ => ?_⟩
      simp [advances, hst, hp]
    · have hrec : c.handleRecvMsg (some m) = { c with
          pending := c.pending - 1, wrLen := c.wrLen - 1, recvDone := .completed, recvMsg := m,
          ctrlState := contextInvlSize } := by
        simp [handleRecvMsg, hc, hm]
      have hover : c.SendOver := by
        rcases hok with hok | hok
        · exact absurd hok hd
        · exact hok.2.resolve_left fun he => hm he.symm
      rw [hrec]
      exact inv_connected (by simpa using hd) hc ⟨h.isConnected, h.phase, h.send,
        fun _ => ⟨rfl, hover⟩, fun hno => absurd ⟨rfl, fun he => hm he.symm⟩ hno⟩

end RdmaContext

namespace RdmaConn

variable {s s' : RdmaConn} {x : ℕ}

/-- What should hold of a connection: the states of its contexts say what they stand for, its
slots point to contexts that have not been freed, and its references are counted by them. -/
structure SetUp (s : RdmaConn) : Prop where
  states : ∀ x < s.next, (s.context x).live = true → (s.context x).StateOk
  slots : ∀ i x, s.contexts i = some x → x < s.next ∧ (s.context x).live = true
  refcount : s.refcount = Nat.count (fun x => (s.context x).live = true) s.next
  destroyed : s.refcount = 0 ↔ ∀ x < s.next, (s.context x).live = false

/-- Contexts can be created, and a message finds its context connected and, if it is of another
size, the send over. -/
def Orderly (s : RdmaConn) : ConnEvent → Prop
  | .create alloc cmId resolve => alloc = true ∧ cmId = true ∧ resolve = true
  | .recvDone x (some m) => (s.context x).RecvOk m
  | _ => True

/-- The invariant of a connection. -/
structure Inv (s : RdmaConn) : Prop where
  context : ∀ x < s.next, (s.context x).live = true → (s.context x).Inv
  slot : ∀ i x, s.contexts i = some x → i < nRdmaQueues ∧ x < s.next ∧
    (s.context x).live = true ∧ (s.context x).id = i
  own : ∀ x < s.next, (s.context x).live = true → s.contexts (s.context x).id = some x
  unused : ∀ i, s.created ≤ i → s.contexts i = none
  created : s.next = s.created ∧ s.created ≤ nRdmaQueues
  refcount : s.refcount = Nat.count (fun x => (s.context x).live = true) s.next

/-! ## Creating and destroying contexts -/

/-- There is a free slot, and it is not behind those of the contexts created before. -/
theorem freeSlot_spec (h : s.Inv) (hc : s.created < nRdmaQueues) :
    s.freeSlot ≤ s.created ∧ s.contexts s.freeSlot = none := by
  have hnone : s.contexts s.created = none := h.unused _ le_rfl
  have hfind : (List.range nRdmaQueues).find? (fun i => (s.contexts i).isNone) =
      some s.freeSlot := by
    cases hf : (List.range nRdmaQueues).find? fun i => (s.contexts i).isNone with
    | some i => simp [freeSlot, hf]
    | none =>
        rw [List.find?_eq_none] at hf
        exact absurd (by simp [hnone]) (hf s.created (List.mem_range.mpr hc))
  refine ⟨?_, by simpa using List.find?_some hfind⟩
  by_contra hlt
  have hno := List.find?_range_eq_some.mp hfind
  have hsome := hno.2.2 s.created (not_le.mp hlt)
  simp [hnone] at hsome

/-- What creating a context does, if there is a slot for it. -/
structure Creates (s s' : RdmaConn) : Prop where
  context : s'.context s.next = .create s.freeSlot s.size (s.pollsMemory s.created)
  others : ∀ x ≠ s.next, s'.context x = s.context x
  slot : s'.contexts s.freeSlot = some s.next
  slots : ∀ i ≠ s.freeSlot, s'.contexts i = s.contexts i
  next : s'.next = s.next + 1
  created : s'.created = s.created + 1
  refcount : s'.refcount = s.refcount + 1

theorem creates_createContext (hslot : s.freeSlot < nRdmaQueues) :
    Creates s (s.createContext true true true) := by
  refine ⟨?_, fun x hx => ?_, ?_, fun i hi => ?_, rfl, rfl, rfl⟩
  · simp [createContext, rdmaCreateContext, addContext]
  · simp [createContext, rdmaCreateContext, addContext, hx]
  · simp [createContext, rdmaCreateContext, addContext, hslot]
  · simp [createContext, rdmaCreateContext, addContext, hslot, hi]

theorem inv_createContext (h : s.Inv) (hc : s.created < nRdmaQueues) :
    (s.createContext true true true).Inv := by
  obtain ⟨hle, hfree⟩ := freeSlot_spec h hc
  have hslot : s.freeSlot < nRdmaQueues := hle.trans_lt hc
  have ht := creates_createContext hslot
  revert ht
  generalize s.createContext true true true = t
  intro ht
  have hlive : (t.context s.next).live = true := by rw [ht.context]; rfl
  have hid : (t.context s.next).id = s.freeSlot := by rw [ht.context]; rfl
  refine ⟨fun x hx hl => ?_, fun i x hi => ?_, fun x hx hl => ?_, fun i hi => ?_, ?_, ?_⟩
  · by_cases hxn : x = s.next
    · rw [hxn, ht.context]
      exact RdmaContext.inv_create ..
    · rw [ht.others x hxn] at hl ⊢
      exact h.context x (by have := ht.next; omega) hl
  · by_cases hif : i = s.freeSlot
    · rw [hif, ht.slot] at hi
      obtain rfl := Option.some.inj hi
      exact ⟨hif ▸ hslot, by rw [ht.next]; exact Nat.lt_succ_self _, hlive, hid.trans hif.symm⟩
    · rw [ht.slots i hif] at hi
      obtain ⟨hin, hx, hl, hidx⟩ := h.slot i x hi
      rw [ht.others x hx.ne, ht.next]
      exact ⟨hin, Nat.lt_succ_of_lt hx, hl, hidx⟩
  · by_cases hxn : x = s.next
    · rw [hxn, hid, ht.slot]
    · rw [ht.others x hxn] at hl ⊢
      have hown := h.own x (by have := ht.next; omega) hl
      rw [ht.slots _ ?_, hown]
      intro hidx
      rw [hidx, hfree] at hown
      cases hown
  · rw [ht.created] at hi
    rw [ht.slots i (by omega)]
    exact h.unused i (by omega)
  · rw [ht.next, ht.created, h.created.1]
    exact ⟨rfl, hc⟩
  · have hcount := Census.count_extend (n := s.next) (p := fun x => (s.context x).live = true)
      (q := fun x => (t.context x).live = true) fun i hi => by rw [ht.others i hi.ne]
    rw [ht.refcount, ht.next, hcount, if_pos hlive, h.refcount]
    rfl

/-- A context is taken out of its slot and freed. -/
theorem inv_destroy (h : s.Inv) (hx : x < s.next) (hl : (s.context x).live = true) :
    (s.destroy x).Inv := by
  have hown := h.own x hx hl
  have hlive : ∀ y, ((s.destroy x).context y).live = true ↔ (s.context y).live = true ∧ y ≠ x := by
    intro y
    by_cases hy : y = x
    · subst hy
      simp [destroy, free, setContext]
    · simp [destroy, free, setContext, hy]
  have hsame : ∀ y, y ≠ x → (s.destroy x).context y = s.context y := fun y hy =>
    Function.update_of_ne hy ..
  refine ⟨fun y hy hly => ?_, fun i y hi => ?_, fun y hy hly => ?_, fun i hi => ?_, h.created, ?_⟩
  · obtain ⟨hly', hne⟩ := (hlive y).mp hly
    rw [hsame y hne]
    exact h.context y hy hly'
  · have hne : i ≠ (s.context x).id := by
      rintro rfl
      simp [destroy] at hi
    have hi' : s.contexts i = some y := by simpa [destroy, hne] using hi
    obtain ⟨hin, hy, hly, hid⟩ := h.slot i y hi'
    have hyx : y ≠ x := by
      rintro rfl
      exact hne hid.symm
    rw [hsame y hyx]
    exact ⟨hin, hy, hly, hid⟩
  · obtain ⟨hly', hne⟩ := (hlive y).mp hly
    have hy' := h.own y hy hly'
    rw [hsame y hne]
    have hid : (s.context y).id ≠ (s.context x).id := by
      intro hid
      rw [hid, hown] at hy'
      exact hne (Option.some.inj hy').symm
    simpa [destroy, hid] using hy'
  · have hnone := h.unused i hi
    by_cases hid : i = (s.context x).id
    · subst hid
      simp [destroy]
    · simpa [destroy, hid] using hnone
  · have hcount := Census.count_remove (n := s.next) hx hl fun y _ => hlive y
    have href := h.refcount
    rw [hcount] at href
    have hnext : (s.destroy x).next = s.next := rfl
    have hsub : (s.destroy x).refcount = s.refcount - 1 := rfl
    rw [hnext, hsub]
    omega

/-- A context that keeps its slot and its memory. -/
theorem inv_setContext (h : s.Inv) (hl : (s.context x).live = true) {c : RdmaContext}
    (hc : c.live = true) (hid : c.id = (s.context x).id) (hi : c.Inv) : (s.setContext x c).Inv := by
  have hsame : ∀ y, ((s.setContext x c).context y).live = (s.context y).live ∧
      ((s.setContext x c).context y).id = (s.context y).id := by
    intro y
    by_cases hy : y = x
    · subst hy
      simp [setContext, hc, hl, hid]
    · simp [setContext, hy]
  refine ⟨fun y hy hly => ?_, fun i y hiy => ?_, fun y hy hly => ?_, h.unused, h.created, ?_⟩
  · by_cases hyx : y = x
    · subst hyx
      simpa [setContext] using hi
    · have hctx := h.context y hy ((hsame y).1 ▸ hly)
      simpa [setContext, hyx] using hctx
  · obtain ⟨hin, hy, hly, hidy⟩ := h.slot i y hiy
    exact ⟨hin, hy, (hsame y).1.trans hly, (hsame y).2.trans hidy⟩
  · rw [(hsame y).2]
    exact h.own y hy ((hsame y).1 ▸ hly)
  · refine h.refcount.trans (congrArg _ (Census.count_congr fun y _ => ?_))
    rw [(hsame y).1]

/-- An event of a context that the invariant of contexts survives. -/
theorem inv_onContext {p : RdmaContext → Bool} {f : RdmaContext → RdmaContext} (h : s.Inv)
    (hs : s.onContext x p f = some s') (hf : ∀ c, (f c).live = c.live ∧ (f c).id = c.id)
    (hi : ∀ c : RdmaContext, c.Inv → p c = true → (f c).Inv) : s'.Inv := by
  obtain ⟨hg, rfl⟩ := Transition.of_guard hs
  simp only [Bool.and_eq_true, decide_eq_true_eq] at hg
  obtain ⟨⟨hx, hl⟩, hp⟩ := hg
  exact inv_setContext h hl ((hf _).1.trans hl) (hf _).2 (hi _ (h.context x hx hl) hp)

theorem inv_recvMsg (h : s.Inv) (hx : x < s.next) (hl : (s.context x).live = true)
    (hp : (s.context x).recvDone = .posted) {msg : Option Message}
    (hok : s.Orderly (.recvDone x msg)) : (s.recvMsg x msg).Inv := by
  cases msg with
  | none =>
      exact inv_setContext h hl hl rfl
        (RdmaContext.inv_handleRecvMsg_none (h.context x hx hl) hp)
  | some m =>
      have hkeep : ((s.context x).handleRecvMsg (some m)).live = (s.context x).live ∧
          ((s.context x).handleRecvMsg (some m)).id = (s.context x).id := by
        simp only [RdmaContext.handleRecvMsg]
        split_ifs <;> exact ⟨rfl, rfl⟩
      have hset : (s.setContext x ((s.context x).handleRecvMsg (some m))).Inv :=
        inv_setContext h hl (hkeep.1.trans hl) hkeep.2
          (RdmaContext.inv_handleRecvMsg_some (h.context x hx hl) hp hok)
      simp only [recvMsg]
      split_ifs
      · exact ⟨hset.context, hset.slot, hset.own, hset.unused, hset.created, hset.refcount⟩
      · exact hset

/-! ## Runs -/

theorem inv_of_start (h : s.Start) : s.Inv := by
  obtain ⟨size, memPoll, rfl⟩ := h
  exact ⟨nofun, nofun, nofun, fun _ _ => rfl, ⟨rfl, Nat.zero_le _⟩, rfl⟩

/-- One step. -/
theorem inv_of_step {e : ConnEvent} (h : s.Inv) (hok : s.Orderly e) (hs : step s e = some s') :
    s'.Inv := by
  unfold step at hs
  cases e with
  | create alloc cmId resolve =>
      obtain ⟨hc, rfl⟩ := Transition.of_guard hs
      obtain ⟨rfl, rfl, rfl⟩ := hok
      exact inv_createContext h hc
  | addrResolved x setup recv route =>
      refine inv_onContext h hs (fun c => ?_) fun c hc hp =>
        RdmaContext.inv_addrResolved hc (by simpa using hp) setup recv route
      cases setup <;> cases recv <;> exact ⟨rfl, rfl⟩
  | routeResolved x ok =>
      exact inv_onContext h hs (fun c => ⟨rfl, rfl⟩) fun c hc hp =>
        RdmaContext.inv_routeResolved hc (by simpa using hp) ok
  | established x =>
      exact inv_onContext h hs (fun c => ⟨rfl, rfl⟩) fun c hc hp =>
        RdmaContext.inv_establish hc (by simpa using hp)
  | postSendMsg x ok =>
      refine inv_onContext h hs (fun c => ?_) fun c hc hp =>
        RdmaContext.inv_postSendMsg hc (by simpa using hp) ok
      cases ok <;> exact ⟨rfl, rfl⟩
  | sendReturned x =>
      refine inv_onContext h hs (fun c => ⟨rfl, rfl⟩) fun c hc hp => ?_
      simp only [Bool.and_eq_true, beq_iff_eq] at hp
      exact RdmaContext.inv_sendReturned hc hp.1
  | disconnected x =>
      refine inv_onContext h hs (fun c => ?_) fun c hc hp =>
        RdmaContext.inv_scheduleDestroyContext hc (by simpa using hp)
      simp only [RdmaContext.scheduleDestroyContext]
      split_ifs <;> exact ⟨rfl, rfl⟩
  | addrError x =>
      exact inv_onContext h hs (fun c => ⟨rfl, rfl⟩) fun c hc hp =>
        RdmaContext.inv_reportError hc (.inl (by simpa using hp)) (.inl rfl)
  | routeError x =>
      exact inv_onContext h hs (fun c => ⟨rfl, rfl⟩) fun c hc hp =>
        RdmaContext.inv_reportError hc (.inr (.inl (by simpa using hp))) (.inl rfl)
  | rejected x =>
      exact inv_onContext h hs (fun c => ⟨rfl, rfl⟩) fun c hc hp =>
        RdmaContext.inv_reportError hc (.inr (.inr (by simpa using hp))) (.inr rfl)
  | otherEvent x =>
      refine inv_onContext h hs (fun c => ⟨rfl, rfl⟩) fun c hc hp => ?_
      simp only [Bool.and_eq_true, bne_iff_ne] at hp
      exact RdmaContext.inv_otherEvent hc hp.1
  | sendDone x ok =>
      refine inv_onContext h hs (fun c => ?_) fun c hc hp =>
        RdmaContext.inv_handleSendMsg hc (by simpa using hp) ok
      cases ok <;> exact ⟨rfl, rfl⟩
  | recvDone x msg =>
      obtain ⟨hg, rfl⟩ := Transition.of_guard hs
      simp only [Bool.and_eq_true, decide_eq_true_eq, beq_iff_eq] at hg
      exact inv_recvMsg h hg.1.1 hg.1.2 hg.2 hok
  | destroyContextWork x =>
      obtain ⟨hg, rfl⟩ := Transition.of_guard hs
      simp only [Bool.and_eq_true, decide_eq_true_eq] at hg
      exact inv_destroy h hg.1.1.1 hg.1.1.2
  | waitForContext i =>
      cases hi : s.contexts i with
      | none => simp [hi] at hs
      | some x =>
          simp only [hi] at hs
          obtain ⟨-, rfl⟩ := Transition.of_guard hs
          obtain ⟨-, hx, hl, -⟩ := h.slot i x hi
          simp only [rdmaWaitForContext]
          split_ifs
          · exact inv_destroy h hx hl
          · exact h

theorem setUp_of_inv (h : s.Inv) : s.SetUp := by
  refine ⟨fun x hx hl => RdmaContext.stateOk_of_inv (h.context x hx hl),
    fun i x hi => ⟨(h.slot i x hi).2.1, (h.slot i x hi).2.2.1⟩, h.refcount, ?_⟩
  rw [h.refcount, Int.natCast_eq_zero, Nat.count_iff_forall_not]
  exact forall₂_congr fun x _ => by simp

/-- **A connection is set up as its states say**, in every run in which contexts can be created
and the donor's message does not come too early. -/
theorem setUp_of_reach (h : Transition.ReachWhen Start step Orderly s) : s.SetUp :=
  setUp_of_inv (h.invariant (fun _ => inv_of_start) fun _ _ _ hi hok hs => inv_of_step hi hok hs)

/-- The three contexts are created, and one of them is set up by a donor that offers `size`. -/
def connectOne (early : Bool) (size : ℕ) : List ConnEvent :=
  [.create true true true, .create true true true, .create true true true,
    .addrResolved 0 true true true, .routeResolved 0 true, .established 0, .postSendMsg 0 true] ++
  if early then [.recvDone 0 (some ⟨0, 0, size, 0, 0⟩), .sendDone 0 true]
  else [.sendDone 0 true, .recvDone 0 (some ⟨0, 0, size, 0, 0⟩)]

/-- The donor's message comes after the send is over; it is of another size. -/
theorem setUp_connectOne : ∃ s, Transition.exec step (fresh 8 false) (connectOne false 4) = some s ∧
    s.SetUp := by
  have hok : Transition.Allowed step Orderly (fresh 8 false) (connectOne false 4) := by
    refine ⟨⟨rfl, rfl, rfl⟩, ⟨rfl, rfl, rfl⟩, ⟨rfl, rfl, rfl⟩, trivial, trivial, trivial, trivial,
      trivial, .inr ⟨by decide, .inr (.inr (.inr rfl))⟩, trivial⟩
  exact ⟨_, rfl, setUp_of_reach (.exec (.start ⟨8, false, rfl⟩) hok rfl)⟩

/-- **The claim fails**: the message comes while the send is on its way, and the context, which
is connected, is taken for one with an address error. -/
theorem not_setUp_connectOne :
    ¬ ∀ s, Transition.Reach Start step s → s.SetUp := by
  intro h
  have hrun : ∀ s, Transition.exec step (fresh 8 false) (connectOne true 4) = some s →
      Transition.Reach Start step s := fun _ he => Transition.Reach.exec (.start ⟨8, false, rfl⟩) he
  have hset := h _ (hrun _ rfl)
  have hctx := (hset.states 0 (by decide) rfl).connected (by decide)
  exact hctx.1 rfl

end RdmaConn

end Emp
