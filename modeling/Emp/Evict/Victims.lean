import Emp.Evict.InactiveList

/-!
# Where the victims end up

Every block is on the list that its state names, and the page counts agree with the lists, but
for the blocks that the updater has in hand.  A piece that is written back, or dropped
because its remote pages hold it, leaves the updater's hands for the writeback list or for remote
memory.  A piece whose eviction fails leaves them for no list at all.

## Main definitions

* `InactiveSys.Accounts` — the account, with the blocks in hand.
* `InactiveSys.UpdateOk` — what an update should leave.
* `InactiveSys.EvictFails` — a piece must be written back and cannot be.
-/

namespace Emp

namespace LruGpa

variable (g : LruGpa)

/-- A head is on the list that its state names, or remote. -/
def Placed : Prop :=
  match g.list with
  | some (.inactive _) => g.rState = .inactive
  | some (.writeback _) => g.rState = .wb
  | some _ => g.rState = .active
  | none => g.rState = .init ∧ g.flags .remote = true

instance : Decidable g.Placed := by
  unfold Placed
  split <;> infer_instance

/-- What a head adds to a page count. -/
def pages (sbPages : ℕ) (k : PageLen) : ℤ :=
  if g.list.any (·.countedBy k) then sbPages * 2 ^ g.descOrder else 0

end LruGpa

namespace InactiveSys

variable (s : InactiveSys) (l : UpdateLuck) (p : ℕ)

/-- Descriptor `d` is in the block of `p`. -/
def InBlock (d : ℕ) : Prop := p ≤ d ∧ d < p + s.numSubblock p

instance (d : ℕ) : Decidable (s.InBlock p d) :=
  inferInstanceAs (Decidable (p ≤ d ∧ d < p + s.numSubblock p))

/-- The blocks of `q` are in hand, locked and counted as inactive; every other block is on the
list that its state names and is counted there. -/
structure Accounts (s : InactiveSys) (q : List ℕ) : Prop where
  lock : ∀ d, (s.gpa d).lock = true ↔ d ∈ q
  stray : s.stray = false
  nodup : q.Nodup
  hand : ∀ p ∈ q, (s.gpa p).list = none ∧ (s.gpa p).rState ≠ .init
  listed : ∀ p, (s.gpa p).list ≠ none → (s.gpa p).Placed
  inactive : ∀ c d, d ∈ s.inactive c ↔ (s.gpa d).list = some (.inactive c)
  inactiveNodup : ∀ c, (s.inactive c).Nodup
  apart : ∀ p, (p ∈ q ∨ (s.gpa p).list ≠ none) → p + s.numSubblock p ≤ s.numDescs ∧
    ∀ d, s.InBlock p d → d ≠ p → d ∉ q ∧ (s.gpa d).list = none
  balanced : ∀ k, s.pageLen k = tally s.numDescs (fun d => (s.gpa d).pages s.sbPages k) +
    if k = .inactive then (q.map s.blockSize).sum else 0

/-- Every lock was released, none twice; every one of `heads` is on the list that its state names
or remote; and the page counts agree with the lists. -/
structure UpdateOk (t : InactiveSys) (heads : List ℕ) : Prop where
  lock : ∀ d, (t.gpa d).lock = false
  stray : t.stray = false
  placed : ∀ p ∈ heads, (t.gpa p).Placed
  balanced : ∀ k, t.pageLen k = tally t.numDescs fun d => (t.gpa d).pages t.sbPages k

/-- The piece must be written back, and there is no remote page for it or a post fails. -/
def EvictFails : Prop :=
  s.checkNeedWriteback p = true ∧
    ((l.evict p).alloc = false ∨ ∃ i < s.numSubblock p, (l.evict p).fails i = true)

/-- The victim `v` in pieces, when its turn has come. -/
def pieces (v : ℕ) : InactiveSys × List ℕ :=
  let s := s.checkEagerWbr v
  if s.elsNeedReduce v then s.reduceBlock l v else (s, [v])

/-- No piece of the victim fails. -/
def Writable (v : ℕ) : Prop := ∀ p ∈ (s.pieces l v).2, ¬ (s.pieces l v).1.EvictFails l p

/-- `t` differs from `s` in the descriptors of `P` at most, and in the page counts. -/
structure Only (P : ℕ → Prop) (s t : InactiveSys) : Prop where
  config : t.config = s.config
  sbPages : t.sbPages = s.sbPages
  numDescs : t.numDescs = s.numDescs
  inactive : t.inactive = s.inactive
  gpa : ∀ d, ¬ P d → t.gpa d = s.gpa d

variable {s l p} {t u : InactiveSys} {q : List ℕ} {P Q : ℕ → Prop}

theorem Only.refl (s : InactiveSys) : Only P s s := ⟨rfl, rfl, rfl, rfl, fun _ _ => rfl⟩

theorem Only.trans (h : Only P s t) (h' : Only P t u) : Only P s u :=
  ⟨h'.config.trans h.config, h'.sbPages.trans h.sbPages, h'.numDescs.trans h.numDescs,
    h'.inactive.trans h.inactive, fun d hd => (h'.gpa d hd).trans (h.gpa d hd)⟩

theorem Only.mono (h : Only P s t) (hPQ : ∀ d, P d → Q d) : Only Q s t :=
  ⟨h.config, h.sbPages, h.numDescs, h.inactive, fun d hd => h.gpa d fun hp => hd (hPQ d hp)⟩

/-- A block that lies outside of what has changed. -/
theorem numSubblock_of_only (h : Only P s t) (hp : ¬ P p) :
    t.numSubblock p = s.numSubblock p := by
  rw [numSubblock, numSubblock, h.gpa p hp]

theorem blockSize_of_only (h : Only P s t) (hp : ¬ P p) : t.blockSize p = s.blockSize p := by
  rw [blockSize, blockSize, h.gpa p hp, h.sbPages]

theorem inBlock_self : s.InBlock p p :=
  ⟨Nat.le_refl p, Nat.lt_add_of_pos_right (Nat.two_pow_pos _)⟩

/-! ## The operations -/

theorem gpa_setGpa_of_ne {g : LruGpa} {d : ℕ} (hd : d ≠ p) : (s.setGpa p g).gpa d = s.gpa d :=
  Function.update_of_ne hd ..

@[simp] theorem gpa_setGpa_self {g : LruGpa} : (s.setGpa p g).gpa p = g := Function.update_self ..

theorem only_setGpa (g : LruGpa) (hp : P p) : Only P s (s.setGpa p g) :=
  ⟨rfl, rfl, rfl, rfl, fun _ hd => gpa_setGpa_of_ne fun he => hd (he ▸ hp)⟩

theorem only_mapBlock (f : LruGpa → LruGpa) (hP : ∀ d, s.InBlock p d → P d) :
    Only P s (s.mapBlock p f) :=
  ⟨rfl, rfl, rfl, rfl, fun d hd => if_neg fun hin => hd (hP d hin)⟩

/-- `t` differs from `s` in the block of `p` at most, and there only in flags and requests. -/
structure Quiet (s t : InactiveSys) (p : ℕ) : Prop where
  only : Only (s.InBlock p) s t
  same : ∀ d, (t.gpa d).descOrder = (s.gpa d).descOrder ∧ (t.gpa d).list = (s.gpa d).list ∧
    (t.gpa d).lock = (s.gpa d).lock ∧ (t.gpa d).rState = (s.gpa d).rState
  pageLen : t.pageLen = s.pageLen
  stray : t.stray = s.stray

theorem numSubblock_of_descOrder (h : (t.gpa p).descOrder = (s.gpa p).descOrder) :
    t.numSubblock p = s.numSubblock p := by
  rw [numSubblock, numSubblock, h]

theorem Quiet.inBlock (h : Quiet s t p) (d : ℕ) : t.InBlock p d ↔ s.InBlock p d := by
  rw [InBlock, InBlock, numSubblock_of_descOrder (h.same p).1]

theorem Quiet.refl (s : InactiveSys) (p : ℕ) : Quiet s s p :=
  ⟨Only.refl s, fun _ => ⟨rfl, rfl, rfl, rfl⟩, rfl, rfl⟩

theorem Quiet.trans (h : Quiet s t p) (h' : Quiet t u p) : Quiet s u p := by
  refine ⟨h.only.trans (h'.only.mono fun d => (h.inBlock d).mp), fun d => ?_,
    h'.pageLen.trans h.pageLen, h'.stray.trans h.stray⟩
  obtain ⟨ho, hl, hk, hr⟩ := h.same d
  obtain ⟨ho', hl', hk', hr'⟩ := h'.same d
  exact ⟨ho'.trans ho, hl'.trans hl, hk'.trans hk, hr'.trans hr⟩

/-- A change of the flags of the head. -/
theorem quiet_setGpa {g : LruGpa} (hg : g.descOrder = (s.gpa p).descOrder ∧
    g.list = (s.gpa p).list ∧ g.lock = (s.gpa p).lock ∧ g.rState = (s.gpa p).rState) :
    Quiet s (s.setGpa p g) p := by
  refine ⟨only_setGpa g inBlock_self, fun d => ?_, rfl, rfl⟩
  by_cases hd : d = p
  · subst hd
    rwa [gpa_setGpa_self]
  · rw [gpa_setGpa_of_ne hd]
    exact ⟨rfl, rfl, rfl, rfl⟩

/-- A change of the requests of a block. -/
theorem quiet_mapBlock {f : LruGpa → LruGpa} (hf : ∀ g, (f g).descOrder = g.descOrder ∧
    (f g).list = g.list ∧ (f g).lock = g.lock ∧ (f g).rState = g.rState) :
    Quiet s (s.mapBlock p f) p := by
  refine ⟨only_mapBlock f fun d => id, fun d => ?_, rfl, rfl⟩
  simp only [mapBlock]
  by_cases hd : p ≤ d ∧ d < p + s.numSubblock p
  · simpa only [if_pos hd] using hf (s.gpa d)
  · simp only [if_neg hd, and_self]

theorem quiet_checkEagerWbr (s : InactiveSys) (p : ℕ) : Quiet s (s.checkEagerWbr p) p := by
  unfold checkEagerWbr
  by_cases hw : (s.gpa p).flags .eagerWbr = true
  · rw [if_pos hw]
    exact (quiet_mapBlock (f := LruGpa.clearW) fun _ => ⟨rfl, rfl, rfl, rfl⟩).trans
      (quiet_setGpa ⟨rfl, rfl, rfl, rfl⟩)
  · rw [if_neg hw]
    exact Quiet.refl s p

theorem quiet_clearBlockW (s : InactiveSys) (p : ℕ) : Quiet s (s.clearBlockW p) p :=
  (quiet_checkEagerWbr s p).trans
    ((quiet_mapBlock (f := LruGpa.clearW) fun _ => ⟨rfl, rfl, rfl, rfl⟩).trans
      (quiet_setGpa ⟨rfl, rfl, rfl, rfl⟩))

theorem quiet_clearDirty (s : InactiveSys) (p : ℕ) : Quiet s (s.clearDirty p) p := by
  unfold clearDirty
  split
  · exact Quiet.refl s p
  · exact quiet_setGpa ⟨rfl, rfl, rfl, rfl⟩

/-! ## The eviction of a piece -/

/-- The piece `p` has left the hands for the writeback list or for remote memory. -/
structure Settles (s t : InactiveSys) (p : ℕ) : Prop where
  only : Only (s.InBlock p) s t
  descOrder : ∀ d, (t.gpa d).descOrder = (s.gpa d).descOrder
  rest : ∀ d, d ≠ p → (t.gpa d).list = (s.gpa d).list ∧ (t.gpa d).lock = (s.gpa d).lock
  stray : (s.gpa p).lock = true → t.stray = s.stray
  lock : (t.gpa p).lock = false
  placed : (t.gpa p).Placed
  list : ∀ c, (t.gpa p).list ≠ some (.inactive c)
  pageLen : ∀ k, t.pageLen k = s.pageLen k + (t.gpa p).pages s.sbPages k -
    if k = .inactive then s.blockSize p else 0

/-- The blocks of two heads have no descriptor in common. -/
theorem Accounts.disjoint (h : s.Accounts q) {a b : ℕ} (ha : a ∈ q ∨ (s.gpa a).list ≠ none)
    (hb : b ∈ q ∨ (s.gpa b).list ≠ none) (hab : a ≠ b) {d : ℕ} (hda : s.InBlock a d) :
    ¬ s.InBlock b d := by
  intro hdb
  rcases Nat.lt_or_gt_of_ne hab with hlt | hlt
  · have hin := (h.apart a ha).2 b ⟨Nat.le_of_lt hlt, Nat.lt_of_le_of_lt hdb.1 hda.2⟩ hab.symm
    exact hb.elim hin.1 fun hne => hne hin.2
  · have hin := (h.apart b hb).2 a ⟨Nat.le_of_lt hlt, Nat.lt_of_le_of_lt hda.1 hdb.2⟩ hab
    exact ha.elim hin.1 fun hne => hne hin.2

theorem accounts_of_settles (h : s.Accounts (p :: q)) (ht : Settles s t p) : t.Accounts q := by
  obtain ⟨hnotin, hnodup⟩ := List.nodup_cons.mp h.nodup
  have hne : ∀ d ∈ q, d ≠ p := fun d hd he => hnotin (he ▸ hd)
  have hlock : (s.gpa p).lock = true := (h.lock p).mpr List.mem_cons_self
  have hhand := h.hand p List.mem_cons_self
  -- another head lies outside of the block
  have hout : ∀ d, d ≠ p → (d ∈ q ∨ (s.gpa d).list ≠ none) → t.gpa d = s.gpa d := by
    intro d hd hhead
    refine ht.only.gpa d ?_
    exact h.disjoint (hhead.imp_left (List.mem_cons_of_mem p)) (.inl List.mem_cons_self) hd
      inBlock_self
  have hnum : ∀ d, t.numSubblock d = s.numSubblock d := fun d =>
    numSubblock_of_descOrder (ht.descOrder d)
  refine ⟨fun d => ?_, (ht.stray hlock).trans h.stray, hnodup, fun d hd => ?_, fun d hd => ?_,
    fun c d => ?_, fun c => ?_, fun d hd => ?_, fun k => ?_⟩
  · by_cases hd : d = p
    · subst hd
      simp [ht.lock, hnotin]
    · rw [(ht.rest d hd).2, h.lock d, List.mem_cons]
      simp [hd]
  · rw [hout d (hne d hd) (.inl hd)]
    exact h.hand d (List.mem_cons_of_mem p hd)
  · by_cases hdp : d = p
    · exact hdp ▸ ht.placed
    · rw [(ht.rest d hdp).1] at hd
      rw [hout d hdp (.inr hd)]
      exact h.listed d hd
  · rw [ht.only.inactive, h.inactive c d]
    by_cases hdp : d = p
    · subst hdp
      simp [hhand.1, ht.list c]
    · rw [(ht.rest d hdp).1]
  · rw [ht.only.inactive]
    exact h.inactiveNodup c
  · rw [hnum d, ht.only.numDescs]
    have hhead : d ∈ p :: q ∨ (s.gpa d).list ≠ none := by
      by_cases hdp : d = p
      · exact .inl (hdp ▸ List.mem_cons_self)
      · rw [(ht.rest d hdp).1] at hd
        exact hd.imp_left (List.mem_cons_of_mem p)
    obtain ⟨hle, hin⟩ := h.apart d hhead
    refine ⟨hle, fun e he hed => ?_⟩
    rw [InBlock, hnum d] at he
    obtain ⟨hnot, hnone⟩ := hin e he hed
    have hep : e ≠ p := fun heq => hnot (heq ▸ List.mem_cons_self)
    exact ⟨fun hm => hnot (List.mem_cons_of_mem p hm), (ht.rest e hep).1.trans hnone⟩
  · have hp : p < s.numDescs :=
      Nat.lt_of_lt_of_le inBlock_self.2 (h.apart p (.inl List.mem_cons_self)).1
    have hsum : q.map t.blockSize = q.map s.blockSize :=
      List.map_congr_left fun d hd => by rw [blockSize, blockSize, ht.descOrder, ht.only.sbPages]
    have hpages : ∀ d, d ≠ p → (t.gpa d).pages t.sbPages k = (s.gpa d).pages s.sbPages k := by
      intro d hd
      rw [LruGpa.pages, LruGpa.pages, (ht.rest d hd).1, ht.descOrder, ht.only.sbPages]
    have hzero : (s.gpa p).pages s.sbPages k = 0 := by
      simp [LruGpa.pages, hhand.1]
    rw [ht.pageLen, h.balanced, ht.only.numDescs, hsum,
      tally_change hp fun d _ hd => hpages d hd, hzero, ht.only.sbPages]
    by_cases hk : k = .inactive
    · simp only [if_pos hk, List.map_cons, List.sum_cons]
      ring
    · simp only [if_neg hk]
      ring

theorem settles_unlock (hq : Quiet s t p) (hstray : u.stray = s.stray)
    (hu : Only (t.InBlock p) t u)
    (hrest : ∀ d, (u.gpa d).descOrder = (t.gpa d).descOrder ∧ (u.gpa d).lock = (t.gpa d).lock ∧
      (d ≠ p → (u.gpa d).list = (t.gpa d).list))
    (hplaced : (u.gpa p).Placed) (hlist : ∀ c, (u.gpa p).list ≠ some (.inactive c))
    (hlen : ∀ k, u.pageLen k = s.pageLen k + (u.gpa p).pages s.sbPages k -
      if k = .inactive then s.blockSize p else 0) : Settles s (u.unlock p) p := by
  have hp : (u.unlock p).gpa p = { u.gpa p with lock := false } := gpa_setGpa_self
  have hd : ∀ d, d ≠ p → (u.unlock p).gpa d = u.gpa d := fun d hd => gpa_setGpa_of_ne hd
  refine ⟨hq.only.trans ((hu.mono fun d => (hq.inBlock d).mp).trans
    ⟨rfl, rfl, rfl, rfl, fun d hd' => hd d fun he => hd' (he ▸ inBlock_self)⟩), fun d => ?_,
    fun d hne => ?_, fun hlock => ?_, by rw [hp], ?_, fun c => ?_, fun k => ?_⟩
  · by_cases hdp : d = p
    · subst hdp
      rw [hp]
      exact (hrest d).1.trans (hq.same d).1
    · rw [hd d hdp]
      exact (hrest d).1.trans (hq.same d).1
  · rw [hd d hne]
    exact ⟨((hrest d).2.2 hne).trans (hq.same d).2.1, (hrest d).2.1.trans (hq.same d).2.2.1⟩
  · show (u.stray || !(u.gpa p).lock) = s.stray
    rw [(hrest p).2.1, (hq.same p).2.2.1, hlock, hstray]
    simp
  · rw [hp]
    exact hplaced
  · rw [hp]
    exact hlist c
  · rw [hp]
    exact hlen k

theorem gpa_mapBlock_self {f : LruGpa → LruGpa} : (s.mapBlock p f).gpa p = f (s.gpa p) :=
  if_pos inBlock_self

/-- A field that `f` keeps is kept in the block. -/
theorem gpa_mapBlock {α : Type*} (f : LruGpa → LruGpa) (field : LruGpa → α)
    (hf : ∀ g, field (f g) = field g) (d : ℕ) :
    field ((s.mapBlock p f).gpa d) = field (s.gpa d) := by
  simp only [mapBlock]
  by_cases hd : p ≤ d ∧ d < p + s.numSubblock p
  · rw [if_pos hd, hf]
  · rw [if_neg hd]

theorem quiet_prepared (s : InactiveSys) (p : ℕ) :
    Quiet s ((s.clearDirty p).clearBlockW p) p :=
  (quiet_clearDirty s p).trans (quiet_clearBlockW _ p)

/-- A piece that was posted. -/
theorem settles_pushWritebackRequest (cpu : ℕ) (hq : Quiet s t p) :
    Settles s ((t.pushWritebackRequest p cpu).unlock p) p := by
  obtain ⟨u, hu⟩ : ∃ u, u = t.mapBlock p LruGpa.posted := ⟨_, rfl⟩
  have hup : u.gpa p = (t.gpa p).posted := hu ▸ gpa_mapBlock_self
  have hself : (t.pushWritebackRequest p cpu).gpa p =
      { u.gpa p with list := some (.writeback cpu) } := by
    rw [hu]
    exact gpa_setGpa_self
  have hrest : ∀ d, d ≠ p → (t.pushWritebackRequest p cpu).gpa d = u.gpa d := by
    rw [hu]
    exact fun d hd => gpa_setGpa_of_ne hd
  refine settles_unlock (u := t.pushWritebackRequest p cpu) hq hq.stray ?_ (fun d => ?_) ?_
    (fun c => ?_) fun k => ?_
  · exact (only_mapBlock _ fun d => id).trans (only_setGpa _ inBlock_self)
  · by_cases hd : d = p
    · subst hd
      rw [hself, hup]
      exact ⟨rfl, rfl, fun hne => absurd rfl hne⟩
    · rw [hrest d hd, hu]
      exact ⟨gpa_mapBlock .posted LruGpa.descOrder (fun _ => rfl) d,
        gpa_mapBlock .posted LruGpa.lock (fun _ => rfl) d,
        fun _ => gpa_mapBlock .posted LruGpa.list (fun _ => rfl) d⟩
  · rw [hself, hup]
    exact rfl
  · rw [hself]
    exact nofun
  · have hlen : (t.pushWritebackRequest p cpu).pageLen k = s.pageLen k := congrFun hq.pageLen k
    rw [hlen, hself, hup, LruGpa.pages, blockSize, ← (hq.same p).1]
    by_cases hk : k = .inactive
    · simp [LruList.countedBy, LruGpa.posted, hk]
    · simp [LruList.countedBy, hk]

/-- A piece that its remote pages hold. -/
theorem settles_setGpaRemote (hlist : (s.gpa p).list = none) (hq : Quiet s t p)
    (hu : u = t.mapBlock p LruGpa.setGpaRemote) :
    Settles s ((u.addPageLen .inactive (-u.blockSize p)).unlock p) p := by
  have hup : u.gpa p = (t.gpa p).setGpaRemote := hu ▸ gpa_mapBlock_self
  have hnone : (t.gpa p).list = none := (hq.same p).2.1.trans hlist
  have hsize : u.blockSize p = s.blockSize p := by
    rw [blockSize, blockSize, hup, hu, ← hq.only.sbPages, ← (hq.same p).1]
    rfl
  refine settles_unlock (u := u.addPageLen .inactive (-u.blockSize p)) hq ?_ ?_ (fun d => ?_) ?_
    (fun c => ?_) fun k => ?_
  · rw [hu]
    exact hq.stray
  · rw [hu]
    exact ⟨rfl, rfl, rfl, rfl, (only_mapBlock LruGpa.setGpaRemote fun d => id).gpa⟩
  · show (u.gpa d).descOrder = _ ∧ (u.gpa d).lock = _ ∧ (d ≠ p → (u.gpa d).list = _)
    rw [hu]
    exact ⟨gpa_mapBlock .setGpaRemote LruGpa.descOrder (fun _ => rfl) d,
      gpa_mapBlock .setGpaRemote LruGpa.lock (fun _ => rfl) d,
      fun _ => gpa_mapBlock .setGpaRemote LruGpa.list (fun _ => rfl) d⟩
  · show (u.gpa p).Placed
    rw [hup, LruGpa.Placed]
    simp [LruGpa.setGpaRemote, hnone]
  · show (u.gpa p).list ≠ _
    rw [hup]
    simp [LruGpa.setGpaRemote, hnone]
  · have hlen : u.pageLen = s.pageLen := hu ▸ hq.pageLen
    have hzero : (u.gpa p).pages s.sbPages k = 0 := by
      rw [hup]
      simp [LruGpa.pages, LruGpa.setGpaRemote, hnone]
    show Function.update u.pageLen .inactive _ k = s.pageLen k + (u.gpa p).pages s.sbPages k - _
    rw [hzero, hsize, hlen]
    by_cases hk : k = .inactive
    · subst hk
      simp [sub_eq_add_neg]
    · simp [hk]

/-- A piece whose eviction does not fail leaves the hands. -/
theorem settles_writeback (cpu : ℕ) (hlist : (s.gpa p).list = none)
    (hf : ¬ s.EvictFails l p) : ∃ t r, s.empWritebackBlock l p cpu = some (t, r) ∧ r ≠ .error ∧
      Settles s (t.unlock p) p := by
  by_cases hneed : s.checkNeedWriteback p = true
  · have hq := quiet_prepared s p
    have hnum := numSubblock_of_descOrder (hq.same p).1
    have hok : (l.evict p).alloc = true ∧ ∀ i < s.numSubblock p, (l.evict p).fails i = false := by
      simpa [EvictFails, hneed] using hf
    have hfind : (List.range (s.numSubblock p)).find? (l.evict p).fails = none := by
      rw [List.find?_eq_none]
      intro i hi
      simp [hok.2 i (List.mem_range.mp hi)]
    refine ⟨_, .posted, ?_, nofun, settles_pushWritebackRequest cpu hq⟩
    simp only [empWritebackBlock, hneed, if_true, evictBlock, hok.1, hnum, hfind, Option.map_some]
  · refine ⟨_, .clean, ?_, nofun, settles_setGpaRemote hlist (quiet_clearDirty s p) rfl⟩
    simp only [empWritebackBlock, hneed]
    rfl

/-- A piece whose eviction fails, if that comes to an end, is on no list and not remote. -/
theorem fails_writeback (cpu : ℕ) (hlist : (s.gpa p).list = none)
    (hstate : (s.gpa p).rState ≠ .init) (hf : s.EvictFails l p) :
    s.empWritebackBlock l p cpu = none ∨
      ∃ t, s.empWritebackBlock l p cpu = some (t, .error) ∧ ¬ (t.gpa p).Placed := by
  have hq := quiet_prepared s p
  have hnum := numSubblock_of_descOrder (hq.same p).1
  have hlost : ∀ g : LruGpa, g.list = none → g.rState ≠ .init → ¬ g.Placed := by
    intro g hl hr hplaced
    simp only [LruGpa.Placed, hl] at hplaced
    exact hr hplaced.1
  have hnone : (((s.clearDirty p).clearBlockW p).gpa p).list = none := (hq.same p).2.1.trans hlist
  have hheld : (((s.clearDirty p).clearBlockW p).gpa p).rState ≠ .init := by
    rwa [(hq.same p).2.2.2]
  obtain ⟨t, ht⟩ : ∃ t, t = (s.clearDirty p).clearBlockW p := ⟨_, rfl⟩
  rw [← ht] at hnum hnone hheld
  have hfree : (t.freeRemotePages p).gpa p =
      { t.gpa p with remotePageFree := !t.config.remoteReuse } := gpa_mapBlock_self
  simp only [empWritebackBlock, hf.1, if_true, evictBlock, ← ht]
  cases halloc : (l.evict p).alloc with
  | false => exact .inr ⟨t, rfl, hlost _ hnone hheld⟩
  | true =>
      have hsome : ((List.range (t.numSubblock p)).find? (l.evict p).fails).isSome = true := by
        obtain ⟨i, hi, hfi⟩ : ∃ i < s.numSubblock p, (l.evict p).fails i = true := by
          simpa [halloc] using hf.2
        rw [List.find?_isSome]
        exact ⟨i, List.mem_range.mpr (hnum ▸ hi), hfi⟩
      obtain ⟨i, hi⟩ := Option.isSome_iff_exists.mp hsome
      rw [hi]
      match i with
      | 0 =>
          refine .inr ⟨t.freeRemotePages p, rfl, hlost _ ?_ ?_⟩
          · rw [hfree]
            exact hnone
          · rw [hfree]
            exact hheld
      | 1 => exact .inl rfl
      | i + 2 =>
          refine .inr ⟨_, rfl, hlost _ ?_ ?_⟩
          · simp only [Nat.le_refl, true_and, Nat.lt_add_of_pos_right (Nat.succ_pos _), if_true]
            rw [hfree]
            exact hnone
          · simp only [Nat.le_refl, true_and, Nat.lt_add_of_pos_right (Nat.succ_pos _), if_true]
            exact nofun

/-- The outcome of `evict_block` is the one that its requests have. -/
theorem evictBlock_requests {b : EvictedBlock} {place : EvictPlace} (hb : b.Idle)
    (hn : place.numSubblock = s.numSubblock p) (cpu : ℕ) :
    match s.evictBlock l p cpu with
    | none => ∀ fuel, b.evictBlock place (l.evict p) fuel = none
    | some (_, true) => ∀ fuel, ∃ t, b.evictBlock place (l.evict p) fuel = some (t, some 0)
    | some (_, false) => ∃ fuel t, b.evictBlock place (l.evict p) fuel = some (t, none) := by
  have hnum : (s.clearBlockW p).numSubblock p = place.numSubblock :=
    (numSubblock_of_descOrder ((quiet_clearBlockW s p).same p).1).trans hn.symm
  simp only [evictBlock, hnum]
  cases halloc : (l.evict p).alloc with
  | false =>
      refine ⟨0, b.clearBlockW, ?_⟩
      simp only [EvictedBlock.evictBlock, halloc, Bool.false_eq_true, if_false]
      rw [EvictedBlock.evictError, show b.clearBlockW.headWr = none from hb.headWr]
      rfl
  | true =>
      have hcases := EvictedBlock.evictBlock_cases hb (by rw [hn]; exact Nat.two_pow_pos _)
        halloc
      revert hcases
      cases (List.range place.numSubblock).find? (l.evict p).fails with
      | none => exact id
      | some i =>
          rcases i with - | - | i
          · exact id
          · exact id
          · exact id

/-! ## What decides about a victim lies in its block -/

/-- The states agree on the descriptors from `lo` to `hi`. -/
structure Agree (s t : InactiveSys) (lo hi : ℕ) : Prop where
  config : t.config = s.config
  gpa : ∀ d, lo ≤ d → d < hi → t.gpa d = s.gpa d

theorem agree_of_only (h : Only P s t) (hP : ∀ d, s.InBlock p d → ¬ P d) :
    Agree s t p (p + s.numSubblock p) :=
  ⟨h.config, fun d hle hlt => h.gpa d (hP d ⟨hle, hlt⟩)⟩

section Agree

variable {lo hi : ℕ}

theorem Agree.mono {lo' hi' : ℕ} (h : Agree s t lo hi) (hlo : lo ≤ lo') (hhi : hi' ≤ hi) :
    Agree s t lo' hi' :=
  ⟨h.config, fun d hle hlt => h.gpa d (Nat.le_trans hlo hle) (Nat.lt_of_lt_of_le hlt hhi)⟩

theorem Agree.head (h : Agree s t p (p + s.numSubblock p)) : t.gpa p = s.gpa p :=
  h.gpa p (Nat.le_refl p) inBlock_self.2

theorem Agree.numSubblock_eq (h : Agree s t p (p + s.numSubblock p)) :
    t.numSubblock p = s.numSubblock p := by
  rw [numSubblock, numSubblock, h.head]

/-- A subblock of the block. -/
theorem Agree.member (h : Agree s t p (p + s.numSubblock p)) {i : ℕ} (hi : i < s.numSubblock p) :
    t.gpa (p + i) = s.gpa (p + i) :=
  h.gpa (p + i) (Nat.le_add_right p i) (Nat.add_lt_add_left hi p)

theorem all_range_congr {f g : ℕ → Bool} {n : ℕ} (h : ∀ i < n, f i = g i) :
    (List.range n).all f = (List.range n).all g := by
  rw [Bool.eq_iff_iff, List.all_eq_true, List.all_eq_true]
  exact forall₂_congr fun i hi => by rw [h i (List.mem_range.mp hi)]

theorem Agree.checkNeedWriteback_eq (h : Agree s t p (p + s.numSubblock p)) :
    t.checkNeedWriteback p = s.checkNeedWriteback p := by
  have hall : (List.range (s.numSubblock p)).all (fun i => !(t.gpa (p + i)).remotePageFree) =
      (List.range (s.numSubblock p)).all fun i => !(s.gpa (p + i)).remotePageFree :=
    all_range_congr fun i hi => by rw [h.member hi]
  unfold checkNeedWriteback isBlockRemotePageValid
  rw [h.config, h.head, h.numSubblock_eq, hall]

theorem Agree.evictFails_iff (h : Agree s t p (p + s.numSubblock p)) :
    t.EvictFails l p ↔ s.EvictFails l p := by
  rw [EvictFails, EvictFails, h.checkNeedWriteback_eq, h.numSubblock_eq]

theorem Agree.setGpa (h : Agree s t lo hi) (g : LruGpa) :
    Agree (s.setGpa p g) (t.setGpa p g) lo hi := by
  refine ⟨h.config, fun d hle hlt => ?_⟩
  by_cases hd : d = p
  · rw [hd, gpa_setGpa_self, gpa_setGpa_self]
  · rw [gpa_setGpa_of_ne hd, gpa_setGpa_of_ne hd, h.gpa d hle hlt]

theorem Agree.mapBlock (h : Agree s t p (p + s.numSubblock p)) (f : LruGpa → LruGpa) :
    Agree (s.mapBlock p f) (t.mapBlock p f) p (p + s.numSubblock p) := by
  refine ⟨h.config, fun d hle hlt => ?_⟩
  simp only [InactiveSys.mapBlock, h.numSubblock_eq, h.gpa d hle hlt]

theorem Agree.checkEagerWbr (h : Agree s t p (p + s.numSubblock p)) :
    Agree (s.checkEagerWbr p) (t.checkEagerWbr p) p (p + s.numSubblock p) := by
  unfold InactiveSys.checkEagerWbr
  rw [h.head]
  split
  · have hmap := h.mapBlock .clearW
    have hself : (t.mapBlock p .clearW).gpa p = (s.mapBlock p .clearW).gpa p :=
      hmap.gpa p (Nat.le_refl p) inBlock_self.2
    simp only [hself]
    exact hmap.setGpa _
  · exact h

theorem Agree.elsNeedReduce_eq (h : Agree s t p (p + s.numSubblock p)) :
    t.elsNeedReduce p = s.elsNeedReduce p := by
  have hcount : t.refCount p = s.refCount p := by
    rw [refCount, refCount, h.numSubblock_eq]
    refine congrArg List.length (List.filter_congr fun i hi => ?_)
    rw [h.member (List.mem_range.mp hi)]
  rw [elsNeedReduce, elsNeedReduce, hcount, h.numSubblock_eq, h.head, h.config]

theorem Agree.reduceBlock (h : Agree s t p (p + s.numSubblock p)) :
    (t.reduceBlock l p).2 = (s.reduceBlock l p).2 ∧
      Agree (s.reduceBlock l p).1 (t.reduceBlock l p).1 p (p + s.numSubblock p) := by
  have hpiece : t.pieceHead p = s.pieceHead p := by
    funext g
    rw [pieceHead, pieceHead, h.head]
  simp only [InactiveSys.reduceBlock, elsTryreduceComplete, elsReduce, h.numSubblock_eq, h.head,
    hpiece]
  split
  · refine ⟨rfl, ?_⟩
    simp only [Option.some_or, Option.getD_some]
    exact h.mapBlock _
  · split
    · exact ⟨rfl, h⟩
    · refine ⟨rfl, ?_⟩
      have hmap := h.mapBlock fun g => { g with descOrder := (s.gpa p).descOrder - 1 }
      have hhalf : p + s.numSubblock p / 2 < p + s.numSubblock p :=
        Nat.add_lt_add_left (Nat.div_lt_self (Nat.two_pow_pos _) (Nat.lt_succ_self 1)) p
      have hself := hmap.gpa (p + s.numSubblock p / 2) (Nat.le_add_right ..) hhalf
      simp only [Option.none_or, Option.getD_some, hself]
      exact hmap.setGpa _

theorem Agree.pieces (h : Agree s t p (p + s.numSubblock p)) :
    (t.pieces l p).2 = (s.pieces l p).2 ∧
      Agree (s.pieces l p).1 (t.pieces l p).1 p (p + s.numSubblock p) := by
  have hc := h.checkEagerWbr
  have hnum : (s.checkEagerWbr p).numSubblock p = s.numSubblock p :=
    numSubblock_of_descOrder ((quiet_checkEagerWbr s p).same p).1
  rw [← hnum] at hc
  simp only [InactiveSys.pieces]
  rw [hc.elsNeedReduce_eq]
  split
  · rw [← hnum]
    exact hc.reduceBlock
  · rw [← hnum]
    exact ⟨rfl, hc⟩

end Agree

/-! ## The pieces of a victim -/

/-- `hs` are the heads of the pieces of the block of `v`. -/
structure Divides (s t : InactiveSys) (v : ℕ) (hs : List ℕ) : Prop where
  only : Only (s.InBlock v) s t
  stray : t.stray = s.stray
  pageLen : t.pageLen = s.pageLen
  nodup : hs.Nodup
  mem : v ∈ hs
  head : ∀ p ∈ hs, (t.gpa p).lock = true ∧ (t.gpa p).rState = (s.gpa v).rState
  inside : ∀ p ∈ hs, ∀ d, t.InBlock p d → s.InBlock v d ∧ (d ≠ p → d ∉ hs)
  rest : ∀ d, (t.gpa d).list = (s.gpa d).list ∧ (d ∉ hs → (t.gpa d).lock = (s.gpa d).lock)
  size : (hs.map t.blockSize).sum = s.blockSize v

theorem accounts_of_divides {v : ℕ} {hs : List ℕ} (h : s.Accounts (v :: q))
    (hd : Divides s t v hs) : t.Accounts (hs ++ q) := by
  obtain ⟨hnotin, hnodup⟩ := List.nodup_cons.mp h.nodup
  have hv : v ∈ v :: q := List.mem_cons_self
  have hin : ∀ p ∈ hs, s.InBlock v p := fun p hp => (hd.inside p hp p inBlock_self).1
  have hdisj : ∀ p ∈ hs, p ∉ q := by
    intro p hp hpq
    by_cases hpv : p = v
    · exact hnotin (hpv ▸ hpq)
    · exact ((h.apart v (.inl hv)).2 p (hin p hp) hpv).1 (List.mem_cons_of_mem v hpq)
  -- a descriptor of the block is on no list
  have hnone : ∀ d, s.InBlock v d → (s.gpa d).list = none := by
    intro d hdv
    by_cases hne : d = v
    · exact hne ▸ (h.hand v hv).1
    · exact ((h.apart v (.inl hv)).2 d hdv hne).2
  -- the other heads lie outside of the block
  have hout : ∀ p, p ∉ hs → (p ∈ q ∨ (s.gpa p).list ≠ none) → ∀ d, s.InBlock p d →
      ¬ s.InBlock v d := by
    intro p hp hhead d hpd
    have hne : p ≠ v := fun he => hp (he ▸ hd.mem)
    exact h.disjoint (hhead.imp_left (List.mem_cons_of_mem v)) (.inl hv) hne hpd
  refine ⟨fun d => ?_, hd.stray.trans h.stray,
    List.nodup_append.mpr ⟨hd.nodup, hnodup, fun a ha b hb hab => hdisj a ha (hab ▸ hb)⟩,
    fun p hp => ?_, fun p hp => ?_, fun c d => ?_, fun c => ?_, fun p hp => ?_, fun k => ?_⟩
  · rw [List.mem_append]
    by_cases hdh : d ∈ hs
    · simp [hdh, (hd.head d hdh).1]
    · rw [(hd.rest d).2 hdh, h.lock d, List.mem_cons]
      have hne : d ≠ v := fun he => hdh (he ▸ hd.mem)
      simp [hdh, hne]
  · rw [(hd.rest p).1]
    rcases List.mem_append.mp hp with hph | hpq
    · rw [(hd.head p hph).2]
      exact ⟨hnone p (hin p hph), (h.hand v hv).2⟩
    · have hnot : p ∉ hs := fun hph => hdisj p hph hpq
      rw [hd.only.gpa p (hout p hnot (.inl hpq) p inBlock_self)]
      exact h.hand p (List.mem_cons_of_mem v hpq)
  · rw [(hd.rest p).1] at hp
    have hnot : ¬ s.InBlock v p := fun hvp => hp (hnone p hvp)
    rw [hd.only.gpa p hnot]
    exact h.listed p hp
  · rw [hd.only.inactive, (hd.rest d).1]
    exact h.inactive c d
  · rw [hd.only.inactive]
    exact h.inactiveNodup c
  · rw [hd.only.numDescs]
    by_cases hph : p ∈ hs
    · have hbound := (h.apart v (.inl hv)).1
      have hlast : s.InBlock v (p + t.numSubblock p - 1) := by
        have hpos : 0 < t.numSubblock p := Nat.two_pow_pos _
        exact (hd.inside p hph _ ⟨by omega, by omega⟩).1
      refine ⟨by have := hlast.2; omega, fun d hpd hdp => ?_⟩
      obtain ⟨hdv, hnot⟩ := hd.inside p hph d hpd
      rw [(hd.rest d).1]
      refine ⟨fun hm => ?_, hnone d hdv⟩
      rcases List.mem_append.mp hm with hdh | hdq
      · exact hnot hdp hdh
      · have hdh : d ∉ hs := hnot hdp
        exact hout d hdh (.inl hdq) d inBlock_self hdv
    · have hhead : p ∈ q ∨ (s.gpa p).list ≠ none := by
        rw [(hd.rest p).1, List.mem_append] at hp
        exact hp.imp_left fun hm => hm.resolve_left hph
      have hblock : t.numSubblock p = s.numSubblock p :=
        numSubblock_of_only hd.only (hout p hph hhead p inBlock_self)
      obtain ⟨hle, hap⟩ := h.apart p (hhead.imp_left (List.mem_cons_of_mem v))
      rw [hblock]
      refine ⟨hle, fun d hpd hdp => ?_⟩
      rw [InBlock, hblock] at hpd
      obtain ⟨hdq, hdl⟩ := hap d hpd hdp
      rw [(hd.rest d).1]
      refine ⟨fun hm => ?_, hdl⟩
      rcases List.mem_append.mp hm with hdh | hm
      · exact hout p hph hhead d hpd (hin d hdh)
      · exact hdq (List.mem_cons_of_mem v hm)
  · have hsizes : q.map t.blockSize = q.map s.blockSize := by
      refine List.map_congr_left fun p hp => blockSize_of_only hd.only ?_
      exact hout p (fun hph => hdisj p hph hp) (.inl hp) p inBlock_self
    have htally : tally t.numDescs (fun d => (t.gpa d).pages t.sbPages k) =
        tally s.numDescs fun d => (s.gpa d).pages s.sbPages k := by
      rw [hd.only.numDescs]
      refine tally_congr fun d _ => ?_
      by_cases hdv : s.InBlock v d
      · rw [LruGpa.pages, LruGpa.pages, (hd.rest d).1, hnone d hdv]
        rfl
      · rw [hd.only.gpa d hdv, hd.only.sbPages]
    rw [hd.pageLen, h.balanced k, htally, List.map_append, List.sum_append, hsizes, hd.size,
      List.map_cons, List.sum_cons]

/-- A block that stays whole. -/
theorem divides_of_quiet {v : ℕ} (hq : Quiet s t v) (hlock : (s.gpa v).lock = true) :
    Divides s t v [v] := by
  refine ⟨hq.only, hq.stray, hq.pageLen, List.nodup_singleton v, List.mem_singleton_self v, ?_, ?_,
    fun d => ⟨(hq.same d).2.1, fun _ => (hq.same d).2.2.1⟩, ?_⟩
  · intro p hp
    obtain rfl := List.mem_singleton.mp hp
    exact ⟨(hq.same p).2.2.1.trans hlock, (hq.same p).2.2.2⟩
  · intro p hp d hd
    obtain rfl := List.mem_singleton.mp hp
    exact ⟨(hq.inBlock d).mp hd, fun hne hm => hne (List.mem_singleton.mp hm)⟩
  · rw [List.map_singleton, List.sum_singleton, blockSize, blockSize, (hq.same v).1,
      hq.only.sbPages]

/-- `els_tryreduce_complete` that has got all locks. -/
theorem divides_complete {v : ℕ}
    (ht : t = s.mapBlock v fun g => { s.pieceHead v g with descOrder := 0 }) :
    Divides s t v ((List.range (s.numSubblock v)).map (v + ·)) := by
  have hmem : ∀ p, p ∈ (List.range (s.numSubblock v)).map (v + ·) ↔ s.InBlock v p := by
    intro p
    simp only [List.mem_map, List.mem_range, InBlock]
    refine ⟨?_, fun ⟨hle, hlt⟩ => ⟨p - v, by omega, by omega⟩⟩
    rintro ⟨i, hi, rfl⟩
    omega
  have hin : ∀ d, s.InBlock v d → t.gpa d = { s.pieceHead v (s.gpa d) with descOrder := 0 } :=
    fun d hd => ht ▸ if_pos hd
  have hout : ∀ d, ¬ s.InBlock v d → t.gpa d = s.gpa d := fun d hd => ht ▸ if_neg hd
  refine ⟨ht ▸ only_mapBlock _ fun d => id, by rw [ht]; rfl, by rw [ht]; rfl,
    List.nodup_range.map fun a b hab => Nat.add_left_cancel hab, (hmem v).mpr inBlock_self,
    fun p hp => ?_, fun p hp d hd => ?_, fun d => ?_, ?_⟩
  · rw [hin p ((hmem p).mp hp)]
    exact ⟨rfl, rfl⟩
  · have hone : t.numSubblock p = 1 := by
      rw [numSubblock, hin p ((hmem p).mp hp)]
      rfl
    rw [InBlock, hone] at hd
    obtain rfl : d = p := by omega
    exact ⟨(hmem d).mp hp, fun hne => absurd rfl hne⟩
  · by_cases hd : s.InBlock v d
    · rw [hin d hd]
      exact ⟨rfl, fun hnot => absurd ((hmem d).mpr hd) hnot⟩
    · rw [hout d hd]
      exact ⟨rfl, fun _ => rfl⟩
  · have hsize : ∀ p ∈ (List.range (s.numSubblock v)).map (v + ·), t.blockSize p = s.sbPages := by
      intro p hp
      rw [blockSize, hin p ((hmem p).mp hp), ht]
      show (s.sbPages : ℤ) * 2 ^ 0 = s.sbPages
      simp
    rw [List.map_congr_left hsize, List.map_const', List.sum_replicate, List.length_map,
      List.length_range, blockSize, numSubblock]
    simp [mul_comm]

/-- `els_reduce` that has got the lock of the buddy. -/
theorem divides_half {v half : ℕ} (hlock : (s.gpa v).lock = true)
    (horder : 0 < (s.gpa v).descOrder) (hhalf : half = s.numSubblock v / 2)
    (hu : u = s.mapBlock v fun g => { g with descOrder := (s.gpa v).descOrder - 1 })
    (ht : t = u.setGpa (v + half) (s.pieceHead v (u.gpa (v + half)))) :
    Divides s t v [v, v + half] := by
  -- the two halves
  have hnum : s.numSubblock v = half + half ∧ half = 2 ^ ((s.gpa v).descOrder - 1) := by
    obtain ⟨o, ho⟩ := Nat.exists_eq_succ_of_ne_zero (Nat.ne_of_gt horder)
    have hpow : s.numSubblock v = 2 ^ o * 2 := by
      rw [numSubblock, ho, Nat.pow_succ]
    rw [ho, Nat.succ_sub_one]
    omega
  have hpos : 0 < half := hnum.2 ▸ Nat.two_pow_pos _
  have hbuddy : s.InBlock v (v + half) := ⟨by omega, by omega⟩
  have hin : ∀ d, s.InBlock v d →
      u.gpa d = { s.gpa d with descOrder := (s.gpa v).descOrder - 1 } := fun d hd => hu ▸ if_pos hd
  have hout : ∀ d, ¬ s.InBlock v d → u.gpa d = s.gpa d := fun d hd => hu ▸ if_neg hd
  have hself : t.gpa (v + half) = s.pieceHead v (u.gpa (v + half)) := ht ▸ gpa_setGpa_self
  have hrest : ∀ d, d ≠ v + half → t.gpa d = u.gpa d := fun d hd => ht ▸ gpa_setGpa_of_ne hd
  have hv : t.gpa v = u.gpa v := hrest v (by omega)
  have hblock : ∀ p ∈ [v, v + half], t.numSubblock p = half := by
    intro p hp
    rcases List.mem_cons.mp hp with rfl | hp
    · rw [numSubblock, hv, hin p inBlock_self, hnum.2]
    · obtain rfl := List.mem_singleton.mp hp
      rw [numSubblock, hself, hin _ hbuddy, hnum.2]
      rfl
  refine ⟨?_, by rw [ht, hu]; rfl, by rw [ht, hu]; rfl, ?_, List.mem_cons_self, fun p hp => ?_,
    fun p hp d hd => ?_, fun d => ?_, ?_⟩
  · rw [ht, hu]
    exact (only_mapBlock _ fun d => id).trans (only_setGpa _ hbuddy)
  · rw [List.nodup_cons]
    exact ⟨fun hm => by have := List.mem_singleton.mp hm; omega, List.nodup_singleton _⟩
  · rcases List.mem_cons.mp hp with rfl | hp
    · rw [hv, hin p inBlock_self]
      exact ⟨hlock, rfl⟩
    · obtain rfl := List.mem_singleton.mp hp
      rw [hself]
      exact ⟨rfl, rfl⟩
  · rw [InBlock, hblock p hp] at hd
    simp only [List.mem_cons, List.not_mem_nil, or_false] at hp ⊢
    exact ⟨⟨by omega, by omega⟩, by omega⟩
  · by_cases hdb : d = v + half
    · subst hdb
      rw [hself, hin _ hbuddy]
      exact ⟨rfl, fun hnot => absurd (by simp) hnot⟩
    · rw [hrest d hdb]
      by_cases hd : s.InBlock v d
      · rw [hin d hd]
        exact ⟨rfl, fun _ => rfl⟩
      · rw [hout d hd]
        exact ⟨rfl, fun _ => rfl⟩
  · have hsize : ∀ p ∈ [v, v + half], t.blockSize p = s.sbPages * half := by
      intro p hp
      have hpages : t.sbPages = s.sbPages := by
        rw [ht, hu]
        rfl
      rw [blockSize, hpages, ← hblock p hp, numSubblock]
      norm_cast
    have htotal : s.blockSize v = s.sbPages * (half + half) := by
      rw [blockSize, ← Nat.cast_add, ← hnum.1, numSubblock]
      norm_cast
    rw [List.map_congr_left hsize, htotal]
    simp [mul_add]

theorem divides_reduceBlock {v : ℕ} (hlock : (s.gpa v).lock = true)
    (horder : 0 < (s.gpa v).descOrder) :
    Divides s (s.reduceBlock l v).1 v (s.reduceBlock l v).2 := by
  simp only [reduceBlock, elsTryreduceComplete, elsReduce]
  split
  · exact divides_complete rfl
  · split
    · exact divides_of_quiet (Quiet.refl s v) hlock
    · exact divides_half hlock horder rfl rfl rfl

theorem divides_of_divides {v : ℕ} {hs : List ℕ} (hq : Quiet s t v) (hd : Divides t u v hs) :
    Divides s u v hs := by
  refine ⟨hq.only.trans (hd.only.mono fun d => (hq.inBlock d).mp), hd.stray.trans hq.stray,
    hd.pageLen.trans hq.pageLen, hd.nodup, hd.mem, fun p hp => ?_, fun p hp d hpd => ?_,
    fun d => ?_, ?_⟩
  · rw [← (hq.same v).2.2.2]
    exact hd.head p hp
  · exact (hd.inside p hp d hpd).imp_left (hq.inBlock d).mp
  · rw [← (hq.same d).2.1, ← (hq.same d).2.2.1]
    exact hd.rest d
  · rw [hd.size, blockSize, blockSize, (hq.same v).1, hq.only.sbPages]

/-- The victim in pieces. -/
theorem divides_pieces {v : ℕ} (hlock : (s.gpa v).lock = true) :
    Divides s (s.pieces l v).1 v (s.pieces l v).2 := by
  have hq := quiet_checkEagerWbr s v
  simp only [pieces]
  by_cases hneed : (s.checkEagerWbr v).elsNeedReduce v = true
  · have horder : 0 < ((s.checkEagerWbr v).gpa v).descOrder := by
      simp only [elsNeedReduce, Bool.and_eq_true, decide_eq_true_eq] at hneed
      exact hneed.1.1.2
    rw [if_pos hneed]
    exact divides_of_divides hq (divides_reduceBlock ((hq.same v).2.2.1.trans hlock) horder)
  · rw [if_neg hneed]
    exact divides_of_quiet hq hlock

/-! ## The loops -/

/-- Unlocking changes neither list nor state. -/
theorem foldl_unlock (ps : List ℕ) (d : ℕ) : ((ps.foldl unlock s).gpa d).Placed ↔
    (s.gpa d).Placed := by
  induction ps generalizing s with
  | nil => exact Iff.rfl
  | cons p ps ih =>
      rw [List.foldl_cons, ih]
      by_cases hd : d = p
      · subst hd
        rw [show (s.unlock d).gpa d = { s.gpa d with lock := false } from gpa_setGpa_self]
        exact Iff.rfl
      · rw [show (s.unlock p).gpa d = s.gpa d from gpa_setGpa_of_ne hd]

/-- A turn of the loop over the pieces that does not fail: the rest of the loop finds the blocks of
the other pieces as they were. -/
theorem writebackPieces_cons (cpu : ℕ) {hs : List ℕ} (h : s.Accounts (p :: hs ++ q))
    (hok : ¬ s.EvictFails l p) :
    ∃ t, t.Accounts (hs ++ q) ∧ (t.gpa p).Placed ∧ Only (s.InBlock p) s t ∧
      (∀ a ∈ hs, (t.EvictFails l a ↔ s.EvictFails l a) ∧
        ∀ d, t.InBlock a d → s.InBlock a d ∧ ¬ s.InBlock p d) ∧
      ∀ n, ∃ m, writebackPieces l cpu (p :: hs) s n = writebackPieces l cpu hs t m := by
  obtain ⟨t, r, hrun, hr, hset⟩ := settles_writeback cpu (h.hand p List.mem_cons_self).1 hok
  have hnotin := (List.nodup_cons.mp h.nodup).1
  have hout : ∀ a ∈ hs, ∀ d, s.InBlock a d → ¬ s.InBlock p d := fun a ha d hd =>
    h.disjoint (.inl (List.mem_cons_of_mem p (List.mem_append_left q ha)))
      (.inl List.mem_cons_self) (fun he => hnotin (he ▸ List.mem_append_left q ha)) hd
  refine ⟨t.unlock p, accounts_of_settles h hset, hset.placed, hset.only, fun a ha => ⟨?_, ?_⟩,
    fun n => ?_⟩
  · exact (agree_of_only hset.only (hout a ha)).evictFails_iff
  · intro d hd
    rw [InBlock, numSubblock_of_descOrder (hset.descOrder a)] at hd
    exact ⟨hd, hout a ha d hd⟩
  · simp only [writebackPieces, hrun]
    cases r with
    | posted => exact ⟨_, rfl⟩
    | clean => exact ⟨_, rfl⟩
    | error => exact absurd rfl hr

/-- The loop over the pieces, if none fails. -/
theorem writebackPieces_ok (cpu : ℕ) {hs : List ℕ} (h : s.Accounts (hs ++ q))
    (hok : ∀ p ∈ hs, ¬ s.EvictFails l p) (n : ℤ) :
    ∃ t m, writebackPieces l cpu hs s n = some (t, some m) ∧ t.Accounts q ∧
      (∀ p ∈ hs, (t.gpa p).Placed) ∧ Only (fun d => ∃ p ∈ hs, s.InBlock p d) s t := by
  induction hs generalizing s n with
  | nil => exact ⟨s, n, rfl, h, nofun, Only.refl s⟩
  | cons p hs ih =>
      obtain ⟨t, hacc, hplaced, hfirst, hothers, hrun⟩ :=
        writebackPieces_cons cpu h (hok p List.mem_cons_self)
      obtain ⟨m, hm⟩ := hrun n
      obtain ⟨u, k, hu, hau, hpl, hrest⟩ := ih hacc
        (fun a ha => by
          rw [(hothers a ha).1]
          exact hok a (List.mem_cons_of_mem p ha)) m
      have hp : u.gpa p = t.gpa p := by
        refine hrest.gpa p ?_
        rintro ⟨a, ha, hin⟩
        exact ((hothers a ha).2 p hin).2 inBlock_self
      refine ⟨u, k, hm.trans hu, hau, fun a ha => ?_, (hfirst.mono ?_).trans (hrest.mono ?_)⟩
      · rcases List.mem_cons.mp ha with rfl | ha
        · rwa [hp]
        · exact hpl a ha
      · exact fun d hd => ⟨p, List.mem_cons_self, hd⟩
      · rintro d ⟨a, ha, hin⟩
        exact ⟨a, List.mem_cons_of_mem p ha, ((hothers a ha).2 d hin).1⟩

/-- The loop over the pieces, if one fails. -/
theorem writebackPieces_fails (cpu : ℕ) {hs : List ℕ} (h : s.Accounts (hs ++ q))
    (hf : ∃ p ∈ hs, s.EvictFails l p) (n : ℤ) :
    writebackPieces l cpu hs s n = none ∨
      ∃ t, writebackPieces l cpu hs s n = some (t, none) ∧ ∃ p ∈ hs, ¬ (t.gpa p).Placed := by
  induction hs generalizing s n with
  | nil =>
      obtain ⟨p, hp, -⟩ := hf
      cases hp
  | cons p hs ih =>
      by_cases hp : s.EvictFails l p
      · obtain ⟨hlist, hstate⟩ := h.hand p List.mem_cons_self
        simp only [writebackPieces]
        rcases fails_writeback cpu hlist hstate hp with hrun | ⟨t, hrun, hlost⟩
        · exact .inl (by rw [hrun])
        · refine .inr ⟨(p :: hs).foldl unlock t, by rw [hrun], p, List.mem_cons_self, ?_⟩
          rwa [foldl_unlock]
      · obtain ⟨t, hacc, -, -, hothers, hrun⟩ := writebackPieces_cons cpu h hp
        obtain ⟨m, hm⟩ := hrun n
        have hf' : ∃ a ∈ hs, t.EvictFails l a := by
          obtain ⟨a, ha, hfa⟩ := hf
          rcases List.mem_cons.mp ha with rfl | ha
          · exact absurd hfa hp
          · exact ⟨a, ha, (hothers a ha).1.mpr hfa⟩
        rw [hm]
        rcases ih hacc hf' m with hnone | ⟨u, hu, a, ha, hlost⟩
        · exact .inl hnone
        · exact .inr ⟨u, hu, a, List.mem_cons_of_mem p ha, hlost⟩

/-- A turn of the loop over the victims, by what comes of the loop over the pieces. -/
theorem writebackVictims_cons (cpu : ℕ) (v : ℕ) (vs : List ℕ) (n : ℤ) :
    match writebackPieces l cpu (s.pieces l v).2 (s.pieces l v).1 0 with
    | none => writebackVictims l cpu (v :: vs) s n = none
    | some (t, none) => ∃ u, writebackVictims l cpu (v :: vs) s n = some (u, none) ∧
        ∀ d, (u.gpa d).Placed ↔ (t.gpa d).Placed
    | some (t, some _) => ∃ m,
        writebackVictims l cpu (v :: vs) s n = writebackVictims l cpu vs t m := by
  simp only [writebackVictims, pieces]
  by_cases hneed : (s.checkEagerWbr v).elsNeedReduce v = true
  · simp only [if_pos hneed, reduceAndWriteback]
    rcases writebackPieces l cpu _ _ 0 with _ | ⟨t, _ | k⟩
    · rfl
    · exact ⟨_, rfl, fun d => foldl_unlock (v :: vs) d⟩
    · exact ⟨_, rfl⟩
  · simp only [if_neg hneed, writebackPieces]
    rcases (s.checkEagerWbr v).empWritebackBlock l v cpu with _ | ⟨t, _ | _ | _⟩
    · rfl
    · exact ⟨_, rfl⟩
    · exact ⟨_, rfl⟩
    · exact ⟨_, rfl, fun d => (foldl_unlock (v :: vs) d).trans (foldl_unlock [v] d).symm⟩

/-- What the loop over the victims finds of the later ones. -/
theorem pieces_of_only {v w : ℕ} {vs : List ℕ} (h : s.Accounts (v :: vs)) (hw : w ∈ vs)
    (ht : Only (s.InBlock v) s t) :
    (t.pieces l w).2 = (s.pieces l w).2 ∧ (t.Writable l w ↔ s.Writable l w) ∧
      ∀ d, t.InBlock w d → s.InBlock w d ∧ ¬ s.InBlock v d := by
  have hnotin := (List.nodup_cons.mp h.nodup).1
  have hmem : w ∈ v :: vs := List.mem_cons_of_mem v hw
  have hout : ∀ d, s.InBlock w d → ¬ s.InBlock v d := fun d hd =>
    h.disjoint (.inl hmem) (.inl List.mem_cons_self) (fun he => hnotin (he ▸ hw)) hd
  have hagree := (agree_of_only ht hout).pieces (l := l)
  have hd : Divides s (s.pieces l w).1 w (s.pieces l w).2 := divides_pieces ((h.lock w).mpr hmem)
  refine ⟨hagree.1, ?_, fun d hd => ?_⟩
  · rw [Writable, Writable, hagree.1]
    refine forall₂_congr fun p hp => not_congr ((hagree.2.mono ?_ ?_).evictFails_iff)
    · exact (hd.inside p hp p inBlock_self).1.1
    · -- the last descriptor of the piece is one of the block
      have hpos : 0 < (s.pieces l w).1.numSubblock p := Nat.two_pow_pos _
      have hlast := (hd.inside p hp (p + (s.pieces l w).1.numSubblock p - 1)
        ⟨by omega, by omega⟩).1.2
      omega
  · rw [InBlock, numSubblock_of_only ht (hout w inBlock_self)] at hd
    exact ⟨hd, hout d hd⟩

/-- The heads of all pieces of the victims. -/
def heads (s : InactiveSys) (l : UpdateLuck) (vs : List ℕ) : List ℕ :=
  vs.flatMap fun v => (s.pieces l v).2

theorem mem_heads {vs : List ℕ} : p ∈ s.heads l vs ↔ ∃ v ∈ vs, p ∈ (s.pieces l v).2 :=
  List.mem_flatMap

/-- The pieces of a victim that is writable leave the hands. -/
theorem writebackVictims_first (cpu : ℕ) {v : ℕ} {vs : List ℕ} (h : s.Accounts (v :: vs))
    (hv : s.Writable l v) (n : ℤ) :
    ∃ t m, writebackVictims l cpu (v :: vs) s n = writebackVictims l cpu vs t m ∧
      t.Accounts vs ∧ Only (s.InBlock v) s t ∧ ∀ p ∈ (s.pieces l v).2, (t.gpa p).Placed := by
  have hd : Divides s (s.pieces l v).1 v (s.pieces l v).2 :=
    divides_pieces ((h.lock v).mpr List.mem_cons_self)
  obtain ⟨t, k, hrun, hacc, hplaced, honly⟩ :=
    writebackPieces_ok cpu (accounts_of_divides h hd) hv 0
  have hcons := writebackVictims_cons (l := l) (s := s) cpu v vs n
  rw [hrun] at hcons
  obtain ⟨m, hm⟩ := hcons
  refine ⟨t, m, hm, hacc, hd.only.trans (honly.mono ?_), hplaced⟩
  rintro d ⟨p, hp, hpd⟩
  exact (hd.inside p hp d hpd).1

/-- The loop over the victims, if no piece fails. -/
theorem writebackVictims_ok (cpu : ℕ) {vs : List ℕ} (h : s.Accounts vs)
    (hok : ∀ v ∈ vs, s.Writable l v) (n : ℤ) :
    ∃ t r, writebackVictims l cpu vs s n = some (t, r) ∧ t.Accounts [] ∧
      (∀ p ∈ s.heads l vs, (t.gpa p).Placed) ∧ Only (fun d => ∃ v ∈ vs, s.InBlock v d) s t := by
  induction vs generalizing s n with
  | nil => exact ⟨s, some n, rfl, h, nofun, Only.refl s⟩
  | cons v vs ih =>
      obtain ⟨t, m, hrun, hacc, hfirst, hplaced⟩ :=
        writebackVictims_first cpu h (hok v List.mem_cons_self) n
      have hlater := fun w hw => pieces_of_only (l := l) (w := w) h hw hfirst
      obtain ⟨u, r, hu, hau, hpl, hrest⟩ := ih hacc
        (fun w hw => (hlater w hw).2.1.mpr (hok w (List.mem_cons_of_mem v hw))) m
      have hd : Divides s (s.pieces l v).1 v (s.pieces l v).2 :=
        divides_pieces ((h.lock v).mpr List.mem_cons_self)
      refine ⟨u, r, hrun.trans hu, hau, fun p hp => ?_, (hfirst.mono ?_).trans (hrest.mono ?_)⟩
      · obtain ⟨w, hw, hpw⟩ := mem_heads.mp hp
        rcases List.mem_cons.mp hw with rfl | hw
        · have hsame : u.gpa p = t.gpa p := by
            refine hrest.gpa p ?_
            rintro ⟨a, ha, hin⟩
            exact ((hlater a ha).2.2 p hin).2 (hd.inside p hpw p inBlock_self).1
          rw [hsame]
          exact hplaced p hpw
        · exact hpl p (mem_heads.mpr ⟨w, hw, (hlater w hw).1 ▸ hpw⟩)
      · exact fun d hin => ⟨v, List.mem_cons_self, hin⟩
      · rintro d ⟨a, ha, hin⟩
        exact ⟨a, List.mem_cons_of_mem v ha, ((hlater a ha).2.2 d hin).1⟩

/-- The loop over the victims, if a piece fails. -/
theorem writebackVictims_fails (cpu : ℕ) {vs : List ℕ} (h : s.Accounts vs)
    (hf : ∃ v ∈ vs, ¬ s.Writable l v) (n : ℤ) :
    writebackVictims l cpu vs s n = none ∨ ∃ t, writebackVictims l cpu vs s n = some (t, none) ∧
      ∃ p ∈ s.heads l vs, ¬ (t.gpa p).Placed := by
  induction vs generalizing s n with
  | nil =>
      obtain ⟨v, hv, -⟩ := hf
      cases hv
  | cons v vs ih =>
      by_cases hv : s.Writable l v
      · obtain ⟨t, m, hrun, hacc, hfirst, -⟩ := writebackVictims_first cpu h hv n
        have hlater := fun w hw => pieces_of_only (l := l) (w := w) h hw hfirst
        have hf' : ∃ w ∈ vs, ¬ t.Writable l w := by
          obtain ⟨w, hw, hfw⟩ := hf
          rcases List.mem_cons.mp hw with rfl | hw
          · exact absurd hv hfw
          · exact ⟨w, hw, fun hok => hfw ((hlater w hw).2.1.mp hok)⟩
        rw [hrun]
        rcases ih hacc hf' m with hnone | ⟨u, hu, p, hp, hlost⟩
        · exact .inl hnone
        · obtain ⟨w, hw, hpw⟩ := mem_heads.mp hp
          exact .inr ⟨u, hu, p, mem_heads.mpr ⟨w, List.mem_cons_of_mem v hw,
            (hlater w hw).1 ▸ hpw⟩, hlost⟩
      · have hd : Divides s (s.pieces l v).1 v (s.pieces l v).2 :=
          divides_pieces ((h.lock v).mpr List.mem_cons_self)
        have hbad : ∃ p ∈ (s.pieces l v).2, (s.pieces l v).1.EvictFails l p := by
          simpa only [Writable, not_forall, not_not, exists_prop] using hv
        have hcons := writebackVictims_cons (l := l) (s := s) cpu v vs n
        rcases writebackPieces_fails cpu (accounts_of_divides h hd) hbad 0 with
          hrun | ⟨t, hrun, p, hp, hlost⟩
        · rw [hrun] at hcons
          exact .inl hcons
        · rw [hrun] at hcons
          obtain ⟨u, hu, hplaced⟩ := hcons
          refine .inr ⟨u, hu, p, mem_heads.mpr ⟨v, List.mem_cons_self, hp⟩, ?_⟩
          rwa [hplaced]

end InactiveSys

end Emp
