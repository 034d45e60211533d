import Emp.Els.Relisted

/-!
# What a merge and a reduction make of the flags

When the fault block lies below its buddy, a merge moves all flags of the buddy to the head; when
it lies above, only `GPA_DIRTY` of the fault block is moved.  The flags of what is absorbed stay
with its descriptor, and a reduction adds those of the head to them.

## Main definitions

* `GpaFlag.data`, `GpaFlag.kept` — the flags that say something about the data.
* `ElasticSys.Carries` — a merged head has the data flags of both.
* `ElasticSys.ReducedOk` — the pieces have the data flags of the head, and the right locks are held.
* `ElasticSys.merge_iff` — when a stretch and a reduction do so.
-/

namespace Emp

/-- The data properties of a merge. -/
def GpaFlag.data : GpaFlag → Bool
  | .dirty | .touched | .pinned | .wprotect => true
  | _ => false

/-- The data properties of a reduction. -/
def GpaFlag.kept (f : GpaFlag) : Bool := f.data || f = .staleBlock

namespace ElasticSys

variable {s t u r : ElasticSys} {c : StretchCall} {h k p g super : ℕ} {q : Bool} {f : GpaFlag}

/-- The head `h` after a merge has every data property that `k` or `p` had before it. -/
def Carries (s t : ElasticSys) (k p h : ℕ) : Prop :=
  ∀ f : GpaFlag, f.data = true → (s.gpa k).flags f = true ∨ (s.gpa p).flags f = true →
    (t.gpa h).flags f = true

/-- The other half of the block of the next order. -/
def buddy (s : ElasticSys) (k : ℕ) : ℕ :=
  if alignDown ((s.gpa k).order + 1) k = k then k + 2 ^ (s.gpa k).order
  else alignDown ((s.gpa k).order + 1) k

/-- After a reduction, every piece has exactly the data properties of the head, and we hold, of
the locks, what we held and the pieces; after a reduction that fails, what we held. -/
def ReducedOk (s : ElasticSys) (k : ℕ) (r : ElasticSys × Option (List ℕ)) : Prop :=
  match r.2 with
  | none => ∀ g, r.1.mine g = s.mine g
  | some hs => (∀ g, r.1.mine g = true ↔ s.mine g = true ∨ g ∈ hs) ∧
      ∀ g ∈ hs, ∀ f : GpaFlag, f.kept = true → (r.1.gpa g).flags f = (s.gpa k).flags f

/-! ### The flags of a merged head -/

theorem Found.eq_buddy (hf : s.Found c k super p) : p = s.buddy k := by
  have hbuddy := hf.buddy
  rw [hf.super_eq] at hbuddy
  rw [ElasticSys.buddy]
  by_cases hk : alignDown ((s.gpa k).order + 1) k = k
  · rw [if_pos hk] at hbuddy ⊢
    exact hbuddy
  · rw [if_neg hk] at hbuddy ⊢
    exact hbuddy

theorem flags_incBlockOrder (n : ℕ) :
    ((s.incBlockOrder super n).gpa g).flags = (s.gpa g).flags := by
  simp only [incBlockOrder]
  split <;> rfl

/-- The flags of the head after a merge with the upper half. -/
theorem flags_elsStretch_upper (hne : super ≠ p) :
    ((s.elsStretch super p).gpa super).flags f =
      ((s.gpa super).flags f || ((s.gpa p).flags f && f ≠ .proactive && f ≠ .promote)) := by
  rw [elsStretch, elsUpdateGpaFlags, if_pos hne, setGpa_of_ne _ hne, setGpa_self]
  simp only [flags_incBlockOrder]

/-- The flags of the head when the upper half is the fault block. -/
theorem flags_elsStretch_lower : ((s.elsStretch super super).gpa super).flags f =
    ((s.gpa super).flags f ||
      (f = .dirty && (s.gpa (super + 2 ^ (s.gpa super).order)).flags .dirty)) := by
  have horder : ((s.incBlockOrder super (2 ^ ((s.gpa super).order + 1))).gpa super).order - 1 =
      (s.gpa super).order := by
    have hpos := Nat.two_pow_pos ((s.gpa super).order + 1)
    simp only [incBlockOrder]
    rw [if_pos ⟨le_rfl, by omega⟩, Nat.add_sub_cancel]
  rw [elsStretch, elsUpdateGpaFlags, if_neg (not_not.mpr rfl)]
  simp only [horder]
  rw [setGpa_of_ne _ (member_ne super _).symm, setGpa_self]
  simp only [flags_incBlockOrder]

theorem flags_stretchRound (hr : s.stretchRound c k = some (r, super, p))
    (hk : s.empGetBlockHead k = k) : (r.gpa super).flags f = if k < p then
      ((s.gpa k).flags f || ((s.gpa p).flags f && f ≠ .proactive && f ≠ .promote))
    else ((s.gpa p).flags f || (f = .dirty && (s.gpa k).flags .dirty)) := by
  obtain ⟨hf, rfl⟩ := stretchRound_some hr
  have hpos := Nat.two_pow_pos (s.gpa k).order
  rcases hf.halves hk with ⟨hs, hp⟩ | ⟨hs, hp⟩
  · have hlt : k < p := by omega
    rw [if_pos hlt, if_pos hlt, hs]
    exact flags_elsStretch_upper hlt.ne
  · have hlt : ¬ k < p := by omega
    rw [if_neg hlt, if_neg hlt, hs]
    refine flags_elsStretch_lower.trans ?_
    simp only [addPageLen, hf.order]
    rw [← hp]

/-- **The data flags of a merged head.**  They are carried unless the fault block is the upper one
and is pinned, or is touched when its buddy is not. -/
theorem carries_round_iff (hr : s.stretchRound c k = some (r, super, p))
    (hk : s.empGetBlockHead k = k) : s.Carries r k p super ↔
      k < p ∨ ((s.gpa k).flags .pinned = false ∧
        ((s.gpa k).flags .touched = true → (s.gpa p).flags .touched = true)) := by
  have hflags : ∀ f, (r.gpa super).flags f = _ := fun f => flags_stretchRound hr hk
  obtain ⟨hf, -⟩ := stretchRound_some hr
  have hpin := hf.unpinned
  have hwp := hf.wprotect
  by_cases hlt : k < p
  · refine iff_of_true (fun f hdata hor => ?_) (.inl hlt)
    rw [hflags, if_pos hlt]
    rcases hor with hk | hp
    · rw [hk, Bool.true_or]
    · rw [hp]
      cases f <;> simp_all [GpaFlag.data]
  · refine ⟨fun hcarry => .inr ⟨?_, fun htouched => ?_⟩, fun hcond f hdata hor => ?_⟩
    · by_contra hpinned
      have hlost := hcarry .pinned rfl (.inl (Bool.not_eq_false _ ▸ hpinned))
      rw [hflags, if_neg hlt, hpin] at hlost
      simp at hlost
    · have hkept := hcarry .touched rfl (.inl htouched)
      rw [hflags, if_neg hlt] at hkept
      simpa using hkept
    · obtain ⟨hunpinned, htouched⟩ := hcond.resolve_left hlt
      rw [hflags, if_neg hlt]
      cases f with
      | dirty => rcases hor with hk | hp <;> simp [*]
      | touched => rcases hor with hk | hp <;> simp [*]
      | pinned => rcases hor with hk | hp <;> simp_all
      | wprotect => rcases hor with hk | hp <;> simp_all
      | _ => exact absurd hdata (by simp [GpaFlag.data])

/-! ### The rest of a stretch -/

theorem flags_flushActiveMru : ((s.flushActiveMru c q).gpa g).flags = (s.gpa g).flags := by
  simp only [flushActiveMru]
  split
  · dsimp only
    split <;> rfl
  · rfl

theorem flags_setFlag {d : ElasticGpa} {f' : GpaFlag} {v : Bool} (hf : f ≠ f') :
    (d.setFlag f' v).flags f = d.flags f := Function.update_of_ne hf ..

/-- Putting the head on a list sets none of its flags but `GPA_PROACTIVE`. -/
theorem flags_addGpasToActiveList (hf : f ≠ .proactive) :
    ((s.addGpasToActiveList c k q).gpa k).flags f = (s.gpa k).flags f := by
  obtain ⟨hflags, -, -⟩ := activated_eq (s := s) (k := k)
  cases hpin : (s.gpa k).flags .pinned with
  | true =>
    rw [addGpasToActiveList_pinned hpin, ← hflags]
    simp only [addPageLen, appended, setGpa_self]
    exact flags_setFlag hf
  | false =>
    have hqueued : ((s.queued c k q).gpa k).flags f = (s.gpa k).flags f := by
      rw [queued, ← hflags]
      simp only [appended, setGpa_self]
      cases q
      · rfl
      · exact flags_setFlag hf
    rw [addGpasToActiveList_unpinned hpin, ← hqueued]
    simp only [addPageLen]
    split
    · rw [flags_flushActiveMru]
    · rfl

theorem flags_flagged (hf : f ≠ .stretched) (hf' : f ≠ .prefetchOnce) :
    ((s.flagged h).gpa h).flags f = (s.gpa h).flags f := by
  rw [flagged, setGpa_self, flags_setFlag hf', flags_setFlag hf]

/-- What follows the rounds leaves the data flags of the head as they are. -/
theorem Stretching.flags_putStretched (hs : s.Stretching h) (hf : f.data = true) :
    ((s.putStretched c h).gpa h).flags f = (s.gpa h).flags f := by
  obtain ⟨hl, q, hput⟩ := hs.put (c := c)
  have hsettled := hs.flagged.settled hput hl
  have hself : h ∉ List.range' (h + 1) (2 ^ ((s.counted c h).gpa h).order - 1) := by
    rw [List.mem_range'_1]
    omega
  have hne : f ≠ .proactive ∧ f ≠ .stretched ∧ f ≠ .prefetchOnce := by
    refine ⟨?_, ?_, ?_⟩ <;> rintro rfl <;> simp [GpaFlag.data] at hf
  rw [putStretched_eq, hsettled.removed.rest h hself]
  refine Eq.trans ?_ (flags_flagged hne.2.1 hne.2.2)
  rw [counted]
  split
  · rfl
  · exact flags_addGpasToActiveList hne.1

/-- A call that merges once carries the data flags under the same condition. -/
theorem carries_stretch_iff (hr : s.Ready k) (hone : c.aggressiveness = 1)
    (h : s.elsStretchRep c k = (true, t)) :
    s.Carries t k (s.buddy k) (t.empGetBlockHead k) ↔
      k < s.buddy k ∨ ((s.gpa k).flags .pinned = false ∧
        ((s.gpa k).flags .touched = true → (s.gpa (s.buddy k)).flags .touched = true)) := by
  obtain ⟨hpage, n, hn, horder, rfl⟩ := elsStretchRep_true h
  rw [hn hone] at horder ⊢
  have hs := hr.stretching hpage
  have hin := hs.loop_inBlock (c := c.faulted) 1 inBlock_self
  have hloop := hs.loop (c := c.faulted) 1
  rw [ElasticSys.empGetBlockHead, hloop.order_putStretched, ← ElasticSys.empGetBlockHead,
    hloop.empGetBlockHead hin]
  cases hround : s.stretchRound c.faulted k with
  | none =>
    simp only [stretchLoop, hround] at horder
    exact absurd rfl horder
  | some x =>
    obtain ⟨r, super, p⟩ := x
    have hp := (stretchRound_some hround).1.eq_buddy
    have heq : s.stretchLoop c.faulted k 1 = (r, super) := by
      simp only [stretchLoop, hround]
    rw [heq, ← hp, ← carries_round_iff hround hr.head]
    rw [heq] at hloop
    refine forall_congr' fun f => imp_congr_right fun hdata => imp_congr_right fun _ => ?_
    rw [hloop.flags_putStretched hdata]

/-! ### Reducing -/

theorem empTrylockBlock_eq_none :
    s.empTrylockBlock k = none ↔ s.mine k = true ∨ s.others k = true := by
  rw [empTrylockBlock]
  split <;> simp [*]

theorem empTrylockBlock_some (h : s.empTrylockBlock k = some t) :
    (s.mine k = false ∧ s.others k = false) ∧
      t = { s with mine := Function.update s.mine k true } := by
  rw [empTrylockBlock, Option.ite_none_left_eq_some, not_or, Bool.not_eq_true,
    Bool.not_eq_true] at h
  exact ⟨h.1, (Option.some.inj h.2).symm⟩

theorem flags_setBlockOrder (n m : ℕ) :
    ((s.setBlockOrder k n m).gpa g).flags = (s.gpa g).flags := by
  simp only [setBlockOrder]
  split <;> rfl

/-- A piece keeps its own flags and gets those of the head. -/
theorem flags_inherit :
    ((s.inherit k g).gpa g).flags f = ((s.gpa g).flags f || (s.gpa k).flags f) := by
  rw [ElasticSys.inherit, setGpa_self]

theorem gpa_inherit_of_ne {p : ℕ} (hg : g ≠ p) : (s.inherit k p).gpa g = s.gpa g := by
  rw [ElasticSys.inherit, setGpa_of_ne _ hg]

theorem or_eq_right_iff (a b : Bool) : (a || b) = b ↔ (a = true → b = true) := by
  cases a <;> cases b <;> simp

/-- **`els_reduce`.**  The buddy revives what its descriptor kept and the head has not. -/
theorem reducedOk_elsReduce_iff (hheld : s.mine k = true) :
    s.ReducedOk k (s.elsReduce k) ↔
      (s.mine (k + 2 ^ ((s.gpa k).order - 1)) = true ∨
        s.others (k + 2 ^ ((s.gpa k).order - 1)) = true) ∨
      ∀ f : GpaFlag, f.kept = true → (s.gpa (k + 2 ^ ((s.gpa k).order - 1))).flags f = true →
        (s.gpa k).flags f = true := by
  obtain ⟨b, hb⟩ : ∃ b, b = k + 2 ^ ((s.gpa k).order - 1) := ⟨_, rfl⟩
  have hne : k ≠ b := by
    rw [hb]
    exact (member_ne k _).symm
  simp only [elsReduce, ← hb]
  cases hlock : s.empTrylockBlock b with
  | none => exact iff_of_true (fun _ => rfl) (.inl (empTrylockBlock_eq_none.mp hlock))
  | some t =>
    obtain ⟨⟨hmine, hothers⟩, rfl⟩ := empTrylockBlock_some hlock
    have hlocks : ∀ g, Function.update s.mine b true g = true ↔ s.mine g = true ∨ g ∈ [k, b] := by
      intro g
      rw [List.mem_pair]
      by_cases hg : g = b
      · rw [hg, Function.update_self]
        exact iff_of_true rfl (.inr (.inr rfl))
      · rw [Function.update_of_ne hg]
        refine ⟨.inl, fun hor => hor.elim id fun hg' => ?_⟩
        rw [hg'.resolve_right hg]
        exact hheld
    have hhead : ∀ (u : ElasticSys) (n m : ℕ) (f : GpaFlag),
        (((u.setBlockOrder k n m).inherit k b).gpa k).flags f = (u.gpa k).flags f := by
      intro u n m f
      rw [gpa_inherit_of_ne hne, flags_setBlockOrder]
    have hbuddy : ∀ (u : ElasticSys) (n m : ℕ) (f : GpaFlag),
        (((u.setBlockOrder k n m).inherit k b).gpa b).flags f =
          ((u.gpa b).flags f || (u.gpa k).flags f) := by
      intro u n m f
      rw [flags_inherit, flags_setBlockOrder, flags_setBlockOrder]
    have hfree : ¬ (s.mine b = true ∨ s.others b = true) := by simp [hmine, hothers]
    rw [or_iff_right hfree]
    refine ⟨fun hok f hf => ?_, fun hsub => ⟨hlocks, fun g hg f hf => ?_⟩⟩
    · have hpiece := hok.2 b (by simp) f hf
      rw [hbuddy] at hpiece
      exact (or_eq_right_iff _ _).mp hpiece
    · rcases List.mem_pair.mp hg with rfl | rfl
      · exact hhead ..
      · rw [hbuddy]
        exact (or_eq_right_iff _ _).mpr (hsub f hf)

/-! ### Reducing to subblocks -/

/-- All members can be locked. -/
theorem lockMembers_free {done l : List ℕ} (hnd : l.Nodup)
    (hfree : ∀ g ∈ l, s.mine g = false ∧ s.others g = false) :
    s.lockMembers done l = ({ s with mine := fun g => s.mine g || g ∈ l }, none) := by
  induction l generalizing s done with
  | nil => simp [lockMembers]
  | cons x rest ih =>
    obtain ⟨hx, hnd⟩ := List.nodup_cons.mp hnd
    obtain ⟨hmine, hothers⟩ := hfree x (List.mem_cons_self ..)
    have hlock : s.empTrylockBlock x = some { s with mine := Function.update s.mine x true } := by
      rw [empTrylockBlock, if_neg]
      simp [hmine, hothers]
    rw [lockMembers, hlock]
    refine (ih hnd fun g hg => ?_).trans ?_
    · have hgx : g ≠ x := by
        rintro rfl
        exact hx hg
      refine ⟨?_, (hfree g (List.mem_cons_of_mem _ hg)).2⟩
      exact (Function.update_of_ne hgx ..).trans (hfree g (List.mem_cons_of_mem _ hg)).1
    · have hmine' : (fun g => Function.update s.mine x true g || decide (g ∈ rest)) =
          fun g => s.mine g || decide (g ∈ x :: rest) := by
        funext g
        by_cases hg : g = x
        · simp [hg]
        · simp [hg]
      rw [hmine']

/-- Some member cannot be locked. -/
theorem lockMembers_held (done : List ℕ) {l : List ℕ} (hnd : l.Nodup)
    (hheld : ∃ g ∈ l, s.mine g = true ∨ s.others g = true) :
    ∃ taken : List ℕ, (∀ g ∈ taken, s.mine g = false) ∧ s.lockMembers done l =
      ({ s with mine := fun g => s.mine g || g ∈ taken }, some (done ++ taken)) := by
  induction l generalizing s done with
  | nil => simp at hheld
  | cons x rest ih =>
    obtain ⟨hx, hnd⟩ := List.nodup_cons.mp hnd
    rw [lockMembers]
    cases hlock : s.empTrylockBlock x with
    | none => exact ⟨[], by simp, by simp⟩
    | some t =>
      obtain ⟨⟨hmine, hothers⟩, rfl⟩ := empTrylockBlock_some hlock
      obtain ⟨g, hg, hor⟩ := hheld
      have hgx : g ≠ x := by
        rintro rfl
        simp [hmine, hothers] at hor
      have hrest : g ∈ rest := (List.mem_cons.mp hg).resolve_left hgx
      obtain ⟨taken, hfree, heq⟩ := ih
        (s := { s with mine := Function.update s.mine x true }) (done ++ [x]) hnd
        ⟨g, hrest, by simpa [Function.update_of_ne hgx] using hor⟩
      refine ⟨x :: taken, fun g hg => ?_, heq.trans ?_⟩
      · rcases List.mem_cons.mp hg with rfl | hg
        · exact hmine
        · have hg' := hfree g hg
          by_cases hgx : g = x
          · rw [hgx]
            exact hmine
          · simpa [Function.update_of_ne hgx] using hg'
      · have hmine' : (fun g => Function.update s.mine x true g || decide (g ∈ taken)) =
            fun g => s.mine g || decide (g ∈ x :: taken) := by
          funext g
          by_cases hg : g = x
          · simp [hg]
          · simp [hg]
        rw [hmine', List.append_assoc, List.singleton_append]

theorem mine_foldl_empUnlockBlock (l : List ℕ) :
    (l.foldl empUnlockBlock s).mine g = (s.mine g && decide (g ∉ l)) := by
  induction l generalizing s with
  | nil => simp
  | cons x rest ih =>
    rw [List.foldl_cons, ih, empUnlockBlock]
    by_cases hg : g = x
    · simp [hg]
    · simp [hg]

theorem gpa_reduceMember_of_ne {x : ℕ} (hg : g ≠ x) :
    (s.reduceMember k x).gpa g = s.gpa g := by
  have hset : (s.setBlockOrder x 1 0).gpa g = s.gpa g := by
    simp only [setBlockOrder]
    exact if_neg (by omega)
  rw [reduceMember]
  split
  · exact hset
  · rw [gpa_inherit_of_ne hg, hset]

theorem flags_reduceMember (x : ℕ) : ((s.reduceMember k x).gpa x).flags f =
    if x = k ∨ (s.gpa x).localPage = none then (s.gpa x).flags f
    else ((s.gpa x).flags f || (s.gpa k).flags f) := by
  have hpage : ((s.setBlockOrder x 1 0).gpa x).localPage = (s.gpa x).localPage := by
    simp only [setBlockOrder]
    split <;> rfl
  simp only [reduceMember, hpage]
  by_cases hx : x = k ∨ (s.gpa x).localPage = none
  · rw [if_pos hx, if_pos hx, flags_setBlockOrder]
  · rw [if_neg hx, if_neg hx, flags_inherit, flags_setBlockOrder, flags_setBlockOrder]

/-- The head keeps its flags while the pieces get them. -/
theorem flags_reduceMember_head (x : ℕ) :
    ((s.reduceMember k x).gpa k).flags f = (s.gpa k).flags f := by
  by_cases hx : k = x
  · rw [← hx, flags_reduceMember, if_pos (.inl rfl)]
  · rw [gpa_reduceMember_of_ne hx]

theorem mine_reduceMember (x : ℕ) : (s.reduceMember k x).mine = s.mine := by
  rw [reduceMember]
  split <;> rfl

theorem mine_foldl_reduceMember (l : List ℕ) :
    (l.foldl (fun u g => u.reduceMember k g) s).mine = s.mine := by
  induction l generalizing s with
  | nil => rfl
  | cons x rest ih => rw [List.foldl_cons, ih, mine_reduceMember]

theorem flags_foldl_reduceMember {l : List ℕ} (hnd : l.Nodup) (hg : g ∈ l) :
    ((l.foldl (fun u g => u.reduceMember k g) s).gpa g).flags f =
      if g = k ∨ (s.gpa g).localPage = none then (s.gpa g).flags f
      else ((s.gpa g).flags f || (s.gpa k).flags f) := by
  have hout : ∀ (m : List ℕ) (u : ElasticSys), g ∉ m →
      (m.foldl (fun u g => u.reduceMember k g) u).gpa g = u.gpa g := by
    intro m
    induction m with
    | nil => exact fun _ _ => rfl
    | cons x rest ih =>
      intro u hm
      rw [List.mem_cons, not_or] at hm
      rw [List.foldl_cons, ih _ hm.2, gpa_reduceMember_of_ne hm.1]
  induction l generalizing s with
  | nil => simp at hg
  | cons x rest ih =>
    obtain ⟨hx, hnd⟩ := List.nodup_cons.mp hnd
    rw [List.foldl_cons]
    rcases List.mem_cons.mp hg with rfl | hrest
    · rw [hout rest _ hx, flags_reduceMember]
    · have hgx : g ≠ x := by
        rintro rfl
        exact hx hrest
      rw [ih hnd hrest, gpa_reduceMember_of_ne hgx, flags_reduceMember_head]

/-- **`els_tryreduce_complete`.**  Members revive what they kept; those without a local page keep
what they had. -/
theorem reducedOk_elsTryreduceComplete_iff (hheld : s.mine k = true) :
    s.ReducedOk k (s.elsTryreduceComplete k) ↔
      (∃ g, s.InBlock k g ∧ g ≠ k ∧ (s.mine g = true ∨ s.others g = true)) ∨
      ∀ g, s.InBlock k g → g ≠ k → ∀ f : GpaFlag, f.kept = true →
        ((s.gpa g).flags f = true → (s.gpa k).flags f = true) ∧
        ((s.gpa g).localPage = none → (s.gpa k).flags f = true → (s.gpa g).flags f = true) := by
  have hnd : (List.range' (k + 1) (2 ^ (s.gpa k).order - 1)).Nodup := List.nodup_range'
  by_cases hlocked : ∃ g ∈ List.range' (k + 1) (2 ^ (s.gpa k).order - 1),
      s.mine g = true ∨ s.others g = true
  · obtain ⟨taken, hfree, heq⟩ := lockMembers_held [] hnd hlocked
    obtain ⟨g, hg, hor⟩ := hlocked
    refine iff_of_true ?_ (.inl ⟨g, (mem_members.mp hg).1, (mem_members.mp hg).2, hor⟩)
    simp only [elsTryreduceComplete, heq, List.nil_append]
    intro g
    rw [mine_foldl_empUnlockBlock]
    by_cases hg : g ∈ taken
    · simp [hg, hfree g hg]
    · simp [hg]
  · have hfree : ∀ g ∈ List.range' (k + 1) (2 ^ (s.gpa k).order - 1),
        s.mine g = false ∧ s.others g = false := by
      intro g hg
      have hnot := fun hor => hlocked ⟨g, hg, hor⟩
      simpa using hnot
    have hunlocked : ¬ ∃ g, s.InBlock k g ∧ g ≠ k ∧ (s.mine g = true ∨ s.others g = true) := by
      rintro ⟨g, hin, hne, hor⟩
      exact hlocked ⟨g, mem_members.mpr ⟨hin, hne⟩, hor⟩
    have hpieces : ∀ g, g ∈ List.range' k (2 ^ (s.gpa k).order) ↔ s.InBlock k g := by
      intro g
      rw [List.mem_range'_1, InBlock]
    rw [or_iff_right hunlocked]
    simp only [elsTryreduceComplete, lockMembers_free hnd hfree]
    have hlocks : ∀ g, (s.mine g || decide (g ∈ List.range' (k + 1) (2 ^ (s.gpa k).order - 1))) =
        true ↔ s.mine g = true ∨ g ∈ List.range' k (2 ^ (s.gpa k).order) := by
      intro g
      rw [hpieces, Bool.or_eq_true, decide_eq_true_iff, mem_members]
      by_cases hg : g = k
      · rw [hg]
        exact iff_of_true (.inl hheld) (.inl hheld)
      · simp [hg]
    refine ⟨fun hok g hin hne f hf => ?_, fun hsub => ⟨fun g => ?_, fun g hg f hf => ?_⟩⟩
    · have hpiece := hok.2 g ((hpieces g).mpr hin) f hf
      rw [flags_foldl_reduceMember List.nodup_range' ((hpieces g).mpr hin)] at hpiece
      dsimp only at hpiece
      by_cases hpage : (s.gpa g).localPage = none
      · rw [if_pos (.inr hpage)] at hpiece
        rw [hpiece]
        exact ⟨id, fun _ => id⟩
      · rw [if_neg (not_or.mpr ⟨hne, hpage⟩)] at hpiece
        exact ⟨(or_eq_right_iff _ _).mp hpiece, fun h => absurd h hpage⟩
    · rw [mine_foldl_reduceMember]
      exact hlocks g
    · rw [flags_foldl_reduceMember List.nodup_range' hg]
      dsimp only
      by_cases hgk : g = k
      · rw [if_pos (.inl hgk), hgk]
      obtain ⟨hkept, hnone⟩ := hsub g ((hpieces g).mp hg) hgk f hf
      by_cases hpage : (s.gpa g).localPage = none
      · rw [if_pos (.inr hpage)]
        exact Bool.eq_iff_iff.mpr ⟨hkept, hnone hpage⟩
      · rw [if_neg (not_or.mpr ⟨hgk, hpage⟩)]
        exact (or_eq_right_iff _ _).mpr hkept

/-! ### The claims on a merge and on a reduction -/

/-- What a stretch and the two reductions are to do. -/
structure MergeOk (s : ElasticSys) (c : StretchCall) (k : ℕ) : Prop where
  lists : ∀ t, s.Ready k → s.elsStretchRep c k = (true, t) → t.Merged (t.empGetBlockHead k)
  flags : ∀ t, s.Ready k → c.aggressiveness = 1 → s.elsStretchRep c k = (true, t) →
    s.Carries t k (s.buddy k) (t.empGetBlockHead k)
  reduce : 0 < (s.gpa k).order → s.mine k = true → s.ReducedOk k (s.elsReduce k)
  complete : s.mine k = true → s.ReducedOk k (s.elsTryreduceComplete k)

/-- **Merging and reducing.**  The lists and counters are right after every stretch.  A merge
carries the data flags of both blocks, in any round and over a call of one round, if and only if
the fault block is the lower one, or it is not pinned and its buddy is touched when it is.  A
reduction that gets its locks gives every piece the data flags of the head if and only if no
descriptor has kept others. -/
theorem merge_iff (s : ElasticSys) (c : StretchCall) (k : ℕ) :
    (∀ t, s.Ready k → s.elsStretchRep c k = (true, t) → t.Merged (t.empGetBlockHead k)) ∧
    (∀ r h p, s.empGetBlockHead k = k → s.stretchRound c k = some (r, h, p) →
      (s.Carries r k p h ↔ k < p ∨ ((s.gpa k).flags .pinned = false ∧
        ((s.gpa k).flags .touched = true → (s.gpa p).flags .touched = true)))) ∧
    (∀ t, s.Ready k → c.aggressiveness = 1 → s.elsStretchRep c k = (true, t) →
      (s.Carries t k (s.buddy k) (t.empGetBlockHead k) ↔
        k < s.buddy k ∨ ((s.gpa k).flags .pinned = false ∧
          ((s.gpa k).flags .touched = true → (s.gpa (s.buddy k)).flags .touched = true)))) ∧
    (0 < (s.gpa k).order → s.mine k = true → (s.ReducedOk k (s.elsReduce k) ↔
      (s.mine (k + 2 ^ ((s.gpa k).order - 1)) = true ∨
        s.others (k + 2 ^ ((s.gpa k).order - 1)) = true) ∨
      ∀ f : GpaFlag, f.kept = true → (s.gpa (k + 2 ^ ((s.gpa k).order - 1))).flags f = true →
        (s.gpa k).flags f = true)) ∧
    (s.mine k = true → (s.ReducedOk k (s.elsTryreduceComplete k) ↔
      (∃ g, s.InBlock k g ∧ g ≠ k ∧ (s.mine g = true ∨ s.others g = true)) ∨
      ∀ g, s.InBlock k g → g ≠ k → ∀ f : GpaFlag, f.kept = true →
        ((s.gpa g).flags f = true → (s.gpa k).flags f = true) ∧
        ((s.gpa g).localPage = none → (s.gpa k).flags f = true →
          (s.gpa g).flags f = true))) := by
  refine ⟨fun t hr h => merged_of_stretch hr h, fun r h p hk hr => carries_round_iff hr hk,
    fun t hr hone h => carries_stretch_iff hr hone h, fun _ hheld => ?_, fun hheld => ?_⟩
  · exact reducedOk_elsReduce_iff hheld
  · exact reducedOk_elsTryreduceComplete_iff hheld

/-- A block of two subblocks: the dirty lower one is active, the upper one has been fetched by a
write to a pinned range. -/
def pinnedAbove : ElasticSys where
  numGpa := 2
  sbOrder := 0
  possibleCpus := 1
  gpa := fun g =>
    if g = 0 then ⟨fun f => f = .touched || f = .dirty || f = .ept, .active, 0, 1,
      some ⟨0, some .global, true, 1⟩⟩
    else if g = 1 then ⟨fun f => f = .touched || f = .pinned, .active, 0, 1,
      some ⟨0, none, true, 2⟩⟩
    else ⟨fun _ => false, .init, 0, 1, none⟩
  mine := fun g => g = 1
  others := fun _ => false
  lists := fun l => if l = .global false then [0] else []
  pageLen := fun p => if p then 0 else 1
  curPinPages := 0

/-- A write fault of a virtual cpu. -/
def writeFault : StretchCall := ⟨false, false, true, false, false, 0, 1, true⟩

theorem ready_pinnedAbove : pinnedAbove.Ready 1 := by
  have hlist : ∀ g, pinnedAbove.listOf g = if g = 0 then some (.global false) else none := by
    intro g
    rw [listOf, pinnedAbove]
    by_cases hzero : g = 0
    · rw [hzero]
      rfl
    · by_cases hone : g = 1
      · rw [hone]
        rfl
      · simp only [if_neg hzero, if_neg hone]
        rfl
  have horder : ∀ g, (pinnedAbove.gpa g).order = 0 := by
    intro g
    simp only [pinnedAbove]
    split
    · rfl
    · split <;> rfl
  have hhead : ∀ g, pinnedAbove.empGetBlockHead g = g := by
    intro g
    rw [empGetBlockHead, horder, alignDown]
    simp
  refine ⟨⟨fun l g => ?_, fun l => ?_, fun g hg => ?_⟩, ?_, fun g _ => hhead g, fun g => ?_,
    fun p => ?_, by decide, hhead 1, (hlist 1).trans rfl, rfl⟩
  · rw [hlist]
    by_cases hl : l = .global false
    · simp [pinnedAbove, hl]
    · simp [pinnedAbove, hl, Ne.symm hl]
  · simp only [pinnedAbove]
    split <;> simp
  · rw [hlist] at hg
    by_cases hzero : g = 0
    · rw [hzero]
      decide
    · rw [if_neg hzero] at hg
      exact absurd rfl hg
  · simp only [horder]
    exact tiled_const (one_dvd _) (one_dvd _) fun _ _ _ => rfl
  · intro _ hactive hmine _ _
    simp only [pinnedAbove] at hactive hmine ⊢
    by_cases hzero : g = 0
    · rw [if_pos hzero]
      rfl
    · rw [if_neg hzero] at hactive
      have hone : g ≠ 1 := by simpa using hmine
      rw [if_neg hone] at hactive
      exact absurd hactive (by decide)
  · cases p <;> rfl

/-- After the merge the head is dirty, on its list with both subblocks, and not pinned. -/
theorem merge_iff_pinnedAbove :
    (pinnedAbove.elsStretchRep writeFault 1).2.Merged 0 ∧
      ¬ pinnedAbove.Carries (pinnedAbove.elsStretchRep writeFault 1).2 1 0 0 := by
  have htrue : pinnedAbove.elsStretchRep writeFault 1 =
      (true, (pinnedAbove.elsStretchRep writeFault 1).2) := rfl
  obtain ⟨hlists, -, hflags, -⟩ := merge_iff pinnedAbove writeFault 1
  refine ⟨hlists _ ready_pinnedAbove htrue, ?_⟩
  have hiff := hflags _ ready_pinnedAbove rfl htrue
  refine fun hcarry => absurd (hiff.mp hcarry) ?_
  decide

/-- The pin of the upper block is lost. -/
theorem not_mergeOk : ¬ pinnedAbove.MergeOk writeFault 1 := by
  intro hok
  have htrue : pinnedAbove.elsStretchRep writeFault 1 =
      (true, (pinnedAbove.elsStretchRep writeFault 1).2) := rfl
  have hpinned := hok.flags _ ready_pinnedAbove rfl htrue .pinned rfl (.inl rfl)
  exact absurd hpinned (by decide)

end ElasticSys

end Emp
