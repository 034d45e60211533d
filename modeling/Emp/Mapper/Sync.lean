import Emp.Mapper.Installs

/-!
# One set of mappers for a block

`sync_hpt_map_in_block` compares the head with each other subblock, once, and installs what one of
the two lacks in all subblocks.  Behind the comparison with a subblock, it and those before it have
the mappers of the head, and whatever is installed later is installed in all of them.  So one pass
is enough, for any sets of mappers.

## Main definitions

* `HptBlock.OkFrom` — the allocations of a run succeed.
* `HptBlock.Spread` — what a run has added to every subblock.
* `HptBlock.lacking` — the records that one of two subblocks lacks.
-/

namespace Emp

namespace MapperList

variable {V P : Type*} [DecidableEq V] {s : MapperList V P} {v : V}

/-- The record behind a given one. -/
theorem nextMappedPmd_eq {pre suf : List (MappedPmd V P)} {r : MappedPmd V P} (h : s.Legal)
    (hrec : s.records = pre ++ r :: suf) : HptBlock.nextMappedPmd s r = suf.head? := by
  have hnodup := h.distinct.nodup
  rw [hrec, List.map_append, List.map_cons] at hnodup
  have hpre : ∀ q ∈ pre, decide (q.vmr ≠ r.vmr) = true := by
    intro q hq
    refine decide_eq_true fun heq => ?_
    exact List.disjoint_of_nodup_append hnodup (List.mem_map_of_mem hq)
      (heq ▸ List.mem_cons_self)
  rw [HptBlock.nextMappedPmd, hrec, List.dropWhile_append_of_pos hpre,
    List.dropWhile_cons_of_neg (by simp), List.tail_cons]

/-- The only record of a list of one. -/
theorem names_singleton (h : s.Legal) (hone : s.numPmds = 1) (hv : s.pmds.vmr = some v) :
    s.names = {v} := by
  have hcard := card_names h
  rw [hone] at hcard
  obtain ⟨w, hw⟩ := Finset.card_eq_one.mp (by exact_mod_cast hcard.symm)
  have hmem : v ∈ s.names := by
    cases hn : s.next with
    | none =>
        rw [(names_empty_iff h).mpr hn] at hw
        exact absurd hw.symm (Finset.singleton_ne_empty w)
    | some l =>
        rw [names, records_some hn, List.mem_toFinset, List.mem_filterMap]
        exact ⟨s.pmds, List.mem_cons_self, hv⟩
  rw [hw, Finset.mem_singleton] at hmem
  rw [hw, hmem]

end MapperList

namespace HptBlock

variable {V P : Type*} [DecidableEq V] {s t u : HptBlock V P} {alloc : ℕ → Bool}
  {a b i j k : ℕ} {v w : V} {p : P} {isWrite : Bool}

/-- The allocations between two states succeed. -/
def OkFrom (alloc : ℕ → Bool) (s t : HptBlock V P) : Prop :=
  ∀ k, s.allocs ≤ k → k < t.allocs → alloc k = true

/-- Every subblock has got the records of `q` that it lacked. -/
def Spread (q : V → Option P) (s t : HptBlock V P) : Prop :=
  ∀ i < s.descSize, ∀ w, t.pmdOf i w = (s.pmdOf i w).or (q w)

omit [DecidableEq V] in
theorem OkFrom.left (h : OkFrom alloc s u) (hle : t.allocs ≤ u.allocs) : OkFrom alloc s t :=
  fun k hk hk' => h k hk (hk'.trans_le hle)

omit [DecidableEq V] in
theorem OkFrom.right (h : OkFrom alloc s u) (hle : s.allocs ≤ t.allocs) : OkFrom alloc t u :=
  fun k hk hk' => h k (hle.trans hk) hk'

/-- Where no allocation fails every record is made. -/
theorem recorded_of_ok (hv : (t.lp i).empLpLookupVmr v = false) (hle : s.allocs ≤ t.allocs)
    (h : OkFrom alloc s (t.installHptes alloc i v p isWrite)) : t.Recorded alloc i := by
  by_cases hn : (t.lp i).next = none
  · exact .inl hn
  · refine .inr (h _ hle ?_)
    rw [allocs_installHptes hv, if_neg hn]
    exact Nat.lt_succ_self _

theorem pmdOf_of_ok (hl : (t.lp i).Legal) (hv : (t.lp i).empLpLookupVmr v = false)
    (hle : s.allocs ≤ t.allocs) (h : OkFrom alloc s (t.installHptes alloc i v p isWrite))
    (j : ℕ) (w : V) : (t.installHptes alloc i v p isWrite).pmdOf j w =
      if j = i ∧ w = v then some p else t.pmdOf j w := by
  by_cases hj : j = i
  · subst hj
    rw [(pmdOf_recorded hl hv (recorded_of_ok hv hle h)).2 w]
    exact if_congr (by simp) rfl rfl
  · rw [pmdOf_of_ne hj, if_neg fun h => hj h.1]

theorem pmdOf_installLoop (hl : s.Legal) (hk : k ≤ s.descSize)
    (hok : OkFrom alloc s (installLoop alloc v p isWrite k s)) (i : ℕ) (w : V) :
    (installLoop alloc v p isWrite k s).pmdOf i w =
      if i < k ∧ w = v then (s.pmdOf i w).or (some p) else s.pmdOf i w := by
  induction k with
  | zero => rw [if_neg fun h => Nat.not_lt_zero i h.1]; rfl
  | succ k ih =>
      have hk' := Nat.le_of_succ_le hk
      have hrun : Installs alloc isWrite (fun w => w = v) s (installLoop alloc v p isWrite k s) :=
        installs_installLoop rfl hk'
      have hlk := hrun.legal hl k (hrun.sameView.descSize ▸ hk)
      have hiff : ¬ (i = k ∧ w = v) → (i < k + 1 ∧ w = v ↔ i < k ∧ w = v) := by
        intro hik
        refine and_congr_left fun hw => ?_
        have hne : i ≠ k := fun h => hik ⟨h, hw⟩
        omega
      have hself : i = k ∧ w = v → i < k + 1 ∧ w = v := fun h => ⟨by omega, h.2⟩
      have hback : i = k ∧ w = v → ¬ (i < k ∧ w = v) := fun h h' => by omega
      rw [installLoop] at hok ⊢
      by_cases hv : ((installLoop alloc v p isWrite k s).lp k).empLpLookupVmr v = true
      · simp only [hv, if_true] at hok ⊢
        rw [ih hk' hok]
        by_cases hik : i = k ∧ w = v
        · -- the record was there from the start
          have hsome : (installLoop alloc v p isWrite k s).pmdOf i w ≠ none := by
            rw [hik.1, hik.2]
            exact (MapperList.lookupVmr_iff hlk).mp hv
          rw [ih hk' hok, if_neg (hback hik)] at hsome
          obtain ⟨q, hq⟩ := Option.ne_none_iff_exists'.mp hsome
          rw [if_neg (hback hik), if_pos (hself hik), hq]
          rfl
        · exact if_congr (hiff hik).symm rfl rfl
      · simp only [hv, Bool.false_eq_true, if_false] at hok ⊢
        have hv' := Bool.eq_false_iff.mpr hv
        have hle : (installLoop alloc v p isWrite k s).allocs ≤
            ((installLoop alloc v p isWrite k s).installHptes alloc k v p isWrite).allocs :=
          allocs_le_installHptes hv'
        rw [pmdOf_of_ok hlk hv' hrun.allocs_le hok, ih hk' (hok.left hle)]
        by_cases hik : i = k ∧ w = v
        · have hnone : s.pmdOf i w = none := by
            have h := ih hk' (hok.left hle)
            rw [if_neg (hback hik), hik.1, hik.2] at h
            rw [hik.1, hik.2, ← h]
            exact MapperList.lookupVmr_eq_false hv'
          rw [if_pos hik, if_pos (hself hik), hnone]
          rfl
        · rw [if_neg hik]
          exact if_congr (hiff hik).symm rfl rfl

/-- An installation in the whole block. -/
theorem spread_installLoop (alloc : ℕ → Bool) (v : V) (p : P) (isWrite : Bool) (hl : s.Legal)
    (hok : OkFrom alloc s (installLoop alloc v p isWrite s.descSize s)) :
    Spread (fun w => if w = v then some p else none) s
      (installLoop alloc v p isWrite s.descSize s) := by
  intro i hi w
  rw [pmdOf_installLoop hl le_rfl hok]
  by_cases hw : w = v
  · simp only [hi, hw, and_self, if_true]
  · simp only [hw, and_false, if_false, Option.or_none]

theorem empInstallHptes_hit (d : ℕ) (arrived : Bool) :
    s.empInstallHptes alloc v d p true isWrite arrived =
      installLoop alloc v p isWrite s.descSize s := rfl

/-! ### The walks -/

/-- The vmrs of a list of records that the subblock `b` lacks. -/
def missing (s : HptBlock V P) (b : ℕ) (l : List (MappedPmd V P)) : List V :=
  (l.filterMap MappedPmd.vmr).filter fun w => (s.pmdOf b w).isNone

/-- The records of a list that the subblock `b` lacks. -/
def missingPmd (s : HptBlock V P) (b : ℕ) (l : List (MappedPmd V P)) (w : V) : Option P :=
  if (s.pmdOf b w).isNone then MapperList.lookupIn l w else none

theorem missing_cons (l : List (MappedPmd V P)) : s.missing b (⟨some v, some p⟩ :: l) =
    if (s.pmdOf b v).isNone then v :: s.missing b l else s.missing b l := by
  show List.filter _ (v :: List.filterMap MappedPmd.vmr l) = _
  rw [List.filter_cons]
  rfl

theorem missingPmd_cons (l : List (MappedPmd V P)) (w : V) :
    s.missingPmd b (⟨some v, some p⟩ :: l) w =
      if w = v then if (s.pmdOf b v).isNone then some p else none else s.missingPmd b l w := by
  rw [missingPmd, MapperList.lookupIn_cons]
  by_cases hw : w = v
  · rw [if_pos hw, hw, if_pos rfl]
  · rw [if_neg hw, if_neg fun h => hw (Option.some.inj h).symm]
    rfl

/-- A walk installs what the other subblock lacks; the list that is walked does not change. -/
theorem syncWalk_spec (alloc : ℕ → Bool) (isWrite : Bool) {rounds : ℕ}
    {suf : List (MappedPmd V P)} (hl : s.Legal)
    (ha : a < s.descSize) (hb : b < s.descSize) (pre : List (MappedPmd V P))
    (hrec : (s.lp a).records = pre ++ suf) (hrounds : suf.length ≤ rounds) (c : ℕ) :
    ∃ t, syncWalk alloc isWrite a b rounds suf.head? (c, s) = some t ∧
      Installs alloc isWrite (fun v => s.pmdOf a v ≠ none) s t.2 ∧ t.2.lp a = s.lp a ∧
      (OkFrom alloc s t.2 → t.1 = c + (s.missing b suf).length ∧
        Spread (s.missingPmd b suf) s t.2) := by
  induction suf generalizing s pre rounds c with
  | nil =>
      refine ⟨(c, s), ?_, .refl, rfl, fun _ => ⟨rfl, fun i _ w => ?_⟩⟩
      · cases rounds <;> rfl
      · rw [missingPmd, MapperList.lookupIn_eq_none (l := []) (by simp), ite_self, Option.or_none]
  | cons r suf ih =>
      obtain ⟨rounds, rfl⟩ := Nat.exists_eq_add_one.mpr ((Nat.succ_pos _).trans_le hrounds)
      have hdist := (hl a ha).distinct
      have hmem : r ∈ (s.lp a).records := by
        rw [hrec]
        exact List.mem_append_right _ List.mem_cons_self
      obtain ⟨rv, rp⟩ := r
      obtain ⟨v, hv⟩ := Option.ne_none_iff_exists'.mp (hdist.named _ hmem).1
      obtain ⟨p, hp⟩ := Option.ne_none_iff_exists'.mp (hdist.named _ hmem).2
      simp only at hv hp
      subst hv hp
      have hva : s.pmdOf a v = some p := (MapperList.lookupIn_eq_some hdist).mpr hmem
      have hain : (s.lp a).empLpLookupVmr v = true :=
        (MapperList.lookupVmr_iff (hl a ha)).mpr (by rw [← pmdOf, hva]; exact Option.some_ne_none p)
      -- no other record is of `v`
      have hsuf : ∀ q ∈ suf, q.vmr ≠ some v := by
        intro q hq hqv
        have hnodup := hdist.nodup
        rw [hrec, List.map_append, List.map_cons] at hnodup
        refine (List.nodup_cons.mp (List.nodup_append.mp hnodup).2.1).1 ?_
        exact List.mem_map.mpr ⟨q, hq, hqv⟩
      have hlookv : MapperList.lookupIn suf v = none := MapperList.lookupIn_eq_none hsuf
      have hrec' : (s.lp a).records = (pre ++ [⟨some v, some p⟩]) ++ suf := by
        rw [hrec, List.append_assoc]
        rfl
      have hnext := MapperList.nextMappedPmd_eq (hl a ha) hrec
      have hlen : suf.length ≤ rounds := Nat.le_of_succ_le_succ hrounds
      simp only [List.head?_cons, syncWalk]
      by_cases hvb : (s.lp b).empLpLookupVmr v = true
      · have hbsome : s.pmdOf b v ≠ none := (MapperList.lookupVmr_iff (hl b hb)).mp hvb
        have hbnone : (s.pmdOf b v).isNone = false := by
          rw [Option.isNone_eq_false_iff, Option.isSome_iff_ne_none]
          exact hbsome
        rw [if_pos hvb, hnext]
        obtain ⟨t, ht, hrun, hsame, hdone⟩ := ih hl ha hb _ hrec' hlen c
        refine ⟨t, ht, hrun, hsame, fun hok => ?_⟩
        obtain ⟨hcount, hspread⟩ := hdone hok
        refine ⟨?_, fun i hi w => ?_⟩
        · rw [hcount, missing_cons, hbnone]
          rfl
        · rw [hspread i hi w, missingPmd_cons, hbnone]
          by_cases hw : w = v
          · rw [if_pos hw, missingPmd, hw, hlookv, ite_self]
            rfl
          · rw [if_neg hw]
      · have hbnone : s.pmdOf b v = none :=
          MapperList.lookupVmr_eq_false (Bool.eq_false_iff.mpr hvb)
        rw [if_neg hvb, empInstallHptes_hit]
        have hfirst : Installs alloc isWrite (fun w => w = v) s
            (installLoop alloc v p isWrite s.descSize s) := installs_installLoop rfl le_rfl
        have hsame₁ : (installLoop alloc v p isWrite s.descSize s).lp a = s.lp a :=
          lp_installLoop hain
        have hspread₁ := spread_installLoop alloc v p isWrite hl
        set s₁ := installLoop alloc v p isWrite s.descSize s
        rw [hsame₁, hnext]
        have hn := hfirst.sameView.descSize
        obtain ⟨t, ht, hrun, hsame, hdone⟩ := ih (s := s₁) (hfirst.legal hl) (hn ▸ ha) (hn ▸ hb) _
          (hsame₁ ▸ hrec') hlen (c + 1)
        have hpmda : s₁.pmdOf a = s.pmdOf a := by
          funext w
          rw [pmdOf, hsame₁]
          rfl
        rw [hpmda] at hrun
        refine ⟨t, ht, (hfirst.mono ?_).trans hrun, hsame.trans hsame₁, fun hok => ?_⟩
        · rintro w rfl
          rw [hva]
          exact Option.some_ne_none p
        · have hspread₁ := hspread₁ (hok.left hrun.allocs_le)
          obtain ⟨hcount, hspread⟩ := hdone (hok.right hfirst.allocs_le)
          -- the other subblock has the record now; for the rest of the list nothing changes
          have hbw : ∀ w, w ≠ v → s₁.pmdOf b w = s.pmdOf b w := by
            intro w hw
            rw [hspread₁ b hb w]
            simp only [hw, if_false, Option.or_none]
          refine ⟨?_, fun i hi w => ?_⟩
          · have hrest : s₁.missing b suf = s.missing b suf := by
              refine List.filter_congr fun w hw => ?_
              obtain ⟨q, hq, hqw⟩ := List.mem_filterMap.mp hw
              rw [hbw w fun h => hsuf q hq (h ▸ hqw)]
            rw [hcount, missing_cons, hbnone, hrest]
            simp only [Option.isNone_none, if_true, List.length_cons]
            omega
          · rw [hspread i (hn ▸ hi) w, hspread₁ i hi w, missingPmd_cons, hbnone]
            by_cases hw : w = v
            · rw [missingPmd, hw, hlookv, ite_self, Option.or_none]
              simp
            · rw [missingPmd, hbw w hw]
              simp only [hw, if_false, Option.or_none]
              rfl

/-- What `x` has and `y` lacks. -/
def only (x y : Option P) : Option P := if y.isNone then x else none

/-- A whole walk. -/
theorem syncAll_spec (alloc : ℕ → Bool) (isWrite : Bool) (hl : s.Legal) (ha : a < s.descSize)
    (hb : b < s.descSize) :
    ∃ t, syncAll alloc isWrite a b s = some t ∧
      Installs alloc isWrite (fun v => s.pmdOf a v ≠ none) s t.2 ∧ t.2.lp a = s.lp a ∧
      (OkFrom alloc s t.2 → t.1 = ((s.lp a).names \ (s.lp b).names).card ∧
        Spread (fun w => only (s.pmdOf a w) (s.pmdOf b w)) s t.2) := by
  obtain ⟨t, ht, hrun, hsame, hdone⟩ := syncWalk_spec alloc isWrite hl ha
    hb [] (List.nil_append (s.lp a).records).symm le_rfl 0
  refine ⟨t, ht, hrun, hsame, fun hok => ?_⟩
  obtain ⟨hcount, hspread⟩ := hdone hok
  refine ⟨?_, hspread⟩
  have hnodup : (s.missing b (s.lp a).records).Nodup := (MapperList.nodup_vmrs (hl a ha)).filter _
  have hset : (s.lp a).names \ (s.lp b).names = (s.missing b (s.lp a).records).toFinset := by
    ext w
    rw [Finset.mem_sdiff, MapperList.mem_names (hl b hb), List.mem_toFinset, missing,
      List.mem_filter, MapperList.names, List.mem_toFinset, not_not, Option.isNone_iff_eq_none]
    rfl
  rw [hcount, hset, List.toFinset_card_of_nodup hnodup, Nat.zero_add]

/-- What one of two subblocks lacks. -/
def lacking (x y : Option P) : Option P := (only x y).or (only y x)

theorem lacking_comm (x y : Option P) : lacking x y = lacking y x := by
  cases x <;> cases y <;> rfl

theorem or_lacking_ne (x y : Option P) : x.or (lacking x y) ≠ none ↔ x ≠ none ∨ y ≠ none := by
  cases x <;> cases y <;> simp [lacking, only]

theorem eq_of_lacking {x y : Option P} (h : lacking x y = some p) : x = some p ∨ y = some p := by
  cases x <;> cases y
  · cases h
  · exact .inr h
  · exact .inl h
  · cases h

/-- Two walks, the second behind the first. -/
theorem or_lacking (x y z : Option P) :
    (z.or (only x y)).or (only (y.or (only x y)) (x.or (only x y))) = z.or (lacking x y) := by
  cases x <;> cases y <;> cases z <;> rfl

/-- The mappers of two subblocks, the larger list first. -/
theorem syncBoth_spec (alloc : ℕ → Bool) (isWrite : Bool) (hl : s.Legal) (ha : a < s.descSize)
    (hb : b < s.descSize) :
    ∃ t, ((syncAll alloc isWrite a b s).bind fun t =>
        if (t.1 : ℤ) = (s.lp a).empLpCountPmd - (s.lp b).empLpCountPmd then some t.2
        else (syncAll alloc isWrite b a t.2).map Prod.snd) = some t ∧
      Installs alloc isWrite (fun v => s.pmdOf a v ≠ none ∨ s.pmdOf b v ≠ none) s t ∧
      (OkFrom alloc s t → Spread (fun w => lacking (s.pmdOf a w) (s.pmdOf b w)) s t) := by
  obtain ⟨t, ht, hrun, hsame, hdone⟩ := syncAll_spec alloc isWrite hl ha hb
  have hn := hrun.sameView.descSize
  rw [ht, Option.bind_some]
  split_ifs with hexit
  · refine ⟨t.2, rfl, hrun.mono fun v hv => .inl hv, fun hok i hi w => ?_⟩
    obtain ⟨hcount, hspread⟩ := hdone hok
    rw [hspread i hi w]
    -- nothing was missing the other way
    have hsub : (s.lp b).names ⊆ (s.lp a).names := by
      have hcard := Finset.card_sdiff_add_card_inter (s.lp a).names (s.lp b).names
      rw [MapperList.empLpCountPmd, MapperList.empLpCountPmd, MapperList.card_names (hl a ha),
        MapperList.card_names (hl b hb), hcount] at hexit
      have hle : (s.lp b).names.card ≤ ((s.lp a).names ∩ (s.lp b).names).card := by omega
      exact Finset.inter_eq_right.mp (Finset.eq_of_subset_of_card_le Finset.inter_subset_right hle)
    have hnone : only (s.pmdOf b w) (s.pmdOf a w) = none := by
      rw [only]
      split_ifs with haw
      · by_contra hbw
        have hmem := hsub ((MapperList.mem_names (hl b hb)).mpr hbw)
        exact (MapperList.mem_names (hl a ha)).mp hmem (Option.isNone_iff_eq_none.mp haw)
      · rfl
    simp only [lacking, hnone, Option.or_none]
  · obtain ⟨u, hu, hrun', -, hdone'⟩ := syncAll_spec alloc isWrite
      (hrun.legal hl) (hn ▸ hb) (hn ▸ ha)
    have hwithin := (hrun.grows hl).within b
    refine ⟨u.2, by rw [hu]; rfl, (hrun.mono fun v hv => .inl hv).trans (hrun'.mono fun v hv => ?_),
      fun hok i hi w => ?_⟩
    · exact (hwithin v hv).symm
    · obtain ⟨-, hspread⟩ := hdone (hok.left hrun'.allocs_le)
      obtain ⟨-, hspread'⟩ := hdone' (hok.right hrun.allocs_le)
      rw [hspread' i (hn ▸ hi) w, hspread i hi w]
      simp only [hspread a ha w, hspread b hb w]
      exact or_lacking _ _ _

/-- The head and the subblock `j` get each other's mappers, and so does every other subblock. -/
theorem syncHptPair_spec (alloc : ℕ → Bool) (isWrite : Bool) (hl : s.Legal) (hzero : 0 < s.descSize)
    (hj : j < s.descSize) :
    ∃ t, syncHptPair alloc isWrite j s = some t ∧
      Installs alloc isWrite (fun v => s.pmdOf 0 v ≠ none ∨ s.pmdOf j v ≠ none) s t ∧
      (OkFrom alloc s t → Spread (fun w => lacking (s.pmdOf 0 w) (s.pmdOf j w)) s t) := by
  have hsame : (s.lp 0).names = (s.lp j).names →
      Spread (fun w => lacking (s.pmdOf 0 w) (s.pmdOf j w)) s s := by
    intro heq i hi w
    have hiff : s.pmdOf 0 w ≠ none ↔ s.pmdOf j w ≠ none := by
      rw [pmdOf, pmdOf, ← MapperList.mem_names (hl 0 hzero), ← MapperList.mem_names (hl j hj), heq]
    have hnone : lacking (s.pmdOf 0 w) (s.pmdOf j w) = none := by
      cases h0 : s.pmdOf 0 w <;> cases hj' : s.pmdOf j w
      · rfl
      · exact absurd h0 (hiff.mpr (by rw [hj']; exact Option.some_ne_none _))
      · exact absurd hj' (hiff.mp (by rw [h0]; exact Option.some_ne_none _))
      · rfl
    simp only [hnone, Option.or_none]
  rw [syncHptPair]
  split_ifs with hempty hone hle
  · refine ⟨s, rfl, .refl, fun _ => hsame ?_⟩
    have h0 := MapperList.card_names (hl 0 hzero)
    have hj' := MapperList.card_names (hl j hj)
    rw [MapperList.empLpCountPmd, MapperList.empLpCountPmd] at hempty
    have hcard : (s.lp 0).names.card = 0 ∧ (s.lp j).names.card = 0 := by omega
    rw [Finset.card_eq_zero.mp hcard.1, Finset.card_eq_zero.mp hcard.2]
  · refine ⟨s, rfl, .refl, fun _ => hsame ?_⟩
    obtain ⟨h0, hj', hvmr⟩ := hone
    have hn : (s.lp 0).next ≠ none := by
      intro hnone
      have hcard := MapperList.card_names (hl 0 hzero)
      rw [(MapperList.names_empty_iff (hl 0 hzero)).mpr hnone] at hcard
      rw [MapperList.empLpCountPmd, hcard, Finset.card_empty] at h0
      cases h0
    obtain ⟨l, hnext⟩ := Option.ne_none_iff_exists'.mp hn
    obtain ⟨v, hv⟩ := Option.ne_none_iff_exists'.mp ((hl 0 hzero).distinct.named (s.lp 0).pmds (by
      rw [MapperList.records_some hnext]
      exact List.mem_cons_self)).1
    rw [MapperList.names_singleton (hl 0 hzero) h0 hv,
      MapperList.names_singleton (hl j hj) hj' (hvmr ▸ hv)]
  · exact syncBoth_spec alloc isWrite hl hzero hj
  · obtain ⟨t, ht, hrun, hdone⟩ := syncBoth_spec alloc isWrite hl hj hzero
    refine ⟨t, ht, hrun.mono fun v hv => hv.symm, fun hok i hi w => ?_⟩
    rw [hdone hok i hi w]
    simp only [lacking_comm]

/-! ### The pass -/

/-- The subblocks up to `j` have the mappers of the head. -/
theorem syncLoop_spec (alloc : ℕ → Bool) (isWrite : Bool) (hl : s.Legal) (hzero : 0 < s.descSize)
    (hj : j < s.descSize) :
    ∃ t, syncLoop alloc isWrite j s = some t ∧
      Installs alloc isWrite (fun v => ∃ k < s.descSize, s.pmdOf k v ≠ none) s t ∧
      (OkFrom alloc s t → (∀ i ≤ j, ∀ w, t.pmdOf i w ≠ none ↔ t.pmdOf 0 w ≠ none) ∧
        ∀ i < s.descSize, ∀ w p, t.pmdOf i w = some p →
          ∃ k < s.descSize, s.pmdOf k w = some p) := by
  induction j with
  | zero =>
      refine ⟨s, rfl, .refl, fun _ => ⟨fun i hi w => ?_, fun i hi w p hp => ⟨i, hi, hp⟩⟩⟩
      rw [Nat.le_zero.mp hi]
  | succ j ih =>
      obtain ⟨t, ht, hrun, hdone⟩ := ih (Nat.lt_of_succ_lt hj)
      have hn := hrun.sameView.descSize
      obtain ⟨u, hu, hrun', hdone'⟩ := syncHptPair_spec alloc isWrite
        (hrun.legal hl) (hn ▸ hzero) (hn ▸ hj)
      have hwithin : ∀ k < s.descSize, ∀ v, t.pmdOf k v ≠ none →
          ∃ k < s.descSize, s.pmdOf k v ≠ none := fun k hk v hv =>
        ((hrun.grows hl).within k v hv).elim (fun h => ⟨k, hk, h⟩) id
      refine ⟨u, by rw [syncLoop, ht, Option.bind_some, hu], hrun.trans (hrun'.mono ?_),
        fun hok => ?_⟩
      · rintro v (hv | hv)
        · exact hwithin 0 hzero v hv
        · exact hwithin (j + 1) hj v hv
      · obtain ⟨hsame, hfrom⟩ := hdone (hok.left hrun'.allocs_le)
        have hspread : ∀ i < t.descSize, ∀ w, u.pmdOf i w =
            (t.pmdOf i w).or (lacking (t.pmdOf 0 w) (t.pmdOf (j + 1) w)) :=
          hdone' (hok.right hrun.allocs_le)
        refine ⟨fun i hi w => ?_, fun i hi w p hp => ?_⟩
        · rw [hspread i (by omega) w, hspread 0 (by omega) w]
          rcases Nat.lt_or_eq_of_le hi with hlt | rfl
          · -- it had the mappers of the head, and gets what the head gets
            have hiff := hsame i (Nat.le_of_lt_succ hlt) w
            rw [Ne, Ne, Option.or_eq_none_iff, Option.or_eq_none_iff, not_and_or, not_and_or]
            exact or_congr hiff Iff.rfl
          · rw [lacking_comm, or_lacking_ne, lacking_comm, or_lacking_ne]
            exact or_comm
        · rw [hspread i (hn ▸ hi) w] at hp
          rcases Option.or_eq_some_iff.mp hp with hold | ⟨-, hnew⟩
          · exact hfrom i hi w p hold
          · rcases eq_of_lacking hnew with h0 | hj'
            · exact hfrom 0 hzero w p h0
            · exact hfrom (j + 1) hj w p hj'

/-- What `sync_hpt_map_in_block` is for: every subblock has a record of exactly the vmrs that had
one in some subblock, with their pmd and the ptes of all pages they see, and no record and no pte
is lost. -/
structure MapsUnion (s t : HptBlock V P) : Prop where
  legal : t.Legal
  union : ∀ i < s.descSize, ∀ v, t.pmdOf i v ≠ none ↔ ∃ k < s.descSize, s.pmdOf k v ≠ none
  pmd : ∀ i < s.descSize, ∀ v p, t.pmdOf i v = some p → ∃ k < s.descSize, s.pmdOf k v = some p
  keep : ∀ i v p, s.pmdOf i v = some p → t.pmdOf i v = some p
  pte : ∀ i v o, (s.pte i v o).isSome → t.pte i v o = s.pte i v o
  full : ∀ i v, s.pmdOf i v = none → t.pmdOf i v ≠ none →
    ∀ o, inRun (s.pageOff v) (s.pageLen v) o → (t.pte i v o).isSome

/-- A run of the pass whose allocations succeed. -/
theorem mapsUnion_of_ok (alloc : ℕ → Bool) (isWrite : Bool) (hl : s.Legal)
    (hzero : 0 < s.descSize) :
    ∃ t, s.syncHptMapInBlock alloc isWrite = some t ∧
      Installs alloc isWrite (fun v => ∃ k < s.descSize, s.pmdOf k v ≠ none) s t ∧
      (OkFrom alloc s t → MapsUnion s t) := by
  have hlast : s.descSize - 1 < s.descSize := Nat.sub_one_lt hzero.ne'
  obtain ⟨t, ht, hrun, hdone⟩ := syncLoop_spec alloc isWrite hl hzero hlast
  refine ⟨t, ht, hrun, fun hok => ?_⟩
  obtain ⟨hsame, hpmd⟩ := hdone hok
  have hgrows := hrun.grows hl
  refine ⟨hrun.legal hl, fun i hi v => ⟨fun hv => ?_, fun ⟨k, hk, hv⟩ => ?_⟩, hpmd, hgrows.keep,
    hgrows.pte, hgrows.full⟩
  · obtain ⟨p, hp⟩ := Option.ne_none_iff_exists'.mp hv
    obtain ⟨k, hk, hkp⟩ := hpmd i hi v p hp
    exact ⟨k, hk, by rw [hkp]; exact nofun⟩
  · obtain ⟨p, hp⟩ := Option.ne_none_iff_exists'.mp hv
    have hkt : t.pmdOf k v ≠ none := by
      rw [hgrows.keep k v p hp]
      exact nofun
    exact (hsame i (by omega) v).mpr ((hsame k (by omega) v).mp hkt)

/-- **One pass is enough.**  For every block, whatever mappers its subblocks have: when no
allocation of a record fails, `sync_hpt_map_in_block` ends with every subblock mapped by all of
them, and nothing is lost. -/
theorem sync_maps_union (hl : s.Legal) (hzero : 0 < s.descSize) (halloc : ∀ k, alloc k = true) :
    ∃ t, s.syncHptMapInBlock alloc isWrite = some t ∧ MapsUnion s t := by
  obtain ⟨t, ht, -, hdone⟩ := mapsUnion_of_ok alloc isWrite hl hzero
  exact ⟨t, ht, hdone fun k _ _ => halloc k⟩

/-- Three subblocks of four pages; the first is mapped by two processes, the second by a third, the
last by nobody and owned by the second process. -/
def threeMappers : HptBlock (Fin 3) (Fin 3) where
  descSize := 3
  subblockSize := 4
  pageOff := fun _ => 0
  pageLen := fun _ => 4
  protWrite := fun _ => false
  vmWrite := fun _ => true
  cow := fun _ => false
  lp := fun i =>
    if i = 0 then ⟨⟨some 0, some 0⟩, some [⟨some 1, some 1⟩], 2⟩
    else if i = 1 then ⟨⟨some 2, some 2⟩, some [], 1⟩
    else MapperList.init (some 1)
  pte := fun i v o =>
    if o < 4 ∧ (i = 0 ∧ v ≠ 2 ∨ i = 1 ∧ v = 2) then some ⟨true, true⟩ else none
  pageDirty := fun i => decide (i < 2)
  mapRefs := fun i => if i = 0 then 8 else if i = 1 then 4 else 0
  rss := fun v => if v = 1 then 8 else 4
  prefetchedCpf := false
  prefetchedCsf := false
  dirty := false
  remote := fun _ => false
  demandOffset := 0
  allocs := 0

theorem legal_threeMappers : threeMappers.Legal := by
  intro i hi
  have hcases : i = 0 ∨ i = 1 ∨ i = 2 := by
    have : threeMappers.descSize = 3 := rfl
    omega
  rcases hcases with rfl | rfl | rfl
  · exact ⟨⟨by decide, by decide⟩, by decide, .mapped (by decide) (by decide) (by decide)⟩
  · exact ⟨⟨by decide, by decide⟩, by decide, .mapped (by decide) (by decide) (by decide)⟩
  · exact MapperList.legal_init _

theorem sync_maps_union_threeMappers :
    ∃ t, threeMappers.syncHptMapInBlock (fun _ => true) true = some t ∧ MapsUnion threeMappers t :=
  sync_maps_union legal_threeMappers (by decide) fun _ => rfl

example : (threeMappers.syncHptMapInBlock (fun _ => true) true).map
    (fun t => (List.range 3).map fun i => (List.finRange 3).map fun v => t.pmdOf i v) =
      some (List.replicate 3 [some 0, some 1, some 2]) := by decide

end HptBlock

end Emp
