import Emp.Lib.Counted
import Mathlib.Data.Prod.Lex

/-!
# The view list of a vmdesc

Every vmr that uses a vmdesc views an interval of it, in pages from `vm_base`.  Identical
intervals share one entry with a count.  The first entry is embedded in the vmdesc and is
empty only while the whole list is; the others are allocated.

`ViewList.entries` reads a view list as a sorted list of counted intervals; adding and
deleting a view add and take away one unit of its interval.

## Main definitions

* `ViewList` — the embedded entry and the allocated ones.
* `ViewList.empVmdescViewAdd`, `ViewList.empVmdescViewDel`, `ViewList.empVmdescViewSplit` —
  the three operations.
* `ViewList.WellFormed` — sorted, with positive counts and the minimum embedded.
-/

namespace Emp

/-- `struct emp_vmdesc_view`: `count` vmrs view `[start, finish)`. -/
structure View where
  start : ℕ
  finish : ℕ
  count : ℕ
  deriving DecidableEq, Repr

/-- An interval, ordered by its start and then by its end. -/
abbrev Interval := ℕ ×ₗ ℕ

namespace View

variable (v : View) (start finish : ℕ)

/-- The entry is that of `[start, finish)`. -/
abbrev Is : Prop := v.start = start ∧ v.finish = finish

/-- The entry sorts behind `[start, finish)`. -/
abbrev After : Prop := start < v.start ∨ (v.start = start ∧ finish < v.finish)

def entry : Interval × ℕ := (toLex (v.start, v.finish), v.count)

end View

/-- The embedded entry and the chain of allocated ones. -/
structure ViewList where
  head : View
  next : List View
  deriving DecidableEq, Repr

namespace ViewList

variable (node : Bool) (start finish : ℕ)

/-- `emp_vmdesc_view_init`. -/
def empVmdescViewInit : ViewList := ⟨⟨0, 0, 0⟩, []⟩

/-- The walk of `__emp_vmdesc_view_add` behind the embedded entry; `node` tells whether an
allocated entry is at hand. -/
def addNext : List View → Option (List View)
  | [] => if node then some [⟨start, finish, 1⟩] else none
  | v :: vs =>
    if v.Is start finish then some ({ v with count := v.count + 1 } :: vs)
    else if v.After start finish then
      if node then some (⟨start, finish, 1⟩ :: v :: vs) else none
    else (addNext vs).map (v :: ·)

/-- `__emp_vmdesc_view_add`, under the view lock; `none` is `-ENOMEM`, with the list as it was. -/
def addUnderLock (l : ViewList) : Option ViewList :=
  if l.head.count = 0 then some ⟨⟨start, finish, 1⟩, l.next⟩
  else if l.head.Is start finish then
    some { l with head := { l.head with count := l.head.count + 1 } }
  else if l.head.After start finish then
    -- the old content of the embedded entry moves out into the allocated one
    if node then some ⟨⟨start, finish, 1⟩, l.head :: l.next⟩ else none
  else (addNext node start finish l.next).map fun next => { l with next := next }

/-- `emp_vmdesc_view_add`: an entry is allocated ahead unless the caller says that none can be
needed, and `alloc` tells whether that succeeds. -/
def empVmdescViewAdd (firstOrShared alloc : Bool) (l : ViewList) : Option ViewList :=
  if firstOrShared then l.addUnderLock false start finish
  else if alloc then l.addUnderLock true start finish
  else none

/-- The search of `__emp_vmdesc_view_del` behind the embedded entry. -/
def delNext : List View → Option (List View)
  | [] => none
  | v :: vs =>
    if 0 < v.count ∧ v.Is start finish then
      some (if 1 < v.count then { v with count := v.count - 1 } :: vs else vs)
    else (delNext vs).map (v :: ·)

attribute [grind =] addNext delNext

/-- `emp_vmdesc_view_del`; an interval that is not there is only reported. -/
def empVmdescViewDel (l : ViewList) : ViewList :=
  if 0 < l.head.count ∧ l.head.Is start finish then
    if 1 < l.head.count then { l with head := { l.head with count := l.head.count - 1 } }
    else match l.next with
      -- promote an overflow entry into the embedded one
      | v :: vs => ⟨v, vs⟩
      | [] => { l with head := { l.head with count := 0 } }
  else match delNext start finish l.next with
    | some vs => { l with next := vs }
    | none => l

/-- `emp_vmdesc_view_split`: `alloc1` and `alloc2` tell whether the two entries are allocated.
An entry that the deletion frees takes the place of an allocated one, so both additions have
an entry at hand. -/
def empVmdescViewSplit (mid : ℕ) (alloc1 alloc2 : Bool) (l : ViewList) : Option ViewList :=
  if alloc1 && alloc2 then
    ((l.empVmdescViewDel start finish).addUnderLock true start mid).bind
      fun l' => l'.addUnderLock true mid finish
  else none

/-! ### The list as counted intervals -/

/-- The entries in use. -/
def entries (l : ViewList) : List (Interval × ℕ) :=
  if l.head.count = 0 then [] else (l.head :: l.next).map View.entry

/-- The intervals, each as often as it is viewed. -/
def units (l : ViewList) : List Interval := Counted.units l.entries

/-- Sorted strictly with positive counts, the minimum in the embedded entry, which is empty
only if there is no other. -/
structure WellFormed (l : ViewList) : Prop where
  counted : Counted.WellFormed l.entries
  empty : l.head.count = 0 → l.next = []

variable {node start finish} {l : ViewList}

theorem entries_of_pos (h : 0 < l.head.count) :
    l.entries = l.head.entry :: l.next.map View.entry := by
  rw [entries, if_neg (by omega), List.map_cons]

theorem entry_eq_iff (v : View) : v.entry.1 = toLex (start, finish) ↔ v.Is start finish := by
  simp [View.entry, View.Is]

theorem lt_entry_iff (v : View) : toLex (start, finish) < v.entry.1 ↔ v.After start finish := by
  simp only [View.entry, View.After, Prod.Lex.toLex_lt_toLex]
  constructor <;> rintro (h | ⟨h, h'⟩)
  · exact .inl h
  · exact .inr ⟨h.symm, h'⟩
  · exact .inl h
  · exact .inr ⟨h.symm, h'⟩

/-- With an entry at hand, or when the interval is viewed already, the walk adds one unit. -/
theorem addNext_spec {vs : List View} (hsorted : Counted.WellFormed (vs.map View.entry))
    (hnode : node = true ∨ toLex (start, finish) ∈ Counted.units (vs.map View.entry)) :
    ∃ vs', addNext node start finish vs = some vs' ∧
      vs'.map View.entry = Counted.bump (toLex (start, finish)) (vs.map View.entry) := by
  induction vs with
  | nil =>
      rcases hnode with rfl | hmem
      · exact ⟨_, rfl, rfl⟩
      · cases hmem
  | cons v vs ih =>
      simp only [addNext, List.map_cons, Counted.bump, entry_eq_iff, lt_entry_iff]
      by_cases his : v.Is start finish
      · rw [if_pos his, if_pos his]
        exact ⟨_, rfl, rfl⟩
      rw [if_neg his, if_neg his]
      -- the interval is not that of the entries so far, so it must be behind them
      have hnext : node = true ∨
          toLex (start, finish) ∈ Counted.units (vs.map View.entry) := by
        rcases hnode with hnode | hmem
        · exact .inl hnode
        · rw [List.map_cons, Counted.units_cons, List.mem_append, List.mem_replicate] at hmem
          rcases hmem with ⟨-, heq⟩ | hmem
          · exact absurd ((entry_eq_iff v).mp heq.symm) his
          · exact .inr hmem
      by_cases hafter : v.After start finish
      · rw [if_pos hafter, if_pos hafter]
        rcases hnext with rfl | hmem
        · exact ⟨_, rfl, rfl⟩
        · obtain ⟨m, -, hm⟩ := Counted.mem_of_mem_units hmem
          have hlt := (List.pairwise_cons.mp hsorted.sorted).1 _ hm
          exact absurd ((lt_entry_iff v).mpr hafter) (not_lt.mpr hlt.le)
      · rw [if_neg hafter, if_neg hafter]
        obtain ⟨vs', hvs', hmap⟩ := ih hsorted.tail hnext
        exact ⟨v :: vs', by rw [hvs']; rfl, by rw [List.map_cons, hmap]⟩

/-- In a list that is not empty the embedded entry is treated as the first of the chain. -/
theorem addUnderLock_of_addNext (hpos : l.head.count ≠ 0) {v : View} {vs : List View}
    (h : addNext node start finish (l.head :: l.next) = some (v :: vs)) :
    l.addUnderLock node start finish = some ⟨v, vs⟩ := by
  simp only [addNext] at h
  rw [addUnderLock, if_neg hpos]
  split_ifs at h ⊢
  · cases h
    rfl
  · cases h
    rfl
  · cases hnext : addNext node start finish l.next with
    | none => simp [hnext] at h
    | some vs' =>
        simp only [hnext, Option.map_some, Option.some.injEq, List.cons.injEq] at h
        rw [Option.map_some, h.1, h.2]

/-- `__emp_vmdesc_view_add` adds one unit of the interval, if it has an entry at hand or
needs none: the list is empty or the interval viewed already. -/
theorem addUnderLock_spec (h : l.WellFormed)
    (hnode : node = true ∨ l.head.count = 0 ∨ toLex (start, finish) ∈ l.units) :
    ∃ l', l.addUnderLock node start finish = some l' ∧ l'.WellFormed ∧
      l'.entries = Counted.bump (toLex (start, finish)) l.entries := by
  suffices hadd : ∃ l', l.addUnderLock node start finish = some l' ∧ 0 < l'.head.count ∧
      l'.entries = Counted.bump (toLex (start, finish)) l.entries by
    obtain ⟨l', hl', hpos, hentries⟩ := hadd
    refine ⟨l', hl', ⟨hentries ▸ Counted.wellFormed_bump _ h.counted, fun hz => ?_⟩, hentries⟩
    omega
  by_cases hzero : l.head.count = 0
  · refine ⟨⟨⟨start, finish, 1⟩, l.next⟩, ?_, Nat.one_pos, ?_⟩
    · rw [addUnderLock, if_pos hzero]
    · rw [entries_of_pos Nat.one_pos, h.empty hzero, entries, if_pos hzero]
      rfl
  have hentries : l.entries = (l.head :: l.next).map View.entry :=
    entries_of_pos (Nat.pos_of_ne_zero hzero)
  have hnode' : node = true ∨
      toLex (start, finish) ∈ Counted.units ((l.head :: l.next).map View.entry) := by
    rw [← hentries]
    exact hnode.imp_right fun h => h.resolve_left hzero
  obtain ⟨vs, hvs, hmap⟩ := addNext_spec (hentries ▸ h.counted) hnode'
  cases vs with
  | nil => exact absurd hmap.symm (Counted.bump_ne_nil _ _)
  | cons v vs =>
      have hpos : 0 < v.count := by
        refine (Counted.wellFormed_bump (toLex (start, finish)) h.counted).pos v.entry ?_
        rw [hentries, ← hmap]
        exact List.mem_cons_self ..
      refine ⟨⟨v, vs⟩, addUnderLock_of_addNext hzero hvs, hpos, ?_⟩
      rw [entries_of_pos hpos, hentries, ← hmap]
      rfl

/-- The search finds a viewed interval and takes one unit away. -/
theorem delNext_spec {vs : List View} (hvs : Counted.WellFormed (vs.map View.entry))
    (hmem : toLex (start, finish) ∈ Counted.units (vs.map View.entry)) :
    ∃ vs', delNext start finish vs = some vs' ∧
      vs'.map View.entry = Counted.drop (toLex (start, finish)) (vs.map View.entry) := by
  induction vs with
  | nil => cases hmem
  | cons v vs ih =>
      have hpos : 0 < v.count := hvs.pos v.entry (List.mem_cons_self ..)
      simp only [delNext, List.map_cons, Counted.drop, entry_eq_iff, hpos, true_and]
      by_cases his : v.Is start finish
      · rw [if_pos his, if_pos his]
        by_cases hone : 1 < v.count
        · refine ⟨_, rfl, ?_⟩
          rw [if_pos hone, if_neg (show ¬ v.entry.2 ≤ 1 from not_le.mpr hone)]
          rfl
        · refine ⟨_, rfl, ?_⟩
          rw [if_neg hone, if_pos (show v.entry.2 ≤ 1 from not_lt.mp hone)]
      · rw [if_neg his, if_neg his]
        have hnext : toLex (start, finish) ∈ Counted.units (vs.map View.entry) := by
          rw [List.map_cons, Counted.units_cons, List.mem_append, List.mem_replicate] at hmem
          rcases hmem with ⟨-, heq⟩ | hmem
          · exact absurd ((entry_eq_iff v).mp heq.symm) his
          · exact hmem
        obtain ⟨vs', hvs', hmap⟩ := ih hvs.tail hnext
        exact ⟨v :: vs', by rw [hvs']; rfl, by rw [List.map_cons, hmap]⟩

/-- The list with the entries of a chain; with none, the embedded entry stays and is empty. -/
def ofChain (l : ViewList) : List View → ViewList
  | v :: vs => ⟨v, vs⟩
  | [] => ⟨{ l.head with count := 0 }, []⟩

/-- In a list that is not empty the embedded entry is searched as the first of the chain. -/
theorem empVmdescViewDel_of_delNext {vs : List View}
    (h : delNext start finish (l.head :: l.next) = some vs) :
    l.empVmdescViewDel start finish = l.ofChain vs := by
  simp only [delNext] at h
  rw [empVmdescViewDel]
  split_ifs at h ⊢ with hfound hmore
  · cases h
    rfl
  · cases h
    cases hnext : l.next <;> simp [ofChain]
  · cases hnext : delNext start finish l.next with
    | none => simp [hnext] at h
    | some vs' =>
        simp only [hnext, Option.map_some, Option.some.injEq] at h
        rw [← h]
        rfl

/-- `emp_vmdesc_view_del` takes one unit of a viewed interval away. -/
theorem empVmdescViewDel_spec (h : l.WellFormed) (hmem : toLex (start, finish) ∈ l.units) :
    (l.empVmdescViewDel start finish).WellFormed ∧
      (l.empVmdescViewDel start finish).entries =
        Counted.drop (toLex (start, finish)) l.entries := by
  have hzero : l.head.count ≠ 0 := by
    intro hz
    rw [units, entries, if_pos hz] at hmem
    cases hmem
  have hentries : l.entries = (l.head :: l.next).map View.entry :=
    entries_of_pos (Nat.pos_of_ne_zero hzero)
  have hwf := Counted.wellFormed_drop (toLex (start, finish)) h.counted
  rw [units, hentries] at hmem
  obtain ⟨vs, hvs, hmap⟩ := delNext_spec (hentries ▸ h.counted) hmem
  rw [empVmdescViewDel_of_delNext hvs]
  rw [hentries, ← hmap] at hwf ⊢
  cases vs with
  | nil => exact ⟨⟨Counted.wellFormed_nil, fun _ => rfl⟩, rfl⟩
  | cons v vs =>
      have hpos : 0 < v.count := hwf.pos v.entry (List.mem_cons_self ..)
      have hlist : (⟨v, vs⟩ : ViewList).entries = (v :: vs).map View.entry := entries_of_pos hpos
      exact ⟨⟨hlist ▸ hwf, fun hz => absurd hz hpos.ne'⟩, hlist⟩

/-- A split with both entries allocated trades one unit of the interval for one of each half. -/
theorem empVmdescViewSplit_spec {mid : ℕ} (h : l.WellFormed)
    (hmem : toLex (start, finish) ∈ l.units) :
    ∃ l', l.empVmdescViewSplit start finish mid true true = some l' ∧ l'.WellFormed ∧
      (toLex (start, finish) :: l'.units).Perm
        (toLex (mid, finish) :: toLex (start, mid) :: l.units) := by
  obtain ⟨hdel, hdrop⟩ := empVmdescViewDel_spec h hmem
  set d := l.empVmdescViewDel start finish
  have hgone : (toLex (start, finish) :: d.units).Perm l.units := by
    rw [units, hdrop]
    exact Counted.units_drop h.counted hmem
  obtain ⟨l₁, hl₁, hwf₁, hentries₁⟩ : ∃ l₁, d.addUnderLock true start mid = some l₁ ∧
      l₁.WellFormed ∧ l₁.entries = Counted.bump (toLex (start, mid)) d.entries :=
    addUnderLock_spec hdel (.inl rfl)
  have hfst : l₁.units.Perm (toLex (start, mid) :: d.units) := by
    rw [units, hentries₁]
    exact Counted.units_bump _ _
  obtain ⟨l₂, hl₂, hwf₂, hentries₂⟩ : ∃ l₂, l₁.addUnderLock true mid finish = some l₂ ∧
      l₂.WellFormed ∧ l₂.entries = Counted.bump (toLex (mid, finish)) l₁.entries :=
    addUnderLock_spec hwf₁ (.inl rfl)
  have hsnd : l₂.units.Perm (toLex (mid, finish) :: l₁.units) := by
    rw [units, hentries₂]
    exact Counted.units_bump _ _
  refine ⟨l₂, ?_, hwf₂, ?_⟩
  · rw [empVmdescViewSplit, Bool.and_self, if_pos rfl]
    exact (congrArg (Option.bind · _) hl₁).trans hl₂
  · have hboth : (toLex (start, finish) :: l₂.units).Perm
        (toLex (start, finish) :: ([toLex (mid, finish), toLex (start, mid)] ++ d.units)) :=
      (hsnd.trans (hfst.cons _)).cons _
    have hswap : (toLex (start, finish) ::
        ([toLex (mid, finish), toLex (start, mid)] ++ d.units)).Perm
        ([toLex (mid, finish), toLex (start, mid)] ++ toLex (start, finish) :: d.units) :=
      List.perm_middle.symm
    exact (hboth.trans hswap).trans (hgone.append_left _)

end ViewList

end Emp
