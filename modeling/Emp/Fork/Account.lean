import Emp.Els.Split
import Emp.Fork.System
import Emp.Lib.Census

/-!
# The slots that point to a descriptor

Every slot that points to a descriptor lies at the index of the descriptor, so a directory has at
most one, and `refcnt` counts the directories that have it.  A change to the slots of one directory
keeps the count when `refcnt` moves by what the directory gains or loses.

## Main definitions

* `ForkSys.Sound` — the slots point to groups, and `refcnt` counts them.
* `ForkSys.Whole` — the slots of a directory come in whole groups.
* `ForkSys.sound_slots` — one directory is changed.
-/

namespace Emp

namespace ForkSys

variable {s s' : ForkSys} {c d i : ℕ} {x : Slot} {g : Group}

/-- `refcnt` counts the directories whose slot `i` points to the descriptor. -/
def Counted (s : ForkSys) (x : Slot) (i : ℕ) : Prop :=
  s.refcnt x = Nat.count (fun d => s.gpaDir d i = some x) s.numDescs

/-- The groups are sound, every slot points to the descriptor of its index, and `refcnt` counts the
slots. -/
structure Sound (s : ForkSys) : Prop where
  valid : s.backing.Valid
  pos : 0 < s.gpaSize
  root : 0 < s.numDescs
  member : ∀ id g, s.group id = some g → (s.dirAt 0).Member g
  slot : ∀ d i x, s.gpaDir d i = some x → d < s.numDescs ∧ i < s.backing.gpaLen ∧ ∃ g,
    s.group x.group = some g ∧ s.backing.groupAt i = some (g.start, g.allocOrder) ∧
      i = g.start + x.member ∧ x.member < g.len
  counted : ∀ x g, s.group x.group = some g → x.member < g.len → s.Counted x (g.start + x.member)
  fresh : ∀ x, s.group x.group = none → s.refcnt x = 0
  nullRemoved : s.nullRemoved = 0

/-- The slots of a group are populated together. -/
def Whole (s : ForkSys) (d : ℕ) : Prop :=
  ∀ i x g, s.gpaDir d i = some x → s.group x.group = some g →
    ∀ j, g.start ≤ j → j < g.start + g.len → s.gpaDir d j = some ⟨x.group, j - g.start⟩

theorem Sound.memberAt (h : s.Sound) (d : ℕ) {id : ℕ} (hg : s.group id = some g) :
    (s.dirAt d).Member g :=
  (h.member id g hg).congr rfl rfl

/-- A directory of whole groups. -/
theorem Sound.dirInv (h : s.Sound) (hw : s.Whole d) : (s.dirAt d).Inv := by
  refine ⟨h.valid, h.pos, fun _ _ hg => h.memberAt d hg, fun i x hx => ?_⟩
  obtain ⟨-, hlen, g, hg, hat, -⟩ := h.slot d i x hx
  exact ⟨hlen, g, hg, hat, hw i x g hx hg⟩

theorem whole_of_dirInv (h : (s.dirAt d).Inv) : s.Whole d := by
  intro i x g hx hg
  obtain ⟨-, g', hg', -, hall⟩ := h.slot i x hx
  obtain rfl := Option.some.inj (hg'.symm.trans hg)
  exact hall

/-- No slot points to a group that has not been allocated. -/
theorem Sound.counted_fresh (h : s.Sound) (hx : s.group x.group = none) (i : ℕ) : s.Counted x i := by
  rw [Counted, h.fresh x hx, eq_comm, Nat.cast_eq_zero, Nat.count_iff_forall_not]
  intro d _ hd
  obtain ⟨-, -, g, hg, -⟩ := h.slot d i x hd
  rw [hx] at hg
  cases hg

/-- The slots of one directory have changed. -/
structure SlotsOf (s s' : ForkSys) (d : ℕ) : Prop where
  backing : s'.backing = s.backing
  gpaSize : s'.gpaSize = s.gpaSize
  numDescs : s'.numDescs = s.numDescs
  nullRemoved : s'.nullRemoved = s.nullRemoved
  other : ∀ e, e ≠ d → s'.gpaDir e = s.gpaDir e

theorem counted_change (hs : s.SlotsOf s' d) (hd : d < s.numDescs) (h : s.Counted x i)
    (href : s'.refcnt x + (if s.gpaDir d i = some x then 1 else 0) =
      s.refcnt x + if s'.gpaDir d i = some x then 1 else 0) : s'.Counted x i := by
  have hchange := Census.count_change (p := fun e => s.gpaDir e i = some x)
    (q := fun e => s'.gpaDir e i = some x) hd fun e _ hne => by rw [hs.other e hne]
  rw [Counted] at h ⊢
  rw [hs.numDescs]
  split_ifs at href hchange <;> omega

/-- The groups stay where they are. -/
def Keeps (s s' : ForkSys) : Prop := ∀ id g, s.group id = some g → ∃ g', s'.group id = some g' ∧
  g'.start = g.start ∧ g'.allocOrder = g.allocOrder ∧ g'.len = g.len

/-- The slots of one directory change, and groups are made or reordered. -/
theorem sound_slots (h : s.Sound) (hd : d < s.numDescs) (hs : s.SlotsOf s' d)
    (hmember : ∀ id g, s'.group id = some g → (s.dirAt 0).Member g)
    (hold : s.Keeps s')
    (hslot : ∀ i x, s'.gpaDir d i = some x → i < s.backing.gpaLen ∧ ∃ g, s'.group x.group = some g ∧
      s.backing.groupAt i = some (g.start, g.allocOrder) ∧ i = g.start + x.member ∧ x.member < g.len)
    (href : ∀ x g, s'.group x.group = some g → x.member < g.len →
      s'.refcnt x + (if s.gpaDir d (g.start + x.member) = some x then 1 else 0) =
        s.refcnt x + if s'.gpaDir d (g.start + x.member) = some x then 1 else 0)
    (hfresh : ∀ x, s'.group x.group = none → s'.refcnt x = 0) : s'.Sound := by
  refine ⟨hs.backing ▸ h.valid, hs.gpaSize ▸ h.pos, hs.numDescs ▸ h.root, fun id g hg => ?_,
    fun e i x hx => ?_, fun x g hg hm => ?_, hfresh, hs.nullRemoved.trans h.nullRemoved⟩
  · exact (hmember id g hg).congr hs.backing hs.gpaSize
  · rw [hs.numDescs, hs.backing]
    by_cases he : e = d
    · subst he
      obtain ⟨hi, g, hg⟩ := hslot i x hx
      exact ⟨hd, hi, g, hg⟩
    · rw [hs.other e he] at hx
      obtain ⟨hlt, hi, g, hg, hat, heq, hm⟩ := h.slot e i x hx
      obtain ⟨g', hg', hstart, horder, hlen⟩ := hold _ g hg
      exact ⟨hlt, hi, g', hg', by rw [hstart, horder, hat], hstart.symm ▸ heq, hlen.symm ▸ hm⟩
  · refine counted_change hs hd ?_ (href x g hg hm)
    cases hx : s.group x.group with
    | none => exact h.counted_fresh hx _
    | some g₀ =>
        obtain ⟨g', hg', hstart, -, hlen⟩ := hold _ g₀ hx
        obtain rfl := Option.some.inj (hg'.symm.trans hg)
        rw [hstart]
        exact h.counted x g₀ hx (hlen ▸ hm)

/-- The slots of the other directories stay in whole groups. -/
theorem whole_of_other {e : ℕ} (h : s.Sound) (hw : s.Whole e) (hdir : s'.gpaDir e = s.gpaDir e)
    (hold : s.Keeps s') : s'.Whole e := by
  intro i x g' hx hg'
  rw [hdir] at hx ⊢
  obtain ⟨-, -, g, hg, -⟩ := h.slot e i x hx
  obtain ⟨g₁, hg₁, hstart, -, hlen⟩ := hold _ g hg
  obtain rfl := Option.some.inj (hg₁.symm.trans hg')
  rw [hstart, hlen]
  exact hw i x g hx hg

end ForkSys

end Emp
