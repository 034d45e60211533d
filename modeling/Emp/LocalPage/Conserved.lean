import Emp.Lib.Transition
import Emp.LocalPage.System
import Mathlib.Tactic.Ring

/-!
# Conservation of the pages

Every step moves pages between places that one operation owns and the free lists, so the pages
stay accounted for and the other operations find theirs where they left them.  What an operation
has in its hands is what its next steps need.

## Main definitions

* `PageSys.Sound` — the pages are accounted for, and are locked where they should be.
* `Hand`, `PageSys.hand` — what a running operation sees.
* `Hand.Carries` — what it needs for what it does next.
-/

namespace Emp

namespace PageSys

variable {s : PageSys} {op : ℕ}

/-! ### Places and locks -/

/-- Whether the pages of a place are locked. -/
def expect (s : PageSys) : PagePlace → Bool
  | .held _ => false
  | .record g => s.inWriteback g
  | _ => true

/-- What holds of the pages, whatever the operations do. -/
structure Sound (s : PageSys) : Prop where
  count : s.allocPagesLen = s.sbSize * s.pages.length
  partition : Inventory.Partitions s.place s.pages
  single : ∀ g, (s.place (.record g)).length ≤ 1
  lock : ∀ {c p}, p ∈ s.place c → s.pageLocked p = s.expect c
  unlocked : s.strayUnlocks = 0
  freed : ∀ g, s.freed g = true → s.place (.record g) = []
  writeback : ∀ g, s.inWriteback g = true → s.place (.record g) ≠ []

/-- A place that can take the pages: a record must be empty and of a descriptor that is alive. -/
def Takes (s : PageSys) (c : PagePlace) (xs : List ℕ) : Prop :=
  ∀ g, c = .record g → s.place c = [] ∧ xs.length ≤ 1 ∧ s.freed g = false

theorem takes_of_free {c : PagePlace} {xs : List ℕ} (h : c.Free) : s.Takes c xs := by
  rintro g rfl
  exact h.elim

theorem takes_held {xs : List ℕ} : s.Takes (.held op) xs := fun _ hc => by cases hc

variable {c c' : PagePlace} {p : ℕ} {xs ys : List ℕ}

theorem single_move (h : s.Sound) (hne : c ≠ c') (hsplit : (xs ++ ys).Perm (s.place c))
    (htakes : s.Takes c' xs) (g : ℕ) :
    (Inventory.move s.place c c' xs ys (.record g)).length ≤ 1 := by
  by_cases hc' : PagePlace.record g = c'
  · obtain ⟨hnil, hlen, -⟩ := htakes g hc'.symm
    rw [hc', Inventory.move_target, hnil]
    exact hlen
  · by_cases hc : PagePlace.record g = c
    · have hlen := hsplit.length_eq
      have hone := h.single g
      rw [hc, Inventory.move_source hne]
      rw [hc] at hone
      rw [List.length_append] at hlen
      omega
    · rw [Inventory.move_other hc hc']
      exact h.single g

theorem freed_move (h : s.Sound) (hne : c ≠ c') (hsplit : (xs ++ ys).Perm (s.place c))
    (htakes : s.Takes c' xs) (g : ℕ) (hg : s.freed g = true) :
    Inventory.move s.place c c' xs ys (.record g) = [] := by
  have hnil := h.freed g hg
  by_cases hc' : PagePlace.record g = c'
  · obtain ⟨-, -, hlive⟩ := htakes g hc'.symm
    rw [hlive] at hg
    cases hg
  · by_cases hc : PagePlace.record g = c
    · rw [hc] at hnil ⊢
      rw [hnil] at hsplit
      rw [Inventory.move_source hne]
      exact (List.append_eq_nil_iff.mp hsplit.eq_nil).2
    · rwa [Inventory.move_other hc hc']

theorem writeback_move (h : s.Sound) (htakes : s.Takes c' xs)
    (hwb : ∀ g, c = .record g → s.inWriteback g = false) (g : ℕ) (hg : s.inWriteback g = true) :
    Inventory.move s.place c c' xs ys (.record g) ≠ [] := by
  have hgc : PagePlace.record g ≠ c := by
    intro hc
    rw [hwb g hc.symm] at hg
    cases hg
  by_cases hgc' : PagePlace.record g = c'
  · obtain ⟨hnil, -, -⟩ := htakes g hgc'.symm
    exact absurd (hgc' ▸ hnil) (h.writeback g hg)
  · rw [Inventory.move_other hgc hgc']
    exact h.writeback g hg

/-- Pages go to another place, and are locked or unlocked as that place expects. -/
theorem sound_relocate {locked : ℕ → Bool} (h : s.Sound) (hne : c ≠ c')
    (hsplit : (xs ++ ys).Perm (s.place c)) (htakes : s.Takes c' xs)
    (hwb : ∀ g, c = .record g → s.inWriteback g = false) (hin : ∀ q ∈ xs, locked q = s.expect c')
    (hout : ∀ q, q ∉ xs → locked q = s.pageLocked q) :
    Sound { s with place := Inventory.move s.place c c' xs ys, pageLocked := locked } := by
  have hdisj := (List.nodup_append.mp (hsplit.nodup_iff.mpr (h.partition.nodup c))).2.2
  refine ⟨h.count, h.partition.move hne hsplit, single_move h hne hsplit htakes, ?_, h.unlocked,
    freed_move h hne hsplit htakes, writeback_move h htakes hwb⟩
  intro d q hq
  rcases (Inventory.mem_move hne).mp hq with ⟨rfl, hx⟩ | hold
  · exact hin q hx
  · -- a page that stays is none of those that go
    have hold' : q ∈ s.place d ∧ q ∉ xs := by
      split_ifs at hold with hd
      · subst hd
        exact ⟨hsplit.mem_iff.mp (List.mem_append_right _ hold), fun hx => hdisj q hx q hold rfl⟩
      · refine ⟨hold, fun hx => hd (h.partition.apart hold ?_)⟩
        exact hsplit.mem_iff.mp (List.mem_append_left _ hx)
    exact (hout q hold'.2).trans (h.lock hold'.1)

/-- A move between two places whose pages are locked alike. -/
theorem sound_move (h : s.Sound) (hne : c ≠ c') (hsplit : (xs ++ ys).Perm (s.place c))
    (hexpect : s.expect c = s.expect c') (htakes : s.Takes c' xs)
    (hwb : ∀ g, c = .record g → s.inWriteback g = false) : (s.move c c' xs ys).Sound := by
  refine sound_relocate h hne hsplit htakes hwb (fun q hq => ?_) fun _ _ => rfl
  rw [← hexpect]
  exact h.lock (hsplit.mem_iff.mp (List.mem_append_left _ hq))

/-- A page is locked or unlocked on its way to another place. -/
theorem sound_relock (h : s.Sound) (hne : c ≠ c') (hsplit : (p :: ys).Perm (s.place c))
    (htakes : s.Takes c' [p]) (hwb : ∀ g, c = .record g → s.inWriteback g = false) :
    Sound { s with
      place := Inventory.move s.place c c' [p] ys
      pageLocked := Function.update s.pageLocked p (s.expect c') } := by
  refine sound_relocate h hne hsplit htakes hwb (fun q hq => ?_) fun q hq => ?_
  · rw [List.mem_singleton.mp hq, Function.update_self]
  · exact Function.update_of_ne (mt List.mem_singleton.mpr hq) ..

/-- A page goes back to the host, unlocked. -/
theorem sound_freePages (h : s.Sound) (hsplit : (p :: ys).Perm (s.place c))
    (hwb : ∀ g, c = .record g → s.inWriteback g = false) :
    Sound { s with
      place := Function.update s.place c ys
      pageLocked := Function.update s.pageLocked p false
      pages := s.pages.erase p
      allocPagesLen := s.allocPagesLen - s.sbSize } := by
  have hp : p ∈ s.place c := hsplit.mem_iff.mp (List.mem_cons_self ..)
  have hnodup := List.nodup_cons.mp (hsplit.nodup_iff.mpr (h.partition.nodup c))
  have hlen := hsplit.length_eq
  have hmem : ∀ {d q}, q ∈ Function.update s.place c ys d → q ∈ s.place d ∧ q ≠ p := by
    intro d q hq
    by_cases hd : d = c
    · subst hd
      rw [Function.update_self] at hq
      exact ⟨hsplit.mem_iff.mp (List.mem_cons_of_mem _ hq), fun heq => hnodup.1 (heq ▸ hq)⟩
    · rw [Function.update_of_ne hd] at hq
      exact ⟨hq, fun heq => hd (h.partition.apart (heq ▸ hq) hp)⟩
  have hrecord : ∀ g, (Function.update s.place c ys (.record g)).length ≤ (s.place (.record g)).length := by
    intro g
    by_cases hg : PagePlace.record g = c
    · rw [hg, Function.update_self]
      rw [List.length_cons] at hlen
      omega
    · rw [Function.update_of_ne hg]
  refine ⟨?_, h.partition.remove hsplit, fun g => (hrecord g).trans (h.single g), fun hq => ?_,
    h.unlocked, fun g hg => ?_, fun g hg => ?_⟩
  · have hpos := List.length_pos_of_mem (h.partition.mem hp)
    have hcast : ((s.pages.length - 1 : ℕ) : ℤ) = s.pages.length - 1 := by omega
    simp only [List.length_erase_of_mem (h.partition.mem hp), hcast, h.count]
    ring
  · exact (Function.update_of_ne (hmem hq).2 ..).trans (h.lock (hmem hq).1)
  · have hle := hrecord g
    rw [h.freed g hg, List.length_nil, Nat.le_zero] at hle
    exact List.eq_nil_of_length_eq_zero hle
  · have hgc : PagePlace.record g ≠ c := by
      intro hc
      have hno := hwb g hc.symm
      exact absurd (hno.symm.trans hg) Bool.false_ne_true
    intro hnil
    exact h.writeback g hg ((Function.update_of_ne hgc ..).symm.trans hnil)

/-- A page from the host, unlocked. -/
theorem sound_allocSubblock (h : s.Sound) (hnew : p ∉ s.pages) :
    Sound { s with
      place := Function.update s.place (.held op) (s.place (.held op) ++ [p])
      pageLocked := Function.update s.pageLocked p false
      pages := p :: s.pages
      allocPagesLen := s.allocPagesLen + s.sbSize } := by
  have hrecord : ∀ g, Function.update s.place (.held op) (s.place (.held op) ++ [p]) (.record g) =
      s.place (.record g) := fun g => Function.update_of_ne (by simp) ..
  have hmem : ∀ {c q}, q ∈ Function.update s.place (.held op) (s.place (.held op) ++ [p]) c →
      q = p ∧ c = .held op ∨ q ≠ p ∧ q ∈ s.place c := by
    intro c q hq
    by_cases hc : c = .held op
    · subst hc
      rw [Function.update_self, List.mem_append, List.mem_singleton] at hq
      rcases hq with hq | rfl
      · exact .inr ⟨fun heq => hnew (heq ▸ h.partition.mem hq), hq⟩
      · exact .inl ⟨rfl, rfl⟩
    · rw [Function.update_of_ne hc] at hq
      exact .inr ⟨fun heq => hnew (heq ▸ h.partition.mem hq), hq⟩
  refine ⟨?_, h.partition.add hnew, fun g => (congrArg List.length (hrecord g)).le.trans (h.single g),
    fun hq => ?_, h.unlocked, fun g hg => (hrecord g).trans (h.freed g hg),
    fun g hg hnil => h.writeback g hg ((hrecord g).symm.trans hnil)⟩
  · simp only [List.length_cons, h.count]
    push_cast
    ring
  · rcases hmem hq with ⟨rfl, rfl⟩ | ⟨hne, hold⟩
    · exact Function.update_self ..
    · exact (Function.update_of_ne hne ..).trans (h.lock hold)

end PageSys

/-! ### What an operation sees -/

/-- A block that the operation has locked. -/
structure BlockView where
  record : List ℕ
  inWriteback : Bool
  freed : Bool

/-- The pages in the hands of an operation, and its blocks. -/
structure Hand where
  held : List ℕ
  pull : List ℕ
  block : ℕ → Option BlockView

def PageSys.hand (s : PageSys) (op : ℕ) : Hand where
  held := s.place (.held op)
  pull := s.place (.pull op)
  block g := if s.lockedBy g = some op then
    some ⟨s.place (.record g), s.inWriteback g, s.freed g⟩ else none

namespace Hand

variable (h : Hand)

def Empty : Prop := h.held = [] ∧ h.pull = []

/-- The descriptor can get a page. -/
def Vacant (g : ℕ) : Prop := h.block g = some ⟨[], false, false⟩

/-- The descriptor is locked and has no page. -/
def Bare (g : ℕ) : Prop := ∃ b, h.block g = some b ∧ b.record = []

/-- The page of the descriptor is being written back. -/
def Busy (g : ℕ) : Prop := ∃ b, h.block g = some b ∧ b.inWriteback = true

/-- The descriptors of a copy-on-write fault. -/
structure Copies (job : CowJob) : Prop where
  group : ∀ g ∈ job.group, (h.block g).isSome
  nodup : (job.rest.flatMap CowBlock.news).Nodup
  vacant : ∀ g ∈ job.rest.flatMap CowBlock.news, g ∈ job.group ∧ h.Vacant g
  olds : ∀ g ∈ job.rest.flatMap CowBlock.olds, g ∉ job.group ∧
    ∃ b, h.block g = some b ∧ b.inWriteback = false

/-- The descriptors that got their copies have pages. -/
def Copied (done : List ℕ) (job : CowJob) : Prop := ∀ g ∈ done, g ∈ job.group ∧ ¬ h.Bare g

def Uses : AllocUse → Prop
  | .block need gpas => 0 < need ∧ h.held.length + need = gpas.length ∧ gpas.Nodup ∧
      ∀ g ∈ gpas, h.Vacant g
  | .dup todo done job => h.held = [] ∧ todo ≠ [] ∧ h.Copied done job ∧
      h.Copies { job with rest := .copy todo :: job.rest }

/-- What an operation needs for what it does next. -/
def Carries : Task → Prop
  | .idle => h.Empty
  | .finish => h.Empty
  | .alloc pc _ use => (pc ≠ .pulled → h.pull = []) ∧ h.Uses use
  | .fetchBlock _ todo _ => h.pull = [] ∧ h.held.length = todo.length ∧ todo.Nodup ∧
      ∀ g ∈ todo, h.Vacant g
  | .unwindFetchBlock _ _ => False
  | .freeBlockPages _ => h.pull = []
  | .setGpaRemote _ todo => h.Empty ∧ ∀ g ∈ todo, (h.block g).isSome
  | .flushGpa todo group => h.Empty ∧ (∀ g ∈ todo, g ∈ group) ∧
      ∀ g ∈ group, (h.block g).isSome ∧ (g ∈ todo ∨ h.Bare g)
  | .freeGpadesc group => h.Empty ∧ ∀ g ∈ group, h.Bare g
  | .cow job => h.Empty ∧ h.Copies job
  | .dupLocalPage todo done job => h.pull = [] ∧ h.held.length = 1 ∧ todo ≠ [] ∧ h.Copied done job ∧
      h.Copies { job with rest := .copy todo :: job.rest }
  | .dupError done job => h.Empty ∧ done = [] ∧ ∀ g ∈ job.group, h.Bare g
  | .orphan job => h.Empty ∧ h.Copies job
  | .handoff pairs job => h.Empty ∧ h.Copies { job with rest := .handoff pairs :: job.rest }
  | .clearInFlight _ _ => h.Empty
  | .evictBlock todo done => h.Empty ∧ (∀ g ∈ todo, (h.block g).isSome) ∧ done.Nodup ∧
      ∀ g ∈ done, h.Busy g
  | .evictError done => h.Empty ∧ done.Nodup ∧ ∀ g ∈ done, h.Busy g
  | .clearWriteback _ todo _ => h.Empty ∧ todo.Nodup ∧ ∀ g ∈ todo, h.Busy g
  | .splice _ _ => False

variable {h} {h' : Hand}

theorem Uses.congr {use : AllocUse} (hu : h.Uses use) (hheld : h'.held = h.held)
    (hblock : h'.block = h.block) : h'.Uses use := by
  obtain ⟨held, pull, block⟩ := h
  obtain ⟨held', pull', block'⟩ := h'
  obtain rfl : held' = held := hheld
  obtain rfl : block' = block := hblock
  cases use with
  | block need gpas => exact hu
  | dup todo done job =>
      obtain ⟨hnil, hne, hcopied, hgroup, hnodup, hvacant, holds⟩ := hu
      exact ⟨hnil, hne, hcopied, hgroup, hnodup, hvacant, holds⟩

theorem Copies.congr {job : CowJob} (hc : h.Copies job) (hblock : h'.block = h.block) :
    h'.Copies job := by
  obtain ⟨held, pull, block⟩ := h
  obtain ⟨held', pull', block'⟩ := h'
  obtain rfl : block' = block := hblock
  exact ⟨hc.group, hc.nodup, hc.vacant, hc.olds⟩

/-- With the page the operation goes on. -/
theorem Uses.carries_gotPage {use : AllocUse} {cpu p : ℕ} (hu : h.Uses use)
    (hheld : h'.held = h.held ++ [p]) (hpull : h'.pull = []) (hblock : h'.block = h.block) :
    h'.Carries (PageSys.gotPage cpu use) := by
  obtain ⟨held', pull', block'⟩ := h'
  obtain rfl : held' = h.held ++ [p] := hheld
  obtain rfl : pull' = [] := hpull
  obtain rfl : block' = h.block := hblock
  cases use with
  | block need gpas =>
      obtain ⟨hpos, hlen, hnodup, hvacant⟩ := hu
      rw [PageSys.gotPage]
      split_ifs with hmore
      · refine ⟨fun _ => rfl, by omega, ?_, hnodup, hvacant⟩
        rw [List.length_append, List.length_singleton]
        omega
      · refine ⟨rfl, ?_, hnodup, hvacant⟩
        rw [List.length_append, List.length_singleton]
        omega
  | dup todo done job =>
      obtain ⟨hnil, hne, hcopied, hcopies⟩ := hu
      refine ⟨rfl, ?_, hne, hcopied, hcopies.congr rfl⟩
      rw [hnil]
      rfl

/-- Without it the operation gives up. -/
theorem Uses.carries_noPage {use : AllocUse} {cpu : ℕ} (hu : h.Uses use) (hpull : h.pull = [])
    (hbare : ∀ todo done job, use = .dup todo done job → ∀ g ∈ job.group, h.Bare g) :
    h.Carries (PageSys.noPage cpu use) := by
  cases use with
  | block need gpas => exact hpull
  | dup todo done job =>
      obtain ⟨hnil, -, hcopied, -⟩ := hu
      have hall := hbare todo done job rfl
      refine ⟨⟨hnil, hpull⟩, List.eq_nil_iff_forall_not_mem.mpr fun g hg => ?_, hall⟩
      exact (hcopied g hg).2 (hall g (hcopied g hg).1)

end Hand

namespace PageSys

variable {s s' : PageSys} {op op' g : ℕ} {c c' : PagePlace} {p : ℕ} {xs ys : List ℕ}

/-- An operation is where it can go on. -/
def Goes (s : PageSys) (op : ℕ) : Prop :=
  match s.task op with
  | .splice _ next => (s.hand op).Carries next
  | t => s.place (.toGlobal op) = [] ∧ (s.hand op).Carries t

theorem goes_of_carries {t : Task} (ht : s.task op = t) (hto : s.place (.toGlobal op) = [])
    (h : (s.hand op).Carries t) : s.Goes op := by
  rw [Goes, ht]
  cases t with
  | splice => exact h.elim
  | _ => exact ⟨hto, h⟩

theorem carries_of_goes {t : Task} (h : s.Goes op) (ht : s.task op = t)
    (hne : ∀ cpu next, t ≠ .splice cpu next) :
    s.place (.toGlobal op) = [] ∧ (s.hand op).Carries t := by
  rw [Goes, ht] at h
  cases t with
  | splice cpu next => exact absurd rfl (hne cpu next)
  | _ => exact h

theorem block_eq_some {b : BlockView} : (s.hand op).block g = some b ↔
    s.lockedBy g = some op ∧ b = ⟨s.place (.record g), s.inWriteback g, s.freed g⟩ := by
  simp only [hand, Option.ite_none_right_eq_some, Option.some.injEq]
  exact and_congr_right fun _ => eq_comm

theorem isSome_block : ((s.hand op).block g).isSome ↔ s.lockedBy g = some op := by
  simp only [hand]
  split_ifs with h
  · exact iff_of_true rfl h
  · exact iff_of_false (by simp) h

theorem vacant_iff : (s.hand op).Vacant g ↔ s.lockedBy g = some op ∧ s.place (.record g) = [] ∧
    s.inWriteback g = false ∧ s.freed g = false := by
  rw [Hand.Vacant, block_eq_some, BlockView.mk.injEq]
  exact and_congr_right fun _ => by simp only [eq_comm]

theorem bare_iff : (s.hand op).Bare g ↔ s.lockedBy g = some op ∧ s.place (.record g) = [] := by
  simp only [Hand.Bare, block_eq_some]
  constructor
  · rintro ⟨b, ⟨hlock, rfl⟩, hnil⟩
    exact ⟨hlock, hnil⟩
  · rintro ⟨hlock, hnil⟩
    exact ⟨_, ⟨hlock, rfl⟩, hnil⟩

theorem busy_iff : (s.hand op).Busy g ↔ s.lockedBy g = some op ∧ s.inWriteback g = true := by
  simp only [Hand.Busy, block_eq_some]
  constructor
  · rintro ⟨b, ⟨hlock, rfl⟩, hwb⟩
    exact ⟨hlock, hwb⟩
  · rintro ⟨hlock, hwb⟩
    exact ⟨_, ⟨hlock, rfl⟩, hwb⟩

/-! ### What an operation leaves alone -/

/-- The places that a step of the operation can touch. -/
def Own (s : PageSys) (op : ℕ) : PagePlace → Prop
  | .held o => o = op
  | .pull o => o = op
  | .toGlobal o => o = op
  | .record g => s.lockedBy g = some op
  | _ => True

/-- A step of the operation on its own places and the free lists. -/
structure Local (s s' : PageSys) (op : ℕ) : Prop where
  place : ∀ c, ¬ s.Own op c → s'.place c = s.place c
  lockedBy : s'.lockedBy = s.lockedBy
  block : ∀ g, s.lockedBy g ≠ some op → s'.inWriteback g = s.inWriteback g ∧ s'.freed g = s.freed g
  task : ∀ op', op' ≠ op → s'.task op' = s.task op'

theorem Local.trans {t : PageSys} (h : s.Local t op) (h' : t.Local s' op) : s.Local s' op := by
  have hown : ∀ c, t.Own op c ↔ s.Own op c := by
    intro c
    cases c <;> simp only [Own, h.lockedBy]
  refine ⟨fun c hc => ?_, h'.lockedBy.trans h.lockedBy, fun g hg => ?_, fun o ho => ?_⟩
  · rw [h'.place c (mt (hown c).mp hc), h.place c hc]
  · obtain ⟨hwb, hfreed⟩ := h.block g hg
    obtain ⟨hwb', hfreed'⟩ := h'.block g (h.lockedBy ▸ hg)
    exact ⟨hwb'.trans hwb, hfreed'.trans hfreed⟩
  · rw [h'.task o ho, h.task o ho]

/-- Another operation goes on as before. -/
theorem Local.goes (h : s.Local s' op) (hne : op' ≠ op) (hgoes : s.Goes op') : s'.Goes op' := by
  have hhand : s'.hand op' = s.hand op' := by
    have hheld := h.place (.held op') hne
    have hpull := h.place (.pull op') hne
    simp only [hand, hheld, hpull, h.lockedBy, Hand.mk.injEq, true_and]
    funext g
    split_ifs with hg
    · have hno : s.lockedBy g ≠ some op := by
        rw [hg]
        simpa using hne
      rw [h.place (.record g) hno, (h.block g hno).1, (h.block g hno).2]
    · rfl
  rw [Goes, h.task op' hne, hhand, h.place (.toGlobal op') hne]
  exact hgoes

theorem local_move (hc : s.Own op c) (hc' : s.Own op c') : s.Local (s.move c c' xs ys) op :=
  ⟨fun d hd => Inventory.move_other (fun heq : d = c => hd (heq ▸ hc))
    fun heq : d = c' => hd (heq ▸ hc'), rfl, fun _ _ => ⟨rfl, rfl⟩, fun _ _ => rfl⟩

theorem local_setTask (t : Task) : s.Local (s.setTask op t) op :=
  ⟨fun _ _ => rfl, rfl, fun _ _ => ⟨rfl, rfl⟩, fun _ ho => Function.update_of_ne ho ..⟩

theorem local_unlockPage : s.Local (s.unlockPage p) op :=
  ⟨fun _ _ => rfl, rfl, fun _ _ => ⟨rfl, rfl⟩, fun _ _ => rfl⟩

theorem local_lockPage : s.Local (s.lockPage p) op :=
  ⟨fun _ _ => rfl, rfl, fun _ _ => ⟨rfl, rfl⟩, fun _ _ => rfl⟩

theorem local_freePages (hc : s.Own op c) : s.Local (s.freePages c p ys) op :=
  ⟨fun d hd => Function.update_of_ne (fun heq : d = c => hd (heq ▸ hc)) .., rfl,
    fun _ _ => ⟨rfl, rfl⟩, fun _ _ => rfl⟩

/-- The places that an operation sees. -/
def Seen : PagePlace → Prop
  | .held _ => True
  | .pull _ => True
  | .record _ => True
  | _ => False

theorem hand_congr (hplace : ∀ c, Seen c → s'.place c = s.place c) (hlock : s'.lockedBy = s.lockedBy)
    (hwb : s'.inWriteback = s.inWriteback) (hfreed : s'.freed = s.freed) : s'.hand op = s.hand op := by
  simp only [hand, hplace (.held op) trivial, hplace (.pull op) trivial, hlock, hwb, hfreed,
    hplace (.record _) trivial]

theorem Sound.setTask (h : s.Sound) (t : Task) : (s.setTask op t).Sound :=
  ⟨h.count, h.partition, h.single, h.lock, h.unlocked, h.freed, h.writeback⟩

theorem unlockPage_lockPage :
    (s.lockPage p).unlockPage p = { s with pageLocked := Function.update s.pageLocked p false } := by
  simp [lockPage, unlockPage]

theorem expect_of_unseen (hc : ¬ Seen c) : s.expect c = true := by
  cases c with
  | global | buf | toGlobal => rfl
  | _ => exact absurd trivial hc

theorem free_of_unseen (hc : ¬ Seen c) : c.Free := by
  cases c with
  | global | buf | toGlobal => trivial
  | _ => exact absurd trivial hc

/-- A move between the lists that are nobody's, or on their way there. -/
theorem sound_unseen (h : s.Sound) (hc : ¬ Seen c) (hc' : ¬ Seen c') (hne : c ≠ c')
    (hsplit : xs ++ ys = s.place c) : (s.move c c' xs ys).Sound ∧
      ∀ op, (s.move c c' xs ys).hand op = s.hand op := by
  refine ⟨?_, fun op => hand_congr (fun d hd => ?_) rfl rfl rfl⟩
  · refine sound_move h hne (hsplit ▸ List.Perm.refl _) ?_ (takes_of_free (free_of_unseen hc')) ?_
    · rw [expect_of_unseen hc, expect_of_unseen hc']
    · rintro g rfl
      exact absurd trivial hc
  · exact Inventory.move_other (fun heq => hc (heq ▸ hd)) fun heq => hc' (heq ▸ hd)

/-- What a step has to do. -/
structure StepOk (s s' : PageSys) (op : ℕ) : Prop where
  sound : s'.Sound
  others : s.Local s' op
  goes : s'.Goes op

/-! ### Giving a page back -/

/-- The place is one of the operation's, whose pages are not locked. -/
def Mine (s : PageSys) (op : ℕ) (c : PagePlace) : Prop :=
  c = .held op ∨ ∃ g, c = .record g ∧ s.lockedBy g = some op ∧ s.inWriteback g = false

theorem Mine.own (h : s.Mine op c) : s.Own op c := by
  rcases h with rfl | ⟨g, rfl, hlock, -⟩
  · exact rfl
  · exact hlock

theorem Mine.quiet (h : s.Mine op c) (g : ℕ) (hg : c = .record g) : s.inWriteback g = false := by
  subst hg
  rcases h with h | ⟨g', hg, -, hwb⟩
  · cases h
  · cases hg
    exact hwb

theorem Mine.ne (h : s.Mine op c) (hc' : ¬ Seen c') : c ≠ c' := by
  rintro rfl
  rcases h with rfl | ⟨g, rfl, -⟩
  · exact hc' trivial
  · exact hc' trivial

/-- What an operation sees after a page has left the place. -/
def handWithout (s : PageSys) (op : ℕ) (c : PagePlace) (ys : List ℕ) : Hand :=
  { s with place := Function.update s.place c ys }.hand op

theorem move_seen (hc' : ¬ Seen c') {d : PagePlace} (hd : Seen d) :
    Inventory.move s.place c c' xs ys d = Function.update s.place c ys d :=
  Function.update_of_ne (fun heq : d = c' => hc' (heq ▸ hd)) ..

/-- The page is on the list of the cpu, which is cut if it is too long. -/
theorem stepOk_cut {t : PageSys} {cpu : ℕ} {next : Task} (ht : t.Sound) (hlocal : s.Local t op)
    (hto : t.place (.toGlobal op) = []) (hnext : (t.hand op).Carries next) :
    s.StepOk
      (if (t.place (.buf cpu)).length ≤ t.freeLpagesLen then t.setTask op next
        else (t.move (.buf cpu) (.toGlobal op)
          ((t.place (.buf cpu)).take ((t.place (.buf cpu)).length - t.freeLpagesLen / 2))
          ((t.place (.buf cpu)).drop ((t.place (.buf cpu)).length - t.freeLpagesLen / 2))).setTask op
          (.splice (some cpu) next)) op := by
  split_ifs with hlen
  · exact ⟨ht.setTask next, hlocal.trans (local_setTask next),
      goes_of_carries (Function.update_self ..) hto hnext⟩
  · have hbuf : PagePlace.buf cpu ≠ .toGlobal op := by simp
    obtain ⟨hsound, hhand⟩ := sound_unseen ht (show ¬ Seen (.buf cpu) from id)
      (show ¬ Seen (.toGlobal op) from id) hbuf (List.take_append_drop
        ((t.place (.buf cpu)).length - t.freeLpagesLen / 2) (t.place (.buf cpu)))
    have hown : t.Own op (.buf cpu) := trivial
    have hown' : t.Own op (.toGlobal op) := show _ = _ from rfl
    refine ⟨hsound.setTask _, (hlocal.trans (local_move hown hown')).trans (local_setTask _), ?_⟩
    simp only [Goes, setTask, Function.update_self]
    rw [← hhand op] at hnext
    exact hnext

/-- `push_free_page_list` of a page that the operation has locked. -/
theorem stepOk_pushFreePageList {cpu : Option ℕ} {raced : Bool} {next : Task} (h : s.Sound)
    (hc : s.Mine op c) (hsplit : (p :: ys).Perm (s.place c)) (hto : s.place (.toGlobal op) = [])
    (hnext : (s.handWithout op c ys).Carries next) :
    s.StepOk ((s.lockPage p).pushFreePageList op cpu c p ys raced next) op := by
  have hown := hc.own
  have hlocal : s.Local (s.lockPage p) op := local_lockPage
  have hne : ∀ {d}, ¬ Seen d → c ≠ d := fun hd => hc.ne hd
  -- on a free list the page is locked
  have hlist : ∀ {d}, ¬ Seen d → d.Free → s.expect d = true → ((s.lockPage p).move c d [p] ys).Sound := by
    intro d hd hfree hexpect
    have hsound := sound_relock h (hne hd) hsplit (takes_of_free hfree) hc.quiet
    rwa [hexpect] at hsound
  have hcarries : ∀ d, ¬ Seen d → (((s.lockPage p).move c d [p] ys).hand op).Carries next := by
    intro d hd
    have heq : ((s.lockPage p).move c d [p] ys).hand op = s.handWithout op c ys :=
      hand_congr (fun d' hd' => move_seen hd hd') rfl rfl rfl
    rwa [heq]
  have htoGlobal : c ≠ .toGlobal op := hne id
  simp only [pushFreePageList]
  split_ifs with hhost
  · -- back to the host
    let s₁ : PageSys := { s with freePagesReclaim := s.freePagesReclaim - s.sbSize }
    have h₁ : s₁.Sound := ⟨h.count, h.partition, h.single, h.lock, h.unlocked, h.freed, h.writeback⟩
    have hfree : (((s₁.lockPage p).unlockPage p).freePages c p ys).Sound := by
      rw [unlockPage_lockPage]
      exact sound_freePages h₁ hsplit hc.quiet
    refine ⟨hfree.setTask next, ?_, ?_⟩
    · refine Local.trans ?_ (local_setTask next)
      exact ⟨fun d hd => Function.update_of_ne (fun heq : d = c => hd (heq ▸ hown)) .., rfl,
        fun _ _ => ⟨rfl, rfl⟩, fun _ _ => rfl⟩
    · refine goes_of_carries (Function.update_self ..) ?_ hnext
      exact (Function.update_of_ne htoGlobal.symm ..).trans hto
  · cases cpu with
    | none =>
        have hsound : ((s.lockPage p).move c (.toGlobal op) [p] ys).Sound := hlist id trivial rfl
        have hmove : (s.lockPage p).Local ((s.lockPage p).move c (.toGlobal op) [p] ys) op :=
          local_move hown (show _ = _ from rfl)
        refine ⟨hsound.setTask _, (hlocal.trans hmove).trans (local_setTask _), ?_⟩
        simp only [Goes, setTask, Function.update_self]
        exact hcarries (.toGlobal op) id
    | some cpu =>
        have hbuf : c ≠ .buf cpu := hne id
        have hsound : ((s.lockPage p).move c (.buf cpu) [p] ys).Sound := hlist id trivial rfl
        have hmove : (s.lockPage p).Local ((s.lockPage p).move c (.buf cpu) [p] ys) op :=
          local_move hown trivial
        have hto' : Inventory.move s.place c (.buf cpu) [p] ys (.toGlobal op) = [] :=
          (Inventory.move_other htoGlobal.symm (by simp)).trans hto
        exact stepOk_cut hsound (hlocal.trans hmove) hto' (hcarries (.buf cpu) id)

/-- The second half. -/
theorem stepOk_spliceTail {cpu : Option ℕ} {trylock : Bool} {next : Task} (h : s.Sound)
    (hnext : (s.hand op).Carries next) : s.StepOk (s.spliceTail op cpu trylock next) op := by
  have hmove : ∀ d, ¬ Seen d → s.Own op d → PagePlace.toGlobal op ≠ d →
      s.StepOk ((s.move (.toGlobal op) d (s.place (.toGlobal op)) []).setTask op next) op := by
    intro d hd hown hne
    obtain ⟨hsound, hhand⟩ := sound_unseen h (show ¬ Seen (.toGlobal op) from id) hd hne
      (List.append_nil _)
    have hown' : s.Own op (.toGlobal op) := show _ = _ from rfl
    refine ⟨hsound.setTask next, (local_move hown' hown).trans (local_setTask next), ?_⟩
    rw [← hhand op] at hnext
    exact goes_of_carries (Function.update_self ..) (Inventory.move_source hne) hnext
  cases cpu with
  | none => exact hmove .global id trivial (by simp)
  | some cpu =>
      simp only [spliceTail]
      split_ifs
      · exact hmove (.buf cpu) id trivial (by simp)
      · exact hmove .global id trivial (by simp)

/-! ### Getting a page -/

theorem move_other {d : PagePlace} (hd : d ≠ c) (hd' : d ≠ c') :
    (s.move c c' xs ys).place d = s.place d := Inventory.move_other hd hd'

theorem move_source (hne : c ≠ c') : (s.move c c' xs ys).place c = ys := Inventory.move_source hne

theorem move_target : (s.move c c' xs ys).place c' = s.place c' ++ xs := Inventory.move_target

/-- A page is taken off a free list, which is that of a cpu or the one pulled for the operation. -/
theorem sound_takePage {cpu : ℕ} {use : AllocUse} (h : s.Sound) (hc : c.Free)
    (hplace : s.place c = p :: ys) : (s.takePage op c p ys cpu use).Sound := by
  have hlocked : s.pageLocked p = true := by
    rw [h.lock (hplace ▸ List.mem_cons_self ..)]
    cases c <;> first | rfl | exact hc.elim
  have hne : c ≠ .held op := by
    rintro rfl
    exact hc
  have hunlock : s.unlockPage p = { s with pageLocked := Function.update s.pageLocked p false } := by
    simp [unlockPage, hlocked]
  have hperm : (p :: ys).Perm (s.place c) := by rw [hplace]
  have hquiet : ∀ g, c = .record g → s.inWriteback g = false := by
    rintro g rfl
    exact hc.elim
  rw [takePage, hunlock]
  exact (sound_relock h hne hperm takes_held hquiet).setTask _

theorem local_takePage {cpu : ℕ} {use : AllocUse} (hc : s.Own op c) :
    s.Local (s.takePage op c p ys cpu use) op := by
  have hunlock : s.Local (s.unlockPage p) op := local_unlockPage
  have hmove : (s.unlockPage p).Local ((s.unlockPage p).move c (.held op) [p] ys) op :=
    local_move hc (show _ = _ from rfl)
  exact (hunlock.trans hmove).trans (local_setTask _)

theorem takePage_place {cpu : ℕ} {use : AllocUse} (d : PagePlace) :
    (s.takePage op c p ys cpu use).place d = Inventory.move s.place c (.held op) [p] ys d := rfl

theorem takePage_other {cpu : ℕ} {use : AllocUse} {d : PagePlace} (hd : d ≠ c) (hd' : d ≠ .held op) :
    (s.takePage op c p ys cpu use).place d = s.place d := Inventory.move_other hd hd'

/-- A page of the local list. -/
theorem stepOk_takePage {cpu : ℕ} {use : AllocUse} (h : s.Sound) (hto : s.place (.toGlobal op) = [])
    (hpull : s.place (.pull op) = []) (hu : (s.hand op).Uses use)
    (hplace : s.place (.buf cpu) = p :: ys) :
    s.StepOk (s.takePage op (.buf cpu) p ys cpu use) op := by
  have hother : ∀ d, d ≠ .buf cpu → d ≠ .held op →
      (s.takePage op (.buf cpu) p ys cpu use).place d = s.place d := fun _ => takePage_other
  refine ⟨sound_takePage h trivial hplace, local_takePage trivial, ?_⟩
  refine goes_of_carries (Function.update_self ..) ((hother _ (by simp) (by simp)).trans hto)
    (hu.carries_gotPage Inventory.move_target ((hother _ (by simp) (by simp)).trans hpull) ?_)
  funext g
  simp only [hand, hother (.record g) (by simp) (by simp)]
  rfl

/-- The first of the pulled pages; the others go to the local list. -/
theorem stepOk_takePulled {cpu : ℕ} {use : AllocUse} (h : s.Sound)
    (hto : s.place (.toGlobal op) = []) (hu : (s.hand op).Uses use)
    (hplace : s.place (.pull op) = p :: ys) :
    s.StepOk ((s.takePage op (.pull op) p ys cpu use).move (.pull op) (.buf cpu) ys []) op := by
  have hown : s.Own op (.pull op) := show _ = _ from rfl
  have hlocal : s.Local (s.takePage op (.pull op) p ys cpu use) op := local_takePage hown
  have hsound : (s.takePage op (.pull op) p ys cpu use).Sound := sound_takePage h trivial hplace
  have hpull : (s.takePage op (.pull op) p ys cpu use).place (.pull op) = ys := by
    rw [takePage_place, Inventory.move_source (by simp)]
  have hne : PagePlace.pull op ≠ .buf cpu := by simp
  have hother : ∀ d, d ≠ .pull op → d ≠ .buf cpu → d ≠ .held op →
      ((s.takePage op (.pull op) p ys cpu use).move (.pull op) (.buf cpu) ys []).place d = s.place d :=
    fun d hd hd' hd'' => (Inventory.move_other hd hd').trans (takePage_other hd hd'')
  refine ⟨?_, hlocal.trans (local_move hown trivial), ?_⟩
  · exact sound_move hsound hne (by simp [hpull]) rfl (takes_of_free trivial) nofun
  · have hheld : ((s.takePage op (.pull op) p ys cpu use).move (.pull op) (.buf cpu) ys []).place
        (.held op) = s.place (.held op) ++ [p] := by
      simp only [move]
      rw [Inventory.move_other (by simp) (by simp), takePage_place, Inventory.move_target]
    have hnil : ((s.takePage op (.pull op) p ys cpu use).move (.pull op) (.buf cpu) ys []).place
        (.pull op) = [] := move_source hne
    refine goes_of_carries (Function.update_self ..)
      ((hother _ (by simp) (by simp) (by simp)).trans hto) (hu.carries_gotPage hheld hnil ?_)
    funext g
    simp only [hand, hother (.record g) (by simp) (by simp) (by simp)]
    rfl

/-- A page of the host. -/
theorem stepOk_allocSubblock {cpu : ℕ} {use : AllocUse} (h : s.Sound)
    (hto : s.place (.toGlobal op) = []) (hpull : s.place (.pull op) = [])
    (hu : (s.hand op).Uses use) (hnew : p ∉ s.pages) :
    s.StepOk (s.allocSubblock op p cpu use) op := by
  have heq : s.allocSubblock op p cpu use = PageSys.setTask { s with
      place := Function.update s.place (.held op) (s.place (.held op) ++ [p])
      pageLocked := Function.update s.pageLocked p false
      pages := p :: s.pages
      allocPagesLen := s.allocPagesLen + s.sbSize } op (gotPage cpu use) := by
    simp only [allocSubblock, unlockPage_lockPage]
  have hother : ∀ d, d ≠ .held op → Function.update s.place (.held op) (s.place (.held op) ++ [p]) d =
      s.place d := fun d hd => Function.update_of_ne hd ..
  rw [heq]
  refine ⟨(sound_allocSubblock h hnew).setTask _, ⟨fun d hd => hother d ?_, rfl, fun _ _ => ⟨rfl, rfl⟩,
    fun o ho => Function.update_of_ne ho ..⟩, ?_⟩
  · rintro rfl
    exact hd rfl
  · refine goes_of_carries (Function.update_self ..) ((hother _ (by simp)).trans hto) ?_
    refine hu.carries_gotPage (Function.update_self ..) ((hother _ (by simp)).trans hpull) ?_
    funext g
    simp only [hand, setTask, hother (.record g) (by simp)]

/-- A step that only goes on to another task. -/
theorem stepOk_setTask {t : Task} (h : s.Sound) (hto : s.place (.toGlobal op) = [])
    (ht : (s.hand op).Carries t) : s.StepOk (s.setTask op t) op :=
  ⟨h.setTask t, local_setTask t, goes_of_carries (Function.update_self ..) hto ht⟩

/-- `_alloc_pages`. -/
theorem stepOk_allocPages {pc : AllocPc} {cpu : ℕ} {use : AllocUse} {luck : Luck} (h : s.Sound)
    (hto : s.place (.toGlobal op) = []) (hcarries : (s.hand op).Carries (.alloc pc cpu use))
    (hok : pc = .wait → ∀ todo done job, use = .dup todo done job →
      luck.ok = true ∨ ∀ g ∈ job.group, s.place (.record g) = [])
    (hs : s.allocPages op pc cpu use luck = some s') : s.StepOk s' op := by
  obtain ⟨hpull, hu⟩ := hcarries
  cases pc with
  | first =>
      have hpull := hpull (by simp)
      simp only [allocPages] at hs
      split at hs
      · cases hs
        exact stepOk_takePage h hto hpull hu ‹_›
      · cases hs
        exact stepOk_setTask h hto ⟨fun _ => hpull, hu⟩
  | host =>
      have hpull := hpull (by simp)
      simp only [allocPages] at hs
      split_ifs at hs with hhost hold
      · cases hs
        exact stepOk_allocSubblock h hto hpull hu hold
      · cases hs
        exact stepOk_setTask h hto ⟨fun _ => hpull, hu⟩
  | global =>
      have hpull := hpull (by simp)
      have hpulled : ∀ d, ¬ Seen d → d ≠ .toGlobal op → s.Own op d →
          s.StepOk ((s.move d (.pull op) ((s.place d).take s.sibSize)
            ((s.place d).drop s.sibSize)).setTask op (.alloc .pulled cpu use)) op := by
        intro d hseen hd hown
        have hne : d ≠ .pull op := fun heq => hseen (heq ▸ trivial)
        have hheld : PagePlace.held op ≠ d := fun heq => hseen (heq ▸ trivial)
        have hrecord : ∀ g, PagePlace.record g ≠ d := fun g heq => hseen (heq ▸ trivial)
        have hown' : s.Own op (.pull op) := show _ = _ from rfl
        refine ⟨?_, (local_move hown hown').trans (local_setTask _), ?_⟩
        · refine (sound_move h hne ?_ (expect_of_unseen hseen) (takes_of_free trivial) ?_).setTask _
          · rw [List.take_append_drop]
          · exact fun g hg => absurd hg.symm (hrecord g)
        · have hother : ∀ d', d' ≠ d → d' ≠ .pull op → (s.move d (.pull op)
              ((s.place d).take s.sibSize) ((s.place d).drop s.sibSize)).place d' = s.place d' :=
            fun _ => move_other
          refine goes_of_carries (Function.update_self ..) ((hother _ hd.symm (by simp)).trans hto)
            ⟨fun hno => absurd rfl hno, hu.congr (hother _ hheld (by simp)) ?_⟩
          funext g
          simp only [hand, setTask, hother (.record g) (hrecord g) (by simp)]
          rfl
      simp only [allocPages, popFreePageListGlobal] at hs
      split at hs
      · cases hs
        exact stepOk_takePage h hto hpull hu ‹_›
      · split_ifs at hs with hglobal
        · cases hs
          exact hpulled .global id (by simp) trivial
        · split at hs
          · cases hs
            exact stepOk_setTask h hto ⟨fun _ => hpull, hu⟩
          · split_ifs at hs with hvictim
            cases hs
            exact hpulled (.buf _) id (by simp) trivial
  | pulled =>
      simp only [allocPages] at hs
      split at hs
      · cases hs
        exact stepOk_takePulled h hto hu ‹_›
      · cases hs
  | wait =>
      have hpull := hpull (by simp)
      cases hs
      cases hluck : luck.ok with
      | true => exact stepOk_setTask h hto ⟨fun _ => hpull, hu⟩
      | false =>
          refine stepOk_setTask h hto (hu.carries_noPage hpull fun todo done job huse g hg => ?_)
          have hnil := (hok rfl todo done job huse).resolve_left (by simp [hluck]) g hg
          subst huse
          exact bare_iff.mpr ⟨isSome_block.mp (hu.2.2.2.group g hg), hnil⟩

end PageSys

end Emp
