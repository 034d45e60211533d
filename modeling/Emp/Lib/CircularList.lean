import Mathlib.Data.List.Nodup
import Mathlib.Data.Nat.Notation
import Mathlib.Logic.Function.Basic

/-!
# Circular doubly linked lists

The lists of the kernel's `list.h`: every node points to the one behind it and to the one before
it, and the head of a list is a node as well.  The operations change single pointers.

`Path m a xs b` follows the nodes of `xs` from `a` to `b`; a list is a path from its head to its
head.  What an operation does to a list is told by two rules: a path may go on in another way
behind its last node (`Path.extend`), and may begin at another node (`Path.rehead`).

## Main definitions

* `Links` — where the nodes point.
* `listAddTail`, `listDelInit`, `listSpliceTail`, `listCutPosition` — the operations.
* `Loop` — the nodes of a list, in their order.
* `Links.SameOutside` — what an operation leaves as it was.
-/

namespace CircularList

variable {α : Type*}

/-- Where the nodes point. -/
structure Links (α : Type*) where
  next : α → α
  prev : α → α

/-- From `a` one comes to `b` through `xs`, and back. -/
def Path (m : Links α) : α → List α → α → Prop
  | a, [], b => m.next a = b ∧ m.prev b = a
  | a, x :: xs, b => m.next a = x ∧ m.prev x = a ∧ Path m x xs b

attribute [grind =] Path

/-- The list with the head `a` has the nodes `xs`. -/
structure Loop (m : Links α) (a : α) (xs : List α) : Prop where
  path : Path m a xs a
  nodup : (a :: xs).Nodup

/-- Other nodes than these point where they did. -/
def Links.SameOutside (m m' : Links α) (s : List α) : Prop :=
  ∀ x ∉ s, m'.next x = m.next x ∧ m'.prev x = m.prev x

/-! ## Paths -/

section Paths

variable {m m' : Links α} {a b c e : α} {xs ys : List α}

theorem path_append_cons :
    Path m a (xs ++ e :: ys) b ↔ Path m a xs e ∧ Path m e ys b := by
  induction xs generalizing a with
  | nil => simp only [List.nil_append, Path, and_assoc]
  | cons x xs ih => simp only [List.cons_append, Path, ih, and_assoc]

theorem Path.next_mem (h : Path m a xs b) : m.next a ∈ xs ++ [b] := by
  cases xs with
  | nil => simp only [Path] at h; simp [h.1]
  | cons x xs => simp only [Path] at h; simp [h.1]

theorem Path.prev_mem (h : Path m a xs b) : m.prev b ∈ a :: xs := by
  induction xs generalizing a with
  | nil => simp only [Path] at h; simp [h.2]
  | cons x xs ih => exact List.mem_cons_of_mem a (ih h.2.2)

theorem Path.next_eq_iff (h : Path m a xs b) (hb : b ∉ xs) : m.next a = b ↔ xs = [] := by
  cases xs with
  | nil => simp only [Path] at h; simp [h.1]
  | cons x xs =>
      simp only [Path] at h
      have hne : x ≠ b := fun heq => hb (heq ▸ List.mem_cons_self)
      simp [h.1, hne]

/-- A path that no pointer of which has changed. -/
theorem Path.congr (h : Path m a xs b) (hnext : ∀ x ∈ a :: xs, m'.next x = m.next x)
    (hprev : ∀ x ∈ xs ++ [b], m'.prev x = m.prev x) : Path m' a xs b := by
  induction xs generalizing a with
  | nil => exact ⟨(hnext a (by simp)).trans h.1, (hprev b (by simp)).trans h.2⟩
  | cons x xs ih =>
      obtain ⟨hax, hxa, hrest⟩ := h
      refine ⟨(hnext a (by simp)).trans hax, (hprev x (by simp)).trans hxa, ih hrest ?_ ?_⟩
      · exact fun y hy => hnext y (List.mem_cons_of_mem a hy)
      · exact fun y hy => hprev y (List.mem_cons_of_mem x hy)

/-- Behind its last node, a path may go on in another way. -/
theorem Path.extend (h : Path m a xs b) (hnd : (a :: xs).Nodup)
    (hnext : ∀ x ∈ a :: xs, x ≠ m.prev b → m'.next x = m.next x)
    (hprev : ∀ x ∈ xs, m'.prev x = m.prev x) (hrest : Path m' (m.prev b) ys c) :
    Path m' a (xs ++ ys) c := by
  induction xs generalizing a with
  | nil => exact h.2 ▸ hrest
  | cons x xs ih =>
      obtain ⟨hax, hxa, htail⟩ := h
      have hne : a ≠ m.prev b := fun heq => (List.nodup_cons.mp hnd).1 (heq ▸ htail.prev_mem)
      refine ⟨(hnext a (by simp) hne).trans hax, (hprev x (by simp)).trans hxa, ?_⟩
      refine ih htail (List.nodup_cons.mp hnd).2 ?_ ?_
      · exact fun y hy => hnext y (List.mem_cons_of_mem a hy)
      · exact fun y hy => hprev y (List.mem_cons_of_mem x hy)

/-- A path may begin at another node. -/
theorem Path.rehead (h : Path m a xs b) (hnd : (xs ++ [b]).Nodup)
    (hnext : m'.next c = m.next a) (hprev : m'.prev (m.next a) = c)
    (hnext' : ∀ x ∈ xs, m'.next x = m.next x)
    (hprev' : ∀ x ∈ xs ++ [b], x ≠ m.next a → m'.prev x = m.prev x) : Path m' c xs b := by
  cases xs with
  | nil => exact ⟨hnext.trans h.1, h.1 ▸ hprev⟩
  | cons x xs =>
      obtain ⟨hax, hxa, htail⟩ := h
      rw [hax] at hprev hprev'
      refine ⟨hnext.trans hax, hprev, htail.congr hnext' fun y hy => ?_⟩
      have hne : y ≠ x := fun heq => (List.nodup_cons.mp hnd).1 (heq ▸ hy)
      exact hprev' y (List.mem_cons_of_mem x hy) hne

theorem Loop.congr (h : Loop m a xs) (hs : m.SameOutside m' ys) (hd : ∀ x ∈ a :: xs, x ∉ ys) :
    Loop m' a xs := by
  refine ⟨h.path.congr (fun y hy => (hs y (hd y hy)).1) fun y hy => (hs y (hd y ?_)).2, h.nodup⟩
  exact (List.perm_append_singleton a xs).mem_iff.mp hy

end Paths

/-! ## The operations -/

section Operations

variable [DecidableEq α]

/-- `a->next = b`. -/
def Links.setNext (m : Links α) (a b : α) : Links α :=
  { m with next := Function.update m.next a b }

/-- `a->prev = b`. -/
def Links.setPrev (m : Links α) (a b : α) : Links α :=
  { m with prev := Function.update m.prev a b }

@[simp] theorem Links.next_setNext (m : Links α) (a b x : α) :
    (m.setNext a b).next x = if x = a then b else m.next x := by
  simp only [Links.setNext, Function.update_apply]

@[simp] theorem Links.prev_setNext (m : Links α) (a b : α) : (m.setNext a b).prev = m.prev := rfl

@[simp] theorem Links.prev_setPrev (m : Links α) (a b x : α) :
    (m.setPrev a b).prev x = if x = a then b else m.prev x := by
  simp only [Links.setPrev, Function.update_apply]

@[simp] theorem Links.next_setPrev (m : Links α) (a b : α) : (m.setPrev a b).next = m.next := rfl

/-- `INIT_LIST_HEAD`. -/
def initListHead (m : Links α) (a : α) : Links α := (m.setNext a a).setPrev a a

/-- `list_empty`. -/
def listEmpty (m : Links α) (a : α) : Bool := m.next a = a

/-- `__list_add`: `x` comes between `p` and `n`. -/
def listAddBetween (m : Links α) (x p n : α) : Links α :=
  (((m.setPrev n x).setNext x n).setPrev x p).setNext p x

/-- `list_add_tail`. -/
def listAddTail (m : Links α) (x a : α) : Links α := listAddBetween m x (m.prev a) a

/-- `__list_del`. -/
def listDelBetween (m : Links α) (p n : α) : Links α := (m.setPrev n p).setNext p n

/-- `list_del_init`. -/
def listDelInit (m : Links α) (e : α) : Links α :=
  initListHead (listDelBetween m (m.prev e) (m.next e)) e

/-- `__list_splice`: the nodes of the list `a` come between `p` and `n`. -/
def listSpliceBetween (m : Links α) (a p n : α) : Links α :=
  (((m.setPrev (m.next a) p).setNext p (m.next a)).setNext (m.prev a) n).setPrev n (m.prev a)

/-- `list_splice_tail`: the list `a` is left as it is. -/
def listSpliceTail (m : Links α) (a b : α) : Links α :=
  if listEmpty m a then m else listSpliceBetween m a (m.prev b) b

/-- `list_splice_tail_init`. -/
def listSpliceTailInit (m : Links α) (a b : α) : Links α :=
  if listEmpty m a then m else initListHead (listSpliceBetween m a (m.prev b) b) a

/-- `__list_cut_position`. -/
def listCutBetween (m : Links α) (t a e : α) : Links α :=
  (((((m.setNext t (m.next a)).setPrev (m.next a) t).setPrev t e).setNext e t).setNext a
    (m.next e)).setPrev (m.next e) a

/-- `list_cut_position`: the nodes up to `e` become the list `t`. -/
def listCutPosition (m : Links α) (t a e : α) : Links α :=
  if listEmpty m a then m
  else if m.next a = m.prev a ∧ a ≠ e ∧ e ≠ m.next a then m
  else if e = a then initListHead m t
  else listCutBetween m t a e

variable {m m' : Links α} {a b c e t x : α} {xs ys zs : List α}

theorem Loop.listEmpty_iff (h : Loop m a xs) : listEmpty m a = true ↔ xs = [] := by
  rw [listEmpty, decide_eq_true_iff]
  exact h.path.next_eq_iff (List.nodup_cons.mp h.nodup).1

theorem ring_initListHead : Loop (initListHead m a) a [] := by
  refine ⟨⟨?_, ?_⟩, List.nodup_singleton a⟩
  · simp [initListHead]
  · simp [initListHead]

theorem sameOutside_initListHead : m.SameOutside (initListHead m a) [a] := by
  intro y hy
  rw [List.mem_singleton] at hy
  simp [initListHead, hy]

/-! ### Adding -/

theorem Loop.listAddTail (h : Loop m a xs) (hx : x ∉ a :: xs) :
    Loop (listAddTail m x a) a (xs ++ [x]) := by
  have hlast := h.path.prev_mem
  have hxa : x ≠ a := fun heq => hx (heq ▸ List.mem_cons_self)
  have hxlast : x ≠ m.prev a := fun heq => hx (heq ▸ hlast)
  refine ⟨h.path.extend h.nodup ?_ ?_ ⟨?_, ?_, ?_, ?_⟩, ?_⟩
  · intro y hy hne
    have hyx : y ≠ x := fun heq => hx (heq ▸ hy)
    simp [CircularList.listAddTail, listAddBetween, hne, hyx]
  · intro y hy
    have hyx : y ≠ x := fun heq => hx (heq ▸ List.mem_cons_of_mem a hy)
    have hya : y ≠ a := fun heq => (List.nodup_cons.mp h.nodup).1 (heq ▸ hy)
    simp [CircularList.listAddTail, listAddBetween, hyx, hya]
  · simp [CircularList.listAddTail, listAddBetween]
  · simp [CircularList.listAddTail, listAddBetween]
  · simp [CircularList.listAddTail, listAddBetween, hxlast]
  · simp [CircularList.listAddTail, listAddBetween, hxa.symm]
  · rw [← List.cons_append]
    exact (List.perm_append_singleton x _).nodup_iff.mpr (List.nodup_cons.mpr ⟨hx, h.nodup⟩)

theorem Loop.sameOutside_listAddTail (h : Loop m a xs) :
    m.SameOutside (CircularList.listAddTail m x a) (x :: a :: xs) := by
  intro y hy
  have hyx : y ≠ x := fun heq => hy (heq ▸ List.mem_cons_self)
  have hya : y ≠ a := fun heq => hy (heq ▸ by simp)
  have hlast : y ≠ m.prev a := fun heq => hy (heq ▸ List.mem_cons_of_mem x h.path.prev_mem)
  simp [CircularList.listAddTail, listAddBetween, hyx, hya, hlast]

/-! ### Deleting -/

theorem Loop.listDelInit (h : Loop m a (xs ++ e :: ys)) :
    Loop (listDelInit m e) a (xs ++ ys) ∧ Loop (listDelInit m e) e [] := by
  obtain ⟨hfront, hback⟩ := path_append_cons.mp h.path
  have hnd : (e :: (ys ++ a :: xs)).Nodup := by
    refine (List.Perm.nodup_iff ?_).mp h.nodup
    rw [← List.cons_append]
    exact List.perm_append_comm
  obtain ⟨he, hrest⟩ := List.nodup_cons.mp hnd
  have hperm : (ys ++ a :: xs).Perm (a :: (xs ++ ys)) := by
    rw [← List.cons_append]
    exact List.perm_append_comm
  have hp := hfront.prev_mem
  have hn := hback.next_mem
  have hne : ∀ {y}, y ∈ ys ++ a :: xs → y ≠ e := fun hy heq => he (heq ▸ hy)
  have hpe : m.prev e ≠ e := hne (List.mem_append_right _ hp)
  have hnmem : m.next e ∈ ys ++ a :: xs := by
    rw [List.mem_append, List.mem_singleton] at hn
    rcases hn with hn | hn
    · exact List.mem_append_left _ hn
    · exact hn ▸ by simp
  have hnext : ∀ y, y ≠ e → y ≠ m.prev e → (CircularList.listDelInit m e).next y = m.next y := by
    intro y hy hyp
    simp [CircularList.listDelInit, listDelBetween, initListHead, hy, hyp]
  have hprev : ∀ y, y ≠ e → y ≠ m.next e → (CircularList.listDelInit m e).prev y = m.prev y := by
    intro y hy hyn
    simp [CircularList.listDelInit, listDelBetween, initListHead, hy, hyn]
  obtain ⟨hys, haxs, hdisj⟩ := List.nodup_append.mp hrest
  refine ⟨⟨?_, hperm.nodup_iff.mp hrest⟩, ring_initListHead⟩
  have hys' : (ys ++ [a]).Nodup := by
    refine List.nodup_append.mpr ⟨hys, List.nodup_singleton a, fun y hy z hz => ?_⟩
    rw [List.mem_singleton] at hz
    exact hz ▸ hdisj y hy a List.mem_cons_self
  have hbackMem : ∀ {y}, y ∈ ys ++ [a] → y ∈ ys ++ a :: xs := by
    intro y hy
    rw [List.mem_append, List.mem_singleton] at hy
    rcases hy with hy | rfl
    · exact List.mem_append_left _ hy
    · simp
  have hnewBack : Path (CircularList.listDelInit m e) (m.prev e) ys a := by
    refine hback.rehead hys' ?_ ?_ ?_ ?_
    · simp [CircularList.listDelInit, listDelBetween, initListHead, hpe]
    · simp [CircularList.listDelInit, listDelBetween, initListHead, hne hnmem]
    · exact fun y hy => hnext y (hne (List.mem_append_left _ hy)) (hdisj y hy _ hp)
    · exact fun y hy hyn => hprev y (hne (hbackMem hy)) hyn
  refine hfront.extend haxs ?_ ?_ hnewBack
  · exact fun y hy hyp => hnext y (hne (List.mem_append_right _ hy)) hyp
  · intro y hy
    have hya : y ≠ a := fun heq => (List.nodup_cons.mp haxs).1 (heq ▸ hy)
    refine hprev y (hne (by simp [hy])) fun heq => ?_
    rw [← heq, List.mem_append, List.mem_singleton] at hn
    rcases hn with hn | hn
    · exact hdisj y hn y (by simp [hy]) rfl
    · exact hya hn

theorem Loop.sameOutside_listDelInit (h : Loop m a xs) (he : e ∈ xs) :
    m.SameOutside (CircularList.listDelInit m e) (a :: xs) := by
  obtain ⟨us, vs, rfl⟩ := List.append_of_mem he
  obtain ⟨hfront, hback⟩ := path_append_cons.mp h.path
  intro y hy
  have hye : y ≠ e := fun heq => hy (heq ▸ by simp)
  have hyp : y ≠ m.prev e := by
    intro heq
    have hmem := heq ▸ hfront.prev_mem
    rw [List.mem_cons] at hmem
    exact hy (by rcases hmem with hmem | hmem <;> simp [hmem])
  have hyn : y ≠ m.next e := by
    intro heq
    have hmem := heq ▸ hback.next_mem
    rw [List.mem_append, List.mem_singleton] at hmem
    exact hy (by rcases hmem with hmem | hmem <;> simp [hmem])
  simp [CircularList.listDelInit, listDelBetween, initListHead, hye, hyp, hyn]

/-! ### Splicing -/

theorem Loop.splice (hb : Loop m b xs) (ha : Loop m a (x :: ys))
    (hd : ∀ y ∈ b :: xs, y ∉ a :: x :: ys) :
    Loop (listSpliceBetween m a (m.prev b) b) b (xs ++ x :: ys) := by
  obtain ⟨hax, hxa, htail⟩ := ha.path
  obtain ⟨hxs, hys⟩ := And.intro (List.nodup_cons.mp hb.nodup).1 (List.nodup_cons.mp ha.nodup)
  have hp := hb.path.prev_mem
  have hl := htail.prev_mem
  have hlb : m.prev a ≠ b := fun heq => hd b List.mem_cons_self (heq ▸ List.mem_cons_of_mem a hl)
  have hlp : m.prev b ≠ m.prev a := fun heq => hd _ hp (heq ▸ List.mem_cons_of_mem a hl)
  have hmem : ∀ {y}, y ∈ x :: ys → y ∉ b :: xs := fun hy hy' => hd _ hy' (List.mem_cons_of_mem a hy)
  have hxb : x ≠ b := fun heq => hmem List.mem_cons_self (heq ▸ List.mem_cons_self)
  refine ⟨hb.path.extend hb.nodup ?_ ?_ ⟨?_, ?_, ?_⟩, ?_⟩
  · intro y hy hne
    have hyl : y ≠ m.prev a := fun heq => hd y hy (heq ▸ List.mem_cons_of_mem a hl)
    simp [listSpliceBetween, hne, hyl]
  · intro y hy
    have hyb : y ≠ b := fun heq => hxs (heq ▸ hy)
    have hyx : y ≠ m.next a := by
      rw [hax]
      exact fun heq => hd y (List.mem_cons_of_mem b hy) (heq ▸ by simp)
    simp [listSpliceBetween, hyb, hyx]
  · simp [listSpliceBetween, hlp, hax]
  · simp [listSpliceBetween, hax, hxb]
  · rw [← List.append_nil ys]
    refine htail.extend hys.2 ?_ ?_ ⟨?_, ?_⟩
    · intro y hy hne
      have hyp : y ≠ m.prev b := fun heq => hmem hy (heq ▸ hp)
      simp [listSpliceBetween, hne, hyp]
    · intro y hy
      have hyb : y ≠ b := fun heq => hmem (List.mem_cons_of_mem x hy) (heq ▸ List.mem_cons_self)
      have hyx : y ≠ m.next a := by
        rw [hax]
        exact fun heq => (List.nodup_cons.mp hys.2).1 (heq ▸ hy)
      simp [listSpliceBetween, hyb, hyx]
    · simp [listSpliceBetween]
    · simp [listSpliceBetween]
  · rw [← List.cons_append]
    refine List.nodup_append.mpr ⟨hb.nodup, hys.2, fun y hy z hz heq => ?_⟩
    exact hmem hz (heq ▸ hy)

/-- The head of the list whose nodes went away is not touched. -/
theorem sameOutside_splice (hb : Loop m b xs) (ha : Loop m a (x :: ys)) :
    m.SameOutside (listSpliceBetween m a (m.prev b) b) (b :: xs ++ x :: ys) := by
  intro y hy
  have hyb : y ≠ b := fun heq => hy (heq ▸ by simp)
  have hyp : y ≠ m.prev b := fun heq => hy (heq ▸ List.mem_append_left _ hb.path.prev_mem)
  have hyl : y ≠ m.prev a := fun heq => hy (heq ▸ List.mem_append_right _ ha.path.2.2.prev_mem)
  have hyx : y ≠ m.next a := fun heq => hy (by rw [heq, ha.path.1]; simp)
  simp [listSpliceBetween, hyb, hyp, hyl, hyx]

/-! ### Cutting -/

theorem Loop.cut (h : Loop m a (xs ++ e :: ys)) (ht : t ∉ a :: (xs ++ e :: ys)) :
    Loop (listCutBetween m t a e) t (xs ++ [e]) ∧ Loop (listCutBetween m t a e) a ys := by
  obtain ⟨hfront, hback⟩ := path_append_cons.mp h.path
  have hnd : (xs ++ e :: (ys ++ [a])).Nodup := by
    refine (List.Perm.nodup_iff ?_).mp h.nodup
    exact (List.perm_append_singleton a _).symm.trans (by simp)
  obtain ⟨hxs, heys, hdisj⟩ := List.nodup_append.mp hnd
  obtain ⟨he, hys⟩ := List.nodup_cons.mp heys
  have hf := hfront.next_mem
  have hn := hback.next_mem
  have htmem : ∀ {y}, y ∈ xs ∨ y = e ∨ y ∈ ys ++ [a] → y ≠ t := by
    intro y hy heq
    refine ht (heq ▸ ?_)
    simp only [List.mem_append, List.mem_singleton] at hy
    simp only [List.mem_cons, List.mem_append]
    tauto
  have hfmem : m.next a ∈ xs ∨ m.next a = e := by simpa using hf
  have hea : e ≠ a := fun heq => he (heq ▸ by simp)
  have hxsa : ∀ {y}, y ∈ xs → y ≠ a := fun hy => hdisj _ hy a (by simp)
  have hfn : ∀ {y}, y ∈ xs ∨ y = e → y ≠ m.next e := by
    rintro y (hy | rfl) heq
    · exact hdisj y hy (m.next e) (List.mem_cons_of_mem e hn) heq
    · exact he (heq ▸ hn)
  have htn : t ≠ m.next e := fun heq => htmem (.inr (.inr hn)) heq.symm
  have htf : t ≠ m.next a := fun heq => htmem (hfmem.imp_right .inl) heq.symm
  have hta : t ≠ a := fun heq => htmem (y := a) (by simp) heq.symm
  have hte : t ≠ e := fun heq => htmem (y := e) (by simp) heq.symm
  refine ⟨⟨?_, ?_⟩, ⟨?_, ?_⟩⟩
  · refine path_append_cons.mpr ⟨hfront.rehead ?_ ?_ ?_ ?_ ?_, ?_, ?_⟩
    · refine List.nodup_append.mpr ⟨hxs, List.nodup_singleton e, fun y hy z hz => ?_⟩
      rw [List.mem_singleton] at hz
      exact hz ▸ hdisj y hy e List.mem_cons_self
    · simp [listCutBetween, hta, hte]
    · have hne : m.next a ≠ t := htf.symm
      simp [listCutBetween, hfn hfmem, hne]
    · intro y hy
      have hye : y ≠ e := hdisj y hy e List.mem_cons_self
      simp [listCutBetween, hxsa hy, hye, htmem (.inl hy)]
    · intro y hy hyf
      have hy' : y ∈ xs ∨ y = e := by simpa using hy
      simp [listCutBetween, hyf, hfn hy', htmem (hy'.imp_right .inl)]
    · simp [listCutBetween, hea]
    · simp [listCutBetween, htn]
  · refine List.nodup_cons.mpr ⟨fun hmem => ?_, ?_⟩
    · exact htmem (y := t) (by simp at hmem; tauto) rfl
    · refine List.nodup_append.mpr ⟨hxs, List.nodup_singleton e, fun y hy z hz => ?_⟩
      rw [List.mem_singleton] at hz
      exact hz ▸ hdisj y hy e List.mem_cons_self
  · refine hback.rehead hys ?_ ?_ ?_ ?_
    · simp [listCutBetween]
    · simp [listCutBetween]
    · intro y hy
      have hya : y ≠ a := by
        rintro rfl
        exact (List.nodup_append.mp hys).2.2 y hy y (by simp) rfl
      have hye : y ≠ e := fun heq => he (heq ▸ List.mem_append_left _ hy)
      simp [listCutBetween, hya, hye, htmem (.inr (.inr (List.mem_append_left _ hy)))]
    · intro y hy hyn
      have hyf : y ≠ m.next a := by
        intro heq
        rcases hfmem with hmem | hmem
        · exact hdisj _ hmem y (List.mem_cons_of_mem e hy) heq.symm
        · exact he (hmem ▸ heq ▸ hy)
      simp [listCutBetween, hyn, hyf, htmem (.inr (.inr hy))]
  · exact (List.perm_append_singleton a ys).nodup_iff.mp hys

theorem sameOutside_cut (h : Loop m a (xs ++ e :: ys)) :
    m.SameOutside (listCutBetween m t a e) (t :: a :: (xs ++ e :: ys)) := by
  obtain ⟨hfront, hback⟩ := path_append_cons.mp h.path
  have hf : m.next a ∈ xs ∨ m.next a = e := by simpa using hfront.next_mem
  have hn : m.next e ∈ ys ∨ m.next e = a := by simpa using hback.next_mem
  intro y hy
  simp only [List.mem_cons, List.mem_append, not_or] at hy
  obtain ⟨hyt, hya, hyxs, hye, hyys⟩ := hy
  have hyf : y ≠ m.next a := by
    rintro rfl
    exact hf.elim hyxs hye
  have hyn : y ≠ m.next e := by
    rintro rfl
    exact hn.elim hyys hya
  simp [listCutBetween, hyt, hya, hye, hyf, hyn]

/-- Cutting at a node of the list does what it should. -/
theorem Loop.listCutPosition_eq (h : Loop m a (xs ++ e :: ys)) :
    listCutPosition m t a e = listCutBetween m t a e := by
  have hempty : ¬ listEmpty m a = true := fun hm => by simpa using h.listEmpty_iff.mp hm
  have hea : e ≠ a := fun heq => (List.nodup_cons.mp h.nodup).1 (heq ▸ by simp)
  rw [listCutPosition, if_neg hempty, if_neg, if_neg hea]
  rintro ⟨hsingle, -, hfirst⟩
  obtain ⟨-, hback⟩ := path_append_cons.mp h.path
  cases xs with
  | nil => exact hfirst h.path.1.symm
  | cons x xs =>
      -- the first node is before `e`, the last one is not
      have hmem := hback.prev_mem
      rw [← hsingle, h.path.1] at hmem
      have hx := (List.nodup_cons.mp (List.nodup_cons.mp h.nodup).2).1
      exact hx (List.mem_append_right xs hmem)

end Operations

end CircularList
