import Emp.Lib.Inventory
import Emp.Lib.Transition
import Emp.Lists.Operations

/-!
# Runs on lists with a length

The lists are used in any order.  A caller adds an element that is on no list, deletes one from the
list it is on, and initialises a list that has no elements.

A splice leaves the head of its source linked to elements that are in the other list by then, while
the recorded length is zero.  Such a list is spent: it does no harm until it is used again without
having been initialised.

## Main definitions and results

* `ListSys` — the memory, beside the elements that each list should have.
* `ListSys.Fits` — no spent list is used, and bulk moves go to empty lists.
* `right_iff_of_reach` — lists are right in such runs, as long as they are not spent.
-/

namespace Emp

open CircularList Transition

/-- The memory of the lists, with the elements that each list should have, all elements that are on
lists, and the lists that were spliced away while they had elements. -/
structure ListSys (ι τ ε : Type*) where
  mem : ListMem ι τ ε
  items : ListId ι τ → List ε
  stock : List ε
  spent : ListId ι τ → Bool

/-- A call of a list operation. -/
inductive ListAct (ι τ ε : Type*)
  | initEmpList (list : ι)
  | initTempList (list : τ)
  | empListAddTail (e : ε) (list : ι)
  | tempListAddTail (e : ε) (list : τ)
  | empListPopHead (list : ι)
  | tempListPopHead (list : τ)
  | empListDelInit (e : ε) (list : ι)
  | tempListDelInit (e : ε) (list : τ)
  | empListSpliceTail (add : τ) (list : ι)
  | empListSpliceTailEmpList (add list : ι)
  | empListDrain (list : ι) (drain : τ)
  | empListCutPosition (list : ι) (e : ε) (count : ℤ) (cut : τ)
  | empListCutCount (list : ι) (count : ℤ) (cut : τ)

variable {ι τ ε : Type*} [DecidableEq ι] [DecidableEq τ] [DecidableEq ε]

namespace ListSys

/-! ## What the lists should become -/

/-- A list without elements is initialised. -/
def initAt (s : ListSys ι τ ε) (l : ListId ι τ) (mem : ListMem ι τ ε) : Option (ListSys ι τ ε) :=
  if s.items l = [] then some { s with mem := mem, spent := Function.update s.spent l false }
  else none

/-- An element that is on no list is added. -/
def addAt (s : ListSys ι τ ε) (e : ε) (l : ListId ι τ) (mem : ListMem ι τ ε) :
    Option (ListSys ι τ ε) :=
  if e ∉ s.stock then some { s with
    mem := mem
    items := Function.update s.items l (s.items l ++ [e])
    stock := e :: s.stock }
  else none

/-- An element of the list is deleted. -/
def delAt (s : ListSys ι τ ε) (e : ε) (l : ListId ι τ) (mem : ListMem ι τ ε) :
    Option (ListSys ι τ ε) :=
  if e ∈ s.items l then some { s with
    mem := mem
    items := Function.update s.items l ((s.items l).erase e)
    stock := s.stock.erase e }
  else none

/-- The first element of the list, if there is one, is deleted. -/
def popAt (s : ListSys ι τ ε) (l : ListId ι τ) (mem : ListMem ι τ ε) : Option (ListSys ι τ ε) :=
  match s.items l with
  | [] => some { s with mem := mem }
  | e :: es => some { s with
      mem := mem
      items := Function.update s.items l es
      stock := s.stock.erase e }

/-- All elements of `add` go to the end of `list`. -/
def spliceAt (s : ListSys ι τ ε) (add list : ListId ι τ) (mem : ListMem ι τ ε) :
    Option (ListSys ι τ ε) :=
  if add ≠ list then some { s with
    mem := mem
    items := Inventory.move s.items add list (s.items add) []
    spent := Function.update s.spent add (s.spent add || !(s.items add).isEmpty) }
  else none

/-- The first `n` elements of the list go to the end of another one. -/
def moveAt (s : ListSys ι τ ε) (list cut : ListId ι τ) (n : ℕ) (mem : ListMem ι τ ε) :
    ListSys ι τ ε :=
  { s with
    mem := mem
    items := Inventory.move s.items list cut ((s.items list).take n) ((s.items list).drop n) }

/-- One call. -/
def step (s : ListSys ι τ ε) : ListAct ι τ ε → Option (ListSys ι τ ε)
  | .initEmpList i => s.initAt (.emp i) (initEmpList s.mem i)
  | .initTempList t => s.initAt (.temp t) (initTempList s.mem t)
  | .empListAddTail e i => s.addAt e (.emp i) (empListAddTail s.mem (.elem e) i)
  | .tempListAddTail e t => s.addAt e (.temp t) (tempListAddTail s.mem (.elem e) t)
  | .empListPopHead i => s.popAt (.emp i) (empListPopHead s.mem i).2
  | .tempListPopHead t => s.popAt (.temp t) (tempListPopHead s.mem t).2
  | .empListDelInit e i => s.delAt e (.emp i) (empListDelInit s.mem (.elem e) i)
  | .tempListDelInit e t => s.delAt e (.temp t) (tempListDelInit s.mem (.elem e) t)
  | .empListSpliceTail t i => s.spliceAt (.temp t) (.emp i) (empListSpliceTail s.mem t i)
  | .empListSpliceTailEmpList j i =>
      s.spliceAt (.emp j) (.emp i) (empListSpliceTailEmpList s.mem j i)
  | .empListDrain i t =>
      some (s.moveAt (.emp i) (.temp t) (s.items (.emp i)).length (empListDrain s.mem i t))
  | .empListCutPosition i e count t =>
      -- `pos` is node number `count` of the list
      if 0 < count ∧ (s.items (.emp i))[(count - 1).toNat]? = some e then
        some (s.moveAt (.emp i) (.temp t) count.toNat
          (empListCutPosition s.mem i (.elem e) count t))
      else none
  | .empListCutCount i count t =>
      some (s.moveAt (.emp i) (.temp t) count.toNat (empListCutCount s.mem i count t))

/-- All lists are initialised and have no elements. -/
structure Fresh (s : ListSys ι τ ε) : Prop where
  right : ∀ l, s.mem.Right l []
  items : ∀ l, s.items l = []
  stock : s.stock = []
  spent : ∀ l, s.spent l = false

/-! ## When the calls do what they should -/

/-- The lists that a call uses as they are. -/
def uses : ListAct ι τ ε → List (ListId ι τ)
  | .initEmpList _ => []
  | .initTempList _ => []
  | .empListAddTail _ i => [.emp i]
  | .tempListAddTail _ t => [.temp t]
  | .empListPopHead i => [.emp i]
  | .tempListPopHead t => [.temp t]
  | .empListDelInit _ i => [.emp i]
  | .tempListDelInit _ t => [.temp t]
  | .empListSpliceTail t i => [.temp t, .emp i]
  | .empListSpliceTailEmpList j i => [.emp j, .emp i]
  | .empListDrain i t => [.emp i, .temp t]
  | .empListCutPosition i _ _ t => [.emp i, .temp t]
  | .empListCutCount i _ t => [.emp i, .temp t]

/-- A drain or a cut goes to an empty list. -/
def TargetEmpty (s : ListSys ι τ ε) : ListAct ι τ ε → Prop
  | .empListDrain _ t => s.items (.temp t) = []
  | .empListCutPosition _ _ _ t => s.items (.temp t) = []
  | .empListCutCount _ count t => count ≤ 0 ∨ s.items (.temp t) = []
  | _ => True

/-- A list that is spliced away is empty before. -/
def SourceEmpty (s : ListSys ι τ ε) : ListAct ι τ ε → Prop
  | .empListSpliceTail t _ => s.items (.temp t) = []
  | .empListSpliceTailEmpList j _ => s.items (.emp j) = []
  | _ => True

/-- No spent list is used before it is initialised, and a drain or a cut goes to an empty list. -/
def Fits (s : ListSys ι τ ε) (a : ListAct ι τ ε) : Prop :=
  (∀ l ∈ uses a, s.spent l = false) ∧ s.TargetEmpty a

/-! ## The invariant -/

/-- Elements are on one list.  Lists that are not spent are right; a spent one records that it is
empty, and its head is linked. -/
structure Inv (s : ListSys ι τ ε) : Prop where
  part : Inventory.Partitions s.items s.stock
  right : ∀ l, s.spent l = false → s.mem.Right l (s.items l)
  left : ∀ l, s.spent l = true → s.items l = [] ∧ s.mem.len l = 0 ∧
    listEmpty s.mem.links (.head l) = false

variable {s s' : ListSys ι τ ε} {m : ListMem ι τ ε} {l l' src : ListId ι τ} {e : ε} {n : ℕ}
  {lists : ListId ι τ → Prop} {elems : ε → Prop} {a : ListAct ι τ ε}

/-- Lists that are not touched stay as they are. -/
theorem Inv.of_touched (h : s.Inv) (hpart : Inventory.Partitions s'.items s'.stock)
    (hside : s.mem.SameBeside s'.mem lists elems)
    (helems : ∀ d, ¬ lists d → ∀ e ∈ s.items d, ¬ elems e)
    (hsame : ∀ d, ¬ lists d → s'.items d = s.items d ∧ s'.spent d = s.spent d)
    (hright : ∀ d, lists d → s'.spent d = false → s'.mem.Right d (s'.items d))
    (hleft : ∀ d, lists d → s'.spent d = true → s'.items d = [] ∧ s'.mem.len d = 0 ∧
      listEmpty s'.mem.links (.head d) = false) : s'.Inv := by
  refine ⟨hpart, fun d hd => ?_, fun d hd => ?_⟩
  · by_cases hl : lists d
    · exact hright d hl hd
    · obtain ⟨hitems, hspent⟩ := hsame d hl
      rw [hitems]
      exact hside.right hl (helems d hl) (h.right d (hspent ▸ hd))
  · by_cases hl : lists d
    · exact hleft d hl hd
    · obtain ⟨hitems, hspent⟩ := hsame d hl
      obtain ⟨hnil, hlen, hlinked⟩ := h.left d (hspent ▸ hd)
      refine ⟨hitems.trans hnil, (hside.len d hl).trans hlen, ?_⟩
      rw [listEmpty, (hside.head d hl).1]
      exact hlinked

/-! ### Single elements -/

theorem Inv.init (h : s.Inv) (hs : s.initAt l (s.mem.init l) = some s') : s'.Inv := by
  rw [initAt] at hs
  obtain ⟨hnil, rfl⟩ := of_guard hs
  refine h.of_touched h.part ListMem.sameBeside_init (fun _ _ _ _ => id) ?_ ?_ ?_
  · intro d hd
    exact ⟨rfl, Function.update_of_ne hd ..⟩
  · rintro d rfl -
    exact hnil ▸ ListMem.right_init
  · rintro d rfl hd
    simp at hd

theorem Inv.add (h : s.Inv) (hl : s.spent l = false)
    (hs : s.addAt e l (s.mem.addTail (.elem e) l) = some s') : s'.Inv := by
  rw [addAt] at hs
  obtain ⟨hnew, rfl⟩ := of_guard hs
  have hr := h.right l hl
  refine h.of_touched (h.part.add hnew) hr.sameBeside_addTail ?_ ?_ ?_ ?_
  · rintro d hd b hb (rfl | hbl)
    · exact hnew (h.part.mem hb)
    · exact hd (h.part.apart hb hbl)
  · intro d hd
    exact ⟨Function.update_of_ne hd .., rfl⟩
  · rintro d rfl -
    simp only [Function.update_self]
    exact hr.addTail fun he => hnew (h.part.mem he)
  · rintro d rfl hd
    exact absurd (hl.symm.trans hd) Bool.false_ne_true

theorem Inv.del (h : s.Inv) (hl : s.spent l = false)
    (hs : s.delAt e l (s.mem.delInit (.elem e) l) = some s') : s'.Inv := by
  rw [delAt] at hs
  obtain ⟨he, rfl⟩ := of_guard hs
  have hr := h.right l hl
  have hperm := List.perm_cons_erase he
  refine h.of_touched (h.part.remove hperm.symm) (hr.sameBeside_delInit he) ?_ ?_ ?_ ?_
  · exact fun d hd b hb hbl => hd (h.part.apart hb hbl)
  · intro d hd
    exact ⟨Function.update_of_ne hd .., rfl⟩
  · rintro d rfl -
    obtain ⟨us, vs, hsplit⟩ := List.append_of_mem he
    have hus : e ∉ us := by
      have hnd := h.part.nodup d
      rw [hsplit] at hnd
      exact fun hmem => (List.nodup_append.mp hnd).2.2 e hmem e (by simp) rfl
    have herase : (s.items d).erase e = us ++ vs := by
      rw [hsplit, List.erase_append_right _ hus, List.erase_cons_head]
    simp only [Function.update_self, herase]
    exact (hsplit ▸ hr).delInit
  · rintro d rfl hd
    exact absurd (hl.symm.trans hd) Bool.false_ne_true

theorem Inv.pop (h : s.Inv) (hl : s.spent l = false)
    (hs : s.popAt l (s.mem.popHead l).2 = some s') : s'.Inv := by
  have hr := h.right l hl
  rw [popAt] at hs
  cases hes : s.items l with
  | nil =>
      rw [hes] at hr
      simp only [hes, hr.popHead_nil] at hs
      exact Option.some.inj hs ▸ h
  | cons e es =>
      -- taking the first element is deleting it
      have he : e ∈ s.items l := hes ▸ List.mem_cons_self
      rw [hes] at hr
      simp only [hes, hr.popHead_cons] at hs
      refine h.del (e := e) hl ?_
      rw [← hs, delAt, if_pos he, hes, List.erase_cons_head]

/-! ### Bulk moves -/

theorem Inv.splice (h : s.Inv) (hsrc : s.spent src = false) (hl : s.spent l = false)
    (hs : s.spliceAt src l (s.mem.spliceTail src l) = some s') : s'.Inv := by
  rw [spliceAt] at hs
  obtain ⟨hne, rfl⟩ := of_guard hs
  have hrsrc := h.right src hsrc
  have hrl := h.right l hl
  obtain ⟨hside, hhead⟩ := hrsrc.sameBeside_spliceTail hrl
  have hpart : Inventory.Partitions (Inventory.move s.items src l (s.items src) []) s.stock :=
    h.part.move hne (by simp)
  have hempty : listEmpty (s.mem.spliceTail src l).links (.head src) = (s.items src).isEmpty := by
    rw [listEmpty, (hhead hne).1, Bool.eq_iff_iff, List.isEmpty_iff]
    exact hrsrc.listEmpty_iff
  refine h.of_touched hpart hside ?_ ?_ ?_ ?_
  · rintro d hd b hb (hbl | hba)
    · exact hd (.inl (h.part.apart hb hbl))
    · exact hd (.inr (h.part.apart hb hba))
  · intro d hd
    rw [not_or] at hd
    exact ⟨Inventory.move_other hd.2 hd.1, Function.update_of_ne hd.2 ..⟩
  · rintro d (rfl | rfl) hd
    · simp only [Inventory.move_target]
      exact hrsrc.spliceTail_list hrl hne fun b hb hb' => hne (h.part.apart hb' hb)
    · -- the source had no elements
      have hnil : s.items d = [] := by simpa [hsrc] using hd
      simp only [Inventory.move_source hne]
      refine ⟨⟨⟨?_, ?_⟩, by simp⟩, ListMem.len_spliceTail⟩
      · exact (hhead hne).1.trans (hnil ▸ hrsrc).loop.path.1
      · exact (hhead hne).2.trans (hnil ▸ hrsrc).loop.path.2
  · rintro d (rfl | rfl) hd
    · simp [Function.update_of_ne hne.symm, hl] at hd
    · have hnil : (s.items d).isEmpty = false := by simpa [hsrc] using hd
      exact ⟨Inventory.move_source hne, ListMem.len_spliceTail, hempty.trans hnil⟩

/-- The first elements of a l are at the end of the other one. -/
theorem Inv.move (h : s.Inv) (hne : l ≠ l') (hl : s.spent l = false)
    (hl' : s.spent l' = false)
    (hside : s.mem.SameBeside m (fun d => d = l ∨ d = l')
      fun a => a ∈ s.items l ∨ a ∈ s.items l')
    (hrl' : m.Right l' (s.items l' ++ (s.items l).take n))
    (hrl : m.Right l ((s.items l).drop n)) : (s.moveAt l l' n m).Inv := by
  have hpart : Inventory.Partitions (Inventory.move s.items l l' ((s.items l).take n)
      ((s.items l).drop n)) s.stock := h.part.move hne (by rw [List.take_append_drop])
  refine h.of_touched hpart hside ?_ ?_ ?_ ?_
  · rintro d hd b hb (hbl | hbc)
    · exact hd (.inl (h.part.apart hb hbl))
    · exact hd (.inr (h.part.apart hb hbc))
  · intro d hd
    rw [not_or] at hd
    exact ⟨Inventory.move_other hd.1 hd.2, rfl⟩
  · rintro d (rfl | rfl) -
    · simp only [moveAt, Inventory.move_source hne]
      exact hrl
    · simp only [moveAt, Inventory.move_target]
      exact hrl'
  · rintro d (rfl | rfl) hd
    · exact absurd (hl.symm.trans hd) Bool.false_ne_true
    · exact absurd (hl'.symm.trans hd) Bool.false_ne_true

section Moves

variable {i : ι} {t : τ} {count : ℤ} {es : List ε} {k : ℕ}

omit [DecidableEq ι] [DecidableEq τ] in
theorem emp_ne_temp (i : ι) (t : τ) : (ListId.emp i : ListId ι τ) ≠ .temp t := by simp

theorem Inv.drain (h : s.Inv) (hi : s.spent (.emp i) = false) (ht : s.spent (.temp t) = false)
    (hnil : s.items (.temp t) = []) :
    (s.moveAt (.emp i) (.temp t) (s.items (.emp i)).length (empListDrain s.mem i t)).Inv := by
  have hri := h.right _ hi
  have hrt := h.right _ ht
  have hd : ∀ e ∈ s.items (.temp t), e ∉ s.items (.emp i) :=
    fun e he he' => emp_ne_temp i t (h.part.apart he' he)
  refine h.move (emp_ne_temp i t) hi ht (hri.sameBeside_drain hrt) ?_ ?_
  · rw [List.take_length]
    exact (hri.right_drain_iff hrt hd).mpr hnil
  · rw [List.drop_length]
    exact (hri.drain hrt hd).2.2

omit [DecidableEq ε] in
theorem split_at (h : es[k]? = some e) :
    es = es.take k ++ e :: es.drop (k + 1) ∧ es.take (k + 1) = es.take k ++ [e] ∧
      (es.take k).length = k := by
  obtain ⟨hk, heq⟩ := List.getElem?_eq_some_iff.mp h
  refine ⟨?_, ?_, List.length_take_of_le (by omega)⟩
  · rw [← heq, ← List.drop_eq_getElem_cons hk, List.take_append_drop]
  · rw [List.take_add_one, h, Option.toList_some]

/-- What a cut at node number `count` does, if the other list may have elements. -/
theorem Inv.right_cutPosition_iff (h : s.Inv) (hi : s.spent (.emp i) = false)
    (ht : s.spent (.temp t) = false) (hcount : count = k + 1)
    (he : (s.items (.emp i))[k]? = some e) :
    (empListCutPosition s.mem i (.elem e) count t).Right (.temp t)
      (s.items (.temp t) ++ (s.items (.emp i)).take (k + 1)) ↔ s.items (.temp t) = [] := by
  obtain ⟨hsplit, htake, hlen⟩ := split_at he
  have hri := h.right _ hi
  have hd : ∀ e ∈ s.items (.temp t), e ∉ s.items (.emp i) :=
    fun e he he' => emp_ne_temp i t (h.part.apart he' he)
  rw [hsplit] at hri hd
  rw [htake]
  exact hri.right_cutPosition_iff (h.right _ ht) hd (by omega)

theorem Inv.cutPosition (h : s.Inv) (hi : s.spent (.emp i) = false)
    (ht : s.spent (.temp t) = false) (hnil : s.items (.temp t) = []) (hcount : count = k + 1)
    (he : (s.items (.emp i))[k]? = some e) :
    (s.moveAt (.emp i) (.temp t) (k + 1) (empListCutPosition s.mem i (.elem e) count t)).Inv := by
  obtain ⟨hsplit, htake, hlen⟩ := split_at he
  have hri := h.right _ hi
  have hside := hsplit ▸ hri
  refine h.move (emp_ne_temp i t) hi ht ?_ ((h.right_cutPosition_iff hi ht hcount he).mpr hnil) ?_
  · have hcut : s.mem.SameBeside (empListCutPosition s.mem i (.elem e) count t)
        (fun d => d = .emp i ∨ d = .temp t)
        fun a => a ∈ (s.items (.emp i)).take k ++ e :: (s.items (.emp i)).drop (k + 1) :=
      hside.sameBeside_cutPosition
    rw [← hsplit] at hcut
    exact ⟨hcut.head, fun a ha => hcut.elem a fun hmem => ha (.inl hmem), hcut.len⟩
  · exact (hside.cutPosition (t := t) (by omega)).2.2

/-- The three things that `emp_list_cut_count` may do. -/
theorem Inv.cutCount_cases (h : s.Inv) (hi : s.spent (.emp i) = false) (t : τ) (count : ℤ) :
    (count ≤ 0 ∧ empListCutCount s.mem i count t = s.mem) ∨
    (0 < count ∧ (s.items (.emp i)).length ≤ count.toNat ∧
      empListCutCount s.mem i count t = empListDrain s.mem i t) ∨
    ∃ (k : ℕ) (e : ε), count = k + 1 ∧ (s.items (.emp i))[k]? = some e ∧
      empListCutCount s.mem i count t = empListCutPosition s.mem i (.elem e) count t := by
  have hri := h.right _ hi
  have hlen := hri.len
  by_cases hpos : count ≤ 0
  · exact .inl ⟨hpos, if_pos hpos⟩
  · by_cases hall : count ≥ s.mem.len (.emp i)
    · refine .inr (.inl ⟨by omega, by omega, ?_⟩)
      rw [empListCutCount, if_neg hpos, if_pos hall]
    · obtain ⟨k, hk⟩ : ∃ k : ℕ, count = k + 1 := ⟨(count - 1).toNat, by omega⟩
      have hlt : k < (s.items (.emp i)).length := by omega
      have he := List.getElem?_eq_getElem hlt
      obtain ⟨hsplit, -, hktake⟩ := split_at he
      refine .inr (.inr ⟨k, _, hk, he, ?_⟩)
      refine (hsplit ▸ hri).cutCount_eq (by omega) fun hnil => ?_
      rw [List.drop_eq_nil_iff] at hnil
      omega

omit [DecidableEq ε] in
theorem moveAt_all (hn : (s.items l).length ≤ n) :
    s.moveAt l l' n m = s.moveAt l l' (s.items l).length m := by
  simp only [moveAt, List.take_of_length_le hn, List.drop_of_length_le hn, List.take_length,
    List.drop_length]

theorem Inv.cutCount (h : s.Inv) (hi : s.spent (.emp i) = false) (ht : s.spent (.temp t) = false)
    (hnil : count ≤ 0 ∨ s.items (.temp t) = []) :
    (s.moveAt (.emp i) (.temp t) count.toNat (empListCutCount s.mem i count t)).Inv := by
  rcases h.cutCount_cases hi t count with
    ⟨hpos, heq⟩ | ⟨hpos, hall, heq⟩ | ⟨k, e, hk, he, heq⟩
  · rw [heq, Int.toNat_of_nonpos hpos]
    refine h.move (emp_ne_temp i t) hi ht ⟨fun _ _ => ⟨rfl, rfl⟩, fun _ _ => ⟨rfl, rfl⟩,
      fun _ _ => rfl⟩ ?_ ?_
    · simpa using h.right _ ht
    · simpa using h.right _ hi
  · rw [heq, moveAt_all hall]
    exact h.drain hi ht (hnil.resolve_left (by omega))
  · have hn : count.toNat = k + 1 := by omega
    rw [heq, hn]
    exact h.cutPosition hi ht (hnil.resolve_left (by omega)) hk he

end Moves

/-! ### All calls -/

theorem inv_of_fresh (h : s.Fresh) : s.Inv := by
  refine ⟨⟨?_, ?_, ?_, ?_⟩, ?_, ?_⟩
  · simp [h.stock]
  · simp [h.items]
  · simp [h.items]
  · simp [h.items, h.stock]
  · exact fun l _ => h.items l ▸ h.right l
  · intro l hl
    exact absurd ((h.spent l).symm.trans hl) Bool.false_ne_true

theorem Inv.step (h : s.Inv) (hok : s.Fits a) (hs : s.step a = some s') : s'.Inv := by
  obtain ⟨huse, htarget⟩ := hok
  unfold ListSys.step at hs
  cases a with
  | initEmpList i => exact h.init hs
  | initTempList t => exact h.init hs
  | empListAddTail e i => exact h.add (huse _ (by simp [uses])) hs
  | tempListAddTail e t => exact h.add (huse _ (by simp [uses])) hs
  | empListPopHead i => exact h.pop (huse _ (by simp [uses])) hs
  | tempListPopHead t => exact h.pop (huse _ (by simp [uses])) hs
  | empListDelInit e i => exact h.del (huse _ (by simp [uses])) hs
  | tempListDelInit e t => exact h.del (huse _ (by simp [uses])) hs
  | empListSpliceTail t i =>
      exact h.splice (huse _ (by simp [uses])) (huse _ (by simp [uses])) hs
  | empListSpliceTailEmpList j i =>
      exact h.splice (huse _ (by simp [uses])) (huse _ (by simp [uses])) hs
  | empListDrain i t =>
      rw [← Option.some.inj hs]
      exact h.drain (huse _ (by simp [uses])) (huse _ (by simp [uses])) htarget
  | empListCutPosition i e count t =>
      obtain ⟨⟨hpos, he⟩, rfl⟩ := of_guard hs
      have hn : count.toNat = (count - 1).toNat + 1 := by omega
      rw [hn]
      exact h.cutPosition (huse _ (by simp [uses])) (huse _ (by simp [uses])) htarget (by omega) he
  | empListCutCount i count t =>
      rw [← Option.some.inj hs]
      exact h.cutCount (huse _ (by simp [uses])) (huse _ (by simp [uses])) htarget

/-- A spent list is wrong. -/
theorem Inv.right_iff (h : s.Inv) : s.mem.Right l (s.items l) ↔ s.spent l = false := by
  refine ⟨fun hr => ?_, h.right l⟩
  by_contra hspent
  obtain ⟨hnil, -, hlinked⟩ := h.left l (Bool.eq_true_of_not_eq_false hspent)
  exact absurd (hlinked.symm.trans (hr.listEmpty_iff.mpr hnil)) Bool.false_ne_true

theorem Inv.popHead_eq (h : s.Inv) (hl : s.spent l = false) :
    (s.mem.popHead l).1 = (s.items l).head?.map .elem := by
  have hr := h.right l hl
  cases hes : s.items l with
  | nil =>
      rw [hes] at hr
      rw [hr.popHead_nil, List.head?_nil, Option.map_none]
  | cons e es =>
      rw [hes] at hr
      rw [hr.popHead_cons, List.head?_cons, Option.map_some]

/-- Where lists become spent. -/
theorem spent_step (hl : ∀ l, s.spent l = false) (hs : s.step a = some s') :
    (∀ l, s'.spent l = false) ↔ s.SourceEmpty a := by
  have hsplice : ∀ {src l m}, s.spliceAt src l m = some s' →
      ((∀ l, s'.spent l = false) ↔ s.items src = []) := by
    intro src l m hs
    rw [spliceAt] at hs
    obtain ⟨-, rfl⟩ := of_guard hs
    constructor
    · intro h
      simpa [hl src] using h src
    · intro h d
      by_cases hd : d = src
      · simp [hd, hl src, h]
      · exact (Function.update_of_ne hd ..).trans (hl d)
  unfold step at hs
  cases a with
  | initEmpList i =>
      simp only [initAt] at hs
      obtain ⟨-, rfl⟩ := of_guard hs
      simp [SourceEmpty, Function.update_apply, hl]
  | initTempList t =>
      simp only [initAt] at hs
      obtain ⟨-, rfl⟩ := of_guard hs
      simp [SourceEmpty, Function.update_apply, hl]
  | empListAddTail e i =>
      simp only [addAt] at hs
      obtain ⟨-, rfl⟩ := of_guard hs
      simp [SourceEmpty, hl]
  | tempListAddTail e t =>
      simp only [addAt] at hs
      obtain ⟨-, rfl⟩ := of_guard hs
      simp [SourceEmpty, hl]
  | empListPopHead i =>
      simp only [popAt] at hs
      split at hs <;> simp [← Option.some.inj hs, SourceEmpty, hl]
  | tempListPopHead t =>
      simp only [popAt] at hs
      split at hs <;> simp [← Option.some.inj hs, SourceEmpty, hl]
  | empListDelInit e i =>
      simp only [delAt] at hs
      obtain ⟨-, rfl⟩ := of_guard hs
      simp [SourceEmpty, hl]
  | tempListDelInit e t =>
      simp only [delAt] at hs
      obtain ⟨-, rfl⟩ := of_guard hs
      simp [SourceEmpty, hl]
  | empListSpliceTail t i => exact hsplice hs
  | empListSpliceTailEmpList j i => exact hsplice hs
  | empListDrain i t => simp [← Option.some.inj hs, SourceEmpty, moveAt, hl]
  | empListCutPosition i e count t =>
      obtain ⟨-, rfl⟩ := of_guard hs
      simp [SourceEmpty, moveAt, hl]
  | empListCutCount i count t => simp [← Option.some.inj hs, SourceEmpty, moveAt, hl]

/-- A drain or a cut to a list that has elements leaves that list wrong. -/
theorem Inv.targetEmpty (h : s.Inv) (hl : ∀ l, s.spent l = false) (hs : s.step a = some s')
    (hr : ∀ l, s'.mem.Right l (s'.items l)) : s.TargetEmpty a := by
  have hdrain : ∀ {i t}, (empListDrain s.mem i t).Right (.temp t)
      (s.items (.temp t) ++ s.items (.emp i)) → s.items (.temp t) = [] := by
    intro i t hr
    refine ((h.right _ (hl _)).right_drain_iff (h.right _ (hl _)) ?_).mp hr
    exact fun e he he' => emp_ne_temp i t (h.part.apart he' he)
  unfold ListSys.step at hs
  cases a with
  | empListDrain i t =>
      have hrt := hr (.temp t)
      rw [← Option.some.inj hs] at hrt
      simp only [moveAt, Inventory.move_target, List.take_length] at hrt
      exact hdrain hrt
  | empListCutPosition i e count t =>
      obtain ⟨⟨hpos, he⟩, rfl⟩ := of_guard hs
      have hrt := hr (.temp t)
      have hn : count.toNat = (count - 1).toNat + 1 := by omega
      simp only [moveAt, Inventory.move_target, hn] at hrt
      exact (h.right_cutPosition_iff (hl _) (hl _) (by omega) he).mp hrt
  | empListCutCount i count t =>
      have hrt := hr (.temp t)
      rw [← Option.some.inj hs] at hrt
      simp only [moveAt, Inventory.move_target] at hrt
      rcases h.cutCount_cases (hl (.emp i)) t count with
        ⟨hpos, -⟩ | ⟨-, hall, heq⟩ | ⟨k, e, hk, he, heq⟩
      · exact .inl hpos
      · rw [heq, List.take_of_length_le hall] at hrt
        exact .inr (hdrain hrt)
      · have hn : count.toNat = k + 1 := by omega
        rw [heq, hn] at hrt
        exact .inr ((h.right_cutPosition_iff (hl _) (hl _) hk he).mp hrt)
  | _ => trivial

/-- In every run that uses no spent list, and drains and cuts to empty lists only, exactly the
lists that are not spent are right, and a list that is popped from gives its first element.  As long
as no list is spent, a call leaves all lists right exactly if it does not drain or cut to a list
with elements, and does not splice one away. -/
theorem right_of_reach (h : ReachWhen Fresh step Fits s) :
    (∀ l, s.mem.Right l (s.items l) ↔ s.spent l = false) ∧
    (∀ l, s.spent l = false → (s.mem.popHead l).1 = (s.items l).head?.map .elem) ∧
    ((∀ l, s.spent l = false) → ∀ a s', s.step a = some s' →
      ((∀ l, s'.mem.Right l (s'.items l)) ↔ s.TargetEmpty a ∧ s.SourceEmpty a)) := by
  have hinv : s.Inv := h.invariant (fun _ => inv_of_fresh) fun u a u' hu hok hs => hu.step hok hs
  refine ⟨fun l => hinv.right_iff, fun l hl => hinv.popHead_eq hl, fun hl a s' hs => ⟨?_, ?_⟩⟩
  · intro hr
    have htarget := hinv.targetEmpty hl hs hr
    have hinv' := hinv.step ⟨fun l _ => hl l, htarget⟩ hs
    exact ⟨htarget, (spent_step hl hs).mp fun l => hinv'.right_iff.mp (hr l)⟩
  · rintro ⟨htarget, hsource⟩ l
    have hinv' := hinv.step ⟨fun l _ => hl l, htarget⟩ hs
    exact hinv'.right l ((spent_step hl hs).mpr hsource l)

/-- All lists have just been initialised. -/
def fresh : ListSys ι τ ε where
  mem := { links := { next := id, prev := id }, len := fun _ => 0 }
  items := fun _ => []
  stock := []
  spent := fun _ => false

omit [DecidableEq ι] [DecidableEq τ] [DecidableEq ε] in
theorem fresh_fresh : (fresh : ListSys ι τ ε).Fresh :=
  ⟨fun _ => ⟨⟨⟨rfl, rfl⟩, List.nodup_singleton _⟩, rfl⟩, fun _ => rfl, rfl, fun _ => rfl⟩

/-- A page of a cpu goes to the global list, the cpu's list is initialised and used again, and two
pages are cut off the global list. -/
def flushRun : List (ListAct Bool Unit ℕ) :=
  [.empListAddTail 7 false, .empListSpliceTailEmpList false true, .initEmpList false,
    .empListAddTail 8 false, .empListAddTail 9 true, .empListAddTail 5 true,
    .empListCutCount true 2 ()]

theorem allowed_flushRun : Allowed step Fits fresh flushRun := by
  refine ⟨⟨?_, trivial⟩, ⟨?_, trivial⟩, ⟨?_, trivial⟩, ⟨?_, trivial⟩, ⟨?_, trivial⟩, ⟨?_, trivial⟩,
    ⟨?_, .inr rfl⟩, trivial⟩ <;> decide

/-- The state after `flushRun`. -/
def flushed : ListSys Bool Unit ℕ := ((exec step fresh flushRun).getD fresh)

theorem exec_flushRun : exec step fresh flushRun = some flushed := rfl

theorem right_of_reach_flushed : (flushed.items (.temp ()) = [7, 9] ∧
      flushed.items (.emp true) = [5] ∧ flushed.items (.emp false) = [8]) ∧
    (∀ l, flushed.mem.Right l (flushed.items l) ↔ flushed.spent l = false) ∧
    (∀ l, flushed.spent l = false →
      (flushed.mem.popHead l).1 = (flushed.items l).head?.map .elem) ∧
    ((∀ l, flushed.spent l = false) → ∀ a s', flushed.step a = some s' →
      ((∀ l, s'.mem.Right l (s'.items l)) ↔ flushed.TargetEmpty a ∧ flushed.SourceEmpty a)) :=
  ⟨by decide, right_of_reach ((ReachWhen.start fresh_fresh).exec allowed_flushRun
    exec_flushRun)⟩

/-- A cpu's list with one page is spliced into the global list. -/
def spliced : ListSys Bool Unit ℕ :=
  (exec step fresh [.empListAddTail 7 false, .empListSpliceTailEmpList false true]).getD fresh

theorem not_right_spliced : ¬ ∀ s : ListSys Bool Unit ℕ, Reach Fresh step s →
    ∀ l, s.mem.Right l (s.items l) := by
  intro h
  have hexec : exec step fresh [.empListAddTail 7 false, .empListSpliceTailEmpList false true] =
      some spliced := rfl
  have hreach : Reach Fresh step spliced := Reach.exec (.start fresh_fresh) hexec
  exact absurd (h _ hreach (.emp false)).loop.path.1 (by decide)

end ListSys

end Emp
