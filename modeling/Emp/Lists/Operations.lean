import Emp.Lib.CircularList
import Mathlib.Algebra.Order.Ring.Nat
import Mathlib.Data.Int.Notation

/-!
# Lists with a length

An `emp_list` and a `temp_list` are heads of circular lists beside which a length is recorded.
Each operation changes links and lengths by hand.

Lists live in one memory; an element is a node that is in them.  Lengths are far below `2 ^ 31`, as
every element belongs to a page.

## Main definitions

* `ListMem` — the links and the recorded lengths.
* `empListSpliceTail`, `empListDrain`, `empListCutCount`, … — the operations.
* `ListMem.Right` — a list has these elements, and records how many they are.
-/

namespace Emp

open CircularList

/-- The lists of either type. -/
inductive ListId (ι τ : Type*)
  | emp (i : ι)
  | temp (t : τ)
  deriving DecidableEq

/-- The `list_head` of a list, or that of an element. -/
inductive ListNode (ι τ ε : Type*)
  | head (l : ListId ι τ)
  | elem (e : ε)
  deriving DecidableEq

/-- The links of all nodes, and the field `len` of all lists. -/
structure ListMem (ι τ ε : Type*) where
  links : Links (ListNode ι τ ε)
  len : ListId ι τ → ℤ

variable {ι τ ε : Type*} [DecidableEq ι] [DecidableEq τ] [DecidableEq ε]

namespace ListMem

/-! ## What both types share -/

/-- `init_emp_list`, `init_temp_list`. -/
def init (m : ListMem ι τ ε) (l : ListId ι τ) : ListMem ι τ ε :=
  { links := initListHead m.links (.head l), len := Function.update m.len l 0 }

/-- `emp_list_add_tail`, `temp_list_add_tail`. -/
def addTail (m : ListMem ι τ ε) (x : ListNode ι τ ε) (l : ListId ι τ) : ListMem ι τ ε :=
  { links := listAddTail m.links x (.head l), len := Function.update m.len l (m.len l + 1) }

/-- `emp_list_del_init`, `temp_list_del_init`. -/
def delInit (m : ListMem ι τ ε) (x : ListNode ι τ ε) (l : ListId ι τ) : ListMem ι τ ε :=
  { links := listDelInit m.links x, len := Function.update m.len l (m.len l - 1) }

/-- `emp_list_pop_head`, `temp_list_pop_head`. -/
def popHead (m : ListMem ι τ ε) (l : ListId ι τ) : Option (ListNode ι τ ε) × ListMem ι τ ε :=
  if listEmpty m.links (.head l) then (none, m)
  else (some (m.links.next (.head l)), m.delInit (m.links.next (.head l)) l)

/-- `emp_list_splice_tail`, `emp_list_splice_tail_emp_list`: the length of `add` is set to zero,
its head is not initialised. -/
def spliceTail (m : ListMem ι τ ε) (add list : ListId ι τ) : ListMem ι τ ε :=
  { links := listSpliceTail m.links (.head add) (.head list)
    len := Function.update (Function.update m.len list (m.len list + m.len add)) add 0 }

end ListMem

/-! ## The operations -/

/-- `init_emp_list`. -/
def initEmpList (m : ListMem ι τ ε) (list : ι) : ListMem ι τ ε := m.init (.emp list)

/-- `init_temp_list`. -/
def initTempList (m : ListMem ι τ ε) (list : τ) : ListMem ι τ ε := m.init (.temp list)

/-- `emp_list_add_tail`. -/
def empListAddTail (m : ListMem ι τ ε) (head : ListNode ι τ ε) (list : ι) : ListMem ι τ ε :=
  m.addTail head (.emp list)

/-- `temp_list_add_tail`. -/
def tempListAddTail (m : ListMem ι τ ε) (head : ListNode ι τ ε) (list : τ) : ListMem ι τ ε :=
  m.addTail head (.temp list)

/-- `emp_list_del_init`, and `emp_list_del`. -/
def empListDelInit (m : ListMem ι τ ε) (pos : ListNode ι τ ε) (list : ι) : ListMem ι τ ε :=
  m.delInit pos (.emp list)

/-- `temp_list_del_init`, and `temp_list_del`. -/
def tempListDelInit (m : ListMem ι τ ε) (pos : ListNode ι τ ε) (list : τ) : ListMem ι τ ε :=
  m.delInit pos (.temp list)

/-- `emp_list_pop_head`. -/
def empListPopHead (m : ListMem ι τ ε) (list : ι) : Option (ListNode ι τ ε) × ListMem ι τ ε :=
  m.popHead (.emp list)

/-- `temp_list_pop_head`. -/
def tempListPopHead (m : ListMem ι τ ε) (list : τ) : Option (ListNode ι τ ε) × ListMem ι τ ε :=
  m.popHead (.temp list)

/-- `emp_list_splice_tail`. -/
def empListSpliceTail (m : ListMem ι τ ε) (add : τ) (list : ι) : ListMem ι τ ε :=
  m.spliceTail (.temp add) (.emp list)

/-- `emp_list_splice_tail_emp_list`. -/
def empListSpliceTailEmpList (m : ListMem ι τ ε) (add list : ι) : ListMem ι τ ε :=
  m.spliceTail (.emp add) (.emp list)

/-- `emp_list_drain`: the length of `drain` is overwritten. -/
def empListDrain (m : ListMem ι τ ε) (list : ι) (drain : τ) : ListMem ι τ ε :=
  { links := listSpliceTailInit m.links (.head (.emp list)) (.head (.temp drain))
    len := Function.update (Function.update m.len (.temp drain) (m.len (.emp list)))
      (.emp list) 0 }

/-- `emp_list_cut_position`: the length of `cut` is added to, its links are overwritten. -/
def empListCutPosition (m : ListMem ι τ ε) (list : ι) (pos : ListNode ι τ ε) (count : ℤ)
    (cut : τ) : ListMem ι τ ε :=
  { links := listCutPosition m.links (.head (.temp cut)) (.head (.emp list)) pos
    len := Function.update (Function.update m.len (.emp list) (m.len (.emp list) - count))
      (.temp cut) (m.len (.temp cut) + count) }

/-- The loop of `emp_list_cut_count`: `n` nodes on from `pos`. -/
def cutLoop (m : ListMem ι τ ε) : ℕ → ListNode ι τ ε → ListNode ι τ ε
  | 0, pos => pos
  | n + 1, pos => cutLoop m n (m.links.next pos)

/-- `emp_list_cut_count`. -/
def empListCutCount (m : ListMem ι τ ε) (list : ι) (count : ℤ) (cut : τ) : ListMem ι τ ε :=
  if count ≤ 0 then m
  else if count ≥ m.len (.emp list) then empListDrain m list cut
  else empListCutPosition m list
    (cutLoop m (count - 1).toNat (m.links.next (.head (.emp list)))) count cut

namespace ListMem

/-! ## What the operations do to a list -/

/-- The list has the elements `es`, in this order, and records how many they are. -/
structure Right (m : ListMem ι τ ε) (l : ListId ι τ) (es : List ε) : Prop where
  loop : Loop m.links (.head l) (es.map .elem)
  len : m.len l = es.length

/-- An operation that touches these lists and these elements only. -/
structure SameBeside (m m' : ListMem ι τ ε) (lists : ListId ι τ → Prop) (elems : ε → Prop) :
    Prop where
  head : ∀ l, ¬ lists l → m'.links.next (.head l) = m.links.next (.head l) ∧
    m'.links.prev (.head l) = m.links.prev (.head l)
  elem : ∀ e, ¬ elems e → m'.links.next (.elem e) = m.links.next (.elem e) ∧
    m'.links.prev (.elem e) = m.links.prev (.elem e)
  len : ∀ l, ¬ lists l → m'.len l = m.len l

variable {m m' : ListMem ι τ ε} {l list add : ListId ι τ} {es es' us vs : List ε} {e : ε}
  {lists : ListId ι τ → Prop} {elems : ε → Prop} {nodes : List (ListNode ι τ ε)} {count : ℤ}

omit [DecidableEq ι] [DecidableEq τ] [DecidableEq ε] in
theorem sameBeside_of_outside (h : m.links.SameOutside m'.links nodes)
    (hhead : ∀ l, .head l ∈ nodes → lists l) (helem : ∀ e, .elem e ∈ nodes → elems e)
    (hlen : ∀ l, ¬ lists l → m'.len l = m.len l) : m.SameBeside m' lists elems :=
  ⟨fun l hl => h _ fun hmem => hl (hhead l hmem),
    fun e he => h _ fun hmem => he (helem e hmem), hlen⟩

omit [DecidableEq ι] [DecidableEq τ] [DecidableEq ε] in
theorem SameBeside.right (h : m.SameBeside m' lists elems) (hl : ¬ lists l)
    (hes : ∀ e ∈ es, ¬ elems e) (hr : m.Right l es) : m'.Right l es := by
  have hsame : ∀ x ∈ .head l :: es.map .elem,
      m'.links.next x = m.links.next x ∧ m'.links.prev x = m.links.prev x := by
    intro x hx
    rw [List.mem_cons, List.mem_map] at hx
    rcases hx with rfl | ⟨e, he, rfl⟩
    · exact h.head l hl
    · exact h.elem e (hes e he)
  refine ⟨⟨hr.loop.path.congr (fun x hx => (hsame x hx).1) fun x hx => (hsame x ?_).2,
    hr.loop.nodup⟩, (h.len l hl).trans hr.len⟩
  exact (List.perm_append_singleton _ _).mem_iff.mp hx

/-! ### Single elements -/

theorem right_init : (m.init l).Right l [] :=
  ⟨ring_initListHead, by simp [init]⟩

theorem sameBeside_init : m.SameBeside (m.init l) (· = l) fun _ => False := by
  refine sameBeside_of_outside sameOutside_initListHead ?_ ?_ ?_
  · intro d hd
    simpa using hd
  · intro e he
    simp at he
  · intro d hd
    simp [init, hd]

theorem Right.addTail (h : m.Right l es) (he : e ∉ es) :
    (m.addTail (.elem e) l).Right l (es ++ [e]) := by
  refine ⟨?_, ?_⟩
  · rw [List.map_append, List.map_singleton]
    exact h.loop.listAddTail (by simpa using he)
  · simp [ListMem.addTail, h.len]

theorem Right.sameBeside_addTail (h : m.Right l es) :
    m.SameBeside (m.addTail (.elem e) l) (· = l) fun a => a = e ∨ a ∈ es := by
  refine sameBeside_of_outside h.loop.sameOutside_listAddTail ?_ ?_ ?_
  · intro d hd
    simpa using hd
  · intro a ha
    simpa using ha
  · intro d hd
    simp [ListMem.addTail, hd]

theorem Right.delInit (h : m.Right l (us ++ e :: vs)) :
    (m.delInit (.elem e) l).Right l (us ++ vs) := by
  have hloop := h.loop
  rw [List.map_append, List.map_cons] at hloop
  refine ⟨?_, ?_⟩
  · rw [List.map_append]
    exact hloop.listDelInit.1
  · simp only [ListMem.delInit, Function.update_self, h.len, List.length_append, List.length_cons]
    omega

theorem Right.sameBeside_delInit (h : m.Right l es) (he : e ∈ es) :
    m.SameBeside (m.delInit (.elem e) l) (· = l) (· ∈ es) := by
  refine sameBeside_of_outside (h.loop.sameOutside_listDelInit (by simpa using he)) ?_ ?_ ?_
  · intro d hd
    simpa using hd
  · intro a ha
    simpa using ha
  · intro d hd
    simp [ListMem.delInit, hd]

theorem Right.listEmpty_iff (h : m.Right l es) : listEmpty m.links (.head l) = true ↔ es = [] := by
  rw [h.loop.listEmpty_iff, List.map_eq_nil_iff]

omit [DecidableEq ι] [DecidableEq τ] [DecidableEq ε] in
theorem Right.next_head (h : m.Right l (e :: es)) : m.links.next (.head l) = .elem e :=
  h.loop.path.1

theorem Right.popHead_nil (h : m.Right l []) : m.popHead l = (none, m) :=
  if_pos (h.listEmpty_iff.mpr rfl)

theorem Right.popHead_cons (h : m.Right l (e :: es)) :
    m.popHead l = (some (.elem e), m.delInit (.elem e) l) := by
  have hne : ¬ listEmpty m.links (.head l) = true := fun hm => by simpa using h.listEmpty_iff.mp hm
  rw [popHead, if_neg hne, h.next_head]

/-! ### Bulk moves -/

theorem Right.spliceTail_list (hadd : m.Right add es') (hlist : m.Right list es)
    (hne : add ≠ list) (hd : ∀ e ∈ es, e ∉ es') :
    (m.spliceTail add list).Right list (es ++ es') := by
  refine ⟨?_, ?_⟩
  · cases es' with
    | nil =>
        have hlinks : (m.spliceTail add list).links = m.links :=
          if_pos (hadd.listEmpty_iff.mpr rfl)
        rw [hlinks, List.append_nil]
        exact hlist.loop
    | cons e es' =>
        have hlinks : (m.spliceTail add list).links = listSpliceBetween m.links (.head add)
            (m.links.prev (.head list)) (.head list) :=
          if_neg fun hm => by simpa using hadd.listEmpty_iff.mp hm
        rw [hlinks, List.map_append, List.map_cons]
        refine hlist.loop.splice hadd.loop fun y hy hy' => ?_
        rw [List.mem_cons, List.mem_map] at hy
        rcases hy with rfl | ⟨a, ha, rfl⟩
        · exact hne.symm (by simpa using hy')
        · exact hd a ha (by simpa using hy')
  · simp [ListMem.spliceTail, Function.update_of_ne hne.symm, hadd.len, hlist.len]

theorem len_spliceTail : (m.spliceTail add list).len add = 0 := Function.update_self ..

/-- The list that was spliced away is not touched. -/
theorem Right.sameBeside_spliceTail (hadd : m.Right add es') (hlist : m.Right list es) :
    m.SameBeside (m.spliceTail add list) (fun d => d = list ∨ d = add)
        (fun a => a ∈ es ∨ a ∈ es') ∧
      (add ≠ list → (m.spliceTail add list).links.next (.head add) = m.links.next (.head add) ∧
        (m.spliceTail add list).links.prev (.head add) = m.links.prev (.head add)) := by
  have hlen : ∀ d, ¬ (d = list ∨ d = add) → (m.spliceTail add list).len d = m.len d := by
    intro d hd
    rw [not_or] at hd
    simp [ListMem.spliceTail, hd.1, hd.2]
  cases es' with
  | nil =>
      have hlinks : (m.spliceTail add list).links = m.links :=
        if_pos (hadd.listEmpty_iff.mpr rfl)
      exact ⟨⟨fun d _ => by rw [hlinks]; exact ⟨rfl, rfl⟩,
        fun a _ => by rw [hlinks]; exact ⟨rfl, rfl⟩, hlen⟩, fun _ => by
          rw [hlinks]; exact ⟨rfl, rfl⟩⟩
  | cons e es' =>
      have hlinks : (m.spliceTail add list).links = listSpliceBetween m.links (.head add)
          (m.links.prev (.head list)) (.head list) :=
        if_neg fun hm => by simpa using hadd.listEmpty_iff.mp hm
      have hsame := sameOutside_splice hlist.loop hadd.loop
      rw [← hlinks] at hsame
      refine ⟨sameBeside_of_outside hsame ?_ ?_ hlen, fun hne => hsame _ (by simpa using hne)⟩
      · intro d hd
        exact .inl (by simpa using hd)
      · intro a ha
        simpa using ha

section Moves

variable {i : ι} {t : τ}

/-- The elements are behind those of `drain`, the length counts the new ones alone. -/
theorem Right.drain (hlist : m.Right (.emp i) es) (hdrain : m.Right (.temp t) es')
    (hd : ∀ e ∈ es', e ∉ es) :
    Loop (empListDrain m i t).links (.head (.temp t)) ((es' ++ es).map .elem) ∧
      (empListDrain m i t).len (.temp t) = es.length ∧ (empListDrain m i t).Right (.emp i) [] := by
  have hlen : (empListDrain m i t).len (.temp t) = es.length := by
    simp [empListDrain, hlist.len]
  have hlen' : (empListDrain m i t).len (.emp i) = 0 := Function.update_self ..
  cases es with
  | nil =>
      have hlinks : (empListDrain m i t).links = m.links := if_pos (hlist.listEmpty_iff.mpr rfl)
      refine ⟨?_, hlen, ?_, hlen'⟩
      · rw [hlinks, List.append_nil]
        exact hdrain.loop
      · rw [hlinks]
        exact hlist.loop
  | cons e es =>
      have hlinks : (empListDrain m i t).links = initListHead (listSpliceBetween m.links
          (.head (.emp i)) (m.links.prev (.head (.temp t))) (.head (.temp t))) (.head (.emp i)) :=
        if_neg fun hm => by simpa using hlist.listEmpty_iff.mp hm
      refine ⟨?_, hlen, ?_, hlen'⟩
      · rw [hlinks, List.map_append, List.map_cons]
        refine Loop.congr (hdrain.loop.splice hlist.loop fun y hy hy' => ?_)
          sameOutside_initListHead fun y hy hy' => ?_
        · rw [List.mem_cons, List.mem_map] at hy
          rcases hy with rfl | ⟨a, ha, rfl⟩
          · simp at hy'
          · exact hd a ha (by simpa using hy')
        · rw [List.mem_singleton] at hy'
          simp [hy'] at hy
      · rw [hlinks]
        exact ring_initListHead

theorem Right.right_drain_iff (hlist : m.Right (.emp i) es) (hdrain : m.Right (.temp t) es')
    (hd : ∀ e ∈ es', e ∉ es) :
    (empListDrain m i t).Right (.temp t) (es' ++ es) ↔ es' = [] := by
  obtain ⟨hloop, hlen, -⟩ := hlist.drain hdrain hd
  constructor
  · intro h
    have heq := hlen.symm.trans h.len
    rw [List.length_append] at heq
    exact List.length_eq_zero_iff.mp (by omega)
  · rintro rfl
    exact ⟨hloop, hlen⟩

theorem Right.sameBeside_drain (hlist : m.Right (.emp i) es) (hdrain : m.Right (.temp t) es') :
    m.SameBeside (empListDrain m i t) (fun d => d = .emp i ∨ d = .temp t)
      fun a => a ∈ es ∨ a ∈ es' := by
  have hlen : ∀ d, ¬ (d = .emp i ∨ d = .temp t) → (empListDrain m i t).len d = m.len d := by
    intro d hd
    rw [not_or] at hd
    simp [empListDrain, hd.1, hd.2]
  cases es with
  | nil =>
      have hlinks : (empListDrain m i t).links = m.links := if_pos (hlist.listEmpty_iff.mpr rfl)
      exact ⟨fun d _ => by rw [hlinks]; exact ⟨rfl, rfl⟩,
        fun a _ => by rw [hlinks]; exact ⟨rfl, rfl⟩, hlen⟩
  | cons e es =>
      have hlinks : (empListDrain m i t).links = initListHead (listSpliceBetween m.links
          (.head (.emp i)) (m.links.prev (.head (.temp t))) (.head (.temp t))) (.head (.emp i)) :=
        if_neg fun hm => by simpa using hlist.listEmpty_iff.mp hm
      have hsplice := sameOutside_splice hdrain.loop hlist.loop
      have hinit := sameOutside_initListHead (m := listSpliceBetween m.links (.head (.emp i))
        (m.links.prev (.head (.temp t))) (.head (.temp t))) (a := .head (.emp i))
      have hsame : m.links.SameOutside (empListDrain m i t).links (.head (.emp i) ::
          .head (.temp t) :: (es'.map .elem ++ .elem e :: es.map .elem)) := by
        intro y hy
        rw [List.mem_cons, not_or] at hy
        have hfirst := hsplice y hy.2
        have hsecond := hinit y (by simpa using hy.1)
        rw [hlinks]
        exact ⟨hsecond.1.trans hfirst.1, hsecond.2.trans hfirst.2⟩
      refine sameBeside_of_outside hsame ?_ ?_ hlen
      · intro d hd
        simpa using hd
      · intro a ha
        simp only [List.mem_cons, List.mem_append, List.mem_map, reduceCtorEq, false_or] at ha ⊢
        rcases ha with ⟨b, hb, heq⟩ | heq | ⟨b, hb, heq⟩
        · exact .inr (ListNode.elem.inj heq ▸ hb)
        · exact .inl (.inl (ListNode.elem.inj heq))
        · exact .inl (.inr (ListNode.elem.inj heq ▸ hb))

/-- The elements up to the given one are in the other list, whatever it held. -/
theorem Right.cutPosition (hlist : m.Right (.emp i) (us ++ e :: vs))
    (hcount : count = us.length + 1) :
    Loop (empListCutPosition m i (.elem e) count t).links (.head (.temp t))
        ((us ++ [e]).map .elem) ∧
      (empListCutPosition m i (.elem e) count t).len (.temp t) = m.len (.temp t) + count ∧
      (empListCutPosition m i (.elem e) count t).Right (.emp i) vs := by
  have hloop := hlist.loop
  rw [List.map_append, List.map_cons] at hloop
  have hlinks : (empListCutPosition m i (.elem e) count t).links =
      listCutBetween m.links (.head (.temp t)) (.head (.emp i)) (.elem e) :=
    hloop.listCutPosition_eq
  obtain ⟨hcut, hrest⟩ := hloop.cut (t := .head (.temp t)) (by simp)
  refine ⟨?_, ?_, ?_, ?_⟩
  · rw [hlinks, List.map_append, List.map_singleton]
    exact hcut
  · simp [empListCutPosition]
  · rw [hlinks]
    exact hrest
  · simp only [empListCutPosition, ne_eq, reduceCtorEq, not_false_eq_true, Function.update_of_ne,
      Function.update_self, hlist.len, List.length_append, List.length_cons, hcount]
    omega

theorem Right.right_cutPosition_iff (hlist : m.Right (.emp i) (us ++ e :: vs))
    (hcut : m.Right (.temp t) es) (hd : ∀ a ∈ es, a ∉ us ++ e :: vs)
    (hcount : count = us.length + 1) :
    (empListCutPosition m i (.elem e) count t).Right (.temp t) (es ++ (us ++ [e])) ↔ es = [] := by
  obtain ⟨hloop, hlen, -⟩ := hlist.cutPosition (t := t) hcount
  constructor
  · intro h
    cases es with
    | nil => rfl
    | cons a es =>
        -- the first element would have to be one of the old and one of the new elements
        have hfirst := h.next_head
        have hmem := hloop.path.next_mem
        rw [hfirst] at hmem
        have ha : a ∈ us ∨ a = e := by simpa using hmem
        exact absurd (by simpa using ha.imp_right .inl) (hd a List.mem_cons_self)
  · rintro rfl
    refine ⟨hloop, hlen.trans ?_⟩
    simp [hcut.len, hcount]

theorem Right.sameBeside_cutPosition (hlist : m.Right (.emp i) (us ++ e :: vs)) :
    m.SameBeside (empListCutPosition m i (.elem e) count t)
      (fun d => d = .emp i ∨ d = .temp t) fun a => a ∈ us ++ e :: vs := by
  have hloop := hlist.loop
  rw [List.map_append, List.map_cons] at hloop
  have hlinks : (empListCutPosition m i (.elem e) count t).links =
      listCutBetween m.links (.head (.temp t)) (.head (.emp i)) (.elem e) :=
    hloop.listCutPosition_eq
  have hsame := sameOutside_cut (t := .head (.temp t)) hloop
  rw [← hlinks] at hsame
  refine sameBeside_of_outside hsame ?_ ?_ ?_
  · intro d hd
    have hd' : d = .temp t ∨ d = .emp i := by simpa using hd
    exact hd'.symm
  · intro a ha
    simpa using ha
  · intro d hd
    rw [not_or] at hd
    simp [empListCutPosition, hd.1, hd.2]

omit [DecidableEq ι] [DecidableEq τ] [DecidableEq ε] in
theorem cutLoop_path {a : ListNode ι τ ε} (h : Path m.links a (us.map .elem) (.elem e)) :
    cutLoop m us.length (m.links.next a) = .elem e := by
  induction us generalizing a with
  | nil => exact h.1
  | cons u us ih =>
      obtain ⟨hau, -, hrest⟩ := h
      rw [hau]
      exact ih hrest

/-- The loop finds the last element that is cut off. -/
theorem Right.cutCount_eq (hlist : m.Right (.emp i) (us ++ e :: vs))
    (hcount : count = us.length + 1) (hvs : vs ≠ []) :
    empListCutCount m i count t = empListCutPosition m i (.elem e) count t := by
  have hpath := hlist.loop.path
  rw [List.map_append, List.map_cons] at hpath
  have hlen : m.len (.emp i) = us.length + 1 + vs.length := by
    rw [hlist.len, List.length_append, List.length_cons]
    omega
  have hpos := List.length_pos_iff.mpr hvs
  have hn : (count - 1).toNat = us.length := by omega
  rw [empListCutCount, if_neg (by omega), if_neg (by omega), hn,
    cutLoop_path (path_append_cons.mp hpath).1]

end Moves

end ListMem

end Emp
