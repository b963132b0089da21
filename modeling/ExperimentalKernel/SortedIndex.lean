import ExperimentalKernel.LabelledRuns
import ExperimentalKernel.PointerArray
import Mathlib.Algebra.Order.Group.Multiset

/-!
# The ordered array as a sorted multiset

Runs of `add` and `erase` on an `OrderedArray`. The elements stay in ascending order, and
together with what was erased they are what was added.
-/

namespace ExperimentalKernel.PointerArray
open ByteMemory LabelledRuns

inductive IndexOp where
  | add (item : ℕ)
  | erase (position : ℕ)

/-- The object and the memory that holds its elements. -/
structure IndexState where
  index : PtrArray
  mem : Mem

namespace IndexState

def exec (s : IndexState) : IndexOp → IndexState
  | .add item => ⟨(orderedAdd s.index s.mem item).1, (orderedAdd s.index s.mem item).2⟩
  | .erase position => ⟨(erase s.index s.mem position).1, (erase s.index s.mem position).2⟩

def elems (s : IndexState) : List ℕ := s.index.elems s.mem

/-- What an operation puts into the array. -/
def added : IndexOp → Multiset ℕ
  | .add item => {item}
  | .erase _ => 0

/-- What it takes out. -/
def erased (s : IndexState) : IndexOp → Multiset ℕ
  | .add _ => 0
  | .erase position => {subscript s.index s.mem position}

/-- What the operations of a run take out. -/
def erasedAll (s : IndexState) : List IndexOp → Multiset ℕ
  | [] => 0
  | op :: ops => s.erased op + (s.exec op).erasedAll ops

def Step (s : IndexState) (op : IndexOp) (s' : IndexState) : Prop := s' = s.exec op

/-- A pointer is added while there is room, and an element that is there is erased. -/
def Allowed (s : IndexState) : IndexOp → Prop
  | .add item => item < wordSize ∧ s.index.size < s.index.maxSize
  | .erase position => position < s.index.size

/-- An ascending array within its capacity. -/
structure Ascending (s : IndexState) : Prop where
  sorted : s.elems.Pairwise (· ≤ ·)
  room : s.index.size ≤ s.index.maxSize
  small : s.index.maxSize < wordSize

theorem elems_construct (m : Mem) (placeAddress maxSize : ℕ) :
    elems ⟨(construct m placeAddress maxSize).1, (construct m placeAddress maxSize).2⟩ = [] := rfl

theorem construct_ascending (m : Mem) (placeAddress : ℕ) {maxSize : ℕ} (h : maxSize < wordSize) :
    Ascending ⟨(construct m placeAddress maxSize).1, (construct m placeAddress maxSize).2⟩ :=
  ⟨List.Pairwise.nil, Nat.zero_le _, h⟩

variable {s : IndexState}

theorem elems_add {item : ℕ} (h : s.Ascending) (ha : s.Allowed (.add item)) :
    (s.exec (.add item)).elems = s.elems.orderedInsert (· ≤ ·) item :=
  orderedAdd_elems s.mem ha.1 (by have := ha.2; have := h.small; omega)

theorem elems_erase {position : ℕ} (ha : s.Allowed (.erase position)) :
    (s.exec (.erase position)).elems = s.elems.eraseIdx position :=
  erase_elems s.mem ha

theorem subscript_eq_getElem {position : ℕ} (h : position < s.elems.length) :
    subscript s.index s.mem position = s.elems[position] := by
  have hlt : position < s.index.size := by simpa [elems] using h
  rw [subscript, if_pos hlt]
  exact (words_getElem _ _ _ _ _).symm

/-- One operation: with what it takes out, the elements are those before and what it puts in. -/
theorem exec_balance {op : IndexOp} (h : s.Ascending) (ha : s.Allowed op) :
    ((s.exec op).elems : Multiset ℕ) + s.erased op = s.elems + added op := by
  cases op with
  | add item =>
    rw [elems_add h ha, erased, added, add_zero, Multiset.add_comm, Multiset.singleton_add,
      Multiset.cons_coe, Multiset.coe_eq_coe]
    exact List.perm_orderedInsert _ item s.elems
  | erase position =>
    have hlen : position < s.elems.length := lt_of_lt_of_eq ha (PtrArray.elems_length _ _).symm
    rw [elems_erase ha, erased, added, add_zero, Multiset.add_comm, Multiset.singleton_add,
      subscript_eq_getElem hlen, Multiset.cons_coe, Multiset.coe_eq_coe]
    exact List.getElem_cons_eraseIdx_perm hlen

/-- One operation keeps the order and the capacity. -/
theorem exec_ascending {op : IndexOp} (h : s.Ascending) (ha : s.Allowed op) :
    (s.exec op).Ascending := by
  cases op with
  | add item =>
    have hsize : (s.exec (.add item)).index.size = s.index.size + 1 :=
      orderedAdd_size s.mem item (by have := ha.2; have := h.small; omega)
    refine ⟨?_, ?_, ?_⟩
    · rw [elems_add h ha]
      exact h.sorted.orderedInsert item s.elems
    · rw [hsize, exec, orderedAdd_maxSize]
      exact ha.2
    · rw [exec, orderedAdd_maxSize]
      exact h.small
  | erase position =>
    have hsize : (s.exec (.erase position)).index.size = s.index.size - 1 := erase_size s.mem ha
    refine ⟨?_, ?_, h.small⟩
    · rw [elems_erase ha]
      exact h.sorted.sublist (List.eraseIdx_sublist _ _)
    · rw [hsize]
      exact (Nat.sub_le _ _).trans h.room

theorem run_ascending {s' : IndexState} {ops : List IndexOp} (h : s.Ascending)
    (hr : Run (guarded Step Allowed) s ops s') : s'.Ascending :=
  hr.invariant (fun _ _ _ hs hstep => by
    rw [hstep.1]
    exact exec_ascending hs hstep.2) h

theorem run_balance {s' : IndexState} {ops : List IndexOp} (h : s.Ascending)
    (hr : Run (guarded Step Allowed) s ops s') :
    (s'.elems : Multiset ℕ) + s.erasedAll ops = s.elems + (ops.map added).sum := by
  induction hr with
  | nil s => rfl
  | @cons s s₁ s₂ op ops hstep _ ih =>
    obtain ⟨rfl, ha⟩ := hstep
    have hone := exec_balance h ha
    have hrest := ih (exec_ascending h ha)
    rw [erasedAll, List.map_cons, List.sum_cons, add_left_comm, hrest, ← add_assoc,
      add_comm (s.erased op), hone, add_assoc]

end IndexState

/-- After every run from the constructor the elements ascend, and with those erased they are
those added. -/
theorem index_sorted_multiset (m : Mem) (placeAddress : ℕ) {maxSize : ℕ} (hmax : maxSize < wordSize)
    {ops : List IndexOp} {s' : IndexState}
    (hr : Run (guarded IndexState.Step IndexState.Allowed)
      ⟨(construct m placeAddress maxSize).1, (construct m placeAddress maxSize).2⟩ ops s') :
    s'.elems.Pairwise (· ≤ ·) ∧
    (s'.elems : Multiset ℕ) + IndexState.erasedAll
      ⟨(construct m placeAddress maxSize).1, (construct m placeAddress maxSize).2⟩ ops =
        (ops.map IndexState.added).sum := by
  have h := IndexState.construct_ascending m placeAddress hmax
  refine ⟨(IndexState.run_ascending h hr).sorted, ?_⟩
  rw [IndexState.run_balance h hr, IndexState.elems_construct, Multiset.coe_nil, zero_add]

theorem index_sorted_multiset_twoItems : ∃ s' : IndexState, s'.elems.Pairwise (· ≤ ·) ∧
    (s'.elems : Multiset ℕ) + IndexState.erasedAll
      ⟨(construct (fun _ => 0) 0x1000 2).1, (construct (fun _ => 0) 0x1000 2).2⟩
        [.add 5, .add 3, .erase 0] =
      ([.add 5, .add 3, .erase 0].map IndexState.added).sum := by
  have hmax : 2 < wordSize := by decide
  exact ⟨_, index_sorted_multiset (fun _ => 0) 0x1000 hmax
    (.cons ⟨rfl, by decide, by decide⟩ (.cons ⟨rfl, by decide, by decide⟩
      (.cons ⟨rfl, by unfold IndexState.Allowed; decide⟩ (.nil _))))⟩

end ExperimentalKernel.PointerArray
