import Mathlib.Algebra.Order.Floor.Div
import Mathlib.Data.List.Chain
import Mathlib.Order.CompletePartialOrder
import Mathlib.Order.Interval.Set.Disjoint

/-!
# Serial placement

Ranges of addresses are placed one behind another, each at the least multiple of its
alignment that the ranges before it leave free. Nothing here belongs to a particular
program.
-/

namespace ExperimentalKernel.SerialPlacement

/-- The least multiple of `n` that is not below `x`. -/
def alignUp (n x : ℕ) : ℕ := n * (x ⌈/⌉ n)

structure Request where
  alignment : ℕ
  size : ℕ
  deriving DecidableEq

structure Range where
  start : ℕ
  size : ℕ
  deriving DecidableEq

namespace Range

def stop (r : Range) : ℕ := r.start + r.size

def bytes (r : Range) : Set ℕ := Set.Ico r.start r.stop

/-- `r` ends where `r'` begins, or below. -/
def Before (r r' : Range) : Prop := r.stop ≤ r'.start

/-- `r'` begins behind `r`, with less than `n` bytes between. -/
def Follows (n : ℕ) (r r' : Range) : Prop := r.Before r' ∧ r'.start < r.stop + n

theorem start_le_stop (r : Range) : r.start ≤ r.stop := Nat.le_add_right _ _

theorem Before.trans {r r' r'' : Range} (h : r.Before r') (h' : r'.Before r'') : r.Before r'' :=
  Nat.le_trans (Nat.le_trans h r'.start_le_stop) h'

instance : Trans Before Before Before := ⟨Before.trans⟩

theorem Before.disjoint {r r' : Range} (h : r.Before r') : Disjoint r.bytes r'.bytes :=
  Set.disjoint_left.mpr fun _ hx hx' => absurd hx'.1 (not_le.mpr (hx.2.trans_le h))

/-- In a chain every range lies before all later ones. -/
theorem pairwise_of_chain {n : ℕ} {rs : List Range} (h : rs.IsChain (Follows n)) :
    rs.Pairwise Before :=
  List.isChain_iff_pairwise.mp (h.imp fun _ _ h => h.1)

end Range

open Range

section Align

variable {n : ℕ}

theorem dvd_alignUp (n x : ℕ) : n ∣ alignUp n x := dvd_mul_right _ _

theorem le_alignUp (hn : 0 < n) (x : ℕ) : x ≤ alignUp n x := le_smul_ceilDiv hn

theorem alignUp_le {x y : ℕ} (hn : 0 < n) (hxy : x ≤ y) (hy : n ∣ y) : alignUp n x ≤ y := by
  obtain ⟨k, rfl⟩ := hy
  exact Nat.mul_le_mul_left n ((ceilDiv_le_iff_le_mul hn).mpr hxy)

theorem alignUp_lt (hn : 0 < n) (x : ℕ) : alignUp n x < x + n := by
  have hle : n * ((x + n - 1) / n) ≤ x + n - 1 := Nat.mul_div_le _ _
  rw [alignUp, Nat.ceilDiv_eq_add_pred_div]
  omega

@[simp] theorem alignUp_one (x : ℕ) : alignUp 1 x = x := by
  apply le_antisymm
  · exact alignUp_le Nat.one_pos le_rfl (one_dvd x)
  · exact le_alignUp Nat.one_pos x

theorem alignUp_of_dvd {x : ℕ} (hn : 0 < n) (hx : n ∣ x) : alignUp n x = x :=
  le_antisymm (alignUp_le hn le_rfl hx) (le_alignUp hn x)

/-- Off a multiple, the next one. -/
theorem alignUp_of_mod_pos {x : ℕ} (hx : 0 < x % n) (hn : 0 < n) : alignUp n x = x - x % n + n := by
  have hsplit := Nat.div_add_mod x n
  have hnext : x - x % n + n = n * (x / n + 1) := by
    rw [Nat.mul_add, Nat.mul_one]
    omega
  apply le_antisymm
  · have hlt := Nat.mod_lt x hn
    exact alignUp_le hn (by omega) (hnext ▸ dvd_mul_right _ _)
  · rw [hnext, alignUp]
    apply Nat.mul_le_mul_left
    by_contra hlt
    have hle : x ≤ n * (x / n) := (ceilDiv_le_iff_le_mul hn).mp (by omega)
    omega

end Align

def place (x : ℕ) (q : Request) : Range := ⟨alignUp q.alignment x, q.size⟩

/-- The ranges for the requests, from the address `x` on. -/
def ranges (x : ℕ) : List Request → List Range
  | [] => []
  | q :: qs => place x q :: ranges (place x q).stop qs

/-- The address behind the last of them. -/
def finish (x : ℕ) : List Request → ℕ
  | [] => x
  | q :: qs => finish (place x q).stop qs

section Ranges

variable {n x : ℕ} {q : Request} {qs : List Request}

theorem place_follows (hq : 0 < q.alignment ∧ q.alignment ≤ n) {r : Range} :
    r.Follows n (place r.stop q) :=
  ⟨le_alignUp hq.1 _, (alignUp_lt hq.1 _).trans_le (Nat.add_le_add_left hq.2 _)⟩

/-- With alignments up to `n`, less than `n` bytes are left out before each range. -/
theorem ranges_chain (h : ∀ q ∈ qs, 0 < q.alignment ∧ q.alignment ≤ n) (r : Range) :
    (r :: ranges r.stop qs).IsChain (Follows n) := by
  induction qs generalizing r with
  | nil => exact List.isChain_singleton r
  | cons q qs ih =>
    rw [List.forall_mem_cons] at h
    exact List.isChain_cons_cons.mpr ⟨place_follows h.1, ih h.2 _⟩

theorem le_finish (h : ∀ q ∈ qs, 0 < q.alignment) (x : ℕ) : x ≤ finish x qs := by
  induction qs generalizing x with
  | nil => exact le_rfl
  | cons q qs ih =>
    rw [List.forall_mem_cons] at h
    exact ((le_alignUp h.1 x).trans (start_le_stop (place x q))).trans (ih h.2 _)

end Ranges

end ExperimentalKernel.SerialPlacement
