import ExperimentalKernel.ByteMemory

/-!
# Chains of call frames

A frame is a saved frame pointer with the return address above it. When a region of
memory is moved to end at another address, and the words in it that point into the
region are moved with it, then a chain of frames in the region is moved as a whole.
Nothing here belongs to a particular program.
-/

namespace ExperimentalKernel.FrameChains
open ByteMemory

/-- Strictly between the ends of the region. -/
def Inside (lo hi v : ℕ) : Prop := lo < v ∧ v < hi

instance (lo hi v : ℕ) : Decidable (Inside lo hi v) := inferInstanceAs (Decidable (_ ∧ _))

/-- Where the address `a` of a region that ended at `hi` is when the region ends at `top`. -/
def moved (hi top a : ℕ) : ℕ := top - (hi - a)

def relocate (lo hi top v : ℕ) : ℕ := if Inside lo hi v then moved hi top v else v

/-- The words of the region, relocated, stand where the region was moved to. -/
def Relocated (m m' : Mem) (lo hi top : ℕ) : Prop :=
  ∀ a, lo ≤ a → a < hi → 4 ∣ a → read32 m' (moved hi top a) = relocate lo hi top (read32 m a)

/-- The return address of the frame at `ebp`, if it stands below `hi`. -/
def returnAddress (m : Mem) (hi ebp : ℕ) : Option ℕ :=
  if ebp + 4 < hi then some (read32 m (ebp + 4)) else none

/-- The first frames from `ebp` on, each with its return address. -/
def walk (m : Mem) (hi ebp : ℕ) : ℕ → List (ℕ × Option ℕ)
  | 0 => []
  | n + 1 => (ebp, returnAddress m hi ebp) :: walk m hi (read32 m ebp) n

structure IsFrame (m : Mem) (lo hi ebp : ℕ) : Prop where
  inside : Inside lo hi ebp
  aligned : 4 ∣ ebp
  returns : ∀ r, returnAddress m hi ebp = some r → ¬ Inside lo hi r

/-- A chain of frames that starts at `ebp`; each frame stands above the one before. -/
inductive FrameChain (m : Mem) (lo hi : ℕ) : ℕ → ℕ → Prop
  | last {ebp : ℕ} (frame : IsFrame m lo hi ebp) : FrameChain m lo hi ebp 1
  | link {ebp n : ℕ} (frame : IsFrame m lo hi ebp) (above : ebp < read32 m ebp)
      (rest : FrameChain m lo hi (read32 m ebp) n) : FrameChain m lo hi ebp (n + 1)

variable {m m' : Mem} {lo hi top ebp n : ℕ}

theorem FrameChain.isFrame (h : FrameChain m lo hi ebp n) : IsFrame m lo hi ebp := by
  cases h with
  | last frame => exact frame
  | link frame => exact frame

theorem Relocated.same (h : Relocated m m' lo hi top) {a : ℕ} (hl : lo ≤ a) (hh : a < hi)
    (ha : 4 ∣ a) (hv : ¬ Inside lo hi (read32 m a)) : read32 m' (moved hi top a) = read32 m a :=
  (h a hl hh ha).trans (if_neg hv)

theorem Relocated.pointer (h : Relocated m m' lo hi top) {a : ℕ} (hl : lo ≤ a) (hh : a < hi)
    (ha : 4 ∣ a) (hv : Inside lo hi (read32 m a)) :
    read32 m' (moved hi top a) = moved hi top (read32 m a) :=
  (h a hl hh ha).trans (if_pos hv)

/-- A return address points out of the region, so it is the same behind the move. -/
theorem Relocated.returnAddress_eq (h : Relocated m m' lo hi top) (hroom : hi - lo ≤ top)
    (hf : IsFrame m lo hi ebp) :
    returnAddress m' top (moved hi top ebp) = returnAddress m hi ebp := by
  obtain ⟨⟨hlo, hhi⟩, haligned, hreturns⟩ := hf
  by_cases hlt : ebp + 4 < hi
  · have hmoved : moved hi top ebp + 4 = moved hi top (ebp + 4) := by
      unfold moved
      omega
    have hbelow : moved hi top (ebp + 4) < top := by
      unfold moved
      omega
    have hret : returnAddress m hi ebp = some (read32 m (ebp + 4)) := if_pos hlt
    rw [hret, returnAddress, hmoved, if_pos hbelow,
      h.same (by omega) hlt (Nat.dvd_add haligned (Nat.dvd_refl 4)) (hreturns _ hret)]
  · have habove : ¬ moved hi top ebp + 4 < top := by
      unfold moved
      omega
    rw [returnAddress, returnAddress, if_neg hlt, if_neg habove]

/-- The walk through the moved chain visits the moved frames. -/
theorem Relocated.walk_eq (h : Relocated m m' lo hi top) (hroom : hi - lo ≤ top)
    (hc : FrameChain m lo hi ebp n) :
    walk m' top (moved hi top ebp) n = (walk m hi ebp n).map fun f => (moved hi top f.1, f.2) := by
  induction hc with
  | last frame =>
    simp only [walk, h.returnAddress_eq hroom frame, List.map_cons, List.map_nil]
  | link frame above rest ih =>
    have hpointer := h.pointer frame.inside.1.le frame.inside.2 frame.aligned rest.isFrame.inside
    rw [walk, hpointer, ih, h.returnAddress_eq hroom frame, walk, List.map_cons]

end ExperimentalKernel.FrameChains
