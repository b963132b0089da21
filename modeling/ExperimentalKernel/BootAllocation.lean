import ExperimentalKernel.BootPaging
import ExperimentalKernel.KernelHeapProgram
import ExperimentalKernel.SerialPlacement

/-!
# Allocation before the heap

`kmalloc` of `memory_management.cpp`. Before the heap is enabled it moves
`placement_address` upwards, with the page bits masked out and a page added where a page
is asked for; afterwards it asks the heap. Pointers are linear addresses, and `phys` is
null or the address of the word that receives the physical address.
-/

namespace ExperimentalKernel.BootAllocation
open ByteMemory SerialPlacement

/-- `placement_address`, `kernelHeap` with the memory, and `pmmu`. -/
structure Kernel where
  placementAddress : ℕ
  heap : Heap.State
  mmu : Paging.State

def storePhys (s : Heap.State) (phys v : ℕ) : Heap.State :=
  if phys ≠ 0 then { s with mem := write32 s.mem phys v } else s

def kmalloc (k : Kernel) (size : ℕ) (align : Bool) (phys : ℕ) : Option (ℕ × Kernel) :=
  if k.heap.heap.enabled = false then
    let a :=
      if align = true ∧ k.placementAddress &&& 0x00000FFF ≠ 0 then
        add32 (k.placementAddress &&& 0xFFFFF000) Paging.pageSize
      else k.placementAddress
    some (a, { k with placementAddress := add32 a size, heap := storePhys k.heap phys a })
  else
    let (placeAddr, heap) := Heap.allocate k.heap size align
    if phys ≠ 0 then
      (Paging.findPage k.mmu placeAddr 0).map fun (page, mmu) =>
        (placeAddr, { k with
          heap := storePhys heap phys
            (add32 ((mmu.pages page).frame.toNat * Paging.pageSize) (placeAddr &&& 0xFFF))
          mmu := mmu })
    else some (placeAddr, { k with heap := heap })

structure Call where
  size : ℕ
  align : Bool
  phys : ℕ
  deriving DecidableEq

/-- A call with what it returned and the word at `phys` when it did. -/
structure Granted where
  call : Call
  start : ℕ
  stored : ℕ
  deriving DecidableEq

def Granted.range (g : Granted) : Range := ⟨g.start, g.call.size⟩

/-- One call after another. -/
def kmallocs (k : Kernel) : List Call → Option (List Granted × Kernel)
  | [] => some ([], k)
  | c :: cs =>
    (kmalloc k c.size c.align c.phys).bind fun (p, k₁) =>
      (kmallocs k₁ cs).map fun (gs, k₂) => (⟨c, p, read32 k₁.heap.mem c.phys⟩ :: gs, k₂)

/-- What a call asks for. -/
def Call.request (c : Call) : Request := ⟨if c.align then Paging.pageSize else 1, c.size⟩

/-- `placement_address` after the calls, computed without wrap-around. -/
def finalAddress (p : ℕ) (calls : List Call) : ℕ := finish p (calls.map Call.request)

/-- The ranges lie one behind another from `lo` on, less than a page apart, on a page boundary
where one was asked for, and the physical address is that of the range. -/
structure PlacedApart (lo : ℕ) (gs : List Granted) : Prop where
  disjoint : gs.Pairwise fun g g' => Disjoint g.range.bytes g'.range.bytes
  increasing : gs.Pairwise fun g g' => g.range.Before g'.range
  above : ∀ g ∈ gs, lo ≤ g.start
  aligned : ∀ g ∈ gs, g.call.align = true → 4096 ∣ g.start
  stored : ∀ g ∈ gs, g.call.phys ≠ 0 → g.stored = g.start
  skipped : (⟨lo, 0⟩ :: gs.map Granted.range).IsChain (Range.Follows 4096)

theorem land_low (p : ℕ) : p &&& 0xFFF = p % 0x1000 := Nat.and_two_pow_sub_one_eq_mod p 12

/-- The mask clears the bits of the offset in the page. -/
theorem land_high {p : ℕ} (hp : p < wordSize) : p &&& 0xFFFFF000 = p - p % 0x1000 := by
  have hmask : 0xFFFFF000 = (2 ^ 20 - 1) <<< 12 := rfl
  have hpage : p - p % 0x1000 = (p >>> 12) <<< 12 := by
    rw [Nat.shiftRight_eq_div_pow, Nat.shiftLeft_eq]
    omega
  rw [hmask, hpage]
  apply Nat.eq_of_testBit_eq
  intro i
  rw [Nat.testBit_and, Nat.testBit_shiftLeft, Nat.testBit_shiftLeft, Nat.testBit_two_pow_sub_one,
    Nat.testBit_shiftRight]
  rcases Nat.lt_or_ge i 12 with hlow | hlow
  · simp [not_le.mpr hlow]
  · have hbit : 12 + (i - 12) = i := Nat.add_sub_cancel' hlow
    rw [hbit, decide_eq_true hlow, Bool.true_and, Bool.true_and]
    rcases Nat.lt_or_ge i 32 with hhigh | hhigh
    · rw [decide_eq_true (by omega), Bool.and_true]
    · have hpow : p < 2 ^ i := hp.trans_le (Nat.pow_le_pow_right Nat.two_pos hhigh)
      rw [Nat.testBit_lt_two_pow hpow, Bool.false_and]

/-- Before the heap is enabled this is the `kmalloc` that `initialisePaging` runs on. -/
theorem kmalloc_boot {k : Kernel} (hk : k.heap.heap.enabled = false)
    (hp : k.placementAddress < wordSize) (size : ℕ) (align : Bool) (phys : ℕ) :
    let r := Paging.Boot.kmalloc ⟨k.mmu, k.placementAddress⟩ size align
    kmalloc k size align phys = some (r.1, { k with
      placementAddress := r.2.placementAddress
      heap := storePhys k.heap phys r.1 }) := by
  intro r
  rw [kmalloc, if_pos hk, land_low, land_high hp]
  rfl

theorem Call.alignment_pos (c : Call) : 0 < c.request.alignment ∧ c.request.alignment ≤ 4096 := by
  have hpage : 0 < Paging.pageSize ∧ Paging.pageSize ≤ 4096 := by decide
  rw [Call.request]
  split
  · exact hpage
  · exact ⟨Nat.one_pos, Nat.succ_pos 4095⟩

theorem requests_bounds (calls : List Call) :
    ∀ q ∈ calls.map Call.request, 0 < q.alignment ∧ q.alignment ≤ 4096 :=
  List.forall_mem_map.mpr fun c _ => c.alignment_pos

/-- The kernel behind a call that places its range. -/
def Kernel.served (k : Kernel) (c : Call) : Kernel :=
  { k with
    placementAddress := (place k.placementAddress c.request).stop
    heap := storePhys k.heap c.phys (place k.placementAddress c.request).start }

section Disabled

variable {k : Kernel}

/-- The rounding is the right one for every residue. -/
theorem rounded_eq {p : ℕ} {c : Call} (h : (place p c.request).start < wordSize) :
    (if c.align = true ∧ p &&& 0x00000FFF ≠ 0 then add32 (p &&& 0xFFFFF000) Paging.pageSize else p) =
      (place p c.request).start := by
  have hstart : (place p c.request).start = alignUp c.request.alignment p := rfl
  have hle : p ≤ (place p c.request).start := le_alignUp c.alignment_pos.1 p
  rw [land_low, land_high (hle.trans_lt h)]
  split
  · next hoff =>
    have halign : c.request.alignment = 0x1000 := if_pos hoff.1
    have hup : (place p c.request).start = p - p % 0x1000 + 0x1000 := by
      rw [hstart, halign]
      exact alignUp_of_mod_pos (Nat.pos_of_ne_zero hoff.2) (by decide)
    rw [hup] at h ⊢
    exact add32_eq h
  · next hon =>
    rw [hstart, Call.request]
    split
    · next halign =>
      refine (alignUp_of_dvd (Nat.succ_pos 4095) (Nat.dvd_of_mod_eq_zero ?_)).symm
      by_contra hoff
      exact hon ⟨halign, hoff⟩
    · exact (alignUp_one p).symm

/-- A call places its range, as long as the range ends in the address space. -/
theorem kmalloc_eq (hk : k.heap.heap.enabled = false) (c : Call)
    (hend : (place k.placementAddress c.request).stop < wordSize) :
    kmalloc k c.size c.align c.phys =
      some ((place k.placementAddress c.request).start, k.served c) := by
  have hstart := (Range.start_le_stop _).trans_lt hend
  have hstop : add32 (place k.placementAddress c.request).start c.size =
      (place k.placementAddress c.request).stop := add32_eq hend
  rw [kmalloc, if_pos hk, Kernel.served]
  simp only [rounded_eq hstart, hstop]

theorem storePhys_heap (s : Heap.State) (phys v : ℕ) : (storePhys s phys v).heap = s.heap := by
  rw [storePhys]
  split <;> rfl

theorem Kernel.served_enabled (k : Kernel) (c : Call) :
    (k.served c).heap.heap.enabled = k.heap.heap.enabled :=
  congrArg Heap.KernelHeap.enabled (storePhys_heap _ _ _)

theorem storePhys_read (s : Heap.State) {phys v : ℕ} (hphys : phys ≠ 0) (hv : v < wordSize) :
    read32 (storePhys s phys v).mem phys = v := by
  rw [storePhys, if_pos hphys]
  exact read32_write32 s.mem phys hv

theorem Kernel.served_stored (k : Kernel) {c : Call} (hphys : c.phys ≠ 0)
    (hstart : (place k.placementAddress c.request).start < wordSize) :
    read32 (k.served c).heap.mem c.phys = (place k.placementAddress c.request).start :=
  storePhys_read k.heap hphys hstart

/-- What the calls `calls` return when they place their ranges serially from `p` on. -/
structure Serves (p : ℕ) (calls : List Call) (gs : List Granted) : Prop where
  asked : gs.map Granted.call = calls
  placed : gs.map Granted.range = ranges p (calls.map Call.request)
  aligned : ∀ g ∈ gs, g.call.align = true → 4096 ∣ g.start
  stored : ∀ g ∈ gs, g.call.phys ≠ 0 → g.stored = g.start

theorem Serves.nil (p : ℕ) : Serves p [] [] :=
  ⟨rfl, rfl, List.forall_mem_nil _, List.forall_mem_nil _⟩

theorem Serves.cons {p stored : ℕ} {c : Call} {cs : List Call} {gs : List Granted}
    (h : Serves (place p c.request).stop cs gs)
    (hstored : c.phys ≠ 0 → stored = (place p c.request).start) :
    Serves p (c :: cs) (⟨c, (place p c.request).start, stored⟩ :: gs) := by
  refine ⟨?_, ?_, List.forall_mem_cons.mpr ⟨fun halign => ?_, h.aligned⟩,
    List.forall_mem_cons.mpr ⟨hstored, h.stored⟩⟩
  · rw [List.map_cons, h.asked]
  · rw [List.map_cons, h.placed]
    rfl
  · have hpage : c.request.alignment = 4096 := if_pos halign
    rw [← hpage]
    exact dvd_alignUp _ p

/-- The calls place their ranges serially, and leave the heap disabled. -/
theorem kmallocs_eq (hk : k.heap.heap.enabled = false) {calls : List Call}
    (hend : finalAddress k.placementAddress calls < wordSize) :
    ∃ gs k', kmallocs k calls = some (gs, k') ∧ Serves k.placementAddress calls gs ∧
      k'.placementAddress = finalAddress k.placementAddress calls ∧
      k'.heap.heap.enabled = false := by
  induction calls generalizing k with
  | nil => exact ⟨[], k, rfl, .nil _, rfl, hk⟩
  | cons c cs ih =>
    have hpos : ∀ q ∈ cs.map Call.request, 0 < q.alignment := fun q hq =>
      (requests_bounds cs q hq).1
    have hstop := (le_finish hpos (place k.placementAddress c.request).stop).trans_lt hend
    have hstart := (Range.start_le_stop _).trans_lt hstop
    obtain ⟨gs, k', hrun, hserves, hfinal, hk'⟩ :=
      ih (k := k.served c) ((k.served_enabled c).trans hk) hend
    refine ⟨_, k', ?_, hserves.cons fun hphys => k.served_stored hphys hstart, hfinal, hk'⟩
    rw [kmallocs, kmalloc_eq hk c hstop]
    simp only [Option.bind_some, hrun, Option.map_some]

end Disabled

/-- Whatever is asked for before the heap is enabled, the ranges lie apart; the call is the one
that `initialisePaging` makes. -/
theorem boot_allocations_apart {k : Kernel} (hk : k.heap.heap.enabled = false) {calls : List Call}
    (hend : finalAddress k.placementAddress calls < wordSize) :
    ∃ gs k', kmallocs k calls = some (gs, k') ∧ gs.map Granted.call = calls ∧
      PlacedApart k.placementAddress gs ∧
      k'.placementAddress = finalAddress k.placementAddress calls ∧
      ∀ size align phys,
        let r := Paging.Boot.kmalloc ⟨k.mmu, k.placementAddress⟩ size align
        kmalloc k size align phys = some (r.1, { k with
          placementAddress := r.2.placementAddress
          heap := storePhys k.heap phys r.1 }) := by
  have hpos : ∀ q ∈ calls.map Call.request, 0 < q.alignment := fun q hq =>
    (requests_bounds calls q hq).1
  have hplacement := (le_finish hpos k.placementAddress).trans_lt hend
  obtain ⟨gs, k', hrun, hserves, hfinal, -⟩ := kmallocs_eq hk hend
  have hchain := ranges_chain (requests_bounds calls) ⟨k.placementAddress, 0⟩
  have hstart : (⟨k.placementAddress, 0⟩ : Range).stop = k.placementAddress := Nat.add_zero _
  rw [hstart, ← hserves.placed] at hchain
  obtain ⟨habove, hbefore⟩ := List.pairwise_cons.mp (Range.pairwise_of_chain hchain)
  have hincreasing := List.pairwise_map.mp hbefore
  refine ⟨gs, k', hrun, hserves.asked, ⟨hincreasing.imp Range.Before.disjoint, hincreasing,
    fun g hg => ?_, hserves.aligned, hserves.stored, hchain⟩, hfinal, kmalloc_boot hk hplacement⟩
  exact habove g.range (List.mem_map_of_mem hg)

/-- The bitmap, the page directory and a page table behind `0x100001`. -/
theorem boot_allocations_apart_tables : ∃ gs k',
    kmallocs ⟨0x100001, ⟨⟨⟨0, 0, 0⟩, 0, 0, 0, false, false, false⟩, fun _ => 0⟩, Paging.blank⟩
      [⟨512, false, 0⟩, ⟨8196, true, 0x9000⟩, ⟨4096, true, 0x9004⟩] = some (gs, k') ∧
    PlacedApart 0x100001 gs ∧ k'.placementAddress = 0x105000 := by
  obtain ⟨gs, k', hrun, -, hapart, hfinal, -⟩ := @boot_allocations_apart
    ⟨0x100001, ⟨⟨⟨0, 0, 0⟩, 0, 0, 0, false, false, false⟩, fun _ => 0⟩, Paging.blank⟩ rfl
    [⟨512, false, 0⟩, ⟨8196, true, 0x9000⟩, ⟨4096, true, 0x9004⟩] (by decide)
  exact ⟨gs, k', hrun, hapart, hfinal.trans (by decide)⟩

end ExperimentalKernel.BootAllocation
