import ExperimentalKernel.ByteMemory

/-!
# Segment descriptors

`descriptor.h`, `gdt_entry.cpp` and the layout of `tss_entry.h`. A descriptor is eight
bytes, over which base and limit are scattered; the processor puts them together again.
-/

namespace ExperimentalKernel.Segments
open ByteMemory

structure Descriptor where
  limitLow : BitVec 16
  baseLow : BitVec 16
  baseMiddle : BitVec 8
  access : BitVec 8
  granularity : BitVec 8
  baseHigh : BitVec 8
  deriving DecidableEq

/-- The assignments that the constructor of `Descriptor` and `GdtDescriptor::set` both make. -/
def fields (limit base : BitVec 32) (access granularity : BitVec 8) : Descriptor where
  limitLow := (limit &&& 0xFFFF).setWidth 16
  baseLow := (base &&& 0xFFFF).setWidth 16
  baseMiddle := (base >>> 16 &&& 0xFF).setWidth 8
  access := access
  granularity := (limit >>> 16 &&& 0x0F).setWidth 8 ||| granularity &&& 0xF0
  baseHigh := (base >>> 24 &&& 0xFF).setWidth 8

/-- The constructor of `Descriptor`: the limit comes first. -/
def descriptor (limit base : BitVec 32) (access granularity : BitVec 8) : Descriptor :=
  fields limit base access granularity

/-- The constructor of `GdtDescriptor` hands its arguments on in its own order. -/
def gdtDescriptor (base limit : BitVec 32) (access granularity : BitVec 8) : Descriptor :=
  descriptor base limit access granularity

/-- `GdtDescriptor::set`: the base comes first. -/
def set (base limit : BitVec 32) (access granularity : BitVec 8) : Descriptor :=
  fields limit base access granularity

/-- The packed record in memory. -/
def Descriptor.bytes (d : Descriptor) : List (BitVec 8) :=
  [d.limitLow.extractLsb' 0 8, d.limitLow.extractLsb' 8 8, d.baseLow.extractLsb' 0 8,
    d.baseLow.extractLsb' 8 8, d.baseMiddle, d.access, d.granularity, d.baseHigh]

/-- What the processor reads from a descriptor; the highest flag scales the limit by pages. -/
structure Segment where
  base : BitVec 32
  limit : BitVec 20
  access : BitVec 8
  flags : BitVec 4
  deriving DecidableEq

def decode : List (BitVec 8) → Option Segment
  | [b₀, b₁, b₂, b₃, b₄, b₅, b₆, b₇] =>
    some ⟨b₇ ++ b₄ ++ b₃ ++ b₂, b₆.extractLsb' 0 4 ++ b₁ ++ b₀, b₅, b₆.extractLsb' 4 4⟩
  | _ => none

/-- The segment that the arguments ask for. -/
def asked (base limit : BitVec 32) (access granularity : BitVec 8) : Segment :=
  ⟨base, limit.setWidth 20, access, granularity.extractLsb' 4 4⟩

/-- The fields of `TssEntry` of 32 bits, in their order; `trap` and `iomapBaseAddr`, of 16
bits, follow them. -/
inductive TssField where
  | previousTasklink
  | esp0
  | ss0
  | esp1
  | ss1
  | esp2
  | ss2
  | cr3
  | eip
  | eflags
  | eax
  | ecx
  | edx
  | ebx
  | esp
  | ebp
  | esi
  | edi
  | es
  | cs
  | ss
  | ds
  | fs
  | gs
  | ldt
  deriving DecidableEq

def TssField.offset (f : TssField) : ℕ := 4 * f.ctorIdx

/-- `sizeof(TssEntry)`: the record is packed. -/
def sizeofTssEntry : ℕ := TssField.ldt.offset + 4 + 2 + 2

def storeField (m : Mem) (tssEntry : ℕ) (f : TssField) (v : ℕ) : Mem :=
  write32 m (tssEntry + f.offset) v

/-- `setTss`: the limit is the address behind the record, not its last offset. -/
def setTss (m : Mem) (tssEntry : BitVec 32) (ss0 : BitVec 16) (esp0 : BitVec 32) :
    Descriptor × Mem :=
  let base := tssEntry
  let limit := base + BitVec.ofNat 32 sizeofTssEntry
  let d := set base limit 0xE9 0x00
  let a := tssEntry.toNat
  let m₁ := fill m a 0 sizeofTssEntry
  let m₂ := storeField m₁ a .ss0 ss0.toNat
  let m₃ := storeField m₂ a .esp0 esp0.toNat
  let m₄ := storeField m₃ a .cs 0x0B
  let m₅ := storeField m₄ a .ss 0x13
  let m₆ := storeField m₅ a .ds 0x13
  let m₇ := storeField m₆ a .es 0x13
  let m₈ := storeField m₇ a .fs 0x13
  (d, storeField m₈ a .gs 0x13)

section Decode

variable (base limit : BitVec 32) (access granularity : BitVec 8)

theorem and_byte (x : BitVec 32) : (x &&& 0xFF).setWidth 8 = x.setWidth 8 := by
  rw [BitVec.setWidth_and]
  exact BitVec.and_allOnes

theorem and_word (x : BitVec 32) : (x &&& 0xFFFF).setWidth 16 = x.setWidth 16 := by
  rw [BitVec.setWidth_and]
  exact BitVec.and_allOnes

/-- The low half of the granularity byte comes from the limit. -/
theorem granularity_low (x : BitVec 32) :
    ((x &&& 0x0F).setWidth 8 ||| granularity &&& 0xF0).extractLsb' 0 4 = x.setWidth 4 := by
  have h₁ : ((x &&& 0x0F).setWidth 8).extractLsb' 0 4 = x.setWidth 4 := by
    rw [← BitVec.setWidth_eq_extractLsb' (by decide), BitVec.setWidth_setWidth_of_le _ (by decide),
      BitVec.setWidth_and]
    exact BitVec.and_allOnes
  have h₂ : (granularity &&& 0xF0).extractLsb' 0 4 = 0 := by
    rw [BitVec.extractLsb'_and]
    exact BitVec.and_zero
  rw [BitVec.extractLsb'_or, h₁, h₂]
  exact BitVec.or_zero

/-- The high half is that of the argument. -/
theorem granularity_high (x : BitVec 32) :
    ((x &&& 0x0F).setWidth 8 ||| granularity &&& 0xF0).extractLsb' 4 4 =
      granularity.extractLsb' 4 4 := by
  have h₁ : ((x &&& 0x0F).setWidth 8).extractLsb' 4 4 = 0 := by
    rw [BitVec.setWidth_and, BitVec.extractLsb'_and]
    exact BitVec.and_zero
  have h₂ : (granularity &&& 0xF0).extractLsb' 4 4 = granularity.extractLsb' 4 4 := by
    rw [BitVec.extractLsb'_and]
    exact BitVec.and_allOnes
  rw [BitVec.extractLsb'_or, h₁, h₂]
  exact BitVec.zero_or

theorem join_base : ((base >>> 24).setWidth 8 ++ (base >>> 16).setWidth 8 ++
    (base.setWidth 16).extractLsb' 8 8 ++ (base.setWidth 16).extractLsb' 0 8 : BitVec 32) = base := by
  apply BitVec.eq_of_getLsbD_eq
  intro i hi
  simp only [BitVec.getLsbD_append, BitVec.getLsbD_extractLsb', BitVec.getLsbD_setWidth,
    BitVec.getLsbD_ushiftRight]
  grind

theorem join_limit : ((limit >>> 16).setWidth 4 ++ (limit.setWidth 16).extractLsb' 8 8 ++
    (limit.setWidth 16).extractLsb' 0 8 : BitVec 20) = limit.setWidth 20 := by
  apply BitVec.eq_of_getLsbD_eq
  intro i hi
  simp only [BitVec.getLsbD_append, BitVec.getLsbD_extractLsb', BitVec.getLsbD_setWidth,
    BitVec.getLsbD_ushiftRight]
  grind

/-- The processor finds base, limit, access byte and flags again. -/
theorem fields_decode :
    decode (fields limit base access granularity).bytes =
      some (asked base limit access granularity) := by
  simp only [Descriptor.bytes, decode, fields, asked, and_byte, and_word, granularity_low,
    granularity_high, join_base, join_limit]

end Decode

section Tss

variable (m : Mem) (tssEntry : BitVec 32) (ss0 : BitVec 16) (esp0 : BitVec 32)

/-- What `setTss` leaves in the fields. -/
def tssValue : TssField → ℕ
  | .ss0 => ss0.toNat
  | .esp0 => esp0.toNat
  | .cs => 0x0B
  | .ss | .ds | .es | .fs | .gs => 0x13
  | _ => 0

theorem TssField.offset_ne {f g : TssField} (h : f ≠ g) :
    g.offset + 4 ≤ f.offset ∨ f.offset + 4 ≤ g.offset := by
  have hidx : f.ctorIdx ≠ g.ctorIdx := fun he => h (by
    rw [← TssField.ofNat_ctorIdx f, he, TssField.ofNat_ctorIdx])
  unfold TssField.offset
  omega

theorem TssField.offset_lt (f : TssField) : f.offset + 4 ≤ sizeofTssEntry := by
  cases f <;> decide

theorem read_storeField (a : ℕ) (f g : TssField) {v : ℕ} (hv : v < wordSize) :
    read32 (storeField m a g v) (a + f.offset) = if f = g then v else read32 m (a + f.offset) := by
  rw [storeField]
  split
  · next h => rw [h, read32_write32 _ _ hv]
  · next h =>
    have := TssField.offset_ne h
    exact read32_write32_of_disjoint _ _ (by omega)

/-- Every field has its value, those that are not named are zero. -/
theorem setTss_field (f : TssField) :
    read32 (setTss m tssEntry ss0 esp0).2 (tssEntry.toNat + f.offset) = tssValue ss0 esp0 f := by
  have hss0 : ss0.toNat < wordSize := ss0.isLt.trans (by decide)
  have hzero : read32 (fill m tssEntry.toNat 0 sizeofTssEntry) (tssEntry.toNat + f.offset) = 0 :=
    read32_fill_zero m (Nat.le_add_right _ _) (by have := f.offset_lt; omega)
  simp only [setTss]
  rw [read_storeField _ _ _ _ (by decide), read_storeField _ _ _ _ (by decide),
    read_storeField _ _ _ _ (by decide), read_storeField _ _ _ _ (by decide),
    read_storeField _ _ _ _ (by decide), read_storeField _ _ _ _ (by decide),
    read_storeField _ _ _ _ esp0.isLt, read_storeField _ _ _ _ hss0, hzero]
  cases f <;> rfl

/-- Nothing outside the record changes. -/
theorem setTss_agreeOff :
    AgreeOff m (setTss m tssEntry ss0 esp0).2 tssEntry.toNat (tssEntry.toNat + sizeofTssEntry) := by
  have hfield : ∀ m f v, AgreeOff m (storeField m tssEntry.toNat f v) tssEntry.toNat
      (tssEntry.toNat + sizeofTssEntry) := fun m f v =>
    agreeOff_write32 m v (Nat.le_add_right _ _) (by have := f.offset_lt; omega)
  have hfill : AgreeOff m (fill m tssEntry.toNat 0 sizeofTssEntry) tssEntry.toNat
      (tssEntry.toNat + sizeofTssEntry) := fun x hx => by
    rw [fill_apply, if_neg (by omega)]
  exact (((((((hfill.trans (hfield _ .ss0 _)).trans (hfield _ .esp0 _)).trans
    (hfield _ .cs _)).trans (hfield _ .ss _)).trans (hfield _ .ds _)).trans
    (hfield _ .es _)).trans (hfield _ .fs _)).trans (hfield _ .gs _)

end Tss

/-- Both ways to build the descriptor give the same bytes, and these the segment asked for. -/
structure BuiltAsAsked (base limit : BitVec 32) (access granularity : BitVec 8) : Prop where
  same : (gdtDescriptor base limit access granularity).bytes =
    (set base limit access granularity).bytes
  constructed : decode (gdtDescriptor base limit access granularity).bytes =
    some (asked base limit access granularity)
  assigned : decode (set base limit access granularity).bytes =
    some (asked base limit access granularity)

/-- The constructor exchanges base and limit, which shows unless they are equal. -/
theorem builtAsAsked_iff (base limit : BitVec 32) (access granularity : BitVec 8) :
    BuiltAsAsked base limit access granularity ↔ base = limit := by
  constructor
  · intro h
    have hconstructed := h.constructed
    rw [gdtDescriptor, descriptor, fields_decode, Option.some.injEq] at hconstructed
    exact (congrArg Segment.base hconstructed).symm
  · rintro rfl
    exact ⟨rfl, fields_decode base base access granularity,
      fields_decode base base access granularity⟩

/-- The flat code segment: base `0xFFFFFFFF` and limit `0` come out. -/
theorem not_builtAsAsked :
    decode (gdtDescriptor 0 0xFFFFFFFF 0x9A 0xCF).bytes = some ⟨0xFFFFFFFF, 0, 0x9A, 0xC⟩ ∧
    ¬ BuiltAsAsked 0 0xFFFFFFFF 0x9A 0xCF := by
  refine ⟨by decide, fun h => ?_⟩
  exact absurd h.same (by decide)

/-- What the processor takes for the task state is just the record: the limit counts bytes. -/
def CoversTss (m : Mem) (tssEntry : BitVec 32) (ss0 : BitVec 16) (esp0 : BitVec 32) : Prop :=
  ∃ seg, decode (setTss m tssEntry ss0 esp0).1.bytes = some seg ∧ seg.base = tssEntry ∧
    seg.flags.getLsbD 3 = false ∧ seg.limit.toNat + 1 = sizeofTssEntry

/-- The segment that `setTss` describes. -/
theorem setTss_decode (m : Mem) (tssEntry : BitVec 32) (ss0 : BitVec 16) (esp0 : BitVec 32) :
    decode (setTss m tssEntry ss0 esp0).1.bytes =
      some ⟨tssEntry, (tssEntry + 104).setWidth 20, 0xE9, 0⟩ :=
  fields_decode tssEntry (tssEntry + 104) 0xE9 0x00

/-- The descriptor covers the record when the twenty low bits of its address are all ones. -/
theorem coversTss_iff (m : Mem) (tssEntry : BitVec 32) (ss0 : BitVec 16) (esp0 : BitVec 32) :
    CoversTss m tssEntry ss0 esp0 ↔ tssEntry.toNat % 0x100000 = 0xFFFFF := by
  have hlimit : ((tssEntry + 104).setWidth 20).toNat + 1 = sizeofTssEntry ↔
      tssEntry.toNat % 0x100000 = 0xFFFFF := by
    have hsize : sizeofTssEntry = 104 := rfl
    rw [hsize, BitVec.toNat_setWidth, BitVec.toNat_add]
    change (tssEntry.toNat + 104) % 4294967296 % 1048576 + 1 = 104 ↔ _
    omega
  rw [CoversTss, setTss_decode, ← hlimit]
  constructor
  · rintro ⟨seg, hseg, -, -, hsize⟩
    obtain rfl := Option.some.inj hseg
    exact hsize
  · exact fun hsize => ⟨_, rfl, rfl, BitVec.getLsbD_zero, hsize⟩

/-- For a record at `0x100000` the limit is 104 and reaches one byte too far; for one at
`0x1FFFA0` it is 8, below what the processor accepts. -/
theorem not_coversTss :
    (decode (setTss (fun _ => 0) 0x100000 0x10 0).1.bytes).map Segment.limit = some 104 ∧
    (decode (setTss (fun _ => 0) 0x1FFFA0 0x10 0).1.bytes).map Segment.limit = some 8 ∧
    ¬ CoversTss (fun _ => 0) 0x100000 0x10 0 := by
  refine ⟨?_, ?_, ?_⟩
  · rw [setTss_decode]
    rfl
  · rw [setTss_decode]
    rfl
  · rintro ⟨seg, hseg, -, -, hsize⟩
    rw [setTss_decode, Option.some.injEq] at hseg
    rw [← hseg] at hsize
    exact absurd hsize (by decide)

end ExperimentalKernel.Segments
