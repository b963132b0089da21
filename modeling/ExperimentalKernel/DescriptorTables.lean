import ExperimentalKernel.SegmentDescriptors
import Mathlib.Logic.Function.Basic

/-!
# Descriptor tables

What `gdt_install` and `idt_install` put into the tables, and what a processor of 32 bits
makes of it when an interrupt comes: a gate of the one table names a segment of the other,
and an interrupt from an outer ring takes its stack from the task state.
-/

namespace ExperimentalKernel.Segments
open ByteMemory Function

/-- Both constructors of `IdtDescriptor` that take arguments and `setIdtDescriptor`. -/
def setIdtDescriptor (offset : BitVec 32) (selector : BitVec 16) (flags : BitVec 8) : Descriptor :=
  let base_h := (offset >>> 16 &&& 0xFFFF).setWidth 16
  { limitLow := (offset &&& 0xFFFF).setWidth 16
    baseLow := selector
    baseMiddle := 0
    access := flags
    granularity := (base_h &&& 0xFF).setWidth 8
    baseHigh := (base_h >>> 8 &&& 0xFF).setWidth 8 }

/-- The default constructor. -/
def idtDescriptor : Descriptor := ⟨0, 0, 0, 0, 0, 0⟩

def gdtSize : ℕ := 6

def idtSize : ℕ := 256

/-- The table after `gdt_install`; `setTss` also fills the task state. -/
def gdtInstall (m : Mem) (tssEntry : BitVec 32) : (ℕ → Descriptor) × Mem :=
  let gdt : ℕ → Descriptor := fun _ => ⟨0, 0, 0, 0, 0, 0⟩
  let gdt := update gdt 0 (set 0 0 0 0)
  let gdt := update gdt 1 (set 0 0xFFFFFFFF 0x9A 0xCF)
  let gdt := update gdt 2 (set 0 0xFFFFFFFF 0x92 0xCF)
  let gdt := update gdt 3 (set 0 0xFFFFFFFF 0xFA 0xCF)
  let gdt := update gdt 4 (set 0 0xFFFFFFFF 0xF2 0xCF)
  let (d, m₁) := setTss m tssEntry 0x10 0x0
  (update gdt 5 d, m₁)

/-- The calls of `setIdtDescriptor`; `stub n` is the address of `isr0` to `isr31`, of `irq0` to
`irq15` and of `isr128`. -/
def idtEntries (stub : ℕ → BitVec 32) : List (ℕ × Descriptor) :=
  (List.range 48).map (fun n => (n, setIdtDescriptor (stub n) 0x08 0x8E)) ++
    [(128, setIdtDescriptor (stub 128) 0x08 (0x8E ||| 0x60))]

/-- The table after `idt_install`. -/
def idtInstall (stub : ℕ → BitVec 32) : ℕ → Descriptor :=
  (idtEntries stub).foldl (fun idt e => update idt e.1 e.2) fun _ => idtDescriptor

/-- Memory with an array of `n` descriptors at `base`. -/
def placeTable (m : Mem) (base n : ℕ) (table : ℕ → Descriptor) : Mem := fun x =>
  if base ≤ x ∧ x < base + 8 * n then
    UInt8.ofBitVec ((table ((x - base) / 8)).bytes.getD ((x - base) % 8) 0)
  else m x

/-- `gdt_ptr` and `idt_ptr`. -/
structure TablePointer where
  limit : ℕ
  base : ℕ

def tablePointer (size base : ℕ) : TablePointer := ⟨8 * size - 1, base⟩

section Processor

/-- The eight bytes of an entry, if the limit covers them. -/
def entryAt (m : Mem) (p : TablePointer) (index : ℕ) : Option (List (BitVec 8)) :=
  if 8 * index + 7 ≤ p.limit then
    some ((List.range 8).map fun i => (m (p.base + 8 * index + i)).toBitVec)
  else none

structure Gate where
  offset : BitVec 32
  selector : BitVec 16
  flags : BitVec 8
  deriving DecidableEq

def decodeGate : List (BitVec 8) → Option Gate
  | [b₀, b₁, b₂, b₃, _, b₅, b₆, b₇] => some ⟨b₇ ++ b₆ ++ b₁ ++ b₀, b₃ ++ b₂, b₅⟩
  | _ => none

def present (access : BitVec 8) : Bool := access.getLsbD 7

/-- The privilege level that a descriptor demands. -/
def dpl (access : BitVec 8) : BitVec 2 := access.extractLsb' 5 2

/-- A segment of code that does not take the level of its callers. -/
def isCode (access : BitVec 8) : Bool := access.getLsbD 4 && access.getLsbD 3 && !access.getLsbD 2

def isWritable (access : BitVec 8) : Bool :=
  access.getLsbD 4 && !access.getLsbD 3 && access.getLsbD 1

/-- What a selector names: there is no local table, and the first entry of the global one is
not used. -/
def segmentAt (m : Mem) (gdtr : TablePointer) (selector : BitVec 16) : Option Segment :=
  if selector.toNat < 4 ∨ selector.getLsbD 2 = true then none
  else (entryAt m gdtr (selector.toNat / 8)).bind decode

/-- Stack segment and pointer for ring 0 from the task state, if its limit covers them. -/
def ringZeroStack (m : Mem) (tr : Segment) : Option (BitVec 16 × BitVec 32) :=
  if tr.limit.toNat < 11 then none
  else some (BitVec.ofNat 16 (read32 m (tr.base.toNat + TssField.ss0.offset)),
    BitVec.ofNat 32 (read32 m (tr.base.toNat + TssField.esp0.offset)))

inductive Delivery where
  /-- At this address of ring 0, on the stack that is given if the ring changes. -/
  | enters (offset : BitVec 32) (stack : Option (BitVec 16 × BitVec 32))
  | fault (vector : ℕ)
  deriving DecidableEq

/-- The way into ring 0 through the code segment `seg`. -/
def enterSegment (m : Mem) (gdtr : TablePointer) (tr : Segment) (cpl : BitVec 2)
    (offset : BitVec 32) (seg : Segment) : Delivery :=
  if ¬ isCode seg.access ∨ cpl < dpl seg.access then .fault 13
  else if ¬ present seg.access then .fault 11
  else if dpl seg.access = cpl then .enters offset none
  else
    match ringZeroStack m tr with
    | none => .fault 10
    | some (ss, esp) =>
      match segmentAt m gdtr ss with
      | none => .fault 10
      | some stack =>
        if isWritable stack.access ∧ dpl stack.access = dpl seg.access ∧
            ss.extractLsb' 0 2 = dpl seg.access then
          if present stack.access then .enters offset (some (ss, esp)) else .fault 12
        else .fault 10

/-- What becomes of an interrupt in ring `cpl`; `software` if an instruction asks for it. Gates
of other kinds than those of `idt_install` are left open. -/
def deliver (m : Mem) (gdtr idtr : TablePointer) (tr : Segment) (cpl : BitVec 2) (software : Bool)
    (vector : ℕ) : Option Delivery :=
  match (entryAt m idtr vector).bind decodeGate with
  | none => some (.fault 13)
  | some gate =>
    let kind := gate.flags.extractLsb' 0 5
    if kind = 0x05 ∨ kind = 0x06 ∨ kind = 0x07 ∨ kind = 0x0F then none
    else if kind ≠ 0x0E then some (.fault 13)
    else if software = true ∧ dpl gate.flags < cpl then some (.fault 13)
    else if ¬ present gate.flags then some (.fault 11)
    else
      match segmentAt m gdtr gate.selector with
      | none => some (.fault 13)
      | some seg => some (enterSegment m gdtr tr cpl gate.offset seg)

end Processor

section Gates

theorem join_offset (offset : BitVec 32) :
    (((offset >>> 16 &&& 0xFFFF).setWidth 16 >>> 8 &&& 0xFF).setWidth 8 ++
      ((offset >>> 16 &&& 0xFFFF).setWidth 16 &&& 0xFF).setWidth 8 ++
      ((offset &&& 0xFFFF).setWidth 16).extractLsb' 8 8 ++
      ((offset &&& 0xFFFF).setWidth 16).extractLsb' 0 8 : BitVec 32) = offset := by
  have hbyte : ∀ x : BitVec 16, (x &&& 0xFF).setWidth 8 = x.setWidth 8 := by
    intro x
    rw [BitVec.setWidth_and]
    exact BitVec.and_allOnes
  rw [hbyte, hbyte, and_word, and_word]
  apply BitVec.eq_of_getLsbD_eq
  intro i hi
  simp only [BitVec.getLsbD_append, BitVec.getLsbD_extractLsb', BitVec.getLsbD_setWidth,
    BitVec.getLsbD_ushiftRight]
  grind

theorem join_selector (selector : BitVec 16) :
    (selector.extractLsb' 8 8 ++ selector.extractLsb' 0 8 : BitVec 16) = selector := by
  apply BitVec.eq_of_getLsbD_eq
  intro i hi
  simp only [BitVec.getLsbD_append, BitVec.getLsbD_extractLsb']
  grind

/-- The processor finds offset, selector and flags again. -/
theorem setIdtDescriptor_decode (offset : BitVec 32) (selector : BitVec 16) (flags : BitVec 8) :
    decodeGate (setIdtDescriptor offset selector flags).bytes = some ⟨offset, selector, flags⟩ := by
  simp only [Descriptor.bytes, decodeGate, setIdtDescriptor, join_offset, join_selector]

/-- The flags of an installed gate. -/
def gateFlags (v : ℕ) : BitVec 8 := if v = 128 then 0xEE else 0x8E

def Installed (v : ℕ) : Prop := v < 48 ∨ v = 128

instance (v : ℕ) : Decidable (Installed v) := inferInstanceAs (Decidable (_ ∨ _))

theorem foldl_update_apply {α : Type*} (f : ℕ → α) (ns : List ℕ) (t : ℕ → α) (v : ℕ) :
    (ns.map fun n => (n, f n)).foldl (fun t e => update t e.1 e.2) t v =
      if v ∈ ns then f v else t v := by
  induction ns generalizing t with
  | nil => rfl
  | cons n ns ih =>
    rw [List.map_cons, List.foldl_cons, ih]
    by_cases hv : v ∈ ns
    · rw [if_pos hv, if_pos (List.mem_cons_of_mem n hv)]
    · rw [if_neg hv]
      by_cases hn : v = n
      · rw [hn, if_pos List.mem_cons_self, update_self]
      · rw [update_of_ne hn, if_neg fun h => (List.mem_cons.mp h).elim hn hv]

theorem idtInstall_apply (stub : ℕ → BitVec 32) (v : ℕ) :
    idtInstall stub v =
      if Installed v then setIdtDescriptor (stub v) 0x08 (gateFlags v) else idtDescriptor := by
  rw [idtInstall, idtEntries, List.foldl_append, List.foldl_cons, List.foldl_nil]
  dsimp only
  by_cases h128 : v = 128
  · have hinstalled : Installed v := Or.inr h128
    rw [if_pos hinstalled, h128, update_self]
    rfl
  · rw [update_of_ne h128, foldl_update_apply, gateFlags, if_neg h128]
    refine if_congr ?_ rfl rfl
    rw [List.mem_range]
    exact (or_iff_left h128).symm

end Gates

section Placing

variable {m : Mem} {base n i : ℕ} {table : ℕ → Descriptor}

theorem Descriptor.bytes_length (d : Descriptor) : d.bytes.length = 8 := rfl

theorem placeTable_apply (m : Mem) (table : ℕ → Descriptor) (hi : i < n) {j : ℕ} (hj : j < 8) :
    placeTable m base n table (base + 8 * i + j) = UInt8.ofBitVec ((table i).bytes.getD j 0) := by
  have hdiv : (base + 8 * i + j - base) / 8 = i := by omega
  have hmod : (base + 8 * i + j - base) % 8 = j := by omega
  rw [placeTable, if_pos (by omega), hdiv, hmod]

/-- The bytes of an entry are those of its descriptor. -/
theorem entryAt_placeTable (m : Mem) (table : ℕ → Descriptor) (hi : i < n) :
    entryAt (placeTable m base n table) (tablePointer n base) i = some (table i).bytes := by
  have hlimit : 8 * i + 7 ≤ (tablePointer n base).limit := by
    simp only [tablePointer]
    omega
  rw [entryAt, if_pos hlimit]
  congr 1
  apply List.ext_getElem
  · simp [Descriptor.bytes]
  · intro j hj hj'
    rw [Descriptor.bytes_length] at hj'
    rw [List.getElem_map, List.getElem_range]
    have happly : placeTable m base n table (base + 8 * i + j) = _ :=
      placeTable_apply m table hi hj'
    rw [List.getD_eq_getElem _ _ (by rw [Descriptor.bytes_length]; omega)] at happly
    exact congrArg UInt8.toBitVec happly

theorem placeTable_agreeOff (m : Mem) (base n : ℕ) (table : ℕ → Descriptor) :
    AgreeOff m (placeTable m base n table) base (base + 8 * n) := fun x hx => if_neg (by omega)

theorem entryAt_congr {m' : Mem} {p : TablePointer}
    (h : AgreeOn m m' p.base (p.base + p.limit + 1)) : entryAt m' p i = entryAt m p i := by
  rw [entryAt, entryAt]
  by_cases hi : 8 * i + 7 ≤ p.limit
  · rw [if_pos hi, if_pos hi]
    congr 1
    refine List.map_congr_left fun j hj => ?_
    have hj := List.mem_range.mp hj
    rw [h _ (by omega) (by omega)]
  · rw [if_neg hi, if_neg hi]

end Placing

/-- In memory stand the tables that the kernel installs. -/
structure TablesAt (m : Mem) (gdt idt : ℕ) (tssEntry : BitVec 32) (stub : ℕ → BitVec 32) : Prop where
  gdt : ∀ i < gdtSize, entryAt m (tablePointer gdtSize gdt) i =
    some ((gdtInstall m tssEntry).1 i).bytes
  idt : ∀ v < idtSize, entryAt m (tablePointer idtSize idt) v = some (idtInstall stub v).bytes

/-- The arrays and the task state lie apart. -/
structure TablesApart (gdt idt : ℕ) (tssEntry : BitVec 32) : Prop where
  tables : gdt + 8 * gdtSize ≤ idt ∨ idt + 8 * idtSize ≤ gdt
  gdt_tss : gdt + 8 * gdtSize ≤ tssEntry.toNat ∨ tssEntry.toNat + sizeofTssEntry ≤ gdt
  idt_tss : idt + 8 * idtSize ≤ tssEntry.toNat ∨ tssEntry.toNat + sizeofTssEntry ≤ idt

/-- Memory after `gdt_install` and `idt_install`. -/
def install (m : Mem) (gdt idt : ℕ) (tssEntry : BitVec 32) (stub : ℕ → BitVec 32) : Mem :=
  let (table, m₁) := gdtInstall m tssEntry
  placeTable (placeTable m₁ gdt gdtSize table) idt idtSize (idtInstall stub)

section Delivery

variable {m : Mem} {gdt idt : ℕ} {tssEntry : BitVec 32} {stub : ℕ → BitVec 32}

theorem install_tablesAt (m : Mem) (h : TablesApart gdt idt tssEntry) :
    TablesAt (install m gdt idt tssEntry stub) gdt idt tssEntry stub := by
  have htables := h.tables
  constructor
  · intro i hi
    have hkept : AgreeOn _ _ gdt (gdt + 8 * gdtSize) :=
      (placeTable_agreeOff (placeTable (gdtInstall m tssEntry).2 gdt gdtSize
        (gdtInstall m tssEntry).1) idt idtSize (idtInstall stub)).agreeOn (by omega)
    exact (entryAt_congr hkept).trans (entryAt_placeTable _ _ hi)
  · exact fun v hv => entryAt_placeTable _ _ hv

/-- The tables stay if nobody writes to them. -/
theorem TablesAt.congr {m' : Mem} (h : TablesAt m gdt idt tssEntry stub)
    (hgdt : AgreeOn m m' gdt (gdt + 8 * gdtSize)) (hidt : AgreeOn m m' idt (idt + 8 * idtSize)) :
    TablesAt m' gdt idt tssEntry stub where
  gdt i hi := (entryAt_congr hgdt).trans (h.gdt i hi)
  idt v hv := (entryAt_congr hidt).trans (h.idt v hv)

/-- What a selector of the global table names. -/
theorem TablesAt.segmentAt_eq (h : TablesAt m gdt idt tssEntry stub) {selector : BitVec 16}
    (hnull : ¬ (selector.toNat < 4 ∨ selector.getLsbD 2 = true)) (hi : selector.toNat / 8 < gdtSize) :
    segmentAt m (tablePointer gdtSize gdt) selector =
      decode ((gdtInstall m tssEntry).1 (selector.toNat / 8)).bytes := by
  rw [segmentAt, if_neg hnull, h.gdt _ hi]
  rfl

theorem TablesAt.kernelCode (h : TablesAt m gdt idt tssEntry stub) :
    segmentAt m (tablePointer gdtSize gdt) 0x08 = some (asked 0 0xFFFFFFFF 0x9A 0xCF) :=
  (h.segmentAt_eq (by decide) (by decide)).trans (fields_decode 0 0xFFFFFFFF 0x9A 0xCF)

theorem TablesAt.kernelData (h : TablesAt m gdt idt tssEntry stub) :
    segmentAt m (tablePointer gdtSize gdt) 0x10 = some (asked 0 0xFFFFFFFF 0x92 0xCF) :=
  (h.segmentAt_eq (by decide) (by decide)).trans (fields_decode 0 0xFFFFFFFF 0x92 0xCF)

/-- With the level that is asked for in the low bits. -/
theorem TablesAt.userCode (h : TablesAt m gdt idt tssEntry stub) :
    segmentAt m (tablePointer gdtSize gdt) 0x1B = some (asked 0 0xFFFFFFFF 0xFA 0xCF) :=
  (h.segmentAt_eq (by decide) (by decide)).trans (fields_decode 0 0xFFFFFFFF 0xFA 0xCF)

theorem TablesAt.userData (h : TablesAt m gdt idt tssEntry stub) :
    segmentAt m (tablePointer gdtSize gdt) 0x23 = some (asked 0 0xFFFFFFFF 0xF2 0xCF) :=
  (h.segmentAt_eq (by decide) (by decide)).trans (fields_decode 0 0xFFFFFFFF 0xF2 0xCF)

/-- `tss_flush` loads this selector into the task register. -/
theorem TablesAt.taskState (h : TablesAt m gdt idt tssEntry stub) :
    segmentAt m (tablePointer gdtSize gdt) 0x2B = some (asked tssEntry (tssEntry + 104) 0xE9 0x00) :=
  (h.segmentAt_eq (by decide) (by decide)).trans (setTss_decode m tssEntry 0x10 0)

/-- The segment of the gates is entered from every ring. -/
theorem enterSegment_kernelCode (h : TablesAt m gdt idt tssEntry stub) {tr : Segment}
    {cpl : BitVec 2} {esp : BitVec 32} (hstack : cpl ≠ 0 → ringZeroStack m tr = some (0x10, esp))
    (offset : BitVec 32) :
    enterSegment m (tablePointer gdtSize gdt) tr cpl offset (asked 0 0xFFFFFFFF 0x9A 0xCF) =
      .enters offset (if cpl = 0 then none else some (0x10, esp)) := by
  have hcode : ¬ (¬ isCode (asked 0 0xFFFFFFFF 0x9A 0xCF).access ∨
      cpl < dpl (asked 0 0xFFFFFFFF 0x9A 0xCF).access) := by
    have hlow : ¬ cpl < dpl 0x9A := BitVec.not_lt_zero
    exact fun h => h.elim (fun h => h rfl) hlow
  have hpresent : ¬ ¬ present (asked 0 0xFFFFFFFF 0x9A 0xCF).access = true := not_not.mpr rfl
  have hdpl : dpl (asked 0 0xFFFFFFFF 0x9A 0xCF).access = 0 := rfl
  rw [enterSegment, if_neg hcode, if_neg hpresent, hdpl]
  by_cases h0 : cpl = 0
  · rw [if_pos h0.symm, if_pos h0]
  · rw [if_neg (Ne.symm h0), if_neg h0, hstack h0]
    simp only [h.kernelData]
    rfl

/-- What the gates let through: from ring 0 every installed vector, from the outer rings those
that no instruction asks for, and vector 128. All else is a general protection fault. -/
theorem deliver_eq (h : TablesAt m gdt idt tssEntry stub) {tr : Segment} {cpl : BitVec 2}
    {esp : BitVec 32} (hstack : cpl ≠ 0 → ringZeroStack m tr = some (0x10, esp)) (software : Bool)
    {v : ℕ} (hv : v < idtSize) :
    deliver m (tablePointer gdtSize gdt) (tablePointer idtSize idt) tr cpl software v =
      some (if Installed v ∧ (software = true → cpl = 0 ∨ v = 128) then
        .enters (stub v) (if cpl = 0 then none else some (0x10, esp)) else .fault 13) := by
  rw [deliver, h.idt v hv, idtInstall_apply]
  by_cases hi : Installed v
  · have hkind : (gateFlags v).extractLsb' 0 5 = 0x0E := by
      rw [gateFlags]
      split <;> rfl
    have hpresent : ¬ ¬ present (gateFlags v) = true := by
      rw [gateFlags]
      split <;> decide
    have hdpl : dpl (gateFlags v) < cpl ↔ ¬ (cpl = 0 ∨ v = 128) := by
      rw [gateFlags]
      by_cases h128 : v = 128
      · rw [if_pos h128]
        have hhigh : ¬ dpl 0xEE < cpl := by
          have : dpl 0xEE = 3 := rfl
          bv_omega
        exact ⟨fun h => absurd h hhigh, fun h => absurd (Or.inr h128) h⟩
      · rw [if_neg h128, or_iff_left h128]
        have : dpl 0x8E = 0 := rfl
        bv_omega
    have hother : ¬ ((0x0E : BitVec 5) = 0x05 ∨ (0x0E : BitVec 5) = 0x06 ∨ (0x0E : BitVec 5) = 0x07 ∨
        (0x0E : BitVec 5) = 0x0F) := by decide
    rw [if_pos hi, Option.bind_some, setIdtDescriptor_decode]
    dsimp only
    rw [hkind, if_neg hother, if_neg (not_not.mpr rfl), if_neg hpresent, h.kernelCode]
    by_cases hs : software = true ∧ ¬ (cpl = 0 ∨ v = 128)
    · rw [if_pos ⟨hs.1, hdpl.mpr hs.2⟩, if_neg fun h => hs.2 (h.2 hs.1)]
    · rw [if_neg fun h => hs ⟨h.1, hdpl.mp h.2⟩,
        if_pos ⟨hi, fun h => by_contra fun hn => hs ⟨h, hn⟩⟩]
      exact congrArg some (enterSegment_kernelCode h hstack (stub v))
  · rw [if_neg hi, if_neg fun h => hi h.1]
    rfl

end Delivery

end ExperimentalKernel.Segments
