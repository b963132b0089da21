import ExperimentalKernel.ProcessMemories
import ExperimentalKernel.HeapAccounting

/-!
# Processes on the kernel heap

The directories, page tables and nodes of processes lie in the heap, which the rest of the
kernel uses as well. What runs of processes assume of `kmalloc` and `new` then holds by
itself: the regions that these return belong to no process yet. The heap keeps its own bytes;
to the processes these are among what the kernel reserves.
-/

namespace ExperimentalKernel.KernelRuns
open ByteMemory LabelledRuns Function
open ProcessMemories (Machine SameProcesses Open Represents mem_directories nodeSize regions sameProcesses
  directory_mem_regions table_mem_regions node_mem_regions)
open ProcessMemories.Machine (Linked Started Keeps SameBeside)
open Paging (Private Shared Apart entry directorySize pageSize tablesNeeded framesNeeded freeFrames)
open OwnMemories (Computer Op)

structure Kernel where
  machine : Machine
  heap : Heap.World

/-- A step of the running process, or a use of the heap by the rest of the kernel. -/
inductive Action where
  | process (a : ProcessMemories.Action)
  | heap (a : Heap.Service)

def Action.op : Action → Op ℕ (BitVec 32) UInt8
  | .process a => a.op
  | .heap _ => .stay

/-- What `fork` requests: a directory, a table for each private one, and a node. -/
def forkRequests (m : Machine) : List (ℕ × Bool) :=
  (directorySize, true) ::
    (List.replicate (tablesNeeded m.paging m.paging.currentPageDirectory 0 1024) (pageSize, true) ++
      [(nodeSize, false)])

/-- The heap after it has provided for the action. -/
def Kernel.Provided (k : Kernel) : ProcessMemories.Action → Heap.World → Prop
  | .fork pDir node ptrs, w => k.heap.requests (forkRequests k.machine) = (regions pDir node ptrs, w)
  | _, w => w = k.heap

/-- The heap lies in what the kernel reserves: only there does its use change memory. -/
inductive Kernel.Step (reserved : Set ℕ) : Kernel → Action → Kernel → Prop
  | process {k : Kernel} {a : ProcessMemories.Action} {m : Machine} {w : Heap.World}
      (h : k.machine.Step reserved a m) (hw : k.Provided a w) : Step reserved k (.process a) ⟨m, w⟩
  | heap {k : Kernel} {a : Heap.Service} {w : Heap.World} {mem : Mem} (h : Heap.Serve k.heap a w)
      (hm : SameBeside reserved k.machine.paging.memory mem) :
      Step reserved k (.heap a)
        ⟨{ k.machine with paging := { k.machine.paging with memory := mem } }, w⟩

/-- The payloads that the process `p` has in the heap. -/
inductive Occupies (m : Machine) (p : ℕ) : ℕ × ℕ → Prop
  | directory : Occupies m p (m.directory p, directorySize)
  | table {i : ℕ} (hi : i < 1024) (ht : Private m.paging (m.directory p) i) :
      Occupies m p ((m.paging.directories (m.directory p)).pageTables i, pageSize)
  | node : Occupies m p (p, nodeSize)

theorem Occupies.pos {m : Machine} {p : ℕ} {x : ℕ × ℕ} (h : Occupies m p x) : 0 < x.2 := by
  cases h with
  | directory => exact (by decide : 0 < directorySize)
  | table hi ht => exact (by decide : 0 < pageSize)
  | node => exact (by decide : 0 < nodeSize)

/-- The rest of the kernel leaves alone what processes have. -/
def Kernel.Spares (k : Kernel) : Heap.Service → Prop
  | .plain (.free ptr) => ∀ p ∈ k.machine.world.order, ∀ x, Occupies k.machine p x → x.1 ≠ ptr
  | .plain (.write a _) =>
    ∀ p ∈ k.machine.world.order, ∀ x, Occupies k.machine p x → a < x.1 ∨ x.1 + x.2 ≤ a
  | _ => True

/-- Heap and frames last, and pages can be placed. -/
def Kernel.Granted (k : Kernel) : Action → Prop
  | .process (.run eip esp ebp) => k.machine.world.Granted (.run eip esp ebp)
  | .process (.fork _ _ _) => k.heap.Grants (forkRequests k.machine) ∧
      framesNeeded k.machine.paging k.machine.paging.currentPageDirectory 0 1024 ≤
        freeFrames k.machine.paging
  | .process _ => True
  | .heap a => Heap.Servable k.heap a ∧ k.Spares a

/-- The kernel's own directory and tables lie beside the heap, and map it. -/
structure Beside (s : Paging.State) (h : Heap.KernelHeap) : Prop where
  number : s.frameNumber ≤ 2 ^ 20
  enabled : s.heapEnabled = true
  directory : s.pageDirectory < h.startAddress ∨ h.endAddress ≤ s.pageDirectory
  tables : ∀ j < 1024, (s.directories s.pageDirectory).pageTables j ≠ 0 →
    (s.directories s.pageDirectory).pageTables j + pageSize ≤ h.startAddress ∨
      h.endAddress ≤ (s.directories s.pageDirectory).pageTables j
  mapped : ∀ a, h.startAddress ≤ a → a < h.endAddress →
    (s.directories s.pageDirectory).pageTables (a / 0x1000 / 1024) ≠ 0

/-- The directory `d` begins a page, and its physical address is where the kernel maps it. -/
def Located (s : Paging.State) (d : ℕ) : Prop :=
  d % pageSize = 0 ∧ (s.directories d).physicalAddress =
    (entry s s.pageDirectory (d / 0x1000)).frame.toNat * pageSize

/-- What the kernel's tables map of the heap is reserved. -/
def Kernel.HeapReserved (reserved : Set ℕ) (k : Kernel) : Prop :=
  ∀ a : BitVec 32, k.heap.state.heap.startAddress ≤ a.toNat → a.toNat < k.heap.state.heap.endAddress →
    ∀ x ∈ k.machine.window a, x ∈ reserved

structure Housed (reserved : Set ℕ) (k : Kernel) : Prop where
  linked : Linked k.machine
  reserved : k.HeapReserved reserved
  heap : Heap.WorldInv k.heap
  beside : Beside k.machine.paging k.heap.state.heap
  occupied : ∀ p ∈ k.machine.world.order, ∀ x, Occupies k.machine p x → x ∈ k.heap.live
  separate : ∀ p ∈ k.machine.world.order, ∀ q ∈ k.machine.world.order, p ≠ q →
    ∀ x, Occupies k.machine p x → ¬ Occupies k.machine q x
  located : ∀ p ∈ k.machine.world.order, Located k.machine.paging (k.machine.directory p)

variable {k k' : Kernel} {reserved : Set ℕ}

/-- Only the node need not begin a page. -/
theorem forkRequests_aligned {m : Machine} {r : ℕ × Bool} (h : r ∈ forkRequests m)
    (hr : r.1 ≠ nodeSize) : r.2 = true := by
  rcases List.mem_cons.mp h with rfl | h
  · rfl
  · rcases List.mem_append.mp h with h | h
    · rw [List.eq_of_mem_replicate h]
    · rw [List.mem_singleton.mp h] at hr
      exact absurd rfl hr

section Forking

variable {pDir node : ℕ} {ptrs : List ℕ} {w : Heap.World}

namespace Housed

variable (h : Housed reserved k)
include h

/-- What the kernel maps, the directory of every process maps alike. -/
theorem table_eq {d i : ℕ} (hd : d ∈ k.machine.directories) (hi : i < 1024)
    (h0 : (k.machine.paging.directories k.machine.paging.pageDirectory).pageTables i ≠ 0) :
    (k.machine.paging.directories d).pageTables i =
      (k.machine.paging.directories k.machine.paging.pageDirectory).pageTables i :=
  h.linked.spaces.kernel d hd i hi h0

theorem mapped {a : ℕ} (hl : k.heap.state.heap.startAddress ≤ a)
    (hh : a < k.heap.state.heap.endAddress) : Paging.Mapped k.machine.paging a := by
  intro _
  obtain ⟨-, segs, hr, -⟩ := h.heap
  have htop := hr.top
  unfold wordSize at htop
  have h0 := h.beside.mapped a hl hh
  rw [h.table_eq h.linked.current_mem (by omega) h0]
  exact h0

variable (hgr : Heap.Granting k.heap (forkRequests k.machine) (regions pDir node ptrs) w)
include hgr

/-- No process has what the heap has just returned. -/
theorem not_regions {p : ℕ} {x : ℕ × ℕ} (hp : p ∈ k.machine.world.order) (hx : Occupies k.machine p x) :
    x ∉ regions pDir node ptrs := by
  intro hmem
  have hfresh := hgr.fresh hmem (h.occupied p hp x hx)
  have hpos := hx.pos
  omega

theorem directory_new {p : ℕ} (hp : p ∈ k.machine.world.order) : k.machine.directory p ≠ pDir := by
  rintro rfl
  exact h.not_regions hgr hp .directory directory_mem_regions

theorem node_new : node ∉ k.machine.world.order :=
  fun hp => h.not_regions hgr hp .node node_mem_regions

/-- A new table overlaps no table of a process. -/
theorem table_apart {p ptr j : ℕ} (hptr : ptr ∈ ptrs) (hp : p ∈ k.machine.world.order) (hj : j < 1024)
    (h0 : (k.machine.paging.directories (k.machine.directory p)).pageTables j ≠ 0) :
    Apart ptr ((k.machine.paging.directories (k.machine.directory p)).pageTables j) := by
  have hmem : (ptr, pageSize) ∈ regions pDir node ptrs := table_mem_regions hptr
  rcases Paging.private_or_shared h0 with hprivate | hshared
  · exact hgr.fresh hmem (h.occupied p hp _ (.table hj hprivate))
  · -- The table is the kernel's and lies beside the heap.
    obtain ⟨hlow, hhigh⟩ := hgr.inside hmem
    have hout := h.beside.tables j hj (hshared.2 ▸ hshared.1)
    rw [← hshared.2] at hout
    unfold Apart
    simp only at hlow hhigh
    omega

theorem newTo : Paging.NewTo k.machine.paging k.machine.directories pDir ptrs where
  directory hmem := by
    obtain ⟨p, hp, he⟩ := List.mem_map.mp hmem
    exact h.directory_new hgr hp he
  tables ptr hptr d hd j hj h0 := by
    obtain ⟨p, hp, rfl⟩ := List.mem_map.mp hd
    exact h.table_apart hgr hptr hp hj h0

theorem ready (hframes : framesNeeded k.machine.paging k.machine.paging.currentPageDirectory 0 1024 ≤
      freeFrames k.machine.paging) :
    Paging.Ready k.machine.paging k.machine.paging.currentPageDirectory pDir 0 1024 ptrs where
  number := h.beside.number
  source := h.linked.directory_current ▸ h.directory_new hgr h.linked.contexts.current
  kernel := by
    obtain ⟨hlow, hhigh⟩ := hgr.inside directory_mem_regions
    have hout := h.beside.directory
    simp only [directorySize] at hlow hhigh
    omega
  current := h.linked.directory_current ▸ h.directory_new hgr h.linked.contexts.current
  nonnull ptr hptr := (hgr.payload _ (table_mem_regions hptr)).1
  mapped ptr hptr := by
    obtain ⟨hlow, hhigh⟩ := hgr.inside (table_mem_regions hptr)
    have hpage : 0 < pageSize := by decide
    exact h.mapped hlow (lt_of_lt_of_le (Nat.lt_add_of_pos_right hpage) hhigh)
  disjoint := by
    have hapart := (List.pairwise_append.mp (List.pairwise_cons.mp hgr.apart).2).1
    rwa [List.pairwise_map] at hapart
  apartSource ptr hptr j hj h0 := by
    rw [← h.linked.directory_current] at h0 ⊢
    exact h.table_apart hgr hptr h.linked.contexts.current hj h0
  apartKernel ptr hptr j hj he := by
    have hmem : (ptr, pageSize) ∈ regions pDir node ptrs := table_mem_regions hptr
    obtain ⟨hlow, hhigh⟩ := hgr.inside hmem
    have hout := h.beside.tables j hj (he ▸ (hgr.payload _ hmem).1)
    rw [← he] at hout
    simp only [pageSize] at hlow hhigh hout
    omega
  frames := hframes
  tables := by
    have hlen := hgr.length
    simp only [regions, forkRequests, List.length_cons, List.length_append, List.length_map,
      List.length_replicate, List.length_nil] at hlen
    omega

/-- What the heap returns is what a fork relies on. -/
theorem fork_granted (hframes : framesNeeded k.machine.paging k.machine.paging.currentPageDirectory 0 1024 ≤
      freeFrames k.machine.paging) : k.machine.Granted reserved (.fork pDir node ptrs) := by
  obtain ⟨hlow, hhigh⟩ := hgr.inside directory_mem_regions
  have hsize : 0 < directorySize := by decide
  have hmapped := h.mapped hlow (lt_of_lt_of_le (Nat.lt_add_of_pos_right hsize) hhigh)
  have hnode := (hgr.payload _ node_mem_regions).1
  refine ⟨⟨hnode, h.node_new hgr, fun p hp => h.directory_new hgr hp⟩, hmapped, h.ready hgr hframes,
    h.newTo hgr, fun r hr a ha ha' => h.reserved a ?_ ?_⟩
  · exact (hgr.inside hr).1.trans ha
  · exact lt_of_lt_of_le ha' (hgr.inside hr).2

end Housed

end Forking

section Steps

theorem same_private_iff {m m' : Machine} (h : SameProcesses m m') {d i : ℕ} :
    Private m'.paging d i ↔ Private m.paging d i := by
  rw [Private, Private, h.directories, h.pageDirectory]

theorem same_occupies {m m' : Machine} (h : SameProcesses m m') {p : ℕ} {x : ℕ × ℕ}
    (hx : Occupies m' p x) : Occupies m p x := by
  cases hx with
  | directory =>
    rw [h.directory p]
    exact .directory
  | @table i hi ht =>
    rw [h.directory p, h.directories]
    rw [h.directory p, same_private_iff h] at ht
    exact .table hi ht
  | node => exact .node

theorem Housed.same {m' : Machine} (h : Housed reserved k) (hl : Linked m')
    (hs : SameProcesses k.machine m') : Housed reserved ⟨m', k.heap⟩ where
  linked := hl
  reserved a hlow hhigh x hx := h.reserved a hlow hhigh x (hs.window_eq ▸ hx)
  heap := h.heap
  beside := by
    obtain ⟨hnumber, henabled, hdirectory, htables, hmapped⟩ := h.beside
    rw [← hs.frameNumber] at hnumber
    rw [← hs.heapEnabled] at henabled
    rw [← hs.pageDirectory] at hdirectory htables hmapped
    rw [← hs.directories] at htables hmapped
    exact ⟨hnumber, henabled, hdirectory, htables, hmapped⟩
  occupied p hp x hx := h.occupied p (hs.order ▸ hp) x (same_occupies hs hx)
  separate p hp q hq hne x hx hx' :=
    h.separate p (hs.order ▸ hp) q (hs.order ▸ hq) hne x (same_occupies hs hx) (same_occupies hs hx')
  located p hp := by
    obtain ⟨haligned, hphys⟩ := h.located p (hs.order ▸ hp)
    dsimp only
    rw [hs.directory p, Located, Paging.entry, Paging.entryAddress, hs.directories, hs.pages,
      hs.pageDirectory]
    exact ⟨haligned, hphys⟩

/-- A service of the heap to the rest of the kernel. -/
theorem Housed.served {a : Heap.Service} {w : Heap.World} (h : Housed reserved k) (hs : Heap.Serve k.heap a w)
    (ha : Heap.Servable k.heap a) (hspares : k.Spares a) : Housed reserved { k with heap := w } where
  linked := h.linked
  reserved := by
    have hreserved := h.reserved
    unfold Kernel.HeapReserved at hreserved ⊢
    rwa [← hs.bounds.startAddress, ← hs.bounds.endAddress] at hreserved
  heap := (Heap.worldInv_serve h.heap hs ha).1
  beside := by
    obtain ⟨hnumber, henabled, hdirectory, htables, hmapped⟩ := h.beside
    rw [← hs.bounds.startAddress, ← hs.bounds.endAddress] at hdirectory htables hmapped
    exact ⟨hnumber, henabled, hdirectory, htables, hmapped⟩
  occupied p hp x hx := by
    refine hs.live (h.occupied p hp x hx) ?_
    rintro rfl
    exact hspares p hp x hx rfl
  separate := h.separate
  located := h.located

section Fork

variable {m' : Machine} {w : Heap.World} {pDir node : ℕ} {ptrs : List ℕ}

theorem forked_occupies (hf : ProcessMemories.Forked reserved k.machine m' pDir node ptrs) {p : ℕ}
    {x : ℕ × ℕ} (hp : p ∈ k.machine.world.order) (hx : Occupies m' p x) :
    Occupies k.machine p x := by
  have hd := mem_directories hp
  cases hx with
  | directory =>
    rw [hf.others p hp]
    exact .directory
  | @table i hi ht =>
    obtain ⟨mem, hcloned, -⟩ := hf.cloned
    rw [hf.others p hp] at ht ⊢
    rw [hf.tables hp]
    exact .table hi ((hcloned.private_others hd).mp ht)
  | node => exact .node

/-- The child has what the heap has just returned. -/
theorem forked_regions (hf : ProcessMemories.Forked reserved k.machine m' pDir node ptrs) {x : ℕ × ℕ}
    (hx : Occupies m' node x) : x ∈ regions pDir node ptrs := by
  cases hx with
  | directory =>
    rw [hf.child]
    exact directory_mem_regions
  | @table i hi ht =>
    obtain ⟨mem, hcloned, -⟩ := hf.cloned
    rw [hf.child] at ht ⊢
    exact table_mem_regions (hcloned.regions i hi ((hcloned.private_iff hi).mp ht))
  | node => exact node_mem_regions

theorem Housed.beside_fork (h : Housed reserved k)
    (hf : ProcessMemories.Forked reserved k.machine m' pDir node ptrs)
    (hb : Heap.SameBounds k.heap.state w.state) : Beside m'.paging w.state.heap := by
  obtain ⟨hnumber, henabled, hdirectory, htables, hmapped⟩ := h.beside
  obtain ⟨mem, hcloned, -⟩ := hf.cloned
  have hu := hcloned.undisturbed
  rw [← hu.pageDirectory, ← hb.startAddress, ← hb.endAddress] at hdirectory
  rw [← hcloned.kernel_tables, ← hb.startAddress, ← hb.endAddress] at htables hmapped
  exact ⟨hu.grown.frameNumber.symm ▸ hnumber, hu.heap.trans henabled, hdirectory, htables, hmapped⟩

/-- The kernel's entry for an address in the heap is in all directories, and stays. -/
theorem Housed.entry_kernel (h : Housed reserved k) (hf : ProcessMemories.Forked reserved k.machine m' pDir node ptrs)
    {a : ℕ} (hl : k.heap.state.heap.startAddress ≤ a) (hh : a < k.heap.state.heap.endAddress) :
    entry k.machine.paging k.machine.paging.currentPageDirectory (a / 0x1000) =
        entry k.machine.paging k.machine.paging.pageDirectory (a / 0x1000) ∧
      entry m'.paging m'.paging.pageDirectory (a / 0x1000) =
        entry k.machine.paging k.machine.paging.pageDirectory (a / 0x1000) := by
  obtain ⟨-, segs, hr, -⟩ := h.heap
  have htop := hr.top
  unfold wordSize at htop
  have hn : a / 0x1000 < 1024 * 1024 := by omega
  have h0 := h.beside.mapped a hl hh
  obtain ⟨mem, hcloned, -⟩ := hf.cloned
  exact ⟨h.linked.spaces.entry_eq h.linked.current_mem hn h0, hcloned.entry_kernel hn h0⟩

theorem Housed.located_fork (h : Housed reserved k) (hf : ProcessMemories.Forked reserved k.machine m' pDir node ptrs)
    (hgr : Heap.Granting k.heap (forkRequests k.machine) (regions pDir node ptrs) w) {p : ℕ}
    (hp : p ∈ m'.world.order) : Located m'.paging (m'.directory p) := by
  rw [hf.order] at hp
  rcases List.mem_append.mp hp with hp | hp
  · obtain ⟨haligned, hphys⟩ := h.located p hp
    have hlive := h.occupied p hp _ .directory
    obtain ⟨hlow, hhigh⟩ := h.heap.apart.inside _ hlive
    have hsize : 0 < directorySize := by decide
    obtain ⟨-, hentry⟩ := h.entry_kernel hf hlow (lt_of_lt_of_le (Nat.lt_add_of_pos_right hsize) hhigh)
    rw [hf.others p hp, Located, hentry, hf.stay _ (h.directory_new hgr hp)]
    exact ⟨haligned, hphys⟩
  · obtain ⟨hlow, hhigh⟩ := hgr.inside directory_mem_regions
    have hsize : 0 < directorySize := by decide
    have hlt := lt_of_lt_of_le (Nat.lt_add_of_pos_right hsize) hhigh
    obtain ⟨hcurrent, hentry⟩ := h.entry_kernel hf hlow hlt
    obtain ⟨-, r, hr, hsized, haligned⟩ := hgr.payload _ directory_mem_regions
    have hne : directorySize ≠ nodeSize := by decide
    have hpage : pDir % pageSize = 0 := haligned (forkRequests_aligned hr (hsized ▸ hne))
    have hphys := hf.located
    rw [Paging.kmalloc_enabled h.beside.enabled (h.mapped hlow hlt), hcurrent] at hphys
    have hoffset : pDir % 0x1000 = 0 := hpage
    rw [List.mem_singleton.mp hp, hf.child, Located, hentry]
    rw [Option.map_some, Option.some.injEq, hoffset, Nat.add_zero] at hphys
    exact ⟨hpage, hphys.symm⟩

theorem Housed.forked (h : Housed reserved k) (hf : ProcessMemories.Forked reserved k.machine m' pDir node ptrs)
    (hgr : Heap.Granting k.heap (forkRequests k.machine) (regions pDir node ptrs) w) :
    Housed reserved ⟨m', w⟩ where
  linked := hf.linked
  reserved a hlow hhigh x hx := by
    dsimp only at hlow hhigh hx
    rw [hgr.bounds.startAddress] at hlow
    rw [hgr.bounds.endAddress] at hhigh
    exact h.reserved a hlow hhigh x (hf.window_eq ▸ hx)
  heap := hgr.inv
  beside := h.beside_fork hf hgr.bounds
  occupied p hp x hx := by
    dsimp only at hp hx ⊢
    rw [hgr.live]
    rw [hf.order] at hp
    rcases List.mem_append.mp hp with hp | hp
    · exact List.mem_append_right _ (h.occupied p hp x (forked_occupies hf hp hx))
    · rw [List.mem_singleton.mp hp] at hx
      exact List.mem_append_left _ (List.mem_reverse.mpr (forked_regions hf hx))
  separate p hp q hq hne x hx hx' := by
    dsimp only at hp hq hx hx'
    rw [hf.order] at hp hq
    rcases List.mem_append.mp hp with hp | hp <;> rcases List.mem_append.mp hq with hq | hq
    · exact h.separate p hp q hq hne x (forked_occupies hf hp hx) (forked_occupies hf hq hx')
    · rw [List.mem_singleton.mp hq] at hx'
      exact h.not_regions hgr hp (forked_occupies hf hp hx) (forked_regions hf hx')
    · rw [List.mem_singleton.mp hp] at hx
      exact h.not_regions hgr hq (forked_occupies hf hq hx') (forked_regions hf hx)
    · exact hne ((List.mem_singleton.mp hp).trans (List.mem_singleton.mp hq).symm)
  located _ hp := h.located_fork hf hgr hp

end Fork

/-- No step writes into what a process has in the heap. -/
theorem Housed.kept {act : Action} (h : Housed reserved k)
    (hs : guarded (Kernel.Step reserved) Kernel.Granted k act k') {p : ℕ} {x : ℕ × ℕ}
    (hp : p ∈ k.machine.world.order) (hx : Occupies k.machine p x) :
    Heap.PayloadKept k.heap.state.mem k'.heap.state.mem x := by
  have hlive := h.occupied p hp x hx
  obtain ⟨hs, hg⟩ := hs
  cases hs with
  | @process a m w hstep hw =>
    have hidle (hw : w = k.heap) : Heap.PayloadKept k.heap.state.mem w.state.mem x := by
      rw [hw]
      exact AgreeOn.refl _ _ _
    cases a with
    | fork pDir node ptrs => exact (h.heap.requests hg.1 hw).kept x hlive
    | _ => exact hidle hw
  | @heap a w mem hserve hm =>
    obtain ⟨hservable, hspares⟩ := hg
    have hsafe := (Heap.worldInv_serve h.heap hserve hservable).2
    cases a with
    | page size => exact hsafe.1 x hlive
    | plain a =>
      cases a with
      | allocate size => exact hsafe x hlive
      | free ptr =>
        refine hsafe x (hserve.live hlive ?_)
        rintro ⟨⟩
        exact hspares p hp x hx rfl
      | write a b =>
        -- `KeepsPayloads` says nothing of owners that write.
        cases hserve with
        | plain hstep =>
          cases hstep
          exact agreeOn_write8 _ _ (hspares p hp x hx)

variable {window : BitVec 32 → Option ℕ} {c : Computer ℕ (BitVec 32) ℕ UInt8} {act : Action}

/-- Every granted step is one of the computer, and houses the processes. -/
theorem Housed.step (h : Housed reserved k) (hrep : Represents reserved window c k.machine)
    (hs : guarded (Kernel.Step reserved) Kernel.Granted k act k') :
    ∃ c', OwnMemories.Step window c act.op c' ∧ Housed reserved k' ∧
      Represents reserved window c' k'.machine := by
  obtain ⟨hs, hg⟩ := hs
  cases hs with
  | heap hserve hm =>
    have hbeside := hrep.beside hm
    have hsame := (h.served hserve hg.1 hg.2).same hbeside.linked
      ⟨rfl, fun _ => rfl, rfl, rfl, rfl, rfl, rfl, rfl⟩
    exact ⟨c, OwnMemories.Step.stay c, hsame, hbeside⟩
  | @process a m w hstep hw =>
    have hplain (ha : ∀ pDir node ptrs, a ≠ .fork pDir node ptrs) (hgranted : k.machine.Granted reserved a)
        (hw : w = k.heap) : ∃ c', OwnMemories.Step window c a.op c' ∧ Housed reserved ⟨m, w⟩ ∧
          Represents reserved window c' m := by
      obtain ⟨c', hstep', hrep'⟩ := hrep.step ⟨hstep, hgranted⟩
      rw [hw]
      exact ⟨c', hstep', h.same hrep'.linked (sameProcesses h.linked hstep ha), hrep'⟩
    cases a with
    | run eip esp ebp => exact hplain (fun _ _ _ he => nomatch he) hg hw
    | store a b => exact hplain (fun _ _ _ he => nomatch he) trivial hw
    | switchTask => exact hplain (fun _ _ _ he => nomatch he) trivial hw
    | fork pDir node ptrs =>
      obtain ⟨hgrants, hframes⟩ := hg
      have hgr := h.heap.requests hgrants hw
      have hgranted := h.fork_granted hgr hframes
      obtain ⟨c', hstep', hrep'⟩ := hrep.step ⟨hstep, hgranted⟩
      exact ⟨c', hstep', h.forked (h.linked.forked hstep hgranted) hgr, hrep'⟩

end Steps

section Progress

/-- What the requests of a fork return. -/
theorem exists_regions (w : Heap.World) (m : Machine) :
    ∃ pDir ptrs node w', w.requests (forkRequests m) = (regions pDir node ptrs, w') := by
  let tables := List.replicate (tablesNeeded m.paging m.paging.currentPageDirectory 0 1024) (pageSize, true)
  let w₁ := (w.request directorySize true).2
  let w₂ := (w₁.requests tables).2
  obtain ⟨ptrs, hptrs⟩ := w₁.requests_replicate pageSize true
    (tablesNeeded m.paging m.paging.currentPageDirectory 0 1024)
  refine ⟨(w.request directorySize true).1, ptrs, (w₂.request nodeSize false).1,
    (w₂.request nodeSize false).2, ?_⟩
  rw [forkRequests, Heap.World.requests_cons, Heap.World.requests_append, hptrs]
  rfl

theorem Housed.exists_fork (h : Housed reserved k) (hgrants : k.heap.Grants (forkRequests k.machine))
    (hframes : framesNeeded k.machine.paging k.machine.paging.currentPageDirectory 0 1024 ≤
      freeFrames k.machine.paging) :
    ∃ pDir child ptrs k', guarded (Kernel.Step reserved) Kernel.Granted k
        (.process (.fork pDir child ptrs)) k' ∧
      k'.machine.world.order = k.machine.world.order ++ [child] := by
  obtain ⟨pDir, ptrs, child, w, hw⟩ := exists_regions k.heap k.machine
  have hgr := h.heap.requests hgrants hw
  obtain ⟨-, hmapped, hready, hnew, -⟩ := h.fork_granted hgr hframes
  obtain ⟨s', hclone, -⟩ := Paging.clonePageDirectory_clonedInto h.linked.spaces h.linked.current_mem
    hmapped hready hnew
  have hstep : k.machine.Step reserved (.fork pDir child ptrs) _ :=
    .fork hclone (.fork k.machine.world pDir _ child) (fun _ _ => rfl)
  exact ⟨pDir, child, ptrs, _, ⟨.process hstep hw, hgrants, hframes⟩, rfl⟩

end Progress

section Runs

variable {s : Scheduler.State} {node : ℕ} {acts : List Action}

/-- The first process runs in a directory that lies in the heap, as its tables do. -/
structure Installed (reserved : Set ℕ) (k : Kernel) (s : Scheduler.State) (node : ℕ) : Prop where
  started : Started reserved k.machine s node
  reserved : k.HeapReserved reserved
  served : Heap.Served k.heap
  beside : Beside k.machine.paging k.heap.state.heap
  occupied : ∀ x, Occupies k.machine node x → x ∈ k.heap.live
  located : Located k.machine.paging (k.machine.directory node)

theorem Installed.housed (h : Installed reserved k s node) : Housed reserved k := by
  have horder : k.machine.world.order = [node] := by rw [h.started.world]; rfl
  have hnode : ∀ p ∈ k.machine.world.order, p = node := by
    rw [horder]
    exact fun p => List.mem_singleton.mp
  refine ⟨ProcessMemories.Started.linked h.started, h.reserved, Heap.worldInv_served h.served, h.beside, fun p hp => ?_,
    fun p hp q hq hne => absurd ((hnode p hp).trans (hnode q hq).symm) hne, fun p hp => ?_⟩
  · rw [hnode p hp]
    exact h.occupied
  · rw [hnode p hp]
    exact h.located

theorem Installed.run (h : Installed reserved k s node)
    (hr : Run (guarded (Kernel.Step reserved) Kernel.Granted) k acts k') :
    ∃ c, Run (OwnMemories.Step k.machine.window) k.machine.computer (acts.map Action.op) c ∧
      Housed reserved k' ∧ Represents reserved k.machine.window c k'.machine :=
  hr.simulate (R := fun d c => Housed reserved d ∧ Represents reserved k.machine.window c d.machine)
    (fun _ _ _ _ hd hs => hd.1.step hd.2 hs)
    ⟨h.housed, (ProcessMemories.Started.linked h.started).represents h.started.keeps⟩

/-- With the heap behind it each process has a memory of its own, as far as it is shown neither the
heap nor the structures of the kernel, and the processor works in the directory that the kernel has
for the process that runs. -/
theorem kernel_refines (h : Installed reserved k s node)
    (hr : Run (guarded (Kernel.Step reserved) Kernel.Granted) k acts k') :
    ∃ c, Run (OwnMemories.Step k.machine.window) k.machine.computer (acts.map Action.op) c ∧
      c.roster = k'.machine.world.roster ∧
      (∀ p ∈ c.roster.order, ∀ a, Open k.machine.window reserved a →
        c.memories.load k.machine.window p a = k'.machine.loadByte p a) ∧
      Keeps reserved k'.machine ∧ k'.HeapReserved reserved ∧
      let d := k'.machine.directory k'.machine.world.state.currentProcess
      d % pageSize = 0 ∧ k'.machine.world.state.cpu.cr3 =
        (entry k'.machine.paging k'.machine.paging.pageDirectory (d / 0x1000)).frame.toNat * pageSize := by
  obtain ⟨c, hc, hk, hrep⟩ := h.run hr
  obtain ⟨haligned, hphys⟩ := hk.located _ hk.linked.contexts.current
  refine ⟨c, hc, hrep.roster, fun p hp => hrep.loads p ?_, hrep.keeps, hk.reserved, haligned, ?_⟩
  · rwa [hrep.roster] at hp
  · rw [hk.linked.cr3, ← hk.linked.directory_current]
    exact hphys

/-- What a process has in the heap overlaps no other live payload, belongs to no other process,
and is not written into by the heap or by the rest of the kernel. -/
theorem regions_kept (h : Installed reserved k s node)
    (hr : Run (guarded (Kernel.Step reserved) Kernel.Granted) k acts k') :
    ∀ p ∈ k'.machine.world.order, ∀ x, Occupies k'.machine p x →
      (x ∈ k'.heap.live ∧ ∀ y ∈ k'.heap.live, x ≠ y → x.1 + x.2 ≤ y.1 ∨ y.1 + y.2 ≤ x.1) ∧
      (∀ q ∈ k'.machine.world.order, p ≠ q → ¬ Occupies k'.machine q x) ∧
      ∀ act k'', guarded (Kernel.Step reserved) Kernel.Granted k' act k'' →
        Heap.PayloadKept k'.heap.state.mem k''.heap.state.mem x := by
  obtain ⟨-, -, hk, -⟩ := h.run hr
  intro p hp x hx
  have hlive := hk.occupied p hp x hx
  exact ⟨⟨hlive, fun y hy hne => hk.heap.apart.apart hlive hy hne⟩,
    fun q hq hne => hk.separate p hp q hq hne x hx, fun act k'' hs => hk.kept hs hp hx⟩

/-- While the heap grants what a fork requests and frames last, a fork returns. -/
theorem fork_returns (h : Installed reserved k s node)
    (hr : Run (guarded (Kernel.Step reserved) Kernel.Granted) k acts k')
    (hgrants : k'.heap.Grants (forkRequests k'.machine))
    (hframes : framesNeeded k'.machine.paging k'.machine.paging.currentPageDirectory 0 1024 ≤
      freeFrames k'.machine.paging) :
    ∃ pDir child ptrs k'', guarded (Kernel.Step reserved) Kernel.Granted k'
        (.process (.fork pDir child ptrs)) k'' ∧
      k''.machine.world.order = k'.machine.world.order ++ [child] := by
  obtain ⟨-, -, hk, -⟩ := h.run hr
  exact hk.exists_fork hgrants hframes

/-- The heap serves one request after another, as on a kernel without processes. -/
theorem Installed.heap_served (h : Installed reserved k s node)
    (hr : Run (guarded (Kernel.Step reserved) Kernel.Granted) k acts k') : Heap.Served k'.heap := by
  refine hr.invariant (P := fun k => Heap.Served k.heap) (fun k act k' hk hs => ?_) h.served
  obtain ⟨hs, hg⟩ := hs
  cases hs with
  | heap hserve => exact hk.snoc hserve hg.1
  | @process a m w hstep hw =>
    have hidle (hw : w = k.heap) : Heap.Served w := hw ▸ hk
    cases a with
    | fork pDir node ptrs =>
      have hafter := hk.requests hg.1
      rwa [show k.heap.requests (forkRequests k.machine) = _ from hw] at hafter
    | _ => exact hidle hw

/-- The live payloads and the requests of a fork together leave room. -/
def Kernel.HasRoom (k : Kernel) : Prop :=
  Heap.LeavesRoom ((forkRequests k.machine).map Prod.fst ++ k.heap.live.map Prod.snd)
    (Heap.shortage directorySize true)

/-- No request of a fork is larger than that for the directory. -/
theorem grants_fork (hserved : Heap.Served k.heap) (hplaces : k.heap.Places (forkRequests k.machine))
    (hroom : k.HasRoom) : k.heap.Grants (forkRequests k.machine) := by
  refine hserved.grants hplaces (fun r hr => ?_) hroom
  rcases List.mem_cons.mp hr with rfl | hr
  · exact le_rfl
  · rcases List.mem_append.mp hr with hr | hr
    · rw [List.eq_of_mem_replicate hr]
      decide
    · rw [List.mem_singleton.mp hr]
      decide

/-- While the sizes that are live leave room for what a fork requests, the heap grants it. -/
theorem fork_fits (h : Installed reserved k s node)
    (hr : Run (guarded (Kernel.Step reserved) Kernel.Granted) k acts k')
    (hplaces : k'.heap.Places (forkRequests k'.machine)) (hroom : k'.HasRoom)
    (hframes : framesNeeded k'.machine.paging k'.machine.paging.currentPageDirectory 0 1024 ≤
      freeFrames k'.machine.paging) :
    ∃ pDir child ptrs k'', guarded (Kernel.Step reserved) Kernel.Granted k'
        (.process (.fork pDir child ptrs)) k'' ∧
      k''.machine.world.order = k'.machine.world.order ++ [child] := by
  obtain ⟨-, -, hk, -⟩ := h.run hr
  exact hk.exists_fork (grants_fork (h.heap_served hr) hplaces hroom) hframes

end Runs

section FirstProcess
open Heap (World BootLayout Serve Servable Served bootStart)

/-- The first page of the heap, behind the gap. -/
def firstDirectory : ℕ := bootStart + 4096

/-- Tables of the kernel map the heap, and the page of `firstDirectory` has frame 5. -/
def firstPaging : Paging.State where
  frames := fun i => if i = 0 then 0x21 else 0
  frameNumber := 0x1000
  pageDirectory := 0x100000
  currentPageDirectory := firstDirectory
  directories := fun _ =>
    { Paging.PageDirectory.zero with
      pageTables := fun i => if 768 ≤ i ∧ i < 776 then 0x200000 + (i - 768) * pageSize else 0
      physicalAddress := 5 * pageSize }
  pages := fun p =>
    if p = 0x200000 + 4 * 0x81 then { Paging.Page.zero with present := true, rw := true, frame := 5 }
    else Paging.Page.zero
  paging := true
  heapEnabled := true
  memory := fun _ => 0

def firstScheduler : Scheduler.State :=
  { Scheduler.unscheduled with
    currentPageDirectory := firstDirectory
    physicalAddress := fun _ => 5 * pageSize
    cpu := ⟨1, 2, 3, 5 * pageSize⟩ }

def firstMachine : Machine := ⟨Scheduler.booted firstScheduler (bootStart + 12), firstPaging⟩

theorem not_private_first (d i : ℕ) : ¬ Private firstPaging d i := fun h => h.2 rfl

theorem frame_first {p : ℕ} (hp : (firstPaging.pages p).present = true) :
    (firstPaging.pages p).frame = 5 := by
  simp only [firstPaging] at hp ⊢
  split_ifs at hp ⊢
  · rfl
  · cases hp

theorem busy_first {p : ℕ} (hp : (firstPaging.pages p).present = true) :
    Paging.busy firstPaging.frames (firstPaging.pages p).frame.toNat = true := by
  rw [frame_first hp]
  decide

/-- The bytes of frame 5, all that the kernel's tables map. -/
def firstFrame : Set ℕ := {x | x / pageSize = 5}

theorem table_first (d i : ℕ) : (firstPaging.directories d).pageTables i =
    if 768 ≤ i ∧ i < 776 then 0x200000 + (i - 768) * 0x1000 else 0 := rfl

theorem window_first {a : BitVec 32} {x : ℕ} (hx : firstMachine.window a = some x) : x ∈ firstFrame := by
  obtain ⟨⟨-, hpr⟩, he⟩ := Paging.walk_eq_some.mp hx
  have hframe : (entry firstPaging 0x100000 (a.toNat / 0x1000)).frame = 5 := frame_first hpr
  change (entry firstPaging 0x100000 (a.toNat / 0x1000)).frame.toNat * pageSize + _ = x at he
  rw [hframe] at he
  change x / 0x1000 = 5
  change 5 * 0x1000 + a.toNat % 0x1000 = x at he
  omega

/-- The page that `firstDirectory` begins shows them. -/
theorem shown_first {x : ℕ} (hx : x ∈ firstFrame) :
    firstMachine.window (BitVec.ofNat 32 (0xC0081000 + x % 0x1000)) = some x := by
  have hx' : x / 0x1000 = 5 := hx
  have hval : (BitVec.ofNat 32 (0xC0081000 + x % 0x1000)).toNat = 0xC0081000 + x % 0x1000 := by
    rw [BitVec.toNat_ofNat]
    omega
  have hn : (0xC0081000 + x % 0x1000) / 0x1000 = 0xC0081 := by omega
  refine Paging.walk_eq_some.mpr ?_
  rw [hval, hn]
  refine ⟨⟨(by decide : (0x200000 : ℕ) ≠ 0), rfl⟩, ?_⟩
  change 5 * 0x1000 + (0xC0081000 + x % 0x1000) % 0x1000 = x
  omega

theorem firstMachine_started : Started firstFrame firstMachine firstScheduler (bootStart + 12) where
  unscheduled := ⟨rfl, by decide, by decide, rfl⟩
  world := rfl
  current := rfl
  physical := rfl
  spaces :=
    { zeroBusy := by decide
      kernel := fun _ _ _ _ _ => rfl
      isolated := fun d _ =>
        ⟨fun _ _ _ hpr => busy_first hpr, fun n _ _ _ hp => absurd hp (not_private_first d _)⟩
      apart := fun d _ _ _ _ n _ _ _ hp => absurd hp (not_private_first d _)
      distinct := fun d _ n _ _ _ hp => absurd hp (not_private_first d _)
      mapped := fun d _ n _ hp => absurd hp (not_private_first d _) }
  keeps := ⟨fun _ hx => ⟨_, shown_first hx⟩, fun _ _ _ _ _ _ hx => window_first hx⟩

/-- The hole in front of the first directory ends where a page would begin. -/
theorem tight_first : Heap.Tight bootStart (directorySize + 20) [⟨false, 44, 44, bootStart⟩,
    ⟨true, 4040, 4040, bootStart + 44⟩, ⟨false, 8216, 8216, bootStart + 4084⟩] := by
  intro x u hx hu
  simp only [Heap.placed_cons, Heap.placed_nil, List.mem_cons, Prod.mk.injEq] at hx
  rcases hx with ⟨rfl, rfl⟩ | ⟨rfl, rfl⟩ | ⟨rfl, rfl⟩ | hx
  · cases hu
  · decide
  · cases hu
  · cases hx

/-- The heap has granted the first directory and the first node, and another directory can be placed. -/
theorem exists_world : ∃ w : World, Served w ∧
    w.live = [(bootStart + 12, nodeSize), (firstDirectory, directorySize)] ∧
    w.state.heap.startAddress = bootStart ∧ w.state.heap.endAddress = Heap.start + Heap.initialSize ∧
    w.Places [(directorySize, true), (nodeSize, false)] := by
  have hsize : Heap.bootSize = 33030144 := by decide
  obtain ⟨s, hinit, h⟩ := Heap.exists_init
  obtain ⟨s₁, e₁, hplace₁, h₁, -⟩ := BootLayout.page_last (g := 4084) directorySize
    (by simpa using h : BootLayout s ([] ++ [⟨true, Heap.bootSize, Heap.bootSize, bootStart + Heap.span []⟩]))
    (by decide) (by decide) (by decide) (by decide) (by decide)
    (fun _ _ hu => absurd hu List.not_mem_nil)
  have h₁' : BootLayout s₁ ([] ++ ⟨true, 4084, 4084, bootStart⟩ ::
      [⟨false, 8216, 8216, bootStart + 4084⟩, ⟨true, 33017844, 33017844, bootStart + 12300⟩]) := by
    simpa [hsize, directorySize] using h₁
  obtain ⟨s₂, e₂, h₂⟩ := BootLayout.allocate_cut nodeSize h₁' rfl rfl (by decide) (by simp)
  have h₂' : BootLayout s₂ ([⟨false, 44, 44, bootStart⟩, ⟨true, 4040, 4040, bootStart + 44⟩,
      ⟨false, 8216, 8216, bootStart + 4084⟩] ++ [⟨true, 33017844, 33017844, bootStart + Heap.span
        [⟨false, 44, 44, bootStart⟩, ⟨true, 4040, 4040, bootStart + 44⟩,
          ⟨false, 8216, 8216, bootStart + 4084⟩]⟩]) := by
    simpa [Heap.cut, nodeSize, Heap.span] using h₂
  obtain ⟨s₃, e₃, hplace₃, -⟩ := BootLayout.page_last (g := 4072) directorySize h₂'
    (by decide) (by decide) (by decide) (by decide) (by decide) tight_first
  have hpage : Serve ⟨s, []⟩ (.page directorySize) _ := Serve.page (by decide)
  rw [World.request_eq e₁ (by simp)] at hpage
  have hnode := Heap.step_allocate (w := ⟨s₁, [(firstDirectory, directorySize)]⟩) (by decide) e₂ (by simp)
  exact ⟨⟨s₂, _⟩, ⟨_, _, _, _, _, _, hinit, .cons ⟨hpage, hplace₁⟩ (.single ⟨.plain hnode, trivial⟩)⟩,
    rfl, h₂.startAddress, h₂.endAddress, fun _ => hplace₃, fun he => absurd he Bool.false_ne_true, trivial⟩

theorem beside_first {h : Heap.KernelHeap} (hs : h.startAddress = bootStart)
    (he : h.endAddress = Heap.start + Heap.initialSize) : Beside firstPaging h := by
  have hstart : bootStart = 0xC0080000 := by decide
  have hend : Heap.start + Heap.initialSize = 0xC2000000 := by decide
  rw [hstart] at hs
  rw [hend] at he
  refine ⟨by decide, rfl, .inl (by rw [hs]; decide), fun j _ h0 => ?_, fun a hl hh => ?_⟩
  · rw [table_first] at h0 ⊢
    unfold pageSize
    split_ifs at h0 ⊢
    · omega
    · exact absurd rfl h0
  · rw [table_first, if_pos (by omega)]
    omega

theorem located_first : Located firstPaging firstDirectory := ⟨by decide, by decide⟩

theorem tablesNeeded_first : tablesNeeded firstPaging firstDirectory 0 1024 = 0 :=
  List.countP_eq_zero.mpr fun j _ hj => not_private_first _ j (of_decide_eq_true hj)

theorem framesNeeded_first : framesNeeded firstPaging firstDirectory 0 1024 = 0 := by
  refine List.sum_eq_zero fun n hn => ?_
  obtain ⟨j, -, rfl⟩ := List.mem_map.mp hn
  exact if_neg (not_private_first _ j)

theorem forkRequests_first : forkRequests firstMachine = [(directorySize, true), (nodeSize, false)] := by
  have htables : tablesNeeded firstMachine.paging firstMachine.paging.currentPageDirectory 0 1024 = 0 :=
    tablesNeeded_first
  rw [forkRequests, htables]
  rfl

/-- The first process can fork. -/
theorem exists_installed : ∃ k, Installed firstFrame k firstScheduler (bootStart + 12) ∧
    k.heap.Places (forkRequests k.machine) ∧ k.HasRoom ∧
    framesNeeded k.machine.paging k.machine.paging.currentPageDirectory 0 1024 ≤
      freeFrames k.machine.paging := by
  obtain ⟨w, hserved, hlive, hstart, hend, hplaces⟩ := exists_world
  refine ⟨⟨firstMachine, w⟩, ⟨firstMachine_started, fun _ _ _ _ hx => window_first hx, hserved,
    beside_first hstart hend, ?_, located_first⟩,
    ?_, ?_, framesNeeded_first.le.trans (Nat.zero_le _)⟩
  · intro x hx
    rw [hlive]
    cases hx with
    | directory => exact List.mem_cons_of_mem _ List.mem_cons_self
    | table hi ht => exact absurd ht (not_private_first _ _)
    | node => exact List.mem_cons_self
  · dsimp only
    rw [forkRequests_first]
    exact hplaces
  · unfold Kernel.HasRoom
    dsimp only
    rw [forkRequests_first, hlive]
    decide

/-- The first process has forked. -/
theorem exists_child : ∃ (k k' : Kernel) (pDir node : ℕ) (ptrs : List ℕ),
    Installed firstFrame k firstScheduler (bootStart + 12) ∧
    guarded (Kernel.Step firstFrame) Kernel.Granted k (.process (.fork pDir node ptrs)) k' ∧
    k'.machine.world.order = [bootStart + 12, node] := by
  obtain ⟨k, h, hplaces, hroom, hframes⟩ := exists_installed
  obtain ⟨pDir, node, ptrs, k', hstep, horder⟩ :=
    h.housed.exists_fork (grants_fork h.served hplaces hroom) hframes
  refine ⟨k, k', pDir, node, ptrs, h, hstep, ?_⟩
  rw [horder, h.started.world]
  rfl

theorem kernel_refines_fork : ∃ (k k' : Kernel) (node : ℕ) (c : Computer ℕ (BitVec 32) ℕ UInt8),
    k'.machine.world.order = [bootStart + 12, node] ∧
    Run (OwnMemories.Step k.machine.window) k.machine.computer [.join node] c ∧
    ∀ p ∈ c.roster.order, ∀ a, Open k.machine.window firstFrame a →
      c.memories.load k.machine.window p a = k'.machine.loadByte p a := by
  obtain ⟨k, k', pDir, node, ptrs, h, hstep, horder⟩ := exists_child
  obtain ⟨c, hc, -, hloads, -⟩ := kernel_refines h (.single hstep)
  exact ⟨k, k', node, c, horder, hc, hloads⟩

/-- The child has regions of its own. -/
theorem regions_kept_child : ∃ (k : Kernel) (node : ℕ), node ∈ k.machine.world.order ∧
    ∀ q ∈ k.machine.world.order, node ≠ q → ¬ Occupies k.machine q (node, nodeSize) := by
  obtain ⟨k, k', pDir, node, ptrs, h, hstep, horder⟩ := exists_child
  have hnode : node ∈ k'.machine.world.order := by
    rw [horder]
    exact List.mem_cons_of_mem _ List.mem_cons_self
  exact ⟨k', node, hnode, (regions_kept h (.single hstep) node hnode _ .node).2.1⟩

theorem fork_returns_first : ∃ (k k' : Kernel) (act : Action),
    guarded (Kernel.Step firstFrame) Kernel.Granted k act k' ∧
      k'.machine.world.order.length = k.machine.world.order.length + 1 := by
  obtain ⟨k, h, hplaces, hroom, hframes⟩ := exists_installed
  obtain ⟨pDir, node, ptrs, k', hstep, horder⟩ :=
    fork_returns h (.nil k) (grants_fork h.served hplaces hroom) hframes
  exact ⟨k, k', _, hstep, by rw [horder, List.length_append, List.length_singleton]⟩

theorem fork_fits_first : ∃ (k k' : Kernel) (child : ℕ), k.HasRoom ∧
    k'.machine.world.order = k.machine.world.order ++ [child] := by
  obtain ⟨k, h, hplaces, hroom, hframes⟩ := exists_installed
  have hnil : Run (guarded (Kernel.Step firstFrame) Kernel.Granted) k [] k := .nil k
  obtain ⟨pDir, child, ptrs, k', -, horder⟩ := fork_fits h hnil hplaces hroom hframes
  exact ⟨k, k', child, hroom, horder⟩

end FirstProcess

end ExperimentalKernel.KernelRuns
