import ExperimentalKernel.SchedulerProgram
import Mathlib.Data.List.GetD
import Mathlib.Data.List.Nodup

/-!
# The list of processes

`pushBack` appends to the chain of nodes that starts at `first`, and the successor
of a node is the next one or, after the last, the first.
-/

namespace ExperimentalKernel.Scheduler
open ByteMemory Function

/-- The nodes from `first` to `last` are those of `order`. -/
structure ProcessList (s : State) (order : List ℕ) : Prop where
  nodup : order.Nodup
  nonnull : 0 ∉ order
  first : s.first = order.getD 0 0
  last : s.last = order.getD (order.length - 1) 0
  next : ∀ i < order.length, (s.nodes (order.getD i 0)).next = order.getD (i + 1) 0

variable {s s' : State} {order : List ℕ} {data : Process} {node : ℕ}

theorem getD_mem {i : ℕ} (h : i < order.length) : order.getD i 0 ∈ order := by
  rw [List.getD_eq_getElem order 0 h]
  exact List.getElem_mem h

theorem exists_getD {p : ℕ} (h : p ∈ order) : ∃ i < order.length, order.getD i 0 = p := by
  obtain ⟨i, hi, he⟩ := List.getElem_of_mem h
  exact ⟨i, hi, by rw [List.getD_eq_getElem order 0 hi, he]⟩

theorem ProcessList.getD_ne (h : ProcessList s order) {i j : ℕ} (hi : i < order.length)
    (hj : j < order.length) (hne : i ≠ j) : order.getD i 0 ≠ order.getD j 0 := by
  rw [List.getD_eq_getElem order 0 hi, List.getD_eq_getElem order 0 hj]
  exact fun he => hne (h.nodup.getElem_inj_iff.mp he)

theorem ProcessList.last_mem (h : ProcessList s order) (hne : order ≠ []) : s.last ∈ order := by
  rw [h.last]
  have := List.length_pos_of_ne_nil hne
  exact getD_mem (by omega)

theorem ProcessList.first_ne (h : ProcessList s order) (hne : order ≠ []) : s.first ≠ 0 := by
  have hmem : s.first ∈ order := h.first ▸ getD_mem (List.length_pos_of_ne_nil hne)
  exact fun h0 => h.nonnull (h0 ▸ hmem)

/-- The successor of the node at position `i`. -/
theorem ProcessList.nextProcess_eq (h : ProcessList s order) {i : ℕ} (hi : i < order.length)
    (hc : s.currentProcess = order.getD i 0) :
    nextProcess s = order.getD ((i + 1) % order.length) 0 := by
  rw [nextProcess, hc, h.next i hi]
  by_cases hlast : i + 1 = order.length
  · rw [hlast, Nat.mod_self, ← h.first, List.getD_eq_default order 0 le_rfl, if_pos rfl]
  · have hlt : i + 1 < order.length := by omega
    rw [Nat.mod_eq_of_lt hlt]
    refine if_neg fun h0 => h.nonnull ?_
    rw [← h0]
    exact getD_mem hlt

theorem ProcessList.nextProcess_mem (h : ProcessList s order) (hc : s.currentProcess ∈ order) :
    nextProcess s ∈ order := by
  obtain ⟨i, hi, he⟩ := exists_getD hc
  rw [h.nextProcess_eq hi he.symm]
  exact getD_mem (Nat.mod_lt _ (by omega))

/-- Only the links matter. -/
theorem ProcessList.congr (h : ProcessList s order) (hf : s'.first = s.first)
    (hl : s'.last = s.last) (hn : ∀ p, (s'.nodes p).next = (s.nodes p).next) :
    ProcessList s' order :=
  ⟨h.nodup, h.nonnull, hf.trans h.first, hl.trans h.last, fun i hi => (hn _).trans (h.next i hi)⟩

/-- What `pushBack` does to the nodes and to the ends of the list. -/
structure Pushed (s s' : State) (data : Process) (node : ℕ) : Prop where
  added : s'.nodes node = ⟨data, 0⟩
  others : ∀ p, p ≠ node → (s'.nodes p).data = (s.nodes p).data
  first : s'.first = if s.first = 0 then node else s.first
  last : s'.last = node
  linked : s.first ≠ 0 → (s'.nodes s.last).next = node
  links : ∀ p, p ≠ node → p ≠ s.last → (s'.nodes p).next = (s.nodes p).next
  rest : ∃ f l ns, s' = { s with first := f, last := l, nodes := ns }

theorem pushBack_pushed (hn : s.first ≠ 0 → s.last ≠ node) :
    Pushed s (pushBack s data node) data node := by
  by_cases hf : s.first = 0
  · have he : pushBack s data node = { s with
        first := node, last := node, nodes := update s.nodes node ⟨data, 0⟩ } := if_pos hf
    rw [he]
    refine ⟨by simp, fun p hp => ?_, by simp [hf], rfl, fun h => absurd hf h, fun p hp _ => ?_,
      ⟨_, _, _, rfl⟩⟩
    · simp [update_of_ne hp]
    · simp [update_of_ne hp]
  · have hne := hn hf
    have he : pushBack s data node = { s with
        last := node
        nodes := update (update (update s.nodes node ⟨data, 0⟩) s.last
          { s.nodes s.last with next := node }) node ⟨data, 0⟩ } := by
      simp [pushBack, hf, State.setNode, update_of_ne hne, update_of_ne (Ne.symm hne)]
    rw [he]
    refine ⟨by simp, fun p hp => ?_, by simp [hf], rfl, fun _ => ?_, fun p hp hl => ?_,
      ⟨_, _, _, rfl⟩⟩
    · by_cases hl : p = s.last
      · subst hl
        simp [update_of_ne hp]
      · simp [update_of_ne hp, update_of_ne hl]
    · simp [update_of_ne hne]
    · simp [update_of_ne hp, update_of_ne hl]

/-- `pushBack` appends. -/
theorem ProcessList.pushed (h : ProcessList s order) (hp : Pushed s s' data node)
    (hnode : node ≠ 0) (hfresh : node ∉ order) : ProcessList s' (order ++ [node]) := by
  have hlen : (order ++ [node]).length = order.length + 1 := by simp
  have hnew : (order ++ [node]).getD order.length 0 = node := by
    rw [List.getD_append_right _ _ _ _ le_rfl]
    simp
  have hold : ∀ i < order.length, (order ++ [node]).getD i 0 = order.getD i 0 :=
    fun i hi => List.getD_append _ _ _ _ hi
  constructor
  · exact List.nodup_append.mpr ⟨h.nodup, List.nodup_singleton node, by
      intro a ha b hb
      obtain rfl := List.mem_singleton.mp hb
      exact fun he => hfresh (he ▸ ha)⟩
  · simp [h.nonnull, Ne.symm hnode]
  · rw [hp.first]
    by_cases hnil : order = []
    · simp [h.first, hnil]
    · rw [if_neg (h.first_ne hnil), hold 0 (List.length_pos_of_ne_nil hnil), h.first]
  · rw [hp.last, hlen, Nat.add_sub_cancel, hnew]
  · intro i hi
    rw [hlen] at hi
    by_cases hil : i = order.length
    · rw [hil, hnew, hp.added, List.getD_eq_default _ _ (by omega)]
    · have hlt : i < order.length := by omega
      have hne : order.getD i 0 ≠ node := fun he => hfresh (he ▸ getD_mem hlt)
      rw [hold i hlt]
      by_cases hlast : i + 1 = order.length
      · have hsl : s.last = order.getD i 0 := by rw [h.last, ← hlast, Nat.add_sub_cancel]
        have hnil : order ≠ [] := List.ne_nil_of_length_pos (by omega)
        rw [hlast, hnew, ← hsl]
        exact hp.linked (h.first_ne hnil)
      · have hsl : order.getD i 0 ≠ s.last := by
          rw [h.last]
          exact h.getD_ne hlt (by omega) (by omega)
        rw [hold (i + 1) (by omega), hp.links _ hne hsl, h.next i hlt]

end ExperimentalKernel.Scheduler
