import ExperimentalKernel.FrameAllocation

/-!
# Cloning page tables and directories

What `clonePageTable` and `clonePageDirectory` do while frames and heap memory
last. A clone only changes frames that were free before, so what was mapped stays
as it was; each copied entry gets a frame of its own.
-/

namespace ExperimentalKernel.Paging
open ByteMemory Function

section Copying

theorem copyWords_agreeOff (k : ℕ) (m : Mem) (src dest : ℕ) :
    AgreeOff m (copyWords m src dest k) dest (dest + 4 * k) := by
  induction k generalizing m src dest with
  | zero => exact AgreeOff.refl m _ _
  | succ k ih =>
    have hhead : AgreeOff m (write32 m dest (read32 m src)) dest (dest + 4 * (k + 1)) :=
      agreeOff_write32 m _ le_rfl (by omega)
    exact hhead.trans ((ih _ _ _).mono (by omega) (by omega))

theorem copyWords_apply (k : ℕ) (m : Mem) {src dest : ℕ}
    (hd : src + 4 * k ≤ dest ∨ dest + 4 * k ≤ src) {o : ℕ} (ho : o < 4 * k) :
    copyWords m src dest k (dest + o) = m (src + o) := by
  induction k generalizing m src dest o with
  | zero => omega
  | succ k ih =>
    rw [copyWords]
    by_cases h4 : o < 4
    · rw [copyWords_agreeOff k _ _ _ (dest + o) (by omega), write32_read32 m src dest h4]
    · have htail : copyWords (write32 m dest (read32 m src)) (src + 4) (dest + 4) k
          (dest + 4 + (o - 4)) = write32 m dest (read32 m src) (src + 4 + (o - 4)) :=
        ih _ (by omega) (by omega)
      have hdest : dest + 4 + (o - 4) = dest + o := by omega
      have hsrc : src + 4 + (o - 4) = src + o := by omega
      rw [hdest, hsrc] at htail
      rw [htail, write32_of_disjoint m _ (by omega)]

theorem copyPagePhysical_of_ne (m : Mem) (f : ℕ) {n x : ℕ} (h : x / pageSize ≠ n) :
    copyPagePhysical m (f * pageSize) (n * pageSize) x = m x := by
  unfold pageSize at *
  exact copyWords_agreeOff 1024 m _ _ x (by omega)

theorem copyPagePhysical_apply (m : Mem) {f n : ℕ} (h : f ≠ n) {o : ℕ} (ho : o < pageSize) :
    copyPagePhysical m (f * pageSize) (n * pageSize) (n * pageSize + o) = m (f * pageSize + o) := by
  unfold pageSize at *
  exact copyWords_apply 1024 m (by omega) (by omega)

end Copying

/-- Only the bitmap, memory and the entries from `lo` up to `hi` differ. -/
structure EntriesOnly (s s' : State) (lo hi : ℕ) : Prop where
  same : ∃ f p m, s' = { s with frames := f, pages := p, memory := m }
  others : ∀ x, x < lo ∨ hi ≤ x → s'.pages x = s.pages x

theorem EntriesOnly.trans {s s' s'' : State} {lo mid hi : ℕ} (h : EntriesOnly s s' lo mid)
    (h' : EntriesOnly s' s'' mid hi) (hl : lo ≤ mid) (hh : mid ≤ hi) : EntriesOnly s s'' lo hi where
  same := by
    obtain ⟨f, p, m, rfl⟩ := h.same
    obtain ⟨f', p', m', rfl⟩ := h'.same
    exact ⟨f', p', m', rfl⟩
  others x hx := by rw [h'.others x (by omega), h.others x (by omega)]

theorem allocFrame_entriesOnly (s : State) (page : ℕ) (isKernel isWriteable : Bool) :
    EntriesOnly s (allocFrame s page isKernel isWriteable).2 page (page + 4) := by
  by_cases h : (s.pages page).frame = 0
  · simp only [allocFrame, h, ↓reduceIte]
    cases getFreeFrame s with
    | none => exact ⟨⟨_, _, _, rfl⟩, fun _ _ => rfl⟩
    | some index => exact ⟨⟨_, _, _, rfl⟩, fun x hx => update_of_ne (by omega) _ _⟩
  · rw [allocFrame_of_ne h]
    exact ⟨⟨_, _, _, rfl⟩, fun _ _ => rfl⟩

theorem cloneEntry_entriesOnly (s : State) (src pTbl i : ℕ) :
    EntriesOnly s (cloneEntry s src pTbl i) (pTbl + 4 * i) (pTbl + 4 * (i + 1)) := by
  unfold cloneEntry cloneEntryWith allocUser
  split
  · exact ⟨⟨_, _, _, rfl⟩, fun _ _ => rfl⟩
  · have h := allocFrame_entriesOnly s (pTbl + 4 * i) false true
    generalize (allocFrame s (pTbl + 4 * i) false true).2 = s₁ at h
    obtain ⟨f, p, m, rfl⟩ := h.same
    refine ⟨⟨_, _, _, rfl⟩, fun x hx => ?_⟩
    rw [← h.others x (by omega)]
    exact update_of_ne (by omega) _ _

theorem cloneEntries_entriesOnly (k : ℕ) (s : State) (src pTbl i : ℕ) :
    EntriesOnly s (cloneEntries s src pTbl i k) (pTbl + 4 * i) (pTbl + 4 * (i + k)) := by
  induction k generalizing s i with
  | zero => exact ⟨⟨_, _, _, rfl⟩, fun _ _ => rfl⟩
  | succ k ih =>
    have htail := ih (cloneEntry s src pTbl i) (i + 1)
    rw [show i + 1 + k = i + (k + 1) by omega] at htail
    exact (cloneEntry_entriesOnly s src pTbl i).trans htail (by omega) (by omega)

theorem clearTable_entriesOnly (s : State) (table : ℕ) :
    EntriesOnly s (s.clearTable table) table (table + pageSize) :=
  ⟨⟨_, _, _, rfl⟩, fun _ hx => if_neg (by omega)⟩

theorem clonePageTable_entriesOnly (s : State) (src pTbl : ℕ) :
    EntriesOnly s (clonePageTable s src pTbl) pTbl (pTbl + pageSize) := by
  have hclear := clearTable_entriesOnly s pTbl
  have hloop := cloneEntries_entriesOnly 1024 (s.clearTable pTbl) src pTbl 0
  change EntriesOnly s (cloneEntries (s.clearTable pTbl) src pTbl 0 1024) _ _
  generalize cloneEntries (s.clearTable pTbl) src pTbl 0 1024 = s' at hloop
  obtain ⟨f, p, m, rfl⟩ := hloop.same
  exact ⟨⟨f, p, m, rfl⟩, fun x hx => (hloop.others x hx).trans (hclear.others x hx)⟩

/-- The number of frames that are free. -/
def freeFrames (s : State) : ℕ :=
  ((Finset.range s.frameNumber).filter fun n => busy s.frames n = false).card

theorem hasFreeFrame_of_pos {s : State} (h : 0 < freeFrames s) : HasFreeFrame s := by
  obtain ⟨n, hn⟩ := Finset.card_pos.mp h
  obtain ⟨hlt, hfree⟩ := Finset.mem_filter.mp hn
  exact ⟨n, Finset.mem_range.mp hlt, hfree⟩

/-- Memory changes in frames that become busy and nowhere else. -/
structure Grown (s s' : State) : Prop where
  frameNumber : s'.frameNumber = s.frameNumber
  bits : BitsKept s s'
  memory : ∀ x, busy s.frames (x / pageSize) = true ∨ busy s'.frames (x / pageSize) = false →
    s'.memory x = s.memory x

theorem Grown.of_eq {s s' : State} (hn : s'.frameNumber = s.frameNumber)
    (hf : s'.frames = s.frames) (hm : s'.memory = s.memory) : Grown s s' where
  frameNumber := hn
  bits n h := by rw [hf, h]
  memory x _ := by rw [hm]

theorem Grown.free_before {s s' : State} (h : Grown s s') {n : ℕ}
    (hn : busy s'.frames n = false) : busy s.frames n = false := by
  by_contra hb
  have := h.bits n (by simpa using hb)
  simp [hn] at this

theorem Grown.trans {s s' s'' : State} (h : Grown s s') (h' : Grown s' s'') : Grown s s'' where
  frameNumber := h'.frameNumber.trans h.frameNumber
  bits := h.bits.trans h'.bits
  memory x hx := by
    rcases hx with hx | hx
    · rw [h'.memory x (.inl (h.bits _ hx)), h.memory x (.inl hx)]
    · rw [h'.memory x (.inr hx), h.memory x (.inr (h'.free_before hx))]

/-- The entry at `q` is the clone of the one at `p`. The frame of a copied entry was
free before; if the frame of `p` was busy, its bytes are there. -/
structure EntryCloned (s s' : State) (p q : ℕ) : Prop where
  skipped : (s.pages p).frame = 0 → s'.pages q = Page.zero
  flags : (s.pages p).frame ≠ 0 → s'.pages q = { s.pages p with frame := (s'.pages q).frame }
  free : (s.pages p).frame ≠ 0 → busy s.frames (s'.pages q).frame.toNat = false
  taken : (s.pages p).frame ≠ 0 → busy s'.frames (s'.pages q).frame.toNat = true
  content : (s.pages p).frame ≠ 0 → busy s.frames (s.pages p).frame.toNat = true →
    ∀ o < pageSize, s'.memory ((s'.pages q).frame.toNat * pageSize + o) =
      s.memory ((s.pages p).frame.toNat * pageSize + o)

theorem frame_offset_div (f : ℕ) {o : ℕ} (ho : o < pageSize) : (f * pageSize + o) / pageSize = f := by
  unfold pageSize at *
  omega

theorem EntryCloned.later {s s' s'' : State} {p q : ℕ} (h : EntryCloned s s' p q)
    (hg : Grown s' s'') (hq : s''.pages q = s'.pages q) : EntryCloned s s'' p q where
  skipped hp := by rw [hq, h.skipped hp]
  flags hp := by rw [hq]; exact h.flags hp
  free hp := by rw [hq]; exact h.free hp
  taken hp := by rw [hq]; exact hg.bits _ (h.taken hp)
  content hp hb o ho := by
    rw [hq, ← h.content hp hb o ho]
    apply hg.memory
    rw [frame_offset_div _ ho]
    exact .inl (h.taken hp)

theorem EntryCloned.earlier {s s' s'' : State} {p q : ℕ} (h : EntryCloned s' s'' p q)
    (hg : Grown s s') (hp : s'.pages p = s.pages p) : EntryCloned s s'' p q where
  skipped h0 := h.skipped (by rw [hp, h0])
  flags h0 := by rw [← hp] at h0 ⊢; exact h.flags h0
  free h0 := by rw [← hp] at h0; exact hg.free_before (h.free h0)
  taken h0 := by rw [← hp] at h0; exact h.taken h0
  content h0 hb o ho := by
    rw [← hp] at h0 hb ⊢
    rw [h.content h0 (hg.bits _ hb) o ho]
    apply hg.memory
    rw [frame_offset_div _ ho]
    exact .inl hb

/-- What one turn of the loop needs and does. -/
structure TurnDone (s s' : State) (p q : ℕ) : Prop where
  grown : Grown s s'
  used : freeFrames s' + (if (s.pages p).frame = 0 then 0 else 1) = freeFrames s
  cloned : EntryCloned s s' p q

/-- The number of clear bits among the first `m`. -/
def clearBits (frames : ℕ → BitVec 32) (m : ℕ) : ℕ :=
  ((Finset.range m).filter fun n => busy frames n = false).card

theorem clearBits_markBusy {frames : ℕ → BitVec 32} {n m : ℕ} (hn : n < m)
    (hfree : busy frames n = false) : clearBits (markBusy frames n) m + 1 = clearBits frames m := by
  have hset : ((Finset.range m).filter fun b => busy (markBusy frames n) b = false) =
      ((Finset.range m).filter fun b => busy frames b = false).erase n := by
    ext b
    simp only [Finset.mem_filter, Finset.mem_range, Finset.mem_erase, busy_markBusy,
      Bool.or_eq_false_iff, decide_eq_false_iff_not]
    constructor
    · exact fun h => ⟨h.2.2, h.1, h.2.1⟩
    · exact fun h => ⟨h.2.1, h.2.2, h.1⟩
  rw [clearBits, clearBits, hset]
  apply Finset.card_erase_add_one
  exact Finset.mem_filter.mpr ⟨Finset.mem_range.mpr hn, hfree⟩

theorem freeFrames_eq (s : State) : freeFrames s = clearBits s.frames s.frameNumber := rfl

theorem freeFrames_markBusy {s s' : State} {n : ℕ} (hn : n < s.frameNumber)
    (hfree : busy s.frames n = false) (hnum : s'.frameNumber = s.frameNumber)
    (hf : s'.frames = markBusy s.frames n) : freeFrames s' + 1 = freeFrames s := by
  rw [freeFrames_eq, freeFrames_eq, hnum, hf]
  exact clearBits_markBusy hn hfree

theorem cloneEntry_spec {s : State} {src pTbl i : ℕ} (hnum : s.frameNumber ≤ 2 ^ 20)
    (hq : s.pages (pTbl + 4 * i) = Page.zero) (hne : src + 4 * i ≠ pTbl + 4 * i)
    (hfree : (s.pages (src + 4 * i)).frame ≠ 0 → 0 < freeFrames s) :
    TurnDone s (cloneEntry s src pTbl i) (src + 4 * i) (pTbl + 4 * i) := by
  by_cases h0 : (s.pages (src + 4 * i)).frame = 0
  · have he : cloneEntry s src pTbl i = s := by simp [cloneEntry, cloneEntryWith, h0]
    rw [he]
    refine ⟨Grown.of_eq rfl rfl rfl, by simp [h0], fun _ => hq, ?_, ?_, ?_, ?_⟩
    all_goals exact fun h => absurd h0 h
  · have hq0 : (s.pages (pTbl + 4 * i)).frame = 0 := by rw [hq]; rfl
    obtain ⟨n, hn, hbusy, ha⟩ := allocFrame_eq hq0 (hasFreeFrame_of_pos (hfree h0)) false true
    have hnat : (BitVec.ofNat 20 n).toNat = n := by
      rw [BitVec.toNat_ofNat]
      exact Nat.mod_eq_of_lt (by omega)
    have he : cloneEntry s src pTbl i = { s with
        frames := markBusy s.frames n
        pages := update s.pages (pTbl + 4 * i)
          { s.pages (src + 4 * i) with frame := BitVec.ofNat 20 n }
        memory := copyPagePhysical s.memory ((s.pages (src + 4 * i)).frame.toNat * pageSize)
          (n * pageSize) } := by
      simp only [cloneEntry, cloneEntryWith, allocUser, h0, ↓reduceIte, ha, State.setPage,
        update_of_ne hne, update_self, allocated, hnat, update_idem]
    have hoff := fun x hx => copyPagePhysical_of_ne s.memory
      (s.pages (src + 4 * i)).frame.toNat (n := n) (x := x) hx
    have hcopy := fun hne o ho => copyPagePhysical_apply s.memory
      (f := (s.pages (src + 4 * i)).frame.toNat) (n := n) hne (o := o) ho
    generalize copyPagePhysical s.memory ((s.pages (src + 4 * i)).frame.toNat * pageSize)
      (n * pageSize) = m at he hoff hcopy
    rw [he]
    refine ⟨⟨rfl, fun b hb => ?_, fun x hx => hoff x ?_⟩, ?_, ?_⟩
    · simp [busy_markBusy, hb]
    · rintro rfl
      simp [busy_markBusy, hbusy] at hx
    · rw [if_neg h0]
      exact freeFrames_markBusy hn hbusy rfl rfl
    · refine ⟨fun h => absurd h h0, fun _ => by simp, fun _ => ?_, fun _ => ?_, fun _ hb o ho => ?_⟩
      · simpa [hnat] using hbusy
      · simp [hnat, busy_markBusy]
      · simp only [update_self, hnat]
        refine hcopy ?_ o ho
        rintro rfl
        simp [hbusy] at hb

/-- How many of the `k` entries from `i` on have a frame. -/
def tableFrames (s : State) (table i k : ℕ) : ℕ :=
  (List.range' i k).countP fun j => (s.pages (table + 4 * j)).frame ≠ 0

structure EntriesDone (s s' : State) (src pTbl i k : ℕ) : Prop where
  grown : Grown s s'
  used : freeFrames s' + tableFrames s src i k = freeFrames s
  cloned : ∀ j, i ≤ j → j < i + k → EntryCloned s s' (src + 4 * j) (pTbl + 4 * j)
  distinct : ∀ j j', i ≤ j → j < j' → j' < i + k → (s.pages (src + 4 * j)).frame ≠ 0 →
    (s.pages (src + 4 * j')).frame ≠ 0 →
    (s'.pages (pTbl + 4 * j)).frame ≠ (s'.pages (pTbl + 4 * j')).frame

/-- The regions of two page tables do not overlap. -/
def Apart (t t' : ℕ) : Prop := t + pageSize ≤ t' ∨ t' + pageSize ≤ t

theorem tableFrames_succ (s : State) (table i k : ℕ) : tableFrames s table i (k + 1) =
    tableFrames s table (i + 1) k + if (s.pages (table + 4 * i)).frame = 0 then 0 else 1 := by
  rw [tableFrames, List.range'_succ, List.countP_cons, tableFrames]
  by_cases h : (s.pages (table + 4 * i)).frame = 0 <;> simp [h]

theorem tableFrames_congr {s s' : State} {table i k : ℕ}
    (h : ∀ j, i ≤ j → j < i + k → s'.pages (table + 4 * j) = s.pages (table + 4 * j)) :
    tableFrames s' table i k = tableFrames s table i k := by
  apply List.countP_congr
  intro j hj
  obtain ⟨h₁, h₂⟩ := List.mem_range'_1.mp hj
  rw [h j h₁ h₂]

/-- The loop of `clonePageTable`. -/
theorem cloneEntries_spec (k : ℕ) {s : State} {src pTbl i : ℕ} (hk : i + k ≤ 1024)
    (hnum : s.frameNumber ≤ 2 ^ 20) (ha : Apart pTbl src)
    (hz : ∀ j, i ≤ j → j < i + k → s.pages (pTbl + 4 * j) = Page.zero)
    (hfree : tableFrames s src i k ≤ freeFrames s) :
    EntriesDone s (cloneEntries s src pTbl i k) src pTbl i k := by
  induction k generalizing s i with
  | zero =>
    refine ⟨Grown.of_eq rfl rfl rfl, rfl, ?_, ?_⟩
    · exact fun j h₁ h₂ => by omega
    · exact fun j j' h₁ h₂ h₃ => by omega
  | succ k ih =>
    unfold Apart pageSize at ha
    rw [tableFrames_succ] at hfree
    have hturn : TurnDone s (cloneEntry s src pTbl i) (src + 4 * i) (pTbl + 4 * i) := by
      refine cloneEntry_spec hnum (hz i le_rfl (by omega)) (by omega) fun h => ?_
      rw [if_neg h] at hfree
      omega
    have hothers := cloneEntry_entriesOnly s src pTbl i
    have hothers' := cloneEntries_entriesOnly k (cloneEntry s src pTbl i) src pTbl (i + 1)
    have hsrc : ∀ j, i + 1 ≤ j → j < i + 1 + k →
        (cloneEntry s src pTbl i).pages (src + 4 * j) = s.pages (src + 4 * j) :=
      fun j h₁ h₂ => hothers.others _ (by omega)
    have hcount := tableFrames_congr hsrc
    have hused := hturn.used
    have htail := ih (s := cloneEntry s src pTbl i) (i := i + 1) (by omega)
      (by rw [hturn.grown.frameNumber]; exact hnum)
      (fun j h₁ h₂ => by rw [hothers.others _ (by omega)]; exact hz j (by omega) (by omega))
      (by rw [hcount]; omega)
    rw [cloneEntries_succ]
    generalize cloneEntry s src pTbl i = s₁ at hturn hsrc hcount hused htail hothers'
    generalize cloneEntries s₁ src pTbl (i + 1) k = s₂ at htail hothers'
    have hhead : s₂.pages (pTbl + 4 * i) = s₁.pages (pTbl + 4 * i) :=
      hothers'.others _ (by omega)
    refine ⟨hturn.grown.trans htail.grown, ?_, fun j h₁ h₂ => ?_,
      fun j j' h₁ h₂ h₃ hj hj' => ?_⟩
    · have := htail.used
      rw [tableFrames_succ]
      omega
    · rcases h₁.eq_or_lt with rfl | hlt
      · exact hturn.cloned.later htail.grown hhead
      · exact (htail.cloned j hlt (by omega)).earlier hturn.grown (hsrc j hlt (by omega))
    · have hj'' : (s₁.pages (src + 4 * j')).frame ≠ 0 := by rw [hsrc j' (by omega) (by omega)]; exact hj'
      rcases h₁.eq_or_lt with rfl | hlt
      · -- the first frame is busy when the second one is found free
        intro heq
        have hbusy := hturn.cloned.taken hj
        have hnot := (htail.cloned j' (by omega) (by omega)).free hj''
        rw [← heq, hhead, hbusy] at hnot
        simp at hnot
      · exact htail.distinct j j' hlt h₂ (by omega)
          (by rw [hsrc j (by omega) (by omega)]; exact hj) hj''

theorem clearTable_inside (s : State) (table : ℕ) {j : ℕ} (h : j < 1024) :
    (s.clearTable table).pages (table + 4 * j) = Page.zero := by
  apply if_pos
  unfold pageSize
  omega

/-- Clearing a table leaves one that lies apart. -/
theorem clearTable_apart (s : State) {pTbl src : ℕ} (ha : Apart pTbl src) {j : ℕ} (hj : j < 1024) :
    (s.clearTable pTbl).pages (src + 4 * j) = s.pages (src + 4 * j) := by
  apply (clearTable_entriesOnly s pTbl).others
  unfold Apart pageSize at *
  omega

theorem clonePageTable_spec {s : State} {src pTbl : ℕ} (hnum : s.frameNumber ≤ 2 ^ 20)
    (ha : Apart pTbl src) (hfree : tableFrames s src 0 1024 ≤ freeFrames s) :
    EntriesDone s (clonePageTable s src pTbl) src pTbl 0 1024 := by
  have hsrc : ∀ j, 0 ≤ j → j < 0 + 1024 →
      (s.clearTable pTbl).pages (src + 4 * j) = s.pages (src + 4 * j) :=
    fun j _ h₂ => clearTable_apart s ha (by omega)
  have hcount := tableFrames_congr hsrc
  have hgrown : Grown s (s.clearTable pTbl) := Grown.of_eq rfl rfl rfl
  have h : EntriesDone (s.clearTable pTbl) (cloneEntries (s.clearTable pTbl) src pTbl 0 1024) src
      pTbl 0 1024 :=
    cloneEntries_spec 1024 le_rfl hnum ha (fun j h₁ h₂ => clearTable_inside s pTbl (by omega))
      (by rw [hcount]; exact hfree)
  change EntriesDone s (cloneEntries (s.clearTable pTbl) src pTbl 0 1024) src pTbl 0 1024
  generalize cloneEntries (s.clearTable pTbl) src pTbl 0 1024 = s' at h
  refine ⟨hgrown.trans h.grown, ?_, fun j h₁ h₂ => ?_, fun j j' h₁ h₂ h₃ hj hj' => ?_⟩
  · have := h.used
    rw [hcount] at this
    exact this
  · exact (h.cloned j h₁ h₂).earlier hgrown (hsrc j h₁ h₂)
  · exact h.distinct j j' h₁ h₂ h₃ (by rw [hsrc j h₁ (by omega)]; exact hj)
      (by rw [hsrc j' (by omega) h₃]; exact hj')

end ExperimentalKernel.Paging
