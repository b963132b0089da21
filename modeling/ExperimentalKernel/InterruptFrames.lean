import ExperimentalKernel.InterruptStubs

/-!
# What the handlers receive

The stubs push a zero in the place of an error code, also where the processor has
pushed one. Without an error code of the processor the handler receives the
interrupted state, and the way back leads to it; with one every field behind
`err_code` is off by a word.
-/

namespace ExperimentalKernel.Interrupts
open WordStack

/-- The registers say what was interrupted and why. -/
structure Decoded (vector : ℕ) (errorCode : BitVec 32) (s : Machine) (r : Registers) : Prop where
  intNumber : r.intNumber = BitVec.ofNat 32 vector
  errCode : r.errCode = if pushesErrorCode vector then errorCode else 0
  eip : r.eip = s.eip
  cs : r.cs = s.cs.setWidth 32
  eflags : r.eflags = s.eflags
  general : r.eax = s.eax ∧ r.ecx = s.ecx ∧ r.edx = s.edx ∧ r.ebx = s.ebx ∧ r.ebp = s.ebp ∧
    r.esi = s.esi ∧ r.edi = s.edi
  segments : r.ds.setWidth 16 = s.segment .ds ∧ r.es.setWidth 16 = s.segment .es ∧
    r.fs.setWidth 16 = s.segment .fs ∧ r.gs.setWidth 16 = s.segment .gs

/-- The general registers other than `esp`, and the data segments. -/
structure SameData (s t : Machine) : Prop where
  eax : t.eax = s.eax
  ecx : t.ecx = s.ecx
  edx : t.edx = s.edx
  ebx : t.ebx = s.ebx
  ebp : t.ebp = s.ebp
  esi : t.esi = s.esi
  edi : t.edi = s.edi
  segment : t.segment = s.segment

/-- The machines differ in memory only. -/
structure SameRegisters (s t : Machine) : Prop extends SameData s t where
  esp : t.esp = s.esp
  ss : t.ss = s.ss
  eip : t.eip = s.eip
  cs : t.cs = s.cs
  eflags : t.eflags = s.eflags

/-- The handler was called at `s` and has returned at `t`, its argument unmodified. -/
structure Returned (s t : Machine) : Prop where
  esp : t.esp = s.esp
  cs : t.cs = s.cs
  ss : t.ss = s.ss
  frame : ∀ i < 76, t.memory (s.esp + BitVec.ofNat 32 i) = s.memory (s.esp + BitVec.ofNat 32 i)

/-- An interrupt at `s` reaches a handler with a frame that tells the state, and the exit
sequence resumes it. -/
def Transparent (cpu : Processor) (code : List Instruction) (vector : ℕ) (errorCode : BitVec 32)
    (s : Machine) : Prop :=
  ∃ k handler exit t,
    toCall cpu k code (interrupt cpu vector errorCode s) = some (handler, exit, t) ∧
    Decoded vector errorCode s (registersAt t.memory t.esp) ∧
    ∀ u, Returned t u → ∃ v, toIret cpu exit u = some v ∧ SameRegisters s v

variable (cpu : Processor) {s t u : Machine} {ws : List (BitVec 32)}

/-- What follows the call in both stubs. -/
def exitSequence : List Instruction :=
  [.popSegment .gs, .popSegment .fs, .popSegment .es, .popSegment .ds, .popa, .addEsp 8, .sti,
    .iret]

theorem setWidth_setWidth_selector (sel : BitVec 16) : (sel.setWidth 32).setWidth 16 = sel := by
  rw [BitVec.setWidth_setWidth_of_le sel (by decide), BitVec.setWidth_eq]

theorem selectorWord_selector (old : BitVec 32) (sel : BitVec 16) :
    (selectorWord cpu old sel).setWidth 16 = sel := by
  unfold selectorWord
  split
  · exact setWidth_setWidth_selector sel
  · rw [BitVec.setWidth_append, dif_pos (by decide)]
    exact BitVec.setWidth_eq sel

/-- At `a` lies what a stub with this number saves of `s`, and above it `ws`. -/
def Saved (s : Machine) (number : BitVec 32) (ws : List (BitVec 32)) (m : Memory) (a : BitVec 32) :
    Prop :=
  ∃ gs fs es ds esp : BitVec 32,
    gs.setWidth 16 = s.segment .gs ∧ fs.setWidth 16 = s.segment .fs ∧
    es.setWidth 16 = s.segment .es ∧ ds.setWidth 16 = s.segment .ds ∧
    Stacked m a ([gs, fs, es, ds, s.edi, s.esi, s.ebp, esp, s.ebx, s.edx, s.ecx, s.eax, number, 0]
      ++ ws)

theorem pushSegment_stacked (h : Stacked s.memory s.esp ws) (hl : 4 * (ws.length + 1) ≤ 2 ^ 32)
    (r : Segment) : ∃ w : BitVec 32, w.setWidth 16 = s.segment r ∧
      Stacked (s.pushSegment cpu r).memory (s.pushSegment cpu r).esp (w :: ws) :=
  ⟨_, selectorWord_selector cpu _ _, h.push hl _⟩

theorem pusha_stacked (h : Stacked s.memory s.esp ws) (hl : 4 * (ws.length + 8) ≤ 2 ^ 32) :
    Stacked s.pusha.memory s.pusha.esp
      ([s.edi, s.esi, s.ebp, s.esp, s.ebx, s.edx, s.ecx, s.eax] ++ ws) := by
  have h₄ := (((h.push (by omega) s.eax).push (by simp only [List.length_cons]; omega) s.ecx).push
    (by simp only [List.length_cons]; omega) s.edx).push (by simp only [List.length_cons]; omega) s.ebx
  exact (((h₄.push (by simp only [List.length_cons]; omega) s.esp).push
    (by simp only [List.length_cons]; omega) s.ebp).push
    (by simp only [List.length_cons]; omega) s.esi).push (by simp only [List.length_cons]; omega) s.edi

/-- What the stubs save, before they load the segments of the kernel. -/
def Machine.save (s : Machine) : Machine :=
  (((s.pusha.pushSegment cpu .ds).pushSegment cpu .es).pushSegment cpu .fs).pushSegment cpu .gs

theorem save_stacked (h : Stacked s.memory s.esp ws) (hl : 4 * (ws.length + 12) ≤ 2 ^ 32) :
    ∃ gs fs es ds : BitVec 32,
      gs.setWidth 16 = s.segment .gs ∧ fs.setWidth 16 = s.segment .fs ∧
      es.setWidth 16 = s.segment .es ∧ ds.setWidth 16 = s.segment .ds ∧
      Stacked (s.save cpu).memory (s.save cpu).esp ([gs, fs, es, ds, s.edi, s.esi, s.ebp, s.esp,
        s.ebx, s.edx, s.ecx, s.eax] ++ ws) := by
  have h₀ := pusha_stacked h (by omega)
  obtain ⟨ds, hds, h₁⟩ := pushSegment_stacked cpu h₀
    (by simp only [List.length_cons, List.length_append, List.length_nil]; omega) .ds
  obtain ⟨es, hes, h₂⟩ := pushSegment_stacked cpu h₁
    (by simp only [List.length_cons, List.length_append, List.length_nil]; omega) .es
  obtain ⟨fs, hfs, h₃⟩ := pushSegment_stacked cpu h₂
    (by simp only [List.length_cons, List.length_append, List.length_nil]; omega) .fs
  obtain ⟨gs, hgs, h₄⟩ := pushSegment_stacked cpu h₃
    (by simp only [List.length_cons, List.length_append, List.length_nil]; omega) .gs
  exact ⟨gs, fs, es, ds, hgs, hfs, hes, hds, h₄⟩

theorem save_control (s : Machine) :
    (s.save cpu).esp = s.esp - 48 ∧ (s.save cpu).cs = s.cs ∧ (s.save cpu).ss = s.ss := by
  simp only [Machine.save, Machine.pushSegment, Machine.pusha, Machine.push, and_self, and_true]
  bv_omega

/-- The segments of the kernel. -/
def Machine.kernelSegments (s : Machine) : Machine :=
  exec cpu (exec cpu (exec cpu (exec cpu (exec cpu s (.movAx 0x10)) (.loadSegment .ds))
    (.loadSegment .es)) (.loadSegment .fs)) (.loadSegment .gs)

theorem kernelSegments_control : (s.kernelSegments cpu).esp = s.esp ∧
    (s.kernelSegments cpu).cs = s.cs ∧ (s.kernelSegments cpu).ss = s.ss := ⟨rfl, rfl, rfl⟩

/-- Up to the call a stub pushes the rest of the frame. -/
theorem toCall_entry (number : BitVec 32) (target : Label) (h : Stacked s.memory s.esp ws)
    (hl : ws.length ≤ 1000) :
    ∃ handler t, toCall cpu 15 (entry number target) s = some (handler, exitSequence, t) ∧
      Saved s number ws t.memory t.esp ∧ t.esp = s.esp - 56 ∧ t.cs = s.cs ∧ t.ss = s.ss := by
  obtain ⟨handler, hbody⟩ : ∃ handler, body target = commonStub handler := by
    cases target
    · exact ⟨_, rfl⟩
    · exact ⟨_, rfl⟩
  generalize ha : ((exec cpu s .cli).push 0).push number = a
  have hrun : toCall cpu 15 (entry number target) s =
      some (handler, exitSequence, (a.save cpu).kernelSegments cpu) := by
    rw [← ha, show toCall cpu 15 (entry number target) s = toCall cpu 11 (body target)
      (((exec cpu s .cli).push 0).push number) by rfl, hbody]
    rfl
  have hstub : Stacked a.memory a.esp (number :: 0 :: ws) := by
    rw [← ha]
    exact (Stacked.push h (by omega) 0).push (by simp only [List.length_cons]; omega) number
  have hdata : SameData s a := by
    rw [← ha]
    constructor <;> simp only [exec, Machine.push]
  have hcontrol : a.esp = s.esp - 4 - 4 ∧ a.cs = s.cs ∧ a.ss = s.ss := by
    rw [← ha]
    simp only [exec, Machine.push, and_self]
  obtain ⟨gs, fs, es, ds, hgs, hfs, hes, hds, hstack⟩ :=
    save_stacked cpu hstub (by simp only [List.length_cons]; omega)
  rw [hdata.segment] at hgs hfs hes hds
  rw [hdata.edi, hdata.esi, hdata.ebp, hdata.ebx, hdata.edx, hdata.ecx, hdata.eax] at hstack
  obtain ⟨hesp, hcs, hss⟩ := save_control cpu a
  generalize a.save cpu = b at hrun hstack hesp hcs hss
  refine ⟨handler, _, hrun, ⟨gs, fs, es, ds, a.esp, hgs, hfs, hes, hds, hstack⟩, ?_, ?_, ?_⟩
  · rw [(kernelSegments_control cpu).1, hesp, hcontrol.1]
    bv_omega
  · rw [(kernelSegments_control cpu).2.1, hcs, hcontrol.2.1]
  · rw [(kernelSegments_control cpu).2.2, hss, hcontrol.2.2]

theorem popSegment_eq {w : BitVec 32} (h : Stacked s.memory s.esp (w :: ws)) (r : Segment) :
    s.popSegment r = { s with
      segment := Function.update s.segment r (w.setWidth 16)
      esp := s.esp + 4 } := by
  rw [Machine.popSegment, Machine.top, h.head]
  rfl

theorem popSegment_stacked {w : BitVec 32} (h : Stacked s.memory s.esp (w :: ws)) (r : Segment) :
    Stacked (s.popSegment r).memory (s.popSegment r).esp ws := h.tail

/-- The segment registers come back in the order of the exit sequence. -/
theorem popSegments_eq {gs fs es ds : BitVec 32} {segment : Segment → BitVec 16}
    (h : Stacked s.memory s.esp ([gs, fs, es, ds] ++ ws)) (hgs : gs.setWidth 16 = segment .gs)
    (hfs : fs.setWidth 16 = segment .fs) (hes : es.setWidth 16 = segment .es)
    (hds : ds.setWidth 16 = segment .ds) :
    (((s.popSegment .gs).popSegment .fs).popSegment .es).popSegment .ds =
      { s with segment := segment, esp := s.esp + 16 } := by
  have h₁ := popSegment_stacked h .gs
  have h₂ := popSegment_stacked h₁ .fs
  have h₃ := popSegment_stacked h₂ .es
  have hsegment : Function.update (Function.update (Function.update (Function.update s.segment .gs
      (segment .gs)) .fs (segment .fs)) .es (segment .es)) .ds (segment .ds) = segment := by
    funext r
    cases r <;> rfl
  have hesp : s.esp + 4 + 4 + 4 + 4 = s.esp + 16 := by bv_omega
  rw [popSegment_eq h₃ .ds, popSegment_eq h₂ .es, popSegment_eq h₁ .fs, popSegment_eq h .gs]
  simp only [hgs, hfs, hes, hds, hsegment, hesp]

theorem popa_eq {edi esi ebp esp ebx edx ecx eax : BitVec 32}
    (h : Stacked s.memory s.esp ([edi, esi, ebp, esp, ebx, edx, ecx, eax] ++ ws)) :
    s.popa = { s with
      edi := edi
      esi := esi
      ebp := ebp
      ebx := ebx
      edx := edx
      ecx := ecx
      eax := eax
      esp := s.esp + 32 } := by
  have hesi : read s.memory (s.esp + 4) = esi := h.get 1 rfl
  have hebp : read s.memory (s.esp + 8) = ebp := h.get 2 rfl
  have hebx : read s.memory (s.esp + 16) = ebx := h.get 4 rfl
  have hedx : read s.memory (s.esp + 20) = edx := h.get 5 rfl
  have hecx : read s.memory (s.esp + 24) = ecx := h.get 6 rfl
  have heax : read s.memory (s.esp + 28) = eax := h.get 7 rfl
  rw [Machine.popa, h.head, hesi, hebp, hebx, hedx, hecx, heax]

/-- The way back from what a stub has saved. -/
theorem toIret_exit {number : BitVec 32} (h : Saved s number ws u.memory u.esp) :
    ∃ v : Machine, toIret cpu exitSequence u = some v.iret ∧ SameData s v ∧
      Stacked v.memory v.esp ws ∧ v.esp = u.esp + 56 ∧ v.cs = u.cs ∧ v.ss = u.ss := by
  obtain ⟨gs, fs, es, ds, esp, hgs, hfs, hes, hds, hstacked⟩ := h
  have hsegments := popSegments_eq hstacked hgs hfs hes hds
  have h₁ := popSegment_stacked hstacked .gs
  have h₂ := popSegment_stacked h₁ .fs
  have h₃ := popSegment_stacked h₂ .es
  have h₄ := popSegment_stacked h₃ .ds
  have hesp : u.esp + 16 + 32 + 8 = u.esp + 56 := by bv_omega
  refine ⟨{ u with
    edi := s.edi
    esi := s.esi
    ebp := s.ebp
    ebx := s.ebx
    edx := s.edx
    ecx := s.ecx
    eax := s.eax
    esp := u.esp + 56
    eflags := u.eflags ||| 0x200
    segment := s.segment }, ?_, ⟨rfl, rfl, rfl, rfl, rfl, rfl, rfl, rfl⟩, hstacked.drop 14, rfl, rfl, rfl⟩
  simp only [exitSequence, toIret, exec]
  rw [popa_eq h₄, hsegments]
  simp only [hesp]

/-- The words that the processor pushes, from the last to the first. -/
def processorFrame (vector : ℕ) (errorCode : BitVec 32) (s : Machine) : List (BitVec 32) :=
  (if pushesErrorCode vector then [errorCode] else []) ++
    ([s.eip, s.cs.setWidth 32, s.eflags] ++
      if rpl s.cs = 0 then [] else [s.esp, s.ss.setWidth 32])

theorem enterRing0_stacked (s : Machine) :
    Stacked (s.enterRing0 cpu).memory (s.enterRing0 cpu).esp
      (if rpl s.cs = 0 then [] else [s.esp, s.ss.setWidth 32]) := by
  rw [Machine.enterRing0]
  split
  · exact stacked_nil _ _
  · exact ((stacked_nil _ _).push (by simp) _).push (by simp) _

theorem interrupt_stacked (vector : ℕ) (errorCode : BitVec 32) (s : Machine) :
    Stacked (interrupt cpu vector errorCode s).memory (interrupt cpu vector errorCode s).esp
      (processorFrame vector errorCode s) := by
  have hl : (if rpl s.cs = 0 then [] else [s.esp, s.ss.setWidth 32]).length ≤ 2 := by
    split <;> simp
  have h := enterRing0_stacked cpu s
  rw [processorFrame]
  generalize (if rpl s.cs = 0 then [] else [s.esp, s.ss.setWidth 32]) = ws at hl h
  have h₁ := ((h.push (by omega) s.eflags).push (by simp only [List.length_cons]; omega)
    (s.cs.setWidth 32)).push (by simp only [List.length_cons]; omega) s.eip
  rw [interrupt]
  cases pushesErrorCode vector
  · exact h₁
  · exact h₁.push (by simp only [List.length_cons]; omega) errorCode

theorem interrupt_sameData (vector : ℕ) (errorCode : BitVec 32) (s : Machine) :
    SameData s (interrupt cpu vector errorCode s) ∧ (interrupt cpu vector errorCode s).cs = 8 := by
  refine ⟨?_, rfl⟩
  rw [interrupt, Machine.enterRing0]
  constructor <;> split_ifs <;> simp only [Machine.push]

/-- In ring 0 the frame lies on the interrupted stack. -/
theorem interrupt_ring0 (vector : ℕ) (errorCode : BitVec 32) (h : rpl s.cs = 0) :
    (interrupt cpu vector errorCode s).esp =
        s.esp - (if pushesErrorCode vector then 16 else 12) ∧
      (interrupt cpu vector errorCode s).ss = s.ss := by
  rw [interrupt, Machine.enterRing0, if_pos h]
  cases pushesErrorCode vector
  · refine ⟨?_, rfl⟩
    simp only [Machine.push, Bool.false_eq_true, if_false]
    bv_omega
  · refine ⟨?_, rfl⟩
    simp only [Machine.push, if_true]
    bv_omega

/-- A return that stays in the ring. -/
theorem iret_same {eip cs eflags : BitVec 32}
    (h : Stacked s.memory s.esp ([eip, cs, eflags] ++ ws))
    (hrpl : ¬ rpl s.cs < rpl (cs.setWidth 16)) :
    s.iret = { s with
      eip := eip
      cs := cs.setWidth 16
      eflags := eflags
      esp := s.esp + 12 } := by
  have hcs : read s.memory (s.esp + 4) = cs := h.get 1 rfl
  have heflags : read s.memory (s.esp + 8) = eflags := h.get 2 rfl
  simp only [Machine.iret, h.head, hcs, heflags, if_neg hrpl]

/-- A return to an outer ring. -/
theorem iret_outer {eip cs eflags esp ss : BitVec 32}
    (h : Stacked s.memory s.esp [eip, cs, eflags, esp, ss])
    (hrpl : rpl s.cs < rpl (cs.setWidth 16)) :
    s.iret = { s with
      eip := eip
      cs := cs.setWidth 16
      eflags := eflags
      esp := esp
      ss := ss.setWidth 16 } := by
  have hcs : read s.memory (s.esp + 4) = cs := h.get 1 rfl
  have heflags : read s.memory (s.esp + 8) = eflags := h.get 2 rfl
  have hesp : read s.memory (s.esp + 12) = esp := h.get 3 rfl
  have hss : read s.memory (s.esp + 16) = ss := h.get 4 rfl
  simp only [Machine.iret, h.head, hcs, heflags, hesp, hss, if_pos hrpl]

/-- The fields of the structure are the words of the frame. -/
theorem registersAt_eq {m : Memory} {a : BitVec 32}
    {gs fs es ds edi esi ebp esp ebx edx ecx eax intNumber errCode eip cs eflags : BitVec 32}
    (h : Stacked m a ([gs, fs, es, ds, edi, esi, ebp, esp, ebx, edx, ecx, eax, intNumber, errCode,
      eip, cs, eflags] ++ ws)) :
    registersAt m a = ⟨gs, fs, es, ds, edi, esi, ebp, esp, ebx, edx, ecx, eax, intNumber, errCode,
      eip, cs, eflags, read m (a + 68), read m (a + 72)⟩ := by
  rw [registersAt, h.head]
  congr 1
  · exact h.get 1 rfl
  · exact h.get 2 rfl
  · exact h.get 3 rfl
  · exact h.get 4 rfl
  · exact h.get 5 rfl
  · exact h.get 6 rfl
  · exact h.get 7 rfl
  · exact h.get 8 rfl
  · exact h.get 9 rfl
  · exact h.get 10 rfl
  · exact h.get 11 rfl
  · exact h.get 12 rfl
  · exact h.get 13 rfl
  · exact h.get 14 rfl
  · exact h.get 15 rfl
  · exact h.get 16 rfl

theorem toCall_unique {k l : ℕ} {code : List Instruction} {r r' : Handler × List Instruction × Machine}
    (h : toCall cpu k code s = some r) (h' : toCall cpu l code s = some r') : r = r' := by
  induction k generalizing l code s with
  | zero => cases h
  | succ k ih =>
    cases l with
    | zero => cases h'
    | succ l =>
      cases code with
      | nil => cases h
      | cons i is =>
        cases i with
        | jmp target => exact ih h h'
        | call handler => exact Option.some.inj (h.symm.trans h')
        | iret => cases h
        | _ => exact ih h h'

section Vectors

variable {vector : ℕ} {errorCode number : BitVec 32}

/-- The machine that a stub hands to its handler. -/
structure Delivered (s : Machine) (vector : ℕ) (errorCode number : BitVec 32) (t : Machine) : Prop
    where
  saved : Saved s number (processorFrame vector errorCode s) t.memory t.esp
  cs : t.cs = 8
  ring0 : rpl s.cs = 0 → t.ss = s.ss ∧
    t.esp + 56 = s.esp - (if pushesErrorCode vector then 16 else 12)

theorem Saved.congr {m : Memory} {a : BitVec 32} (h : Saved t number ws m a) (hd : SameData s t) :
    Saved s number ws m a := by
  unfold Saved at h
  rw [hd.segment, hd.edi, hd.esi, hd.ebp, hd.ebx, hd.edx, hd.ecx, hd.eax] at h
  exact h

theorem processorFrame_length (vector : ℕ) (errorCode : BitVec 32) (s : Machine) :
    (processorFrame vector errorCode s).length ≤ 6 := by
  rw [processorFrame]
  split_ifs <;> simp

theorem toCall_delivered (vector : ℕ) (errorCode number : BitVec 32) (target : Label) (s : Machine) :
    ∃ handler t, toCall cpu 15 (entry number target) (interrupt cpu vector errorCode s) =
      some (handler, exitSequence, t) ∧ Delivered s vector errorCode number t := by
  have hlen := processorFrame_length vector errorCode s
  obtain ⟨handler, t, hrun, hsaved, htesp, htcs, htss⟩ := toCall_entry cpu number target
    (interrupt_stacked cpu vector errorCode s) (by omega)
  obtain ⟨hdata, hcs⟩ := interrupt_sameData cpu vector errorCode s
  refine ⟨handler, t, hrun, hsaved.congr hdata, htcs.trans hcs, fun h => ?_⟩
  obtain ⟨hesp, hss⟩ := interrupt_ring0 cpu vector errorCode h
  refine ⟨htss.trans hss, ?_⟩
  rw [htesp, hesp]
  bv_omega

theorem Returned.saved (h : Returned t u) (hs : Saved s number ws t.memory t.esp)
    (hl : ws.length ≤ 5) : Saved s number ws u.memory u.esp := by
  obtain ⟨gs, fs, es, ds, esp, hgs, hfs, hes, hds, hstacked⟩ := hs
  refine ⟨gs, fs, es, ds, esp, hgs, hfs, hes, hds, ?_⟩
  rw [h.esp]
  refine hstacked.congr fun i hi => h.frame i ?_
  simp only [List.length_append, List.length_cons, List.length_nil] at hi
  omega

/-- Without an error code of the processor everything is as it should be. -/
theorem transparent_of_not_pushesErrorCode (target : Label) (h : pushesErrorCode vector = false)
    (errorCode : BitVec 32) (s : Machine) :
    Transparent cpu (entry (BitVec.ofNat 32 vector) target) vector errorCode s := by
  obtain ⟨handler, t, hrun, ht⟩ :=
    toCall_delivered cpu vector errorCode (BitVec.ofNat 32 vector) target s
  have hsaved := ht.saved
  simp only [processorFrame, h, Bool.false_eq_true, if_false, List.nil_append] at hsaved
  refine ⟨15, handler, exitSequence, t, hrun, ?_, fun u hu => ?_⟩
  · obtain ⟨gs, fs, es, ds, esp, hgs, hfs, hes, hds, hstacked⟩ := hsaved
    rw [registersAt_eq hstacked]
    exact ⟨rfl, by rw [h]; rfl, rfl, rfl, rfl, ⟨rfl, rfl, rfl, rfl, rfl, rfl, rfl⟩,
      hds, hes, hfs, hgs⟩
  · obtain ⟨v, hback, hdata, hframe, hesp, hcs, hss⟩ :=
      toIret_exit cpu (hu.saved hsaved (by split_ifs <;> simp))
    have hsel := setWidth_setWidth_selector s.cs
    have hrpl : rpl v.cs = 0 := by
      rw [hcs, hu.cs, ht.cs]
      rfl
    refine ⟨v.iret, hback, ?_⟩
    by_cases h0 : rpl s.cs = 0
    · obtain ⟨htss, htesp⟩ := ht.ring0 h0
      rw [iret_same hframe (by rw [hsel, hrpl, h0]; decide)]
      refine { hdata with esp := ?_, ss := ?_, eip := rfl, cs := hsel, eflags := rfl }
      · change v.esp + 12 = s.esp
        rw [hesp, hu.esp, htesp, h]
        exact BitVec.sub_add_cancel s.esp 12
      · exact hss.trans (hu.ss.trans htss)
    · rw [if_neg h0] at hframe
      have hpos : 0 < rpl s.cs := by bv_omega
      rw [iret_outer hframe (by rw [hsel, hrpl]; exact hpos)]
      exact { hdata with
        esp := rfl
        ss := setWidth_setWidth_selector s.ss
        eip := rfl
        cs := hsel
        eflags := rfl }

/-- With one, every field from `err_code` on holds the word that belongs below it. -/
theorem Delivered.shifted (ht : Delivered s vector errorCode number t)
    (h : pushesErrorCode vector = true) :
    (registersAt t.memory t.esp).errCode = 0 ∧ (registersAt t.memory t.esp).eip = errorCode ∧
      (registersAt t.memory t.esp).cs = s.eip ∧
      (registersAt t.memory t.esp).eflags = s.cs.setWidth 32 := by
  obtain ⟨gs, fs, es, ds, esp, -, -, -, -, hstacked⟩ := ht.saved
  simp only [processorFrame, h, if_true, List.cons_append, List.nil_append] at hstacked
  rw [registersAt_eq hstacked]
  exact ⟨rfl, rfl, rfl, rfl⟩

/-- So no interrupted state is delivered and resumed. -/
theorem not_transparent_of_pushesErrorCode (target : Label) (h : pushesErrorCode vector = true)
    (errorCode number : BitVec 32) (s : Machine) :
    ¬ Transparent cpu (entry number target) vector errorCode s := by
  rintro ⟨k, handler, exit, t, hrun, hdecoded, hresume⟩
  obtain ⟨handler', t', hrun', ht⟩ := toCall_delivered cpu vector errorCode number target s
  obtain ⟨rfl, rfl, rfl⟩ : handler = handler' ∧ exit = exitSequence ∧ t = t' := by
    have hunique := toCall_unique cpu hrun hrun'
    simp only [Prod.mk.injEq] at hunique
    exact hunique
  -- a frame that tells the state would have to be zero, which makes it a frame of ring 0
  have hzero : s.eip = 0 ∧ s.cs = 0 := by
    obtain ⟨herr, heip, hcs, -⟩ := ht.shifted h
    rw [hdecoded.errCode, if_pos h] at herr
    rw [hdecoded.eip, herr] at heip
    rw [hdecoded.cs, heip] at hcs
    refine ⟨heip, ?_⟩
    rw [← setWidth_setWidth_selector s.cs, hcs]
    rfl
  have h0 : rpl s.cs = 0 := by
    rw [hzero.2]
    rfl
  have hsaved := ht.saved
  simp only [processorFrame, h, if_true, List.cons_append, List.nil_append] at hsaved
  obtain ⟨v, hback, -, hframe, hesp, -⟩ := toIret_exit cpu hsaved
  obtain ⟨w, hw, hsame⟩ := hresume t ⟨rfl, rfl, rfl, fun _ _ => rfl⟩
  obtain rfl : v.iret = w := Option.some.inj (hback.symm.trans hw)
  have hrpl : ¬ rpl v.cs < rpl (s.eip.setWidth 16) := by
    rw [hzero.1]
    exact BitVec.not_lt_zero
  have hesp' := hsame.esp
  rw [iret_same hframe hrpl] at hesp'
  have htesp := (ht.ring0 h0).2
  rw [h, if_pos rfl] at htesp
  change v.esp + 12 = s.esp at hesp'
  rw [hesp, htesp] at hesp'
  bv_omega

theorem idt_eq {code : List Instruction} (h : idt vector = some code) :
    ∃ target, code = entry (BitVec.ofNat 32 vector) target := by
  unfold idt at h
  split at h <;> cases h <;> first | exact ⟨.isrStub, rfl⟩ | exact ⟨.irqStub, rfl⟩

/-- An installed vector works exactly if the processor pushes no error code for it. -/
theorem transparent_iff {code : List Instruction} (h : idt vector = some code)
    (errorCode : BitVec 32) (s : Machine) :
    Transparent cpu code vector errorCode s ↔ pushesErrorCode vector = false := by
  obtain ⟨target, rfl⟩ := idt_eq h
  constructor
  · intro ht
    by_contra hpushes
    exact not_transparent_of_pushesErrorCode cpu target (by simpa using hpushes) _ _ _ ht
  · exact fun hpushes => transparent_of_not_pushesErrorCode cpu target hpushes errorCode s

/-- A state of the kernel at its entry point. -/
def atEntry : Machine where
  eax := 0
  ecx := 0
  edx := 0
  ebx := 0
  esp := 0x90000
  ebp := 0
  esi := 0
  edi := 0
  eip := 0x100000
  eflags := 0x202
  cs := 0x08
  ss := 0x10
  segment := fun _ => 0x10
  memory := fun _ => 0

theorem transparent_iff_isr0 : Transparent ⟨true, 0x10, 0⟩ isr0 0 0 atEntry :=
  (transparent_iff _ rfl 0 atEntry).mpr rfl

/-- A page fault by a write to a page that is not present. -/
theorem isr14_not_transparent : ¬ Transparent ⟨true, 0x10, 0⟩ isr14 14 2 atEntry :=
  not_transparent_of_pushesErrorCode _ .isrStub rfl 2 14 atEntry

end Vectors

end ExperimentalKernel.Interrupts
