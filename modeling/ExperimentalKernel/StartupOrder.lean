import ExperimentalKernel.ByteMemory

/-!
# Constructors and destructors

`loader.S` calls the constructors and destructors that the linker collects, and `icxxabi.cpp`
keeps the destructors that constructors register. Its table is a list of at most 128
entries, which `__cxa_finalize(0)` calls from the last to the first, each time again.
-/

namespace ExperimentalKernel.StartupOrder
open ByteMemory

/-- `ATEXIT_MAX_FUNCS`. -/
def atexitMaxFuncs : ℕ := 128

/-- `atexit_func_entry_t`. -/
structure FuncEntry where
  destructorFunc : ℕ
  objPtr : ℕ
  dsoHandle : ℕ
  deriving DecidableEq

/-- `__atexit_funcs` with what memory holds behind it, and `__atexit_func_count`. -/
structure AtExit where
  funcs : ℕ → FuncEntry
  count : ℕ

/-- `__cxa_atexit`. -/
def cxaAtexit (s : AtExit) (e : FuncEntry) : ℤ × AtExit :=
  if s.count ≥ atexitMaxFuncs then (-1, s)
  else (0, ⟨Function.update s.funcs s.count e, s.count + 1⟩)

def registerAll (s : AtExit) (es : List FuncEntry) : AtExit :=
  es.foldl (fun s e => (cxaAtexit s e).2) s

/-- The loop of `__cxa_finalize(0)` from `i` down: the calls it makes. A call of a destructor
may register others, `reg` says which. -/
def finalizeAll (reg : FuncEntry → List FuncEntry) : ℕ → AtExit → List FuncEntry × AtExit
  | 0, s => ([], s)
  | i + 1, s =>
    if (s.funcs i).destructorFunc ≠ 0 then
      let (calls, s₁) := finalizeAll reg i (registerAll s (reg (s.funcs i)))
      (s.funcs i :: calls, s₁)
    else finalizeAll reg i s

/-- The loop for a function `f`, if it ends within `fuel` turns: `i` is unsigned. -/
def finalizeFrom (reg : FuncEntry → List FuncEntry) (f : ℕ) :
    ℕ → ℕ → AtExit → Option (List FuncEntry × AtExit)
  | 0, _, _ => none
  | fuel + 1, i, s =>
    if i ≥ 0 then
      if (s.funcs i).destructorFunc = f then
        let s₁ := registerAll s (reg (s.funcs i))
        let s₂ := { s₁ with
          funcs := Function.update s₁.funcs i { s₁.funcs i with destructorFunc := 0 } }
        (finalizeFrom reg f fuel (sub32 i 1) s₂).map fun r => (s.funcs i :: r.1, r.2)
      else finalizeFrom reg f fuel (sub32 i 1) s
    else some ([], s)

/-- `__cxa_finalize`, if it ends within `fuel` turns. -/
def cxaFinalize (reg : FuncEntry → List FuncEntry) (fuel f : ℕ) (s : AtExit) :
    Option (List FuncEntry × AtExit) :=
  if f = 0 then some (finalizeAll reg s.count s) else finalizeFrom reg f fuel s.count s

inductive Action where
  | register (e : FuncEntry)
  | finalize

/-- The calls that an action makes. -/
def exec (reg : FuncEntry → List FuncEntry) (s : AtExit) : Action → List FuncEntry × AtExit
  | .register e => ([], (cxaAtexit s e).2)
  | .finalize => finalizeAll reg s.count s

def execAll (reg : FuncEntry → List FuncEntry) : AtExit → List Action → List (List FuncEntry) × AtExit
  | s, [] => ([], s)
  | s, a :: as =>
    let (calls, s₁) := exec reg s a
    let (rest, s₂) := execAll reg s₁ as
    (calls :: rest, s₂)

section Lists

/-- A list with room for 128 entries. -/
def keep (l es : List FuncEntry) : List FuncEntry := (l ++ es).take atexitMaxFuncs

/-- The last entry first. -/
def callsOf (l : List FuncEntry) : List FuncEntry := (l.filter (·.destructorFunc ≠ 0)).reverse

/-- The calls of an action on the list, and the list after it. -/
def step (reg : FuncEntry → List FuncEntry) (l : List FuncEntry) :
    Action → List FuncEntry × List FuncEntry
  | .register e => ([], keep l [e])
  | .finalize => (callsOf l, keep l ((callsOf l).flatMap reg))

def steps (reg : FuncEntry → List FuncEntry) :
    List FuncEntry → List Action → List (List FuncEntry) × List FuncEntry
  | l, [] => ([], l)
  | l, a :: as =>
    let (calls, l₁) := step reg l a
    let (rest, l₂) := steps reg l₁ as
    (calls :: rest, l₂)

variable {l : List FuncEntry}

theorem keep_eq (hl : l.length ≤ atexitMaxFuncs) (es : List FuncEntry) :
    keep l es = l ++ es.take (atexitMaxFuncs - l.length) := by
  rw [keep, List.take_append, List.take_of_length_le hl]

theorem keep_nil (hl : l.length ≤ atexitMaxFuncs) : keep l [] = l := by
  rw [keep_eq hl, List.take_nil, List.append_nil]

theorem keep_keep (l es es' : List FuncEntry) : keep (keep l es) es' = keep l (es ++ es') := by
  have hroom : atexitMaxFuncs - min atexitMaxFuncs (l ++ es).length =
      atexitMaxFuncs - (l ++ es).length := by omega
  rw [keep, keep, keep, ← List.append_assoc, List.take_append, List.take_take, min_self,
    List.length_take, hroom]
  exact List.take_append.symm

end Lists

/-- The table holds the list. -/
structure Holds (s : AtExit) (l : List FuncEntry) : Prop where
  count : s.count = l.length
  bounded : l.length ≤ atexitMaxFuncs
  funcs : ∀ i (hi : i < l.length), s.funcs i = l[i]

variable {s : AtExit} {l : List FuncEntry} {reg : FuncEntry → List FuncEntry}

theorem Holds.register (h : Holds s l) (e : FuncEntry) :
    Holds (cxaAtexit s e).2 (keep l [e]) := by
  have hcount := h.count
  rw [cxaAtexit, keep_eq h.bounded]
  by_cases hroom : l.length < atexitMaxFuncs
  · have htake : [e].take (atexitMaxFuncs - l.length) = [e] := by
      apply List.take_of_length_le
      rw [List.length_singleton]
      omega
    rw [if_neg (by omega), htake]
    refine ⟨?_, ?_, fun i hi => ?_⟩
    · rw [List.length_append, hcount]
      rfl
    · rw [List.length_append, List.length_singleton]
      omega
    · rw [List.length_append, List.length_singleton] at hi
      dsimp only
      by_cases hlast : i = l.length
      · subst hlast
        rw [hcount, Function.update_self, List.getElem_append_right le_rfl]
        simp
      · rw [Function.update_of_ne (by omega), h.funcs i (by omega), List.getElem_append_left]
  · rw [if_pos (by omega), Nat.sub_eq_zero_of_le (by omega), List.take_zero, List.append_nil]
    exact h

theorem Holds.registerAll (h : Holds s l) (es : List FuncEntry) :
    Holds (registerAll s es) (keep l es) := by
  induction es generalizing s l with
  | nil =>
    rw [keep_nil h.bounded]
    exact h
  | cons e es ih =>
    have hrest := ih (h.register e)
    rw [keep_keep] at hrest
    exact hrest

/-- From `i` down the entries below are called, the last one first. -/
theorem Holds.finalizeAll (h : Holds s l) (reg : FuncEntry → List FuncEntry) {i : ℕ}
    (hi : i ≤ l.length) :
    ∃ s', finalizeAll reg i s = (callsOf (l.take i), s') ∧
      Holds s' (keep l ((callsOf (l.take i)).flatMap reg)) := by
  induction i generalizing s l with
  | zero =>
    refine ⟨s, rfl, ?_⟩
    rw [List.take_zero]
    exact (keep_nil h.bounded).symm ▸ h
  | succ i ih =>
    have hcalls : callsOf (l.take (i + 1)) =
        (if l[i].destructorFunc ≠ 0 then [l[i]] else []) ++ callsOf (l.take i) := by
      rw [callsOf, List.take_succ_eq_append_getElem hi, List.filter_append, List.reverse_append]
      congr 1
      by_cases h0 : l[i].destructorFunc = 0
      · simp [h0]
      · simp [h0]
    rw [StartupOrder.finalizeAll, h.funcs i hi, hcalls]
    by_cases h0 : l[i].destructorFunc ≠ 0
    · -- what the call registers comes behind the entries that are still to be called
      have hkeep := keep_eq h.bounded (reg l[i])
      have hlen : l.length ≤ (keep l (reg l[i])).length := by
        rw [hkeep, List.length_append]
        omega
      have htake : (keep l (reg l[i])).take i = l.take i := by
        rw [hkeep, List.take_append_of_le_length (by omega)]
      obtain ⟨s', hrun, hs'⟩ := ih (h.registerAll (reg l[i])) (by omega)
      rw [htake, keep_keep] at hs'
      rw [htake] at hrun
      rw [if_pos h0, if_pos h0, hrun]
      exact ⟨s', rfl, hs'⟩
    · rw [if_neg h0, if_neg h0, List.nil_append]
      exact ih h (by omega)

theorem Holds.exec (h : Holds s l) (reg : FuncEntry → List FuncEntry) (a : Action) :
    (exec reg s a).1 = (step reg l a).1 ∧ Holds (exec reg s a).2 (step reg l a).2 := by
  cases a with
  | register e => exact ⟨rfl, h.register e⟩
  | finalize =>
    obtain ⟨s', hrun, hs'⟩ := h.finalizeAll reg le_rfl
    rw [List.take_length] at hrun hs'
    rw [StartupOrder.exec, h.count, hrun]
    exact ⟨rfl, hs'⟩

theorem Holds.execAll (h : Holds s l) (reg : FuncEntry → List FuncEntry) (as : List Action) :
    (execAll reg s as).1 = (steps reg l as).1 ∧ Holds (execAll reg s as).2 (steps reg l as).2 := by
  induction as generalizing s l with
  | nil => exact ⟨rfl, h⟩
  | cons a as ih =>
    obtain ⟨hcalls, hs⟩ := h.exec reg a
    obtain ⟨hrest, hs'⟩ := ih hs
    exact ⟨congrArg₂ List.cons hcalls hrest, hs'⟩

/-- The table before the first constructor. -/
theorem holds_nil (funcs : ℕ → FuncEntry) : Holds ⟨funcs, 0⟩ [] :=
  ⟨rfl, Nat.zero_le _, fun _ hi => absurd hi (Nat.not_lt_zero _)⟩

/-- `i >= 0` never fails. -/
theorem finalizeFrom_none (f fuel : ℕ) (i : ℕ) (s : AtExit) :
    finalizeFrom reg f fuel i s = none := by
  induction fuel generalizing i s with
  | zero => rfl
  | succ fuel ih =>
    rw [finalizeFrom, if_pos (Nat.zero_le i)]
    by_cases hf : (s.funcs i).destructorFunc = f
    · rw [if_pos hf]
      dsimp only
      rw [ih, Option.map_none]
    · rw [if_neg hf, ih]

section Loader

variable {σ : Type*}

/-- The loop of the loader over the constructors from `ebx` on, if it ends within `fuel`
turns: `load` reads a word of memory, `call` is what a function does. -/
def callCtors (load : σ → ℕ → ℕ) (call : ℕ → σ → σ) (endCtors : ℕ) : ℕ → ℕ → σ → Option σ
  | 0, _, _ => none
  | fuel + 1, ebx, s =>
    if ebx < endCtors then callCtors load call endCtors fuel (add32 ebx 4) (call (load s ebx) s)
    else some s

/-- The loop over the destructors, from `ebx` down. -/
def callDtors (load : σ → ℕ → ℕ) (call : ℕ → σ → σ) (startDtors : ℕ) : ℕ → ℕ → σ → Option σ
  | 0, _, _ => none
  | fuel + 1, ebx, s =>
    if ebx > startDtors then
      let ebx := sub32 ebx 4
      callDtors load call startDtors fuel ebx (call (load s ebx) s)
    else some s

def callAll (call : ℕ → σ → σ) (fs : List ℕ) (s : σ) : σ := fs.foldl (fun s f => call f s) s

variable {load : σ → ℕ → ℕ} {call : ℕ → σ → σ} {fs : List ℕ} {s : σ} {start : ℕ}

/-- The words from `start` on are the functions `fs`, whichever functions were called. -/
def Lists (load : σ → ℕ → ℕ) (call : ℕ → σ → σ) (start : ℕ) (fs : List ℕ) (s : σ) : Prop :=
  ∀ gs i (hi : i < fs.length), load (callAll call gs s) (start + 4 * i) = fs[i]

theorem Lists.after (h : Lists load call start fs s) (f : ℕ) :
    Lists load call start fs (call f s) :=
  fun gs i hi => h (f :: gs) i hi

theorem Lists.tail {f : ℕ} (h : Lists load call start (f :: fs) s) :
    Lists load call (start + 4) fs s := by
  intro gs i hi
  have hnext := h gs (i + 1) (Nat.succ_lt_succ hi)
  rw [show start + 4 * (i + 1) = start + 4 + 4 * i by omega] at hnext
  exact hnext

theorem Lists.init {f : ℕ} (h : Lists load call start (fs ++ [f]) s) :
    Lists load call start fs s := by
  intro gs i hi
  have hlt : i < (fs ++ [f]).length := by
    rw [List.length_append]
    omega
  exact (h gs i hlt).trans (List.getElem_append_left hi)

/-- The constructors are called in the order of the words. -/
theorem callCtors_eq (h : Lists load call start fs s) (hfit : start + 4 * fs.length < wordSize) :
    callCtors load call (start + 4 * fs.length) (fs.length + 1) start s =
      some (callAll call fs s) := by
  induction fs generalizing start s with
  | nil =>
    rw [callCtors, List.length_nil, Nat.mul_zero, Nat.add_zero,
      if_neg (lt_irrefl start)]
    rfl
  | cons f fs ih =>
    rw [List.length_cons] at hfit ⊢
    have hend : start + 4 * (fs.length + 1) = start + 4 + 4 * fs.length := by omega
    have hload : load s start = f := h [] 0 (Nat.succ_pos _)
    rw [callCtors, if_pos (by omega), add32_eq (by omega), hload, hend,
      ih (h.tail.after f) (by omega)]
    rfl

/-- The destructors are called from the last word to the first. -/
theorem callDtors_eq (h : Lists load call start fs s) :
    callDtors load call start (fs.length + 1) (start + 4 * fs.length) s =
      some (callAll call fs.reverse s) := by
  induction fs using List.reverseRecOn generalizing s with
  | nil =>
    rw [callDtors, List.length_nil, Nat.mul_zero, Nat.add_zero,
      if_neg (lt_irrefl start)]
    rfl
  | append_singleton fs f ih =>
    rw [List.length_append, List.length_singleton]
    have hsub : sub32 (start + 4 * (fs.length + 1)) 4 = start + 4 * fs.length := by
      rw [sub32_eq (by omega)]
      omega
    have hlt : fs.length < (fs ++ [f]).length := by
      rw [List.length_append, List.length_singleton]
      omega
    have hload : load s (start + 4 * fs.length) = f := by
      rw [show load s _ = _ from h [] fs.length hlt, List.getElem_append_right le_rfl]
      simp
    rw [callDtors, if_pos (by omega)]
    dsimp only
    rw [hsub, hload, ih (h.init.after f), List.reverse_append]
    rfl

end Loader

/-- A constructor registers what `regs` says, and the words of the table are not written. -/
structure Constructing {σ : Type*} (load : σ → ℕ → ℕ) (call : ℕ → σ → σ) (atexit : σ → AtExit)
    (regs : ℕ → List FuncEntry) (start : ℕ) (fs : List ℕ) (s : σ) : Prop where
  empty : (atexit s).count = 0
  words : Lists load call start fs s
  fits : start + 4 * fs.length < wordSize
  registers : ∀ f s, atexit (call f s) = registerAll (atexit s) (regs f)

theorem Constructing.registered {σ : Type*} {load : σ → ℕ → ℕ} {call : ℕ → σ → σ}
    {atexit : σ → AtExit} {regs : ℕ → List FuncEntry} {start : ℕ} {fs : List ℕ} {s : σ}
    (h : Constructing load call atexit regs start fs s) :
    Holds (atexit (callAll call fs s)) (keep [] (fs.flatMap regs)) := by
  have hrun : atexit (callAll call fs s) = registerAll (atexit s) (fs.flatMap regs) := by
    have hreg := h.registers
    clear h
    induction fs generalizing s with
    | nil => rfl
    | cons f fs ih =>
      rw [List.flatMap_cons, registerAll, List.foldl_append]
      exact (ih (s := call f s)).trans (congrArg (registerAll · _) (hreg f s))
  have hempty : atexit s = ⟨(atexit s).funcs, 0⟩ := by
    rw [← h.empty]
  rw [hrun, hempty]
  exact (holds_nil _).registerAll _

/-- From the loader on: the constructors are called in order, and whatever is registered later
and whenever `__cxa_finalize(0)` is called, the calls are those of a list. The loader's own table
of destructors is called backwards. -/
theorem constructors_then_destructors {σ : Type*} {load : σ → ℕ → ℕ} {call : ℕ → σ → σ}
    {atexit : σ → AtExit} {regs : ℕ → List FuncEntry} {start : ℕ} {fs : List ℕ} {s : σ}
    (h : Constructing load call atexit regs start fs s) (reg : FuncEntry → List FuncEntry) :
    callCtors load call (start + 4 * fs.length) (fs.length + 1) start s =
        some (callAll call fs s) ∧
      (∀ as, (execAll reg (atexit (callAll call fs s)) as).1 =
          (steps reg (keep [] (fs.flatMap regs)) as).1 ∧
        ∀ f ≠ 0, ∀ fuel,
          cxaFinalize reg fuel f (execAll reg (atexit (callAll call fs s)) as).2 = none) ∧
      ∀ startDtors gs s', Lists load call startDtors gs s' →
        callDtors load call startDtors (gs.length + 1) (startDtors + 4 * gs.length) s' =
          some (callAll call gs.reverse s') := by
  refine ⟨callCtors_eq h.words h.fits, fun as => ⟨(h.registered.execAll reg as).1, ?_⟩,
    fun _ _ _ hgs => callDtors_eq hgs⟩
  intro f hf fuel
  rw [cxaFinalize, if_neg hf]
  exact finalizeFrom_none f fuel _ _

/-- Two constructors, each registering one destructor. -/
def twoObjects : AtExit := ⟨fun _ => ⟨0, 0, 0⟩, 0⟩

theorem constructors_then_destructors_two :
    callCtors (fun _ a => a) (fun f s => registerAll s [⟨f, f, 0⟩]) 0x108008 3 0x108000 twoObjects =
        some (callAll (fun f s => registerAll s [⟨f, f, 0⟩]) [0x108000, 0x108004] twoObjects) ∧
      (execAll (fun _ => []) (callAll (fun f s => registerAll s [⟨f, f, 0⟩])
        [0x108000, 0x108004] twoObjects) [.finalize]).1 =
          [[⟨0x108004, 0x108004, 0⟩, ⟨0x108000, 0x108000, 0⟩]] := by
  have hwords : Lists (fun _ a => a) (fun f s => registerAll s [⟨f, f, 0⟩]) 0x108000
      [0x108000, 0x108004] twoObjects := by
    intro gs i hi
    match i, hi with
    | 0, _ => rfl
    | 1, _ => rfl
  have h : Constructing (fun _ a => a) (fun f s => registerAll s [⟨f, f, 0⟩]) id
      (fun f => [⟨f, f, 0⟩]) 0x108000 [0x108000, 0x108004] twoObjects :=
    ⟨rfl, hwords, by decide, fun _ _ => rfl⟩
  obtain ⟨hrun, hcalls, -⟩ := constructors_then_destructors h fun _ => []
  exact ⟨hrun, (hcalls [.finalize]).1⟩

end ExperimentalKernel.StartupOrder
