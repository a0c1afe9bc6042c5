/-
Module: Chaotix.Proofs.ExecArguments
Layer: Proofs
Purpose: What `sys_execve` pushes on the initial stack. As long as the strides of the strings fit, all pushes
  are inside the stack, and the finished stack decodes to the arguments. The room check looks at the size of a
  string and the stack pointer moves by the next power of two, and the difference in the check wraps: a string
  that passes the check with a stride that does not fit is written outside the stack.
Imports: Mathlib.Tactic, Chaotix.Lib.ByteMem, Chaotix.Kernel.ExecStack
Trusted boundary: none
Main exports: StackRegion, AllInside, StridesFit, StackDecodes, argument_pushes_inside_iff, stack_decodes
-/
import Mathlib.Tactic
import Chaotix.Lib.ByteMem
import Chaotix.Kernel.ExecStack

namespace Chaotix

/-! ### What the claims are about -/

/-- The stack that `sys_execve` maps: whole pages below the kernel, with a page of nothing below. -/
structure StackRegion (stackBase : Nat) : Prop where
  aligned : stackBase % PAGE_SIZE = 0
  low : PAGE_SIZE ≤ stackBase
  high : stackBase + STACK_SIZE ≤ KERNEL_VADDR

/-- The address is inside the stack. -/
def InStack (stackBase a : Nat) : Prop := stackBase ≤ a ∧ a < stackBase + STACK_SIZE

/-- Every byte that has been pushed is inside the stack. -/
def AllInside (stackBase : Nat) (s : UserStack) : Prop := ∀ w ∈ s.writes, InStack stackBase w

/-- The bytes of the strings, of the two arrays with their null pointers, and of the frame. -/
def argumentBytes (argv envp : List CString) : Nat :=
  (argv.map CString.size).sum + (envp.map CString.size).sum + 4 * (argv.length + 1) + 4 * (envp.length + 1) + 16

/-- Every push is inside the stack, and arguments that do not fit are refused. -/
def ArgumentsInside (stackBase : Nat) (argv envp : List CString) (r : Except Errno Unit) (t : UserStack) : Prop :=
  AllInside stackBase t ∧ (r = .ok () → argumentBytes argv envp ≤ STACK_SIZE)

/-- Of strings of these sizes, pushed one after the other into so much room, each one that passes the check of
    `push_strings` has a stride of at least its size that fits into what is left. -/
def StridesFit (stackBase : Nat) : Nat → List Nat → Prop
  | _, [] => True
  | room, size :: sizes =>
      ¬wordSub (stackBase + room) size < stackBase →
        size ≤ 2 ^ 31 ∧ nextPowerOfTwo size ≤ room ∧ StridesFit stackBase (room - nextPowerOfTwo size) sizes

/-- The sizes of the strings that `push_strings` comes to when the pointer lists can be allocated or not. -/
def pushedSizes (envpAllocated argvAllocated : Bool) (envp argv : List CString) : List Nat :=
  if envp.length ≠ 0 ∧ envpAllocated = false then []
  else envp.map CString.size ++ if argv.length ≠ 0 ∧ argvAllocated = false then [] else argv.map CString.size

/-- The condition on the arguments: the size of each block of copies is a word, and the strides fit. Where there
    is no memory, nothing is pushed. -/
def ArgumentsFit (stackBase : Nat) (memory : ExecMemory) (argv envp : List CString) : Prop :=
  argv.length = 0 ∨ memory.argvCopy = true →
    (argv.map CString.size).sum < wordSize ∧
      (envp.length = 0 ∨ memory.envpCopy = true →
        (envp.map CString.size).sum < wordSize ∧
          StridesFit stackBase STACK_SIZE (pushedSizes memory.envpPtrs memory.argvPtrs envp argv))

/-- At an address stand pointers to copies of the strings, each with its zero, and then a null pointer. -/
structure DecodesTo (mem : Nat → UInt8) (array : Nat) (addrs : List Nat) (strs : List CString) : Prop where
  length : addrs.length = strs.length
  pointers : ∀ i (hi : i < addrs.length), readWord mem (array + 4 * i) = addrs[i]
  null : readWord mem (array + 4 * strs.length) = 0
  strings : ∀ i (hi : i < addrs.length) (hi' : i < strs.length), BytesAt mem addrs[i] (strs[i].chars ++ [0])

/-- The parts of the stack: the frame, the two arrays, and the copies of the strings, each with where it
    starts and how long it is. -/
def stackParts (sp userArgv userEnvp : Nat) (argvAddrs envpAddrs : List Nat) (argv envp : List CString) :
    List (Nat × Nat) :=
  (sp, 16) :: (userArgv, 4 * (argv.length + 1)) :: (userEnvp, 4 * (envp.length + 1)) ::
    (argvAddrs.zip (argv.map CString.size) ++ envpAddrs.zip (envp.map CString.size))

/-- The finished stack, as `_start` reads it. -/
structure StackDecodes (stackBase : Nat) (t : UserStack) (argv envp : List CString) : Prop where
  returnAddress : readWord t.mem t.sp = 0
  argc : readWord t.mem (t.sp + 4) = argv.length
  aligned : (t.sp + 16) % 16 = 0
  arrays : ∃ argvAddrs envpAddrs, DecodesTo t.mem (readWord t.mem (t.sp + 8)) argvAddrs argv ∧
    DecodesTo t.mem (readWord t.mem (t.sp + 12)) envpAddrs envp ∧
    (∀ part ∈ stackParts t.sp (readWord t.mem (t.sp + 8)) (readWord t.mem (t.sp + 12)) argvAddrs envpAddrs argv envp,
      stackBase ≤ part.1 ∧ part.1 + part.2 ≤ stackBase + STACK_SIZE) ∧
    (stackParts t.sp (readWord t.mem (t.sp + 8)) (readWord t.mem (t.sp + 12)) argvAddrs envpAddrs argv
      envp).Pairwise fun part part' => part.1 + part.2 ≤ part'.1 ∨ part'.1 + part'.2 ≤ part.1

/-! ### Copies -/

/-- The strings are in a block one after the other, each from its offset on. -/
structure Copied (strs : List CString) (list : StringList) : Prop where
  length : list.elements.length = strs.length
  string : ∀ i (hi : i < list.elements.length) (hi' : i < strs.length),
    cStringAt list.buf list.elements[i] = strs[i].chars
  small : ∀ str ∈ strs, str.size < wordSize

theorem strlcpyBytes_eq (str : CString) : strlcpyBytes str.chars str.size = str.chars ++ [0] := by
  rw [strlcpyBytes, CString.size, Nat.add_sub_cancel, List.take_length]

/-- Reading a string that has been written, whatever stands behind it. -/
theorem cStringAt_append (buf : List UInt8) (str : CString) (rest : List UInt8) :
    cStringAt (buf ++ (str.chars ++ [0]) ++ rest) buf.length = str.chars := by
  rw [cStringAt, List.append_assoc, List.drop_left, List.append_assoc]
  have hall : ∀ c ∈ str.chars, (c != 0) = true := fun c hc => by simpa using str.noNul c hc
  rw [List.takeWhile_append_of_pos hall]
  simp

theorem stringListCopy_spec {blockSize : Nat} (hblock : blockSize < wordSize) {strs : List CString}
    {buf : List UInt8} {elements : List Nat} {list : StringList}
    (h : stringListCopy blockSize strs buf elements = .ok list) :
    (∃ rest offsets, list.buf = buf ++ rest ∧ list.elements = elements ++ offsets ∧
      offsets.length = strs.length ∧
      ∀ i (hi : i < offsets.length) (hi' : i < strs.length), cStringAt list.buf offsets[i] = strs[i].chars) ∧
      ∀ str ∈ strs, str.size < wordSize := by
  induction strs generalizing buf elements with
  | nil =>
      obtain rfl : _ = list := Except.ok.inj h
      exact ⟨⟨[], [], by simp, by simp, rfl, by simp⟩, by simp⟩
  | cons str strs ih =>
      rw [stringListCopy] at h
      split_ifs at h with hroom
      obtain ⟨⟨rest, offsets, hbuf, helements, hlength, hstrings⟩, hsmall⟩ := ih h
      rw [strlcpyBytes_eq] at hbuf
      constructor
      · refine ⟨(str.chars ++ [0]) ++ rest, buf.length :: offsets, ?_, ?_, by simp [hlength], ?_⟩
        · rw [hbuf, List.append_assoc]
        · rw [helements, List.append_assoc, List.singleton_append]
        · intro i hi hi'
          cases i with
          | zero =>
              rw [hbuf]
              exact cStringAt_append buf str rest
          | succ i =>
              exact hstrings i (Nat.lt_of_succ_lt_succ hi) (Nat.lt_of_succ_lt_succ hi')
      · intro str' hstr'
        rcases List.mem_cons.1 hstr' with rfl | hstr'
        · omega
        · exact hsmall str' hstr'

/-- `string_list_create` copies all strings, or fails. -/
theorem stringListCreate_spec {strs : List CString} {allocated : Bool} {list : StringList}
    (h : stringListCreate strs allocated = .ok (.ok list)) : Copied strs list := by
  unfold stringListCreate at h
  split_ifs at h with hnone hmemory
  · obtain rfl := Except.ok.inj (Except.ok.inj h)
    have hnil : strs = [] := List.length_eq_zero_iff.1 hnone
    exact ⟨by simp [hnil], by simp, by simp [hnil]⟩
  · cases Except.ok.inj h
  · cases hcopy : stringListCopy ((strs.map CString.size).sum % wordSize) strs [] [] with
    | error e => simp [hcopy, Except.map] at h
    | ok list' =>
        simp only [hcopy, Except.map, Except.ok.injEq] at h
        subst h
        have hblock : (strs.map CString.size).sum % wordSize < wordSize := Nat.mod_lt _ (by decide)
        obtain ⟨⟨rest, offsets, hbuf, helements, hlength, hstrings⟩, hsmall⟩ := stringListCopy_spec hblock hcopy
        rw [List.nil_append] at helements
        exact ⟨by rw [helements, hlength], by simpa only [helements] using hstrings, hsmall⟩

/-! ### Strides -/

/-- The next power of two of a size up to `2 ^ 31` is at least the size, and not above `2 ^ 31`. -/
theorem nextPowerOfTwo_bounds {x : Nat} (hpos : 0 < x) (hx : x ≤ 2 ^ 31) :
    x ≤ nextPowerOfTwo x ∧ nextPowerOfTwo x ≤ 2 ^ 31 := by
  unfold nextPowerOfTwo
  split_ifs with hone
  · omega
  · have hne : x - 1 ≠ 0 := by omega
    have hlog : Nat.log2 (x - 1) < 31 := (Nat.log2_lt hne).2 (by omega)
    have hlt : x - 1 < 2 ^ (Nat.log2 (x - 1) + 1) := (Nat.log2_lt hne).1 (Nat.lt_succ_self _)
    have hvalue : ((wordSize - 1) >>> clz (x - 1) + 1) % wordSize = 2 ^ (Nat.log2 (x - 1) + 1) := by
      unfold clz
      generalize Nat.log2 (x - 1) = k at hlog
      interval_cases k <;> rfl
    rw [hvalue]
    exact ⟨by omega, Nat.pow_le_pow_right (by decide) hlog⟩

/-- Above `2 ^ 31` the shift loses everything. -/
theorem nextPowerOfTwo_large {x : Nat} (hx : 2 ^ 31 < x) (hword : x < wordSize) : nextPowerOfTwo x = 0 := by
  have hne : x - 1 ≠ 0 := by omega
  have hlog : Nat.log2 (x - 1) = 31 := by
    have hlt : Nat.log2 (x - 1) < 32 := (Nat.log2_lt hne).2 (by simp only [wordSize] at hword; omega)
    have hge : ¬Nat.log2 (x - 1) < 31 := fun h => by
      have hlow := (Nat.log2_lt hne).1 h
      omega
    omega
  rw [nextPowerOfTwo, if_neg (by omega), clz, hlog]
  rfl

/-- A string that passes the check and whose stride does not fit has a byte outside the stack. -/
theorem stride_outside {stackBase sp size : Nat} (region : StackRegion stackBase) (hlow : stackBase ≤ sp)
    (hhigh : sp ≤ stackBase + STACK_SIZE) (hpos : 0 < size) (hword : size < wordSize)
    (hnot : ¬(size ≤ 2 ^ 31 ∧ nextPowerOfTwo size ≤ sp - stackBase)) :
    ∃ i, i < size ∧ ¬InStack stackBase ((wordSub sp (nextPowerOfTwo size) + i) % wordSize) := by
  have hbase := region.low
  have htop := region.high
  simp only [PAGE_SIZE, STACK_SIZE, KERNEL_VADDR, wordSize] at *
  by_cases hsize : size ≤ 2 ^ 31
  · have hbounds := nextPowerOfTwo_bounds hpos hsize
    have hroom : sp - stackBase < nextPowerOfTwo size := by
      by_contra h
      exact hnot ⟨hsize, by omega⟩
    refine ⟨0, hpos, ?_⟩
    simp only [InStack, wordSub, STACK_SIZE, wordSize]
    omega
  · refine ⟨STACK_SIZE, by simp only [STACK_SIZE]; omega, ?_⟩
    rw [nextPowerOfTwo_large (by omega) (by simp only [wordSize]; omega)]
    simp only [InStack, wordSub, STACK_SIZE, wordSize]
    omega

/-! ### The stack along the pushes -/

section Pushes

variable {stackBase : Nat} {s : UserStack} {objs : List (Nat × List UInt8)}

/-- Everything so far is inside, and the objects stand above the stack pointer. -/
structure Pushed (stackBase : Nat) (s : UserStack) (objs : List (Nat × List UInt8)) : Prop where
  low : stackBase ≤ s.sp
  high : s.sp ≤ stackBase + STACK_SIZE
  objects : Stacked s.mem s.sp (stackBase + STACK_SIZE) objs
  inside : AllInside stackBase s

theorem storeAt_eq {mem : Nat → UInt8} {a : Nat} {bs : List UInt8} (h : a + bs.length ≤ wordSize) :
    storeAt mem a bs = writeBytes mem a bs :=
  if_pos h

/-- The bytes of a push below the stack pointer are inside. -/
theorem Pushed.pushAt_inside (region : StackRegion stackBase) (pushed : Pushed stackBase s objs) {sp : Nat}
    {bs : List UInt8} (hlow : stackBase ≤ sp) (hfits : sp + bs.length ≤ s.sp) :
    AllInside stackBase (s.pushAt sp bs) := by
  intro w hw
  rcases List.mem_append.1 hw with hw | hw
  · exact pushed.inside w hw
  · obtain ⟨i, hi, rfl⟩ := List.mem_map.1 hw
    have hlt := List.mem_range.1 hi
    have htop := pushed.high
    have hmax := region.high
    simp only [InStack, STACK_SIZE, KERNEL_VADDR, wordSize] at *
    omega

/-- A new object. -/
theorem Pushed.push (region : StackRegion stackBase) (pushed : Pushed stackBase s objs) {sp : Nat}
    {bs : List UInt8} (hlow : stackBase ≤ sp) (hfits : sp + bs.length ≤ s.sp) :
    Pushed stackBase (s.pushAt sp bs) ((sp, bs) :: objs) := by
  have hhigh := pushed.high
  have hmax := region.high
  refine ⟨hlow, by simp only [UserStack.pushAt]; omega, ?_, pushed.pushAt_inside region hlow hfits⟩
  change Stacked (storeAt s.mem sp bs) sp _ _
  rw [storeAt_eq (by simp only [STACK_SIZE, KERNEL_VADDR, wordSize] at *; omega)]
  exact pushed.objects.push hhigh hfits

/-- The object at the stack pointer grows. -/
theorem Pushed.extend (region : StackRegion stackBase) {cs : List UInt8}
    (pushed : Pushed stackBase s ((s.sp, cs) :: objs)) {sp : Nat} {bs : List UInt8} (hlow : stackBase ≤ sp)
    (hfits : sp + bs.length = s.sp) : Pushed stackBase (s.pushAt sp bs) ((sp, bs ++ cs) :: objs) := by
  have hhigh := pushed.high
  have hmax := region.high
  refine ⟨hlow, by simp only [UserStack.pushAt]; omega, ?_, pushed.pushAt_inside region hlow hfits.le⟩
  change Stacked (storeAt s.mem sp bs) sp _ _
  rw [storeAt_eq (by simp only [STACK_SIZE, KERNEL_VADDR, wordSize] at *; omega)]
  exact pushed.objects.extend hfits

/-- What has been written stays recorded. -/
def Records (s t : UserStack) : Prop := ∀ w ∈ s.writes, w ∈ t.writes

theorem Records.refl (s : UserStack) : Records s s := fun _ hw => hw

theorem Records.trans {t u : UserStack} (h : Records s t) (h' : Records t u) : Records s u :=
  fun w hw => h' w (h w hw)

theorem records_pushAt (s : UserStack) (sp : Nat) (bs : List UInt8) : Records s (s.pushAt sp bs) :=
  fun _ hw => List.mem_append_left _ hw

theorem pushValue_records (stackBase value : Nat) (s : UserStack) :
    Yields (pushValue stackBase value) s fun _ t => Records s t := by
  unfold pushValue
  rw [yields_bind, yields_get]
  split_ifs
  · exact .refl s
  · exact records_pushAt s _ _

theorem pushPtrs_records (stackBase : Nat) (ptrs : List Nat) (s : UserStack) :
    Yields (pushPtrs stackBase ptrs) s fun _ t => Records s t := by
  induction ptrs generalizing s with
  | nil => exact .refl s
  | cons ptr ptrs ih =>
      rw [pushPtrs, yields_bind]
      apply (pushValue_records stackBase ptr s).mono
      intro r t hrecords
      cases r with
      | error e => exact hrecords
      | ok _ => exact (ih t).mono fun _ _ h => hrecords.trans h

theorem pushArray_records (stackBase : Nat) (ptrs : List Nat) (s : UserStack) :
    Yields (pushArray stackBase ptrs) s fun _ t => Records s t := by
  rw [pushArray, yields_bind]
  apply (pushValue_records stackBase 0 s).mono
  intro r t hrecords
  cases r with
  | error e => exact hrecords
  | ok _ =>
      simp only
      rw [yields_bind]
      apply (pushPtrs_records stackBase ptrs t).mono
      intro r u hrecords'
      cases r with
      | error e => exact hrecords.trans hrecords'
      | ok _ => exact hrecords.trans hrecords'

theorem pushFrame_records (stackBase argc : Nat) (envpPtrs argvPtrs : List Nat) (s : UserStack) :
    Yields (pushFrame stackBase argc envpPtrs argvPtrs) s fun _ t => Records s t := by
  rw [pushFrame, yields_bind]
  apply (pushArray_records stackBase envpPtrs s).mono
  intro r t hrecords
  cases r with
  | error e => exact hrecords
  | ok userEnvp =>
      simp only
      rw [yields_bind]
      apply (pushArray_records stackBase argvPtrs t).mono
      intro r u hrecords'
      cases r with
      | error e => exact hrecords.trans hrecords'
      | ok userArgv =>
          simp only
          rw [yields_bind, yields_modify]
          exact (pushPtrs_records stackBase _ { u with sp := u.sp / 16 * 16 }).mono
            fun _ _ h => (hrecords.trans hrecords').trans h

theorem pushStringsLoop_records (stackBase : Nat) (buf : List UInt8) (elements : List Nat) (i : Nat)
    (ptrs : List Nat) (s : UserStack) :
    Yields (pushStringsLoop stackBase buf elements i ptrs) s fun _ t => Records s t := by
  induction elements generalizing i ptrs s with
  | nil => exact .refl s
  | cons element elements ih =>
      rw [pushStringsLoop, yields_bind, yields_get]
      split
      · exact .refl s
      · rw [yields_bind, yields_set]
        exact (ih (i + 1) _ _).mono fun _ _ h => (records_pushAt s _ _).trans h

theorem pushStrings_records (stackBase : Nat) (strings : StringList) (allocated : Bool) (s : UserStack) :
    Yields (pushStrings stackBase strings allocated) s fun _ t => Records s t := by
  unfold pushStrings
  split_ifs
  · exact .refl s
  · exact .refl s
  · exact pushStringsLoop_records stackBase strings.buf strings.elements 0 _ s

/-- A byte outside stays recorded. -/
theorem Records.not_allInside {t : UserStack} (h : Records s t) (hbad : ¬AllInside stackBase s) :
    ¬AllInside stackBase t :=
  fun hinside => hbad fun w hw => hinside w (h w hw)

/-! ### Words -/

/-- A word is pushed below the object at the stack pointer, or refused. -/
theorem pushValue_spec (region : StackRegion stackBase) {ws : List Nat}
    (pushed : Pushed stackBase s ((s.sp, wordsBytes ws) :: objs)) (value : Nat) :
    Yields (pushValue stackBase value) s fun r t =>
      ((∃ e, r = .error e) ∧ AllInside stackBase t) ∨
        (r = .ok () ∧ Pushed stackBase t ((t.sp, wordsBytes (value :: ws)) :: objs) ∧ t.sp + 4 = s.sp) := by
  have hlow := pushed.low
  have hhigh := pushed.high
  have hbase := region.low
  have hmax := region.high
  have hsub : wordSub s.sp 4 = s.sp - 4 := by
    simp only [wordSub, STACK_SIZE, KERNEL_VADDR, wordSize, PAGE_SIZE] at *
    omega
  unfold pushValue
  rw [yields_bind, yields_get, hsub]
  split_ifs with hroom
  · exact Or.inl ⟨⟨_, rfl⟩, pushed.inside⟩
  · have hfits : s.sp - 4 + (wordBytes value).length = s.sp := by
      simp only [length_wordBytes, PAGE_SIZE] at *
      omega
    have hpushed := pushed.extend region (by omega) hfits
    exact Or.inr ⟨rfl, hpushed, hfits⟩

/-- An array of words is pushed below the object at the stack pointer, or refused. -/
theorem pushPtrs_spec (region : StackRegion stackBase) (ptrs : List Nat) {ws : List Nat}
    (pushed : Pushed stackBase s ((s.sp, wordsBytes ws) :: objs)) :
    Yields (pushPtrs stackBase ptrs) s fun r t =>
      ((∃ e, r = .error e) ∧ AllInside stackBase t) ∨
        (r = .ok () ∧ Pushed stackBase t ((t.sp, wordsBytes (ptrs.reverse ++ ws)) :: objs) ∧
          t.sp + 4 * ptrs.length = s.sp) := by
  induction ptrs generalizing s ws with
  | nil => exact Or.inr ⟨rfl, by simpa using pushed, by simp⟩
  | cons ptr ptrs ih =>
      rw [pushPtrs, yields_bind]
      apply (pushValue_spec region pushed ptr).mono
      rintro r t (⟨⟨e, rfl⟩, hinside⟩ | ⟨rfl, hpushed, hsp⟩)
      · exact Or.inl ⟨⟨e, rfl⟩, hinside⟩
      · apply (ih hpushed).mono
        rintro r u (⟨herror, hinside⟩ | ⟨rfl, hpushed', hsp'⟩)
        · exact Or.inl ⟨herror, hinside⟩
        · refine Or.inr ⟨rfl, ?_, ?_⟩
          · simpa using hpushed'
          · rw [List.length_cons]
            omega

/-- A null pointer and an array below it are pushed, or refused. -/
theorem pushArray_spec (region : StackRegion stackBase) (ptrs : List Nat) (pushed : Pushed stackBase s objs) :
    Yields (pushArray stackBase ptrs) s fun r t =>
      ((∃ e, r = .error e) ∧ AllInside stackBase t) ∨
        (r = .ok t.sp ∧ Pushed stackBase t ((t.sp, wordsBytes (ptrs.reverse ++ [0])) :: objs)) := by
  have hempty : Pushed stackBase s ((s.sp, wordsBytes []) :: objs) :=
    ⟨pushed.low, pushed.high, pushed.objects.empty pushed.high, pushed.inside⟩
  rw [pushArray, yields_bind]
  apply (pushValue_spec region hempty 0).mono
  rintro r t (⟨⟨e, rfl⟩, hinside⟩ | ⟨rfl, hpushed, _⟩)
  · exact Or.inl ⟨⟨e, rfl⟩, hinside⟩
  · simp only
    rw [yields_bind]
    apply (pushPtrs_spec region ptrs hpushed).mono
    rintro r u (⟨⟨e, rfl⟩, hinside⟩ | ⟨rfl, hpushed', _⟩)
    · exact Or.inl ⟨⟨e, rfl⟩, hinside⟩
    · exact Or.inr ⟨rfl, hpushed'⟩

/-- The two arrays and the frame are pushed, or refused. -/
theorem pushFrame_spec (region : StackRegion stackBase) (argc : Nat) (envpPtrs argvPtrs : List Nat)
    (pushed : Pushed stackBase s objs) :
    Yields (pushFrame stackBase argc envpPtrs argvPtrs) s fun r t =>
      ((∃ e, r = .error e) ∧ AllInside stackBase t) ∨
        (r = .ok () ∧ (t.sp + 16) % 16 = 0 ∧ ∃ userArgv userEnvp,
          Pushed stackBase t ((t.sp, wordsBytes [0, argc, userArgv, userEnvp]) ::
            (userArgv, wordsBytes (argvPtrs.reverse ++ [0])) ::
            (userEnvp, wordsBytes (envpPtrs.reverse ++ [0])) :: objs)) := by
  rw [pushFrame, yields_bind]
  apply (pushArray_spec region envpPtrs pushed).mono
  rintro r t (⟨⟨e, rfl⟩, hinside⟩ | ⟨rfl, hpushed⟩)
  · exact Or.inl ⟨⟨e, rfl⟩, hinside⟩
  · simp only
    rw [yields_bind]
    apply (pushArray_spec region argvPtrs hpushed).mono
    rintro r u (⟨⟨e, rfl⟩, hinside⟩ | ⟨rfl, hpushed'⟩)
    · exact Or.inl ⟨⟨e, rfl⟩, hinside⟩
    · simp only
      rw [yields_bind, yields_modify]
      have hround : stackBase ≤ u.sp / 16 * 16 ∧ u.sp / 16 * 16 ≤ u.sp := by
        have hlow := hpushed'.low
        have haligned := region.aligned
        simp only [PAGE_SIZE] at haligned
        omega
      have hrounded : Pushed stackBase { u with sp := u.sp / 16 * 16 }
          ((u.sp / 16 * 16, wordsBytes []) :: (u.sp, wordsBytes (argvPtrs.reverse ++ [0])) ::
            (t.sp, wordsBytes (envpPtrs.reverse ++ [0])) :: objs) := by
        have htop : u.sp / 16 * 16 ≤ stackBase + STACK_SIZE := hround.2.trans hpushed'.high
        exact ⟨hround.1, htop, (hpushed'.objects.lower hround.2).empty htop, hpushed'.inside⟩
      apply (pushPtrs_spec region [t.sp, u.sp, argc, 0] hrounded).mono
      rintro r v (⟨⟨e, rfl⟩, hinside⟩ | ⟨rfl, hpushed'', hsp⟩)
      · exact Or.inl ⟨⟨e, rfl⟩, hinside⟩
      · refine Or.inr ⟨rfl, ?_, u.sp, t.sp, hpushed''⟩
        simp only [List.length_cons, List.length_nil] at hsp
        omega

/-! ### Strings -/

/-- The copies of strings as objects, the last one lowest. -/
def stringObjs (addrs : List Nat) (strs : List CString) : List (Nat × List UInt8) :=
  ((addrs.zip strs).map fun x => (x.1, x.2.chars ++ [0])).reverse

theorem stringObjs_cons (addr : Nat) (addrs : List Nat) (str : CString) (strs : List CString) :
    stringObjs (addr :: addrs) (str :: strs) = stringObjs addrs strs ++ [(addr, str.chars ++ [0])] := by
  simp [stringObjs]

/-- What pushing strings ends with: they are refused, they are all on the stack, or a byte is outside. The
    room that the strides left over is for whatever is pushed next. -/
def StringsPushed (stackBase : Nat) (s : UserStack) (objs : List (Nat × List UInt8)) (strs : List CString)
    (r : Except Errno (List Nat)) (ptrs : List Nat) (t : UserStack) : Prop :=
  ((∃ e, r = .error e) ∧ AllInside stackBase t ∧
      ∀ rest, StridesFit stackBase (s.sp - stackBase) (strs.map CString.size ++ rest)) ∨
    (∃ addrs, addrs.length = strs.length ∧ r = .ok (addrs.reverse ++ ptrs) ∧
      Pushed stackBase t (stringObjs addrs strs ++ objs) ∧
      ∀ rest, StridesFit stackBase (s.sp - stackBase) (strs.map CString.size ++ rest) ↔
        StridesFit stackBase (t.sp - stackBase) rest) ∨
    (¬AllInside stackBase t ∧
      ∀ rest, ¬StridesFit stackBase (s.sp - stackBase) (strs.map CString.size ++ rest))

theorem replicate_set (n : Nat) (sp : Nat) (ptrs : List Nat) :
    (List.replicate (n + 1) 0 ++ ptrs).set n sp = List.replicate n 0 ++ sp :: ptrs := by
  rw [List.replicate_succ', List.append_assoc, List.singleton_append, List.set_append_right _ _ (by simp)]
  simp

/-- The loop of `push_strings`, by induction on the strings that are left. -/
theorem pushStringsLoop_spec (region : StackRegion stackBase) {buf : List UInt8} {elements : List Nat}
    {strs : List CString} (hstrs : List.Forall₂ (fun e str => cStringAt buf e = str.chars) elements strs)
    (hsmall : ∀ str ∈ strs, str.size < wordSize) {done : List Nat} (pushed : Pushed stackBase s objs) :
    Yields (pushStringsLoop stackBase buf elements done.length
      (List.replicate elements.length 0 ++ done.reverse)) s fun r t =>
      StringsPushed stackBase s objs strs r done.reverse t := by
  induction hstrs generalizing s objs done with
  | nil => exact Or.inr (Or.inl ⟨[], rfl, by simp, by simpa [stringObjs] using pushed, fun _ => Iff.rfl⟩)
  | @cons element str elements strs hstr _ ih =>
      have hlow := pushed.low
      have hhigh := pushed.high
      have hbase := region.low
      have hmax := region.high
      have hsp : stackBase + (s.sp - stackBase) = s.sp := Nat.add_sub_cancel' hlow
      have hpos : 0 < str.size := Nat.succ_pos _
      have hword := hsmall str List.mem_cons_self
      rw [pushStringsLoop, yields_bind, yields_get, hstr]
      change Yields (if wordSub s.sp str.size < stackBase then _ else _) s _
      split_ifs with hroom
      · refine Or.inl ⟨⟨_, rfl⟩, pushed.inside, fun rest => ?_⟩
        rw [List.map_cons, List.cons_append, StridesFit, hsp]
        exact fun h => absurd hroom h
      · have hsize : str.chars.length + 1 = str.size := rfl
        rw [yields_bind, yields_set, hsize, strlcpyBytes_eq]
        have hindex : (List.replicate (element :: elements).length 0 ++ done.reverse).length - done.length - 1 =
            elements.length := by
          simp only [List.length_append, List.length_replicate, List.length_reverse, List.length_cons]
          omega
        rw [hindex, List.length_cons, replicate_set]
        have hdone : ∀ sp : Nat, List.replicate elements.length 0 ++ sp :: done.reverse =
            List.replicate elements.length 0 ++ (done ++ [sp]).reverse := by
          intro sp
          simp
        by_cases hfits : str.size ≤ 2 ^ 31 ∧ nextPowerOfTwo str.size ≤ s.sp - stackBase
        · -- the string is inside, and the others follow
          have hstride := nextPowerOfTwo_bounds hpos hfits.1
          have hsub : wordSub s.sp (nextPowerOfTwo str.size) = s.sp - nextPowerOfTwo str.size := by
            simp only [wordSub, STACK_SIZE, KERNEL_VADDR, wordSize] at *
            omega
          rw [hsub, hdone]
          have hlength : (str.chars ++ [0]).length = str.size := by simp [CString.size]
          have hlower : stackBase ≤ s.sp - nextPowerOfTwo str.size := by omega
          have hbelow : s.sp - nextPowerOfTwo str.size + (str.chars ++ [0]).length ≤ s.sp := by
            rw [hlength]
            omega
          have hpushed := pushed.push region hlower hbelow
          have hrest := @ih _ _ (fun str' h => hsmall str' (List.mem_cons_of_mem str h))
            (done ++ [s.sp - nextPowerOfTwo str.size]) hpushed
          rw [List.length_append, List.length_singleton] at hrest
          apply hrest.mono
          have hiff : ∀ rest, StridesFit stackBase (s.sp - stackBase) ((str :: strs).map CString.size ++ rest) ↔
              StridesFit stackBase (s.sp - nextPowerOfTwo str.size - stackBase)
                (strs.map CString.size ++ rest) := by
            intro rest
            rw [List.map_cons, List.cons_append, StridesFit, hsp]
            have hleft : s.sp - stackBase - nextPowerOfTwo str.size =
                s.sp - nextPowerOfTwo str.size - stackBase := by omega
            rw [hleft]
            exact ⟨fun h => (h hroom).2.2, fun h _ => ⟨hfits.1, hfits.2, h⟩⟩
          rintro r t (⟨herror, hinside, hall⟩ | ⟨addrs, haddrs, rfl, hpushed', hall⟩ | ⟨hbad, hall⟩)
          · exact Or.inl ⟨herror, hinside, fun rest => (hiff rest).2 (hall rest)⟩
          · refine Or.inr (Or.inl ⟨(s.sp - nextPowerOfTwo str.size) :: addrs, by simp [haddrs], by simp, ?_,
              fun rest => (hiff rest).trans (hall rest)⟩)
            rw [stringObjs_cons, List.append_assoc, List.singleton_append]
            exact hpushed'
          · exact Or.inr (Or.inr ⟨hbad, fun rest h => hall rest ((hiff rest).1 h)⟩)
        · -- the string is outside, and stays so whatever follows
          obtain ⟨i, hi, houtside⟩ := stride_outside region hlow hhigh hpos hword hfits
          have hbad : ¬AllInside stackBase
              (s.pushAt (wordSub s.sp (nextPowerOfTwo str.size)) (str.chars ++ [0])) := by
            intro hinside
            refine houtside (hinside _ (List.mem_append_right _ (List.mem_map.2 ⟨i, ?_, rfl⟩)))
            rw [List.mem_range]
            simpa [CString.size] using hi
          apply (pushStringsLoop_records stackBase buf elements (done.length + 1) _ _).mono
          intro r t hrecords
          refine Or.inr (Or.inr ⟨hrecords.not_allInside hbad, fun rest h => ?_⟩)
          rw [List.map_cons, List.cons_append, StridesFit, hsp] at h
          exact hfits ⟨(h hroom).1, (h hroom).2.1⟩

/-- `push_strings` fails for want of memory, or does what its loop does. -/
theorem pushStrings_spec (region : StackRegion stackBase) {strs : List CString} {list : StringList}
    (copied : Copied strs list) (allocated : Bool) (pushed : Pushed stackBase s objs) :
    Yields (pushStrings stackBase list allocated) s fun r t =>
      ((strs.length ≠ 0 ∧ allocated = false) ∧ (∃ e, r = .error e) ∧ t = s) ∨
        (¬(strs.length ≠ 0 ∧ allocated = false) ∧ StringsPushed stackBase s objs strs r [] t) := by
  unfold pushStrings
  split_ifs with hnone hmemory
  · have hnil : strs = [] := List.length_eq_zero_iff.1 (copied.length ▸ hnone)
    subst hnil
    exact Or.inr ⟨fun h => h.1 rfl,
      Or.inr (Or.inl ⟨[], rfl, rfl, by simpa [stringObjs] using pushed, fun _ => Iff.rfl⟩)⟩
  · exact Or.inl ⟨⟨copied.length ▸ hnone, by simpa using hmemory⟩, ⟨_, rfl⟩, rfl⟩
  · have hforall : List.Forall₂ (fun e str => cStringAt list.buf e = str.chars) list.elements strs :=
      List.forall₂_iff_get.2 ⟨copied.length, fun i hi hi' => copied.string i hi hi'⟩
    have hloop := @pushStringsLoop_spec _ _ _ region _ _ _ hforall copied.small [] pushed
    rw [List.reverse_nil, List.append_nil, List.length_nil] at hloop
    apply hloop.mono
    intro r t h
    exact Or.inr ⟨fun hand => hmemory (by simp [hand.2]), h⟩

end Pushes

/-! ### The finished stack -/

section Finished

variable {stackBase : Nat} {argv envp : List CString} {copiedArgv copiedEnvp : StringList}

/-- All objects of a finished stack. -/
def finishedObjs (sp userArgv userEnvp : Nat) (argvAddrs envpAddrs : List Nat) (argv envp : List CString) :
    List (Nat × List UInt8) :=
  (sp, wordsBytes [0, argv.length, userArgv, userEnvp]) :: (userArgv, wordsBytes (argvAddrs ++ [0])) ::
    (userEnvp, wordsBytes (envpAddrs ++ [0])) :: (stringObjs argvAddrs argv ++ stringObjs envpAddrs envp)

/-- The arguments are on the stack. -/
def ArgumentsPushed (stackBase : Nat) (t : UserStack) (argv envp : List CString) : Prop :=
  ∃ userArgv userEnvp argvAddrs envpAddrs, argvAddrs.length = argv.length ∧ envpAddrs.length = envp.length ∧
    (t.sp + 16) % 16 = 0 ∧
    Pushed stackBase t (finishedObjs t.sp userArgv userEnvp argvAddrs envpAddrs argv envp)

/-- The part of `sys_execve` that fills the stack: the bytes are inside exactly when the strides fit, and then
    a success leaves all arguments on the stack. -/
theorem pushArguments_spec (region : StackRegion stackBase) (hargv : Copied argv copiedArgv)
    (henvp : Copied envp copiedEnvp) (envpAllocated argvAllocated : Bool) (s : UserStack) :
    Yields (pushArguments stackBase envpAllocated argvAllocated copiedEnvp copiedArgv) s fun r t =>
      (AllInside stackBase t ↔
          StridesFit stackBase STACK_SIZE (pushedSizes envpAllocated argvAllocated envp argv)) ∧
        (r = .ok () → AllInside stackBase t → ArgumentsPushed stackBase t argv envp) := by
  unfold pushArguments
  rw [yields_bind, yields_get, yields_bind, yields_set, yields_bind]
  let s₀ : UserStack :=
    { sp := stackBase + STACK_SIZE
      mem := writeBytes s.mem stackBase (List.replicate STACK_SIZE 0)
      writes := [] }
  have hstart : Pushed stackBase s₀ [] :=
    ⟨Nat.le_add_right _ _, le_refl _, .nil _ _ _, fun w hw => absurd hw List.not_mem_nil⟩
  have hroom : s₀.sp - stackBase = STACK_SIZE := Nat.add_sub_cancel_left ..
  apply (pushStrings_spec region henvp envpAllocated hstart).mono
  rintro r t (⟨hmemory, ⟨e, rfl⟩, rfl⟩ | ⟨hmemory, hpushed⟩)
  · rw [pushedSizes, if_pos hmemory]
    exact ⟨iff_of_true hstart.inside trivial, fun h => by cases h⟩
  rw [pushedSizes, if_neg hmemory]
  rw [StringsPushed, hroom] at hpushed
  rcases hpushed with ⟨⟨e, rfl⟩, hinside, hall⟩ | ⟨envpAddrs, hlength, rfl, hpushed, hall⟩ | ⟨hbad, hall⟩
  · exact ⟨iff_of_true hinside (hall _), fun h => by cases h⟩
  · rw [hall]
    simp only
    rw [yields_bind]
    apply (pushStrings_spec region hargv argvAllocated hpushed).mono
    rintro r u (⟨hmemory', ⟨e, rfl⟩, rfl⟩ | ⟨hmemory', hpushed'⟩)
    · rw [if_pos hmemory']
      exact ⟨iff_of_true hpushed.inside trivial, fun h => by cases h⟩
    rw [if_neg hmemory', ← List.append_nil (argv.map CString.size)]
    rcases hpushed' with ⟨⟨e, rfl⟩, hinside, hall'⟩ | ⟨argvAddrs, hlength', rfl, hpushed', hall'⟩ | ⟨hbad, hall'⟩
    · exact ⟨iff_of_true hinside (hall' []), fun h => by cases h⟩
    · rw [hall']
      simp only [List.append_nil]
      apply (pushFrame_spec region copiedArgv.elements.length envpAddrs.reverse argvAddrs.reverse hpushed').mono
      rintro r v (⟨⟨e, rfl⟩, hinside⟩ | ⟨rfl, haligned, userArgv, userEnvp, hfinished⟩)
      · exact ⟨iff_of_true hinside trivial, fun h => by cases h⟩
      · refine ⟨iff_of_true hfinished.inside trivial, fun _ _ => ?_⟩
        rw [List.reverse_reverse, List.reverse_reverse, hargv.length, List.append_nil] at hfinished
        exact ⟨userArgv, userEnvp, argvAddrs, envpAddrs, hlength', hlength, haligned, hfinished⟩
    · -- what follows does not take the byte outside back
      have hlost : ∀ v, Records u v → (AllInside stackBase v ↔
          StridesFit stackBase (t.sp - stackBase) (argv.map CString.size ++ [])) := fun v hrecords =>
        iff_of_false (hrecords.not_allInside hbad) (hall' [])
      cases r with
      | error e => exact ⟨hlost u (.refl u), fun h => by cases h⟩
      | ok argvPtrs =>
          apply (pushFrame_records stackBase copiedArgv.elements.length _ argvPtrs u).mono
          intro r v hrecords
          exact ⟨hlost v hrecords, fun _ hinside => absurd hinside (hrecords.not_allInside hbad)⟩
  · have hlost : ∀ v, Records t v → (AllInside stackBase v ↔ StridesFit stackBase STACK_SIZE
        (envp.map CString.size ++ if argv.length ≠ 0 ∧ argvAllocated = false then [] else
          argv.map CString.size)) := fun v hrecords =>
      iff_of_false (hrecords.not_allInside hbad) (hall _)
    cases r with
    | error e => exact ⟨hlost t (.refl t), fun h => by cases h⟩
    | ok envpPtrs =>
        simp only
        rw [yields_bind]
        apply (pushStrings_records stackBase copiedArgv argvAllocated t).mono
        intro r u hrecords
        cases r with
        | error e => exact ⟨hlost u hrecords, fun h => by cases h⟩
        | ok argvPtrs =>
            apply (pushFrame_records stackBase copiedArgv.elements.length envpPtrs argvPtrs u).mono
            intro r v hrecords'
            have hall := hrecords.trans hrecords'
            exact ⟨hlost v hall, fun _ hinside => absurd hinside (hall.not_allInside hbad)⟩

theorem sum_stringObjs {addrs : List Nat} {strs : List CString} (hlength : addrs.length = strs.length) :
    ((stringObjs addrs strs).map (·.2.length)).sum = (strs.map CString.size).sum := by
  induction addrs generalizing strs with
  | nil =>
      obtain rfl := List.length_eq_zero_iff.1 hlength.symm
      rfl
  | cons addr addrs ih =>
      cases strs with
      | nil => simp at hlength
      | cons str strs =>
          have hrest := ih (Nat.succ.inj hlength)
          rw [stringObjs_cons, List.map_append, List.sum_append, hrest]
          simp [CString.size]
          omega

/-- Arguments that are on the stack fit. -/
theorem ArgumentsPushed.fits {t : UserStack} (h : ArgumentsPushed stackBase t argv envp) :
    argumentBytes argv envp ≤ STACK_SIZE := by
  obtain ⟨userArgv, userEnvp, argvAddrs, envpAddrs, hargv, henvp, _, hpushed⟩ := h
  have htotal := hpushed.objects.total_le hpushed.high
  have hlow := hpushed.low
  simp only [finishedObjs, List.map_cons, List.map_append, List.sum_cons, List.sum_append, length_wordsBytes,
    sum_stringObjs hargv, sum_stringObjs henvp, List.length_cons, List.length_nil, List.length_append,
    hargv, henvp] at htotal
  simp only [argumentBytes]
  omega

/-- A copy is complete if the strings fit into the block, and otherwise writes behind it. -/
theorem stringListCopy_ok_iff {blockSize : Nat} {strs : List CString} {buf : List UInt8} {elements : List Nat}
    (hbuf : buf.length ≤ blockSize) :
    (∃ list, stringListCopy blockSize strs buf elements = .ok list) ↔
      buf.length + (strs.map CString.size).sum ≤ blockSize := by
  induction strs generalizing buf elements with
  | nil => simpa [stringListCopy] using hbuf
  | cons str strs ih =>
      rw [stringListCopy, List.map_cons, List.sum_cons]
      split_ifs with hroom
      · simp only [exists_false, false_iff]
        omega
      · have hlength : (buf ++ strlcpyBytes str.chars str.size).length = buf.length + str.size := by
          rw [strlcpyBytes_eq, List.length_append]
          simp [CString.size]
        rw [ih (by omega), hlength, Nat.add_assoc]

/-- `string_list_create` fails for want of memory, copies all strings, or writes behind a block whose size has
    wrapped. -/
theorem stringListCreate_cases (strs : List CString) (allocated : Bool) :
    (¬(strs.length = 0 ∨ allocated = true) ∧ stringListCreate strs allocated = .ok (.error .ENOMEM)) ∨
      ((strs.length = 0 ∨ allocated = true) ∧
        (((strs.map CString.size).sum < wordSize ∧ ∃ list, stringListCreate strs allocated = .ok (.ok list)) ∨
          (¬(strs.map CString.size).sum < wordSize ∧ ∃ stop, stringListCreate strs allocated = .error stop))) := by
  unfold stringListCreate
  split_ifs with hnone hmemory
  · have hnil : strs = [] := List.length_eq_zero_iff.1 hnone
    exact Or.inr ⟨Or.inl hnone, Or.inl ⟨by simp [hnil], _, rfl⟩⟩
  · refine Or.inl ⟨fun h => ?_, rfl⟩
    rcases h with h | h
    · exact hnone h
    · simp [h] at hmemory
  · refine Or.inr ⟨Or.inr (by simpa using hmemory), ?_⟩
    have hiff := @stringListCopy_ok_iff ((strs.map CString.size).sum % wordSize) strs [] [] (Nat.zero_le _)
    rw [List.length_nil, Nat.zero_add] at hiff
    have hword : 0 < wordSize := by decide
    cases hcopy : stringListCopy ((strs.map CString.size).sum % wordSize) strs [] [] with
    | ok list =>
        simp only [hcopy]
        have hle := hiff.1 ⟨list, hcopy⟩
        exact Or.inl ⟨hle.trans_lt (Nat.mod_lt _ hword), list, rfl⟩
    | error stop =>
        simp only [hcopy]
        refine Or.inr ⟨fun hlt => ?_, stop, rfl⟩
        obtain ⟨list, hlist⟩ := hiff.2 (Nat.mod_eq_of_lt hlt).ge
        simp [hcopy] at hlist

/-- What the code does with arguments, in the cases of the two copies. -/
theorem execArguments_iff (region : StackRegion stackBase) (memory : ExecMemory) (argv envp : List CString)
    (s : UserStack) :
    Yields (execArguments stackBase memory argv envp) s (ArgumentsInside stackBase argv envp) ↔
      ArgumentsFit stackBase memory argv envp := by
  rw [execArguments, yields_bind, yields_modify, ArgumentsFit]
  have hnone : ∀ (e : Errno), ArgumentsInside stackBase argv envp (.error e) { s with writes := [] } :=
    fun e => ⟨fun w hw => absurd hw List.not_mem_nil, fun h => by cases h⟩
  rcases stringListCreate_cases argv memory.argvCopy with
    ⟨hmemory, hcreate⟩ | ⟨hmemory, ⟨hsum, copiedArgv, hcreate⟩ | ⟨hsum, stop, hcreate⟩⟩
  · rw [hcreate]
    exact iff_of_true (hnone _) fun h => absurd h hmemory
  · rw [hcreate]
    simp only [hmemory, hsum, true_implies, true_and]
    rcases stringListCreate_cases envp memory.envpCopy with
      ⟨hmemory', hcreate'⟩ | ⟨hmemory', ⟨hsum', copiedEnvp, hcreate'⟩ | ⟨hsum', stop, hcreate'⟩⟩
    · rw [hcreate']
      exact iff_of_true (hnone _) fun h => absurd h hmemory'
    · rw [hcreate']
      simp only [hmemory', hsum', true_implies, true_and]
      have hspec := pushArguments_spec region (stringListCreate_spec hcreate) (stringListCreate_spec hcreate')
        memory.envpPtrs memory.argvPtrs { s with writes := [] }
      obtain ⟨r, t, hrun, hiff, hfinished⟩ := yields_iff.1 hspec
      constructor
      · intro h
        exact hiff.1 (h.and_return hrun).1
      · intro h
        have hinside := hiff.2 h
        exact yields_of_return hrun ⟨hinside, fun hr => (hfinished hr hinside).fits⟩
    · rw [hcreate']
      refine iff_of_false id fun h => hsum' (h hmemory').1
  · rw [hcreate]
    exact iff_of_false id fun h => hsum (h hmemory).1

/-- Arguments over all inputs: `sys_execve` deals with them, every byte that it pushes is inside the stack, and
    arguments that do not fit are refused, exactly when the sizes of the copies do not wrap and the stride of
    every string that passes its check fits. -/
theorem argument_pushes_inside_iff (region : StackRegion stackBase) (memory : ExecMemory)
    (argv envp : List CString) (s : UserStack) :
    Yields (execArguments stackBase memory argv envp) s (ArgumentsInside stackBase argv envp) ↔
      ArgumentsFit stackBase memory argv envp :=
  execArguments_iff region memory argv envp s

/-- There is memory for everything. -/
def enoughMemory : ExecMemory := { argvCopy := true, envpCopy := true, envpPtrs := true, argvPtrs := true }

/-- A string of so many letters. -/
def letters (n : Nat) : CString where
  chars := List.replicate n 97
  noNul := by
    intro c hc
    rw [List.eq_of_mem_replicate hc]
    decide

theorem size_letters (n : Nat) : (letters n).size = n + 1 :=
  congrArg (· + 1) List.length_replicate

theorem stackRegion_example : StackRegion 0x10000 := ⟨by decide, by decide, by decide⟩

/-- An empty stack at an address. -/
def emptyStack : UserStack := { sp := 0, mem := fun _ => 0, writes := [] }

/-- One argument of one letter is pushed inside the stack. -/
theorem argument_pushes_inside_iff_one_letter :
    Yields (execArguments 0x10000 enoughMemory [letters 1] []) emptyStack
      (ArgumentsInside 0x10000 [letters 1] []) := by
  refine (argument_pushes_inside_iff stackRegion_example enoughMemory [letters 1] [] emptyStack).2 ?_
  intro _
  refine ⟨by decide, fun _ => ⟨by decide, fun _ => ⟨by decide, by decide, trivial⟩⟩⟩

/-- An environment of one letter and an argument of `0x2000` letters, whose stride is the whole stack: the
    argument starts below the stack. -/
theorem pushStrings_leaves_stack :
    ¬ ∀ (stackBase : Nat) (memory : ExecMemory) (argv envp : List CString) (s : UserStack),
      StackRegion stackBase →
      Yields (execArguments stackBase memory argv envp) s (ArgumentsInside stackBase argv envp) := by
  intro h
  obtain ⟨long, hlong⟩ : ∃ str : CString, str.size = 0x2001 := ⟨letters 0x2000, size_letters _⟩
  have hinside := h 0x10000 enoughMemory [long] [letters 1] emptyStack stackRegion_example
  have hfits := (execArguments_iff stackRegion_example enoughMemory _ _ emptyStack).1 hinside (Or.inr rfl)
  have hstrides : StridesFit 0x10000 STACK_SIZE [(letters 1).size, long.size] := (hfits.2 (Or.inr rfl)).2
  rw [hlong] at hstrides
  have hfirst := (hstrides (by decide)).2.2
  have hsecond := (hfirst (by decide)).2.1
  exact absurd hsecond (by decide)

/-- A success that wrote inside the stack leaves all arguments on it. -/
theorem execArguments_pushed (region : StackRegion stackBase) {memory : ExecMemory} {s t : UserStack}
    (hrun : execArguments stackBase memory argv envp s = .ok (.ok (), t)) (hinside : AllInside stackBase t) :
    ArgumentsPushed stackBase t argv envp := by
  rw [execArguments, Program.run_bind, Program.run_modify] at hrun
  rcases stringListCreate_cases argv memory.argvCopy with
    ⟨_, hcreate⟩ | ⟨_, ⟨_, copiedArgv, hcreate⟩ | ⟨_, stop, hcreate⟩⟩
  · simp [hcreate] at hrun
  · rcases stringListCreate_cases envp memory.envpCopy with
      ⟨_, hcreate'⟩ | ⟨_, ⟨_, copiedEnvp, hcreate'⟩ | ⟨_, stop, hcreate'⟩⟩
    · simp [hcreate, hcreate'] at hrun
    · simp only [hcreate, hcreate'] at hrun
      have hspec := pushArguments_spec region (stringListCreate_spec hcreate) (stringListCreate_spec hcreate')
        memory.envpPtrs memory.argvPtrs { s with writes := [] }
      exact (hspec.and_return hrun).2 rfl hinside
    · simp [hcreate, hcreate'] at hrun
  · simp [hcreate] at hrun

/-- Where each object is and how long it is. -/
def extent (o : Nat × List UInt8) : Nat × Nat := (o.1, o.2.length)

theorem extent_stringObjs (addrs : List Nat) (strs : List CString) :
    ((stringObjs addrs strs).map extent).Perm (addrs.zip (strs.map CString.size)) := by
  have heq : (stringObjs addrs strs).map extent = (addrs.zip (strs.map CString.size)).reverse := by
    rw [stringObjs, List.map_reverse, List.map_map, List.zip_map_right]
    congr 1
    apply List.map_congr_left
    intro x _
    simp only [Function.comp_apply, extent, List.length_append, List.length_singleton]
    rfl
  rw [heq]
  exact List.reverse_perm _

/-- The extents of the objects of a finished stack are its parts. -/
theorem extent_finishedObjs {sp userArgv userEnvp : Nat} {argvAddrs envpAddrs : List Nat}
    (hargv : argvAddrs.length = argv.length) (henvp : envpAddrs.length = envp.length) :
    ((finishedObjs sp userArgv userEnvp argvAddrs envpAddrs argv envp).map extent).Perm
      (stackParts sp userArgv userEnvp argvAddrs envpAddrs argv envp) := by
  simp only [finishedObjs, stackParts, List.map_cons, List.map_append, extent, length_wordsBytes,
    List.length_append, List.length_cons, List.length_nil, hargv, henvp]
  exact (((extent_stringObjs argvAddrs argv).append (extent_stringObjs envpAddrs envp)).cons _).cons _ |>.cons _

/-- An array of pointers with its null pointer, and the strings they point to. -/
theorem decodesTo_of_stacked {mem : Nat → UInt8} {lo array : Nat} {objs : List (Nat × List UInt8)}
    {addrs : List Nat} {strs : List CString} {top : Nat} (stacked : Stacked mem lo top objs) (htop : top ≤ 2 ^ 32)
    (hlength : addrs.length = strs.length) (harray : (array, wordsBytes (addrs ++ [0])) ∈ objs)
    (hstrings : ∀ o ∈ stringObjs addrs strs, o ∈ objs) : DecodesTo mem array addrs strs := by
  have hobj : ∀ i (hi : i < addrs.length) (hi' : i < strs.length), (addrs[i], strs[i].chars ++ [0]) ∈ objs := by
    intro i hi hi'
    apply hstrings
    rw [stringObjs, List.mem_reverse, List.mem_map]
    have hlt : i < (addrs.zip strs).length := by
      rw [List.length_zip]
      omega
    have hzip : (addrs.zip strs)[i] = (addrs[i], strs[i]) := List.getElem_zip
    exact ⟨(addrs[i], strs[i]), hzip ▸ List.getElem_mem _, rfl⟩
  have hword : ∀ v ∈ addrs ++ [0], v < 2 ^ 32 := by
    intro v hv
    rcases List.mem_append.1 hv with hv | hv
    · obtain ⟨i, hi, rfl⟩ := List.mem_iff_getElem.1 hv
      have hinside := stacked.inside _ (hobj i hi (by omega))
      simp only [List.length_append, List.length_singleton] at hinside
      omega
    · obtain rfl := List.mem_singleton.1 hv
      decide
  have hbytes := stacked.bytes _ harray
  constructor
  case length => exact hlength
  case pointers =>
    intro i hi
    rw [readWord_of_wordsAt hbytes hword (by rw [List.length_append]; omega), List.getElem_append_left hi]
  case null =>
    rw [← hlength, readWord_of_wordsAt hbytes hword (by simp)]
    simp
  case strings => exact fun i hi hi' => stacked.bytes _ (hobj i hi hi')

/-- The finished stack over all inputs: when all pushes have been made inside the stack, `_start` finds the
    arguments. -/
theorem stack_decodes (region : StackRegion stackBase) {memory : ExecMemory} {s t : UserStack}
    (hrun : execArguments stackBase memory argv envp s = .ok (.ok (), t)) (hinside : AllInside stackBase t) :
    StackDecodes stackBase t argv envp := by
  have hargs := execArguments_pushed region hrun hinside
  have hfits := hargs.fits
  obtain ⟨userArgv, userEnvp, argvAddrs, envpAddrs, hargv, henvp, haligned, hpushed⟩ := hargs
  have hmax : stackBase + STACK_SIZE ≤ 2 ^ 32 := region.high.trans (by decide)
  have hobjs := hpushed.objects
  have hframe := hobjs.bytes _ List.mem_cons_self
  have hmemArgv : (userArgv, wordsBytes (argvAddrs ++ [0])) ∈
      finishedObjs t.sp userArgv userEnvp argvAddrs envpAddrs argv envp := by simp [finishedObjs]
  have hmemEnvp : (userEnvp, wordsBytes (envpAddrs ++ [0])) ∈
      finishedObjs t.sp userArgv userEnvp argvAddrs envpAddrs argv envp := by simp [finishedObjs]
  have hword : ∀ v ∈ [0, argv.length, userArgv, userEnvp], v < 2 ^ 32 := by
    have hinArgv := hobjs.inside _ hmemArgv
    have hinEnvp := hobjs.inside _ hmemEnvp
    simp only [length_wordsBytes, List.length_append, List.length_singleton, argumentBytes, STACK_SIZE]
      at *
    simp only [List.mem_cons, List.not_mem_nil, or_false, forall_eq_or_imp, forall_eq]
    omega
  have hwords := fun i (hi : i < 4) => readWord_of_wordsAt hframe hword (i := i) hi
  have hreturn : readWord t.mem t.sp = 0 := hwords 0 (by decide)
  have hargc : readWord t.mem (t.sp + 4) = argv.length := hwords 1 (by decide)
  have huserArgv : readWord t.mem (t.sp + 8) = userArgv := hwords 2 (by decide)
  have huserEnvp : readWord t.mem (t.sp + 12) = userEnvp := hwords 3 (by decide)
  have hperm := @extent_finishedObjs argv envp t.sp userArgv userEnvp _ _ hargv henvp
  refine ⟨hreturn, hargc, haligned, argvAddrs, envpAddrs, ?_, ?_, ?_, ?_⟩
  · rw [huserArgv]
    exact decodesTo_of_stacked hobjs hmax hargv hmemArgv fun o ho => by simp [finishedObjs, ho]
  · rw [huserEnvp]
    exact decodesTo_of_stacked hobjs hmax henvp hmemEnvp fun o ho => by simp [finishedObjs, ho]
  · rw [huserArgv, huserEnvp]
    intro part hpart
    obtain ⟨o, ho, rfl⟩ := List.mem_map.1 (hperm.mem_iff.2 hpart)
    have hin := hobjs.inside o ho
    exact ⟨hpushed.low.trans hin.1, hin.2⟩
  · rw [huserArgv, huserEnvp]
    apply (hperm.pairwise_iff fun {x y} h => h.symm).1
    rw [List.pairwise_map]
    exact hobjs.apart.imp fun h => Or.inl h

/-- One argument of one letter: the finished stack decodes to it. -/
theorem stack_decodes_one_letter :
    ∃ t, execArguments 0x10000 enoughMemory [letters 1] [] emptyStack = .ok (.ok (), t) ∧
      StackDecodes 0x10000 t [letters 1] [] := by
  have hyields : Yields (execArguments 0x10000 enoughMemory [letters 1] []) emptyStack fun r t =>
      r.toBool = true ∧ ∀ w ∈ t.writes, 0x10000 ≤ w ∧ w < 0x10000 + STACK_SIZE := by decide +kernel
  obtain ⟨r, t, hrun, hok, hinside⟩ := yields_iff.1 hyields
  cases r with
  | error e => cases hok
  | ok u => exact ⟨t, hrun, stack_decodes stackRegion_example hrun hinside⟩

end Finished

end Chaotix
