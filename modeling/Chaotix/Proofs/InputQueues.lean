/-
Module: Chaotix.Proofs.InputQueues
Layer: Proofs
Purpose: The console input buffer and the event queues of the keyboard and the mouse, beside queues that keep the newest
  elements. The code writes the next cell and never moves the read index, so a queue that overflows is empty, or holds
  what has been written since it was.
Imports: Chaotix.Lib.EvictingQueue, Chaotix.Kernel.RingBuf, Chaotix.Kernel.Hid
Trusted boundary: none
Main exports: InputEvent, consoleInput, keyboardInput, mouseInput, input_queues_iff
-/
import Chaotix.Lib.EvictingQueue
import Chaotix.Kernel.RingBuf
import Chaotix.Kernel.Hid

namespace Chaotix

/-- A device gives data, from which elements are put into the queue, or a reader with a buffer of `count` bytes gets
    elements. -/
inductive InputEvent (δ α : Type) where
  | input (data : δ) (pushed : List α)
  | read (count : Nat) (elements : List α)

/-- What an event does to the queue. -/
def InputEvent.use {δ α : Type} : InputEvent δ α → QueueUse α
  | .input _ pushed => .put pushed
  | .read _ elements => .take elements

/-- The input buffer of a console. A reader blocks while it is empty. -/
def consoleInput : TransitionSystem RingBuf (InputEvent (List UInt8) UInt8) where
  init buf := ∃ innerBuf, buf = ringBufInit innerBuf
  step buf e buf' :=
    match e with
    | .input bytes pushed => pushed = bytes ∧ buf' = (ringBufWriteEvictingOldest buf bytes).2
    | .read count bytes => ¬buf.IsEmpty ∧ (bytes, buf') = ringBufRead buf count

/-- The keyboard. -/
def keyboardInput : TransitionSystem Ps2Keyboard (InputEvent (BitVec 8) KeyEvent) where
  init kbd := kbd.receivedE0 = false ∧ kbd.state = 0 ∧ kbd.queue.writeIdx = 0 ∧ kbd.queue.readIdx = 0
  step kbd e kbd' :=
    match e with
    | .input data pushed => pushed = (kbd.irqHandler data).1.toList ∧ kbd' = (kbd.irqHandler data).2
    | .read count events => ¬kbd.queue.IsEmpty ∧ (events, kbd') = ps2KeyboardDeviceRead kbd count

/-- The mouse. -/
def mouseInput : TransitionSystem Ps2Mouse (InputEvent (BitVec 8) MouseEvent) where
  init mouse := mouse.state = 0 ∧ mouse.queue.writeIdx = 0 ∧ mouse.queue.readIdx = 0
  step mouse e mouse' :=
    match e with
    | .input data pushed => ∃ event, mouse.irqHandler data = some (event, mouse') ∧ pushed = event.toList
    | .read count events => ¬mouse.queue.IsEmpty ∧ (events, mouse') = ps2MouseDeviceRead mouse count

section Steps

theorem consoleInput_uses (buf : RingBuf) (e : InputEvent (List UInt8) UInt8) (buf' : RingBuf)
    (h : consoleInput.step buf e buf') : buf.Uses e.use buf' := by
  cases e with
  | input bytes pushed =>
      obtain ⟨rfl, rfl⟩ := h
      rfl
  | read count bytes =>
      obtain ⟨hempty, hread⟩ := h
      have hspec := (ringBufRead_spec hempty count).1
      rw [← hread] at hspec
      exact hspec

theorem keyboardInput_uses (kbd : Ps2Keyboard) (e : InputEvent (BitVec 8) KeyEvent) (kbd' : Ps2Keyboard)
    (h : keyboardInput.step kbd e kbd') : kbd.queue.Uses e.use kbd'.queue := by
  cases e with
  | input data pushed =>
      obtain ⟨rfl, rfl⟩ := h
      unfold Ps2Keyboard.irqHandler
      split
      · rfl
      · rfl
  | read count events =>
      obtain ⟨-, hread⟩ := h
      have hspec := kbd.queue.contents_popUntil (count / sizeofKeyEvent)
      obtain ⟨rfl, rfl⟩ := Prod.mk.inj hread
      exact hspec

theorem mouseInput_uses (mouse : Ps2Mouse) (e : InputEvent (BitVec 8) MouseEvent) (mouse' : Ps2Mouse)
    (h : mouseInput.step mouse e mouse') : mouse.queue.Uses e.use mouse'.queue := by
  cases e with
  | input data pushed =>
      obtain ⟨event, hirq, rfl⟩ := h
      unfold Ps2Mouse.irqHandler at hirq
      split at hirq
      · split at hirq
        · obtain ⟨rfl, rfl⟩ := Prod.mk.inj (Option.some.inj hirq)
          rfl
        · cases hirq
      · obtain ⟨rfl, rfl⟩ := Prod.mk.inj (Option.some.inj hirq)
        rfl
      · obtain ⟨rfl, rfl⟩ := Prod.mk.inj (Option.some.inj hirq)
        rfl
      · cases hirq
  | read count events =>
      obtain ⟨-, hread⟩ := h
      have hspec := mouse.queue.contents_popUntil (count / sizeofMouseEvent)
      obtain ⟨rfl, rfl⟩ := Prod.mk.inj hread
      exact hspec

end Steps

/-! ### Runs -/

/-- The console input buffer beside the newest bytes, and the event queues beside the newest events. -/
def consoleNewest : TransitionSystem (RingBuf × List UInt8) (InputEvent (List UInt8) UInt8) :=
  consoleInput.withNewest (BUF_CAPACITY - 1) InputEvent.use

def keyboardNewest : TransitionSystem (Ps2Keyboard × List KeyEvent) (InputEvent (BitVec 8) KeyEvent) :=
  keyboardInput.withNewest (QUEUE_SIZE - 1) InputEvent.use

def mouseNewest : TransitionSystem (Ps2Mouse × List MouseEvent) (InputEvent (BitVec 8) MouseEvent) :=
  mouseInput.withNewest (QUEUE_SIZE - 1) InputEvent.use

/-- A ring whose indices are both zero is empty. -/
theorem contents_of_zero {α : Type} {n : Nat} {r : CellRing α n} (hwrite : r.writeIdx = 0) (hread : r.readIdx = 0) :
    r.contents = [] :=
  (CellRing.isEmpty_iff_contents r).1 (hwrite.trans hread.symm)

/-- In every run of each of the three devices, the readers get the newest elements exactly when all pushed elements fit
    into the queue, or each time more are pushed the write index ends one cell behind the read index. -/
theorem input_queues_iff (buf buf' : RingBuf × List UInt8) :
    (∀ xs, consoleNewest.init buf → consoleNewest.Run buf xs buf' →
      ((∀ x ∈ xs, HasNewest id InputEvent.use x) ↔ ∀ x ∈ xs, x.before.1.Fits x.event.use)) ∧
    (∀ kbd xs kbd', keyboardNewest.init kbd → keyboardNewest.Run kbd xs kbd' →
      ((∀ x ∈ xs, HasNewest Ps2Keyboard.queue InputEvent.use x) ↔ ∀ x ∈ xs, x.before.1.queue.Fits x.event.use)) ∧
    (∀ mouse xs mouse', mouseNewest.init mouse → mouseNewest.Run mouse xs mouse' →
      ((∀ x ∈ xs, HasNewest Ps2Mouse.queue InputEvent.use x) ↔ ∀ x ∈ xs, x.before.1.queue.Fits x.event.use)) := by
  refine ⟨?_, ?_, ?_⟩
  · rintro xs ⟨⟨innerBuf, hbuf⟩, hnone⟩ run
    refine run.newest_iff id InputEvent.use consoleInput_uses ?_
    rw [hnone, hbuf]
    exact contents_ringBufInit innerBuf
  · rintro kbd xs kbd' ⟨⟨-, -, hwrite, hread⟩, hnone⟩ run
    refine run.newest_iff Ps2Keyboard.queue InputEvent.use keyboardInput_uses ?_
    rw [hnone]
    exact contents_of_zero hwrite hread
  · rintro mouse xs mouse' ⟨⟨-, hwrite, hread⟩, hnone⟩ run
    refine run.newest_iff Ps2Mouse.queue InputEvent.use mouseInput_uses ?_
    rw [hnone]
    exact contents_of_zero hwrite hread

/-! ### Typed bytes -/

section Typed

/-- A console input buffer before the first byte. -/
def emptyInput : RingBuf × List UInt8 := (ringBufInit fun _ => 0, [])

theorem consoleNewest_init : consoleNewest.init emptyInput := ⟨⟨_, rfl⟩, rfl⟩

theorem used_emptyInput : emptyInput.1.used = 0 := (CellRing.isEmpty_iff _).1 rfl

theorem consoleNewest_write (buf : RingBuf) (q bytes : List UInt8) :
    consoleNewest.step (buf, q) (.input bytes bytes)
      (buf.pushAll bytes, newest (BUF_CAPACITY - 1) q (.put bytes)) := by
  have hstep : consoleInput.step buf (.input bytes bytes) (buf.pushAll bytes) := ⟨rfl, rfl⟩
  exact TransitionSystem.withNewest_step hstep _ _ q

/-- Bytes that come one at a time. -/
theorem types_bytes (cs : List UInt8) :
    ∃ xs q, consoleNewest.Run emptyInput xs (emptyInput.1.pushAll cs, q) ∧
      xs.map Transition.event = cs.map (fun c => InputEvent.input [c] [c]) ∧
      (cs.length < BUF_CAPACITY → ∀ x ∈ xs, x.before.1.Fits x.event.use) := by
  induction cs using List.reverseRecOn with
  | nil => exact ⟨[], [], .nil _, rfl, by simp⟩
  | append_singleton cs c ih =>
      obtain ⟨xs, q, run, hevents, hfits⟩ := ih
      have hpush : emptyInput.1.pushAll (cs ++ [c]) = (emptyInput.1.pushAll cs).push c := List.foldl_append
      have hstep := consoleNewest_write (emptyInput.1.pushAll cs) q [c]
      rw [show (emptyInput.1.pushAll cs).pushAll [c] = emptyInput.1.pushAll (cs ++ [c]) from hpush.symm] at hstep
      refine ⟨_, _, run.snoc hstep, by simp [hevents], ?_⟩
      intro hlt x hx
      rw [List.length_append, List.length_singleton] at hlt
      rcases List.mem_append.1 hx with hx | hx
      · exact hfits (Nat.lt_of_succ_lt hlt) x hx
      · obtain rfl := List.mem_singleton.1 hx
        have hused : (emptyInput.1.pushAll cs).used ≤ cs.length := by
          rw [← CellRing.length_contents, CellRing.contents_pushAll, List.rtake, List.length_drop, List.length_append,
            CellRing.length_contents, used_emptyInput]
          omega
        refine .inl ?_
        simp only [List.length_singleton]
        omega

/-- A few bytes that nobody has read are all there. -/
theorem input_queues_typed :
    ∃ xs q, consoleNewest.Run emptyInput xs q ∧
      xs.map Transition.event = ['o'.toUInt8, 'k'.toUInt8].map (fun c => InputEvent.input [c] [c]) ∧
      ∀ x ∈ xs, HasNewest id InputEvent.use x := by
  obtain ⟨xs, q, run, hevents, hfits⟩ := types_bytes ['o'.toUInt8, 'k'.toUInt8]
  exact ⟨xs, _, run, hevents, ((input_queues_iff _ _).1 _ consoleNewest_init run).2 (hfits (by decide))⟩

/-- The byte that nobody has read, behind as many as there is room for, empties the buffer. -/
theorem input_queue_overflows :
    ∃ xs q, consoleNewest.Run emptyInput xs q ∧
      xs.map Transition.event = List.replicate BUF_CAPACITY (InputEvent.input ['a'.toUInt8] ['a'.toUInt8]) ∧
      ¬∀ x ∈ xs, HasNewest id InputEvent.use x := by
  generalize hc : 'a'.toUInt8 = c
  obtain ⟨xs, q, run, hevents, -⟩ := types_bytes (List.replicate (BUF_CAPACITY - 1) c)
  generalize hring : emptyInput.1.pushAll (List.replicate (BUF_CAPACITY - 1) c) = r at run
  have hfull : r.IsFull := by
    rw [CellRing.isFull_iff, ← hring, ← CellRing.length_contents, CellRing.contents_pushAll, List.rtake,
      List.length_drop, List.length_append, CellRing.length_contents, used_emptyInput, List.length_replicate]
    rfl
  refine ⟨_, _, run.snoc (consoleNewest_write r q [c]), ?_, ?_⟩
  · rw [List.map_append, hevents, List.map_replicate]
    exact List.replicate_succ'.symm
  · intro hnewest
    have hlast := List.forall_mem_singleton.1 (List.forall_mem_append.1 hnewest).2
    have hempty : (r.pushAll [c]).contents = [] := CellRing.contents_push_full hfull c
    simp only [HasNewest, newest, id_eq, hempty] at hlast
    have hlength := congrArg List.length hlast.2
    have hroom : 1 ≤ BUF_CAPACITY - 1 := by decide
    rw [List.rtake, List.length_drop, List.length_append, List.length_singleton, List.length_nil] at hlength
    omega

end Typed

end Chaotix
