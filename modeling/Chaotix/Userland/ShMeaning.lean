/-
Module: Chaotix.Userland.ShMeaning
Layer: Userland
Purpose: What a command of the shell means, apart from how it is run: which programs begin, in which process group, and
  with which table of descriptors. A `|` stands for one pipe. The command on its left gets the write end as its standard
  output, and the one on its right the read end as its standard input; what was the standard input is kept in a free slot
  as long as the right command runs. A `>` stands for one opening of the file, as the standard output.
Imports: Chaotix.Userland.ShRun
Trusted boundary: the statement of what a command means
Main exports: ShEvent.Holds, ShProcess.Later, programEvents, Meaning, SessionMeaning
-/
import Chaotix.Userland.ShRun

namespace Chaotix

namespace Sh

variable {H : Type}

/-- A process that has the name in its table begins a program, or waits. -/
def ShEvent.Holds (h : H) : ShEvent H → Prop
  | .launch _ _ _ table => ∃ i, table i = some h
  | .wait table => ∃ i, table i = some h
  | _ => False

/-- The process is as it was, and has come across more names. -/
structure ShProcess.Later (s s' : ShProcess H) : Prop where
  pid : s'.pid = s.pid
  pgid : s'.pgid = s.pgid
  table : s'.table = s.table
  seen : s.seen ⊆ s'.seen

/-- The words are run by the shell itself. -/
def IsBuiltin (words : List Word) : Prop :=
  ∃ w ∈ words.head?, w.Is ['e', 'x', 'i', 't'] ∨ w.Is ['c', 'd']

/-- A program that begins in a process with the number: its group, which is that of the pipeline or a new one, gets the
    terminal when it runs in the foreground. -/
def programEvents (words : List Word) (ctx : RunContext) (pid : ℕ) (table : ℕ → Option H) : Multiset (ShEvent H) :=
  (if ctx.foreground then {.terminal (ctx.groupOf pid).pgid} else 0) +
    {.launch pid (ctx.groupOf pid).pgid words table}

/-- The state in which the command on the left of a `|` runs. -/
def leftOf (s : ShProcess H) (reader writer : H) (pid : ℕ) : ShProcess H :=
  { (((s.see reader).see writer).put STDOUT_FILENO (some writer)) with pid := pid }

/-- The state in which the command on the right of a `|` runs, with the standard input kept in a slot. -/
def rightOf (s : ShProcess H) (reader writer : H) (saved : ℕ) : ShProcess H :=
  (((s.see reader).see writer).put saved (s.table STDIN_FILENO)).put STDIN_FILENO (some reader)

/-- The state in which a command with a `>` behind it runs, with the standard output kept in a slot. -/
def redirectedTo (s : ShProcess H) (file : H) (saved : ℕ) : ShProcess H :=
  ((s.see file).put saved (s.table STDOUT_FILENO)).put STDOUT_FILENO (some file)

/-- What may be seen of a command up to some point: each of its programs has begun, or has not. -/
inductive Meaning (Ends : H → H → Prop) : Command → RunContext → ShProcess H → Multiset (ShEvent H) → Prop where
  | nothing (c : Command) (ctx : RunContext) (s : ShProcess H) : Meaning Ends c ctx s 0
  | execute {words ctx s pid E} : ¬IsBuiltin words → 0 < pid →
      E ≤ programEvents words ctx pid s.table + {.wait s.table} → Meaning Ends (.execute words) ctx s E
  | juxtaposition {left right ctx s s' E E'} : Meaning Ends left ctx s E → s.Later s' → Meaning Ends right ctx s' E' →
      Meaning Ends (.juxtaposition left right) ctx s (E + E')
  | pipeBegun {left right ctx s reader writer} : reader ∉ s.seen → writer ∉ s.seen → reader ≠ writer →
      Ends reader writer → Meaning Ends (.pipe left right) ctx s {.pipes reader writer}
  | pipe {left right ctx s reader writer pid saved E E' waited} : reader ∉ s.seen → writer ∉ s.seen → reader ≠ writer →
      Ends reader writer → 0 < pid → saved < OPEN_MAX → s.table saved = none →
      Meaning Ends left (ctx.groupOf pid) (leftOf s reader writer pid) E →
      Meaning Ends right (ctx.groupOf pid) (rightOf s reader writer saved) E' → (∀ e ∈ E', ¬e.Holds writer) →
      waited ≤ {.wait s.table} → Meaning Ends (.pipe left right) ctx s ({.pipes reader writer} + (E + (E' + waited)))
  | redirect {source target ctx s file saved E} : file ∉ s.seen → saved < OPEN_MAX → s.table saved = none →
      Meaning Ends source ctx (redirectedTo s file saved) E →
      Meaning Ends (.redirect source target) ctx s ({.opens target file} + E)
  | background {inner ctx s pid E} : 0 < pid → Meaning Ends inner { pgid := pid, foreground := false } { s with pid := pid } E →
      Meaning Ends (.background inner) ctx s E

/-- What may be seen of a session: each line in turn runs in the state in which the shell has begun. -/
inductive SessionMeaning (Ends : H → H → Prop) : List Command → ShProcess H → Multiset (ShEvent H) → Prop where
  | nothing (lines : List Command) (s : ShProcess H) : SessionMeaning Ends lines s 0
  | line {line lines s s' E terminal E'} : Meaning Ends line { pgid := 0, foreground := true } s E →
      terminal ≤ {.terminal s.pid} → s.Later s' → SessionMeaning Ends lines s' E' →
      SessionMeaning Ends (line :: lines) s (E + (terminal + E'))

/-- How many free slots a command needs. -/
def Command.slots : Command → ℕ
  | .execute _ => 0
  | .juxtaposition left right => max left.slots right.slots
  | .pipe left right => max 3 (max left.slots (right.slots + 1))
  | .redirect source _ => max 2 (source.slots + 1)
  | .background inner => inner.slots

/-- The number of the free slots of a table. -/
def freeSlots (table : ℕ → Option H) : ℕ := ((Finset.range OPEN_MAX).filter fun i => (table i).isNone).card

/-- The standard descriptors are open, a number of slots is free, and everything in the table has been come across. -/
structure ShProcess.Ready (s : ShProcess H) (slots : ℕ) : Prop where
  stdin : s.table STDIN_FILENO ≠ none
  stdout : s.table STDOUT_FILENO ≠ none
  room : slots ≤ freeSlots s.table
  seen : ∀ i h, s.table i = some h → h ∈ s.seen

end Sh

end Chaotix
