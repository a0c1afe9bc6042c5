/-
Module: Chaotix.Userland.ShRun
Layer: Userland
Purpose: How the shell runs a command. The `run` functions are programs that make system calls and fork; what a call
  does is said for the process that makes it, over its own table of descriptors. What is behind a descriptor is a name
  that is used for one opening only. Each process remembers which of them it and its parents have come across, so that a
  name that is new to it can be told. What is written to `stderr` is left out, and so is `errno`; `envp` is handed on as
  it is. The loop of `main` that reaps background processes is one call, and so is the search for a program along `PATH`.
Imports: Mathlib.Tactic, Chaotix.Lib.Forking, Chaotix.Kernel.FbConsole, Chaotix.Userland.ShGrammar
Trusted boundary: human-reviewed model of the `run` functions and of the loop of `main` of `userland/sh.c`
Main exports: ShCall, ShEvent, ShProcess, LowestFree, ShStep, RunContext, runExecute, runPipe, runRedirect,
  runBackground, runCommand, runLines
-/
import Mathlib.Tactic
import Chaotix.Lib.Forking
import Chaotix.Kernel.FbConsole
import Chaotix.Userland.ShGrammar

namespace Chaotix

namespace Sh

/-! ### Calls -/

abbrev STDIN_FILENO : ℕ := 0

abbrev STDOUT_FILENO : ℕ := 1

/-- The calls of the shell, without those that only write to `stderr`. -/
inductive ShCall where
  | pipe
  | dup (oldfd : ℤ)
  | dup2 (oldfd : ℤ) (newfd : ℕ)
  | close (fd : ℤ)
  | openFile (path : Word) (flags : ℕ)
  | waitpid (pid : ℕ)
  | reap
  | chdir (path : CString)
  | getpid
  | setpgid (pgid : ℕ)
  | tcsetpgrp (pgid : ℕ)
  | execvpe (argv : List Word)
  | exit (status : ℕ)
  | abort

/-- What a call returns. `pipe` stores the two ends, and `waitpid` whether a signal has killed the child. -/
abbrev ShCall.Answer : ShCall → Type
  | .pipe => Option (ℕ × ℕ)
  | .waitpid _ => ℤ × Bool
  | .getpid => ℕ
  | .reap | .exit _ | .abort => Unit
  | _ => ℤ

/-- The code of the shell. -/
abbrev Sh (α : Type) := Proc ShCall ShCall.Answer α

/-- `exit`. -/
def exit {α : Type} (status : ℕ) : Sh α := .call (.exit status) fun _ => .stop

/-- `abort`. -/
def abort {α : Type} : Sh α := .call .abort fun _ => .stop

/-- `fork`, with the code of the child, which does not come back. -/
def fork (child : Sh Empty) : Sh (Option ℕ) := .fork child .pure

abbrev pipe : Sh (Option (ℕ × ℕ)) := .call .pipe .pure

abbrev dup (oldfd : ℤ) : Sh ℤ := .call (.dup oldfd) .pure

abbrev dup2 (oldfd : ℤ) (newfd : ℕ) : Sh ℤ := .call (.dup2 oldfd newfd) .pure

abbrev close (fd : ℤ) : Sh ℤ := .call (.close fd) .pure

abbrev openFile (path : Word) (flags : ℕ) : Sh ℤ := .call (.openFile path flags) .pure

abbrev waitpid (pid : ℕ) : Sh (ℤ × Bool) := .call (.waitpid pid) .pure

abbrev reap : Sh Unit := .call .reap .pure

abbrev chdir (path : CString) : Sh ℤ := .call (.chdir path) .pure

abbrev getpid : Sh ℕ := .call .getpid .pure

abbrev setpgid (pgid : ℕ) : Sh ℤ := .call (.setpgid pgid) .pure

abbrev tcsetpgrp (pgid : ℕ) : Sh ℤ := .call (.tcsetpgrp pgid) .pure

abbrev execvpe (argv : List Word) : Sh ℤ := .call (.execvpe argv) .pure

/-! ### What a call does -/

variable {H : Type}

/-- What the processes of the shell do that can be seen from outside: a pipe is made, a file is opened for a redirection,
    a group gets the terminal, a program begins, and a process waits. -/
inductive ShEvent (H : Type) where
  | pipes (reader writer : H)
  | opens (path : Word) (file : H)
  | terminal (pgid : ℕ)
  | launch (pid pgid : ℕ) (argv : List Word) (table : ℕ → Option H)
  | wait (table : ℕ → Option H)

/-- A process: its number and group, its table of descriptors, and all the names it has come across. -/
structure ShProcess (H : Type) where
  pid : ℕ
  pgid : ℕ
  table : ℕ → Option H
  seen : Set H

/-- What a descriptor stands for. -/
def ShProcess.at (s : ShProcess H) (fd : ℤ) : Option H :=
  if fd < 0 ∨ (OPEN_MAX : ℤ) ≤ fd then none else s.table fd.toNat

/-- The slot that a new descriptor gets. -/
def LowestFree (table : ℕ → Option H) (i : ℕ) : Prop :=
  i < OPEN_MAX ∧ table i = none ∧ ∀ j, j < i → table j ≠ none

def ShProcess.Full (s : ShProcess H) : Prop := ∀ i, i < OPEN_MAX → s.table i ≠ none

/-- A slot is written. -/
def ShProcess.put (s : ShProcess H) (fd : ℕ) (entry : Option H) : ShProcess H :=
  { s with table := Function.update s.table fd entry }

/-- A name is come across. -/
def ShProcess.see (s : ShProcess H) (h : H) : ShProcess H := { s with seen := insert h s.seen }

/-- The calls, with what they return to a process and what they do to it. A file that is opened and the two ends of a
    pipe are new. `waitpid`, `chdir`, `tcsetpgrp` and the search for a program may return anything, and any call that
    allocates may fail. -/
inductive ShStep (Ends : H → H → Prop) : ShProcess H → (c : ShCall) → c.Answer → Multiset (ShEvent H) → ShProcess H → Prop
  where
  | pipe {s : ShProcess H} {i j : ℕ} {reader writer : H} : LowestFree s.table i →
      LowestFree (s.put i (some reader)).table j → reader ∉ s.seen → writer ∉ s.seen → reader ≠ writer →
      Ends reader writer → ShStep Ends s .pipe (some (i, j)) {.pipes reader writer}
        ((((s.see reader).see writer).put i (some reader)).put j (some writer))
  | pipeFails (s : ShProcess H) : ShStep Ends s .pipe none 0 s
  | dup {s : ShProcess H} {oldfd : ℤ} {h : H} {i : ℕ} : s.at oldfd = some h → LowestFree s.table i →
      ShStep Ends s (.dup oldfd) (i : ℤ) 0 (s.put i (some h))
  | dupFails {s : ShProcess H} {oldfd : ℤ} : s.at oldfd = none ∨ s.Full → ShStep Ends s (.dup oldfd) (-1 : ℤ) 0 s
  | dup2 {s : ShProcess H} {oldfd : ℤ} {newfd : ℕ} {h : H} : s.at oldfd = some h → newfd < OPEN_MAX →
      ShStep Ends s (.dup2 oldfd newfd) (newfd : ℤ) 0 (s.put newfd (some h))
  | dup2Fails {s : ShProcess H} {oldfd : ℤ} {newfd : ℕ} : s.at oldfd = none ∨ OPEN_MAX ≤ newfd →
      ShStep Ends s (.dup2 oldfd newfd) (-1 : ℤ) 0 s
  | close {s : ShProcess H} {fd : ℤ} : s.at fd ≠ none → ShStep Ends s (.close fd) (0 : ℤ) 0 (s.put fd.toNat none)
  | closeFails {s : ShProcess H} {fd : ℤ} : s.at fd = none → ShStep Ends s (.close fd) (-1 : ℤ) 0 s
  | openFile {s : ShProcess H} {path : Word} {flags i : ℕ} {h : H} : LowestFree s.table i → h ∉ s.seen →
      ShStep Ends s (.openFile path flags) (i : ℤ) {.opens path h} ((s.see h).put i (some h))
  | openFileFails (s : ShProcess H) (path : Word) (flags : ℕ) : ShStep Ends s (.openFile path flags) (-1 : ℤ) 0 s
  | waitpid (s : ShProcess H) (pid : ℕ) (ret : ℤ) (signaled : Bool) :
      ShStep Ends s (.waitpid pid) (ret, signaled) {.wait s.table} s
  | reap (s : ShProcess H) : ShStep Ends s .reap () 0 s
  | chdir (s : ShProcess H) (path : CString) (ret : ℤ) : ShStep Ends s (.chdir path) ret 0 s
  | getpid (s : ShProcess H) : ShStep Ends s .getpid s.pid 0 s
  | setpgid (s : ShProcess H) (pgid : ℕ) :
      ShStep Ends s (.setpgid pgid) (0 : ℤ) 0 { s with pgid := if pgid = 0 then s.pid else pgid }
  | setpgidFails (s : ShProcess H) (pgid : ℕ) : ShStep Ends s (.setpgid pgid) (-1 : ℤ) 0 s
  | tcsetpgrp (s : ShProcess H) (pgid : ℕ) (ret : ℤ) : ShStep Ends s (.tcsetpgrp pgid) ret {.terminal pgid} s
  | execvpe (s : ShProcess H) (argv : List Word) :
      ShStep Ends s (.execvpe argv) (0 : ℤ) {.launch s.pid s.pgid argv s.table} s
  | execvpeFails (s : ShProcess H) (argv : List Word) : ShStep Ends s (.execvpe argv) (-1 : ℤ) 0 s
  | exit (s : ShProcess H) (status : ℕ) : ShStep Ends s (.exit status) () 0 s
  | abort (s : ShProcess H) : ShStep Ends s .abort () 0 s

/-- The calls of the shell; a child has the table of its parent. -/
def shCalls (Ends : H → H → Prop) : Calls ShCall ShCall.Answer (ShProcess H) (ShEvent H) where
  step := ShStep Ends
  child s pid s' := 0 < pid ∧ s' = { s with pid := pid }

/-! ### The `run` functions -/

abbrev RUN_ERROR : ℤ := -1

abbrev RUN_SIGNALED : ℤ := -2

/-- `struct run_context`, without `envp`. -/
structure RunContext where
  pgid : ℕ
  foreground : Bool
deriving DecidableEq, Repr

/-- A word that is spelled with the characters. -/
def Word.Is (w : Word) (chars : List Char) : Prop := w.chars = chars.map Char.toUInt8

instance (w : Word) (chars : List Char) : Decidable (w.Is chars) := inferInstanceAs (Decidable (_ = _))

/-- `if (!ctx.pgid) ctx.pgid = getpid();` -/
def groupOfSelf (ctx : RunContext) : Sh RunContext :=
  if ctx.pgid = 0 then do
    let pid ← getpid
    return { ctx with pgid := pid }
  else return ctx

/-- `if (!ctx.pgid) ctx.pgid = pid;` -/
def RunContext.groupOf (ctx : RunContext) (pid : ℕ) : RunContext := if ctx.pgid = 0 then { ctx with pgid := pid } else ctx

/-- `if (ctx.foreground) tcsetpgrp(STDERR_FILENO, ctx.pgid);` -/
def takeTerminal (ctx : RunContext) : Sh Unit :=
  if ctx.foreground then do
    let _ ← tcsetpgrp ctx.pgid
  else return ()

/-- The child of `run_execute`. -/
def executeChild (argv : List Word) (ctx : RunContext) : Sh Empty := do
  let ctx ← groupOfSelf ctx
  if (← setpgid ctx.pgid) < 0 then abort
  else
    takeTerminal ctx
    if (← execvpe argv) < 0 then abort
    else .stop

/-- `cd`. `home` is what `HOME` is set to. -/
def runCd (home : Option CString) : List Word → Sh ℤ
  | w :: _ => chdir w.str
  | [] =>
      match home with
      | some path => chdir path
      | none => return 0

/-- `run_execute`. A node of the parser has at least one word. -/
def runExecute (home : Option CString) : List Word → RunContext → Sh ℤ
  | [], _ => .stop
  | argv₀ :: args, ctx =>
      if argv₀.Is ['e', 'x', 'i', 't'] then
        exit (match args with | w :: _ => FbConsole.atoi w.chars | [] => 0)
      else if argv₀.Is ['c', 'd'] then runCd home args
      else do
        match ← fork (executeChild (argv₀ :: args) ctx) with
        | none => return RUN_ERROR
        | some pid => do
            let (ret, signaled) ← waitpid pid
            if ret < 0 then return RUN_ERROR
            else if signaled then return RUN_SIGNALED
            else return 0

/-- `run_juxtaposition`. -/
def runJuxtaposition (left right : RunContext → Sh ℤ) (ctx : RunContext) : Sh ℤ := do
  let rc ← left ctx
  if rc < 0 then return rc
  else right ctx

/-- The child of `run_pipe`. -/
def pipeChild (left : RunContext → Sh ℤ) (reader writer : ℕ) (ctx : RunContext) : Sh Empty := do
  let _ ← dup2 writer STDOUT_FILENO
  let _ ← close reader
  let _ ← close writer
  let ctx ← groupOfSelf ctx
  if (← left ctx) = RUN_ERROR then abort
  else
    let _ ← close STDOUT_FILENO
    exit 0

/-- The end of `run_pipe` and of `run_redirect`: a standard descriptor is what it was before. -/
def restore (saved : ℤ) (fd : ℕ) : Sh Unit := do
  let _ ← dup2 saved fd
  let _ ← close saved

/-- The rest of `run_pipe`, behind the fork. -/
def pipeParent (right : RunContext → Sh ℤ) (reader writer pid : ℕ) (ctx : RunContext) : Sh ℤ := do
  let savedStdin ← dup STDIN_FILENO
  let _ ← dup2 reader STDIN_FILENO
  let _ ← close reader
  let _ ← close writer
  let rc ← right (ctx.groupOf pid)
  restore savedStdin STDIN_FILENO
  if rc < 0 then return rc
  else do
    let (ret, _) ← waitpid pid
    return ret

/-- `run_pipe`. -/
def runPipe (left right : RunContext → Sh ℤ) (ctx : RunContext) : Sh ℤ := do
  match ← pipe with
  | none => return RUN_ERROR
  | some (reader, writer) => do
      match ← fork (pipeChild left reader writer ctx) with
      | none => return RUN_ERROR
      | some pid => pipeParent right reader writer pid ctx

/-- `run_redirect`. -/
def runRedirect (source : RunContext → Sh ℤ) (target : Word) (ctx : RunContext) : Sh ℤ := do
  let fd ← openFile target (O_WRONLY ||| O_CREAT)
  if fd < 0 then return RUN_ERROR
  else do
    let savedStdout ← dup STDOUT_FILENO
    let _ ← dup2 fd STDOUT_FILENO
    let _ ← close fd
    let rc ← source ctx
    restore savedStdout STDOUT_FILENO
    return rc

/-- The child of `run_background`. -/
def backgroundChild (inner : RunContext → Sh ℤ) : Sh Empty := do
  let pid ← getpid
  if (← inner { pgid := pid, foreground := false }) = RUN_ERROR then abort
  else exit 0

/-- `run_background`. -/
def runBackground (inner : RunContext → Sh ℤ) : Sh ℤ := do
  match ← fork (backgroundChild inner) with
  | none => return RUN_ERROR
  | some _ => return 0

/-- `run_command`. -/
def runCommand (home : Option CString) : Command → RunContext → Sh ℤ
  | .execute words => runExecute home words
  | .juxtaposition left right => runJuxtaposition (runCommand home left) (runCommand home right)
  | .pipe left right => runPipe (runCommand home left) (runCommand home right)
  | .redirect source target => runRedirect (runCommand home source) target
  | .background inner => fun _ => runBackground (runCommand home inner)

/-- The loop of `main` over the lines that the parser accepts. Behind the last one the shell waits for more. -/
def runLines (home : Option CString) : List Command → Sh Empty
  | [] => .stop
  | line :: lines => do
      let _ ← reap
      if (← runCommand home line { pgid := 0, foreground := true }) = RUN_ERROR then exit 1
      else do
        let pid ← getpid
        if (← tcsetpgrp pid) < 0 then exit 1
        else runLines home lines

end Sh

end Chaotix
