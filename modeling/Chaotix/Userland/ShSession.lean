/-
Module: Chaotix.Userland.ShSession
Layer: Userland
Purpose: The shell on the kernel. A process runs the code of the shell, or some other program. The shell's calls on
  descriptors are the calls of the kernel over the tables and descriptions of all processes; another program makes any of
  these calls. The steps of the processes are interleaved in any way, and a process may be killed at any time. Processes
  that no longer run the shell are followed only as far as their descriptors go; that a program moves a process of the
  shell to another group is left out. A description is named by its block, by how often the block has been used, and by
  its inode.
Imports: Chaotix.Userland.ShMeaning, Chaotix.Kernel.FileDescriptors
Trusted boundary: human-reviewed model of how the calls of `userland/sh.c` reach `kernel/syscall/fs.c`, of the results of
  `sys_pipe`, and of the pids and groups in `sys_fork`
Main exports: sysPipeEnds, Opening, Files.view, KernelCall, recordOf, ShSession, SessionEvent, sessionSystem
-/
import Chaotix.Userland.ShMeaning
import Chaotix.Kernel.FileDescriptors

namespace Chaotix

section Pipes

variable {P D N S : Type} [DecidableEq P] [DecidableEq D] [DecidableEq N] [DecidableEq S]

/-- The end of `sys_pipe`, with the two descriptors that it stores. -/
def pipeAllocEnds (p : P) (reader writer : D) : Kernel (Files P D N S) (Except Errno (ℕ × ℕ)) := do
  match ← processAllocFileDescriptor p (-1) reader with
  | .error e =>
      fileDescriptionClose reader
      fileDescriptionClose writer
      return .error e
  | .ok readerFd =>
      match ← processAllocFileDescriptor p (-1) writer with
      | .error e =>
          fileDescriptionClose reader
          fileDescriptionClose writer
          let _ ← processFreeFileDescriptor p readerFd
          return .error e
      | .ok writerFd => return .ok (readerFd, writerFd)

/-- `sys_pipe`, with the two descriptors that it stores in `fifofd`. -/
def sysPipeEnds (p : P) (fifo : CreateChoice N) (readerChoice writerChoice : OpenChoice D) :
    Kernel (Files P D N S) (Except Errno (ℕ × ℕ)) := do
  match ← fifoCreateInode fifo with
  | .error e => return .error e
  | .ok n =>
      inodeRef (.node n)
      match ← inodeOpen (.node n) O_RDONLY readerChoice with
      | .error e =>
          inodeUnref (.node n)
          return .error e
      | .ok reader =>
          match ← inodeOpen (.node n) O_WRONLY writerChoice with
          | .error e =>
              fileDescriptionClose reader
              return .error e
          | .ok writer => pipeAllocEnds p reader writer

end Pipes

/-- One use of a block for a description, with the inode that it was opened for. -/
structure Opening (D N S : Type) where
  desc : D
  time : ℕ
  inode : InodeRef N S

section View

variable {P D N S : Type}

/-- The current use of a block. -/
def Files.opening (f : Files P D N S) (d : D) : Opening D N S := ⟨d, f.opened d, (f.desc d).inode⟩

/-- The table of a process, with what its slots lead to. -/
def Files.view (f : Files P D N S) (p : P) (fd : ℕ) : Option (Opening D N S) :=
  if fd < OPEN_MAX then (f.entries p fd).map f.opening else none

/-- The openings up to now. -/
def Files.past (f : Files P D N S) : Set (Opening D N S) := { h | h.time ≤ f.opened h.desc }

/-- The two ends of a pipe lead to one inode. -/
def PipeEnds (reader writer : Opening D N S) : Prop := ∃ n, reader.inode = .node n ∧ writer.inode = .node n

end View

namespace Sh

/-- What the wrappers of the C library make of the result of a system call. -/
def returned : Except Errno ℕ → ℤ
  | .ok n => n
  | .error _ => -1

section Sessions

variable {P D N S : Type} [DecidableEq P] [DecidableEq D] [DecidableEq N] [DecidableEq S]

/-- What the kernel does for a call of the shell, but for `execvpe`, `exit` and `abort`: the call on descriptors that it
    is, if it is one, with the answer and the tables afterwards. -/
inductive KernelCall (p : P) (pid : ℕ) (f : Files P D N S) :
    (c : ShCall) → c.Answer → Option (FileCall P D N S) → Files P D N S → Prop where
  | pipe {fifo reader writer r f'} : sysPipeEnds p fifo reader writer f = .ok (r, f') →
      KernelCall p pid f .pipe r.toOption (some (.pipe fifo reader writer)) f'
  | dup {oldfd r f'} : sysFcntl p oldfd .F_DUPFD 0 f = .ok (r, f') →
      KernelCall p pid f (.dup oldfd) (returned r) (some (.fcntl oldfd .F_DUPFD 0)) f'
  | dup2 {oldfd newfd r f'} : sysDup2 p oldfd (newfd : ℕ) f = .ok (r, f') →
      KernelCall p pid f (.dup2 oldfd newfd) (returned r) (some (.dup2 oldfd newfd)) f'
  | close {fd r f'} : sysClose p fd f = .ok (r, f') →
      KernelCall p pid f (.close fd) (returned r) (some (.close fd)) f'
  | openFile {path flags outcome choice r f'} : sysOpen p outcome flags choice f = .ok (r, f') →
      KernelCall p pid f (.openFile path flags) (returned r) (some (.open outcome flags choice)) f'
  | waitpid (child : ℕ) (answer : ℤ × Bool) : KernelCall p pid f (.waitpid child) answer none f
  | reap : KernelCall p pid f .reap () none f
  | chdir (path : CString) (ret : ℤ) : KernelCall p pid f (.chdir path) ret none f
  | getpid : KernelCall p pid f .getpid pid none f
  | setpgid (pgid : ℕ) : KernelCall p pid f (.setpgid pgid) (0 : ℤ) none f
  | setpgidFails (pgid : ℕ) : KernelCall p pid f (.setpgid pgid) (-1 : ℤ) none f
  | tcsetpgrp (pgid : ℕ) (ret : ℤ) : KernelCall p pid f (.tcsetpgrp pgid) ret none f

/-- What can be seen of a call, from its answer and from the tables of the process before and after it. -/
def recordOf {H : Type} (before after : ℕ → Option H) : (c : ShCall) → c.Answer → Multiset (ShEvent H)
  | .pipe, some (i, j) =>
      match after i, after j with
      | some reader, some writer => {.pipes reader writer}
      | _, _ => 0
  | .openFile path _, ret =>
      if (ret : ℤ) < 0 then 0
      else
        match after ret.toNat with
        | some file => {.opens path file}
        | none => 0
  | .waitpid _, _ => {.wait before}
  | .tcsetpgrp pgid, _ => {.terminal pgid}
  | _, _ => 0

/-- The group of a process after a call. -/
def groupAfter (pid pgid : ℕ) : (c : ShCall) → c.Answer → ℕ
  | .setpgid new, ret => if (ret : ℤ) = 0 then if new = 0 then pid else new else pgid
  | _, _ => pgid

/-- The descriptors of all processes, and for each process its number, its group, and its code if it runs the shell. -/
structure ShSession (P D N S : Type) where
  files : Files P D N S
  pid : P → ℕ
  pgid : P → ℕ
  code : P → Option (Sh Empty)

/-- A step of a process: the call on descriptors that it is, if it is one, and what can be seen of the shell. -/
structure SessionEvent (P D N S : Type) where
  process : P
  call : Option (FileCall P D N S)
  seen : Multiset (ShEvent (Opening D N S))

/-- One step of one of the processes. -/
inductive SessionStep : ShSession P D N S → SessionEvent P D N S → ShSession P D N S → Prop where
  | call {s : ShSession P D N S} {p c next a call f'} : s.code p = some (.call c next) →
      KernelCall p (s.pid p) s.files c a call f' → (∀ k, call = some k → k.Fresh s.files) →
      SessionStep s ⟨p, call, recordOf (s.files.view p) (f'.view p) c a⟩
        { s with
          files := f'
          pgid := Function.update s.pgid p (groupAfter (s.pid p) (s.pgid p) c a)
          code := Function.update s.code p (some (next a)) }
  | launches {s : ShSession P D N S} {p argv next} : s.code p = some (.call (.execvpe argv) next) →
      SessionStep s ⟨p, none, {.launch (s.pid p) (s.pgid p) argv (s.files.view p)}⟩
        { s with code := Function.update s.code p none }
  | execvpeFails {s : ShSession P D N S} {p argv next} : s.code p = some (.call (.execvpe argv) next) →
      SessionStep s ⟨p, none, 0⟩ { s with code := Function.update s.code p (some (next (-1 : ℤ))) }
  | forks {s : ShSession P D N S} {p child next choice pid f'} : s.code p = some (.fork child next) →
      FileCall.Fresh s.files (.fork choice : FileCall P D N S) → sysFork p choice s.files = .ok (.ok pid, f') → 0 < pid →
      SessionStep s ⟨p, some (.fork choice), 0⟩
        { files := f'
          pid := Function.update s.pid choice.child pid
          pgid := Function.update s.pgid choice.child (s.pgid p)
          code := Function.update (Function.update s.code p (some (next (some pid)))) choice.child (some child) }
  | forkFails {s : ShSession P D N S} {p child next choice e f'} : s.code p = some (.fork child next) →
      FileCall.Fresh s.files (.fork choice : FileCall P D N S) → sysFork p choice s.files = .ok (.error e, f') →
      SessionStep s ⟨p, some (.fork choice), 0⟩
        { s with files := f', code := Function.update s.code p (some (next none)) }
  | dies {s : ShSession P D N S} {p r f'} : s.files.registered p = true → processExit p s.files = .ok (r, f') →
      SessionStep s ⟨p, some .exit, 0⟩ { s with files := f', code := Function.update s.code p none }
  | program {s : ShSession P D N S} {p call r f' pid' pgid'} : s.code p = none → s.files.registered p = true →
      call.Fresh s.files → FileCall.run p call s.files = .ok (r, f') →
      (∀ q, s.code q ≠ none → pid' q = s.pid q ∧ pgid' q = s.pgid q) →
      SessionStep s ⟨p, some call, 0⟩ { s with files := f', pid := pid', pgid := pgid' }

/-- One process runs the shell for some lines, and nothing else does. -/
def ShSession.Begins (home : Option CString) (lines : List Command) (p : P) (s : ShSession P D N S) : Prop :=
  s.files.registered p = true ∧ s.code = Function.update (fun _ => none) p (some (runLines home lines))

/-- The sessions of a shell. -/
def sessionSystem (P D N S : Type) [DecidableEq P] [DecidableEq D] [DecidableEq N] [DecidableEq S]
    (home : Option CString) (lines : List Command) : TransitionSystem (ShSession P D N S) (SessionEvent P D N S) where
  init s := ∃ p, s.Begins home lines p
  step := SessionStep

end Sessions

end Sh

end Chaotix
