/-
Module: Chaotix.Kernel.ProcfsRoot
Layer: Kernel
Purpose: The root directory of procfs and one open description of it, while processes come and go. A call of `getdents`
  lists the fixed items first; then the offset is the number of the process last listed, behind the count of the items.
  The walk over the processes runs with interrupts disabled and nothing else in a call looks at them, so a call is one
  step.
Imports: Mathlib.Data.Nat.Digits.Defs, Chaotix.Kernel.Getdents, Chaotix.Kernel.Scheduler
Trusted boundary: human-reviewed model of `root_items` and `procfs_root_getdents` of `fs/procfs/root.c`
Main exports: rootItems, Pid, pidName, procfsRootGetdents, ProcListing, ProcEvent, ProcStep, procListingSystem
-/
import Mathlib.Data.Nat.Digits.Defs
import Chaotix.Kernel.Getdents
import Chaotix.Kernel.Scheduler

namespace Chaotix

/-- `root_items`, by their names. -/
def rootItems : List CString :=
  [⟨"cmdline".toList.map Char.toUInt8, List.forall_iff_forall_mem.1 (by decide)⟩,
    ⟨"meminfo".toList.map Char.toUInt8, List.forall_iff_forall_mem.1 (by decide)⟩,
    ⟨"uptime".toList.map Char.toUInt8, List.forall_iff_forall_mem.1 (by decide)⟩]

/-- `NUM_ITEMS`. -/
abbrev NUM_ITEMS : Nat := rootItems.length

/-- `node->children`, after `add_item` for each item. -/
def rootChildren : List (Dentry CString FileType) := rootItems.map fun name => { name := name, inode := .S_IFREG }

/-- `pid_t`, as far as it is not negative. -/
abbrev Pid := Fin (2 ^ 31)

/-- The decimal digits of a number, the highest first. -/
def decimalDigits (n : Nat) : List Nat := if n = 0 then [0] else (Nat.digits 10 n).reverse

/-- `snprintf(name, sizeof(name), "%d", it->pid)`, where a name has 16 bytes. -/
def pidName (pid : Pid) : CString where
  chars := ((decimalDigits pid).map fun d => UInt8.ofNat ('0'.toNat + d % 10)).take 15
  noNul := by
    intro c hc
    obtain ⟨d, -, rfl⟩ := List.mem_map.1 (List.mem_of_mem_take hc)
    have hlt := Nat.mod_lt d (by decide : 0 < 10)
    interval_cases d % 10 <;> decide

/-- The loop of `procfs_root_getdents` that lists processes. -/
def procfsProcessLoop : List Pid → GetdentsCtx → Nat → GetdentsCtx × Nat
  | [], ctx, offset => (ctx, offset)
  | it :: rest, ctx, offset =>
      let (stored, ctx) := getdentsCallback ctx (pidName it) (modeToDirentType .S_IFDIR)
      if stored then procfsProcessLoop rest ctx (it + NUM_ITEMS) else (ctx, offset)

/-- `procfs_root_getdents`. It always returns zero. The caller is a process, so the walk never begins at `NULL`. -/
def procfsRootGetdents (allProcesses : List Pid) (ctx : GetdentsCtx) (offset : Nat) : GetdentsCtx × Nat :=
  let (ctx, offset) := if offset < NUM_ITEMS then dentryGetdents rootChildren ctx offset else (ctx, offset)
  if offset < NUM_ITEMS then (ctx, offset)
  else
    let offsetPid := offset - NUM_ITEMS
    procfsProcessLoop (allProcesses.dropWhile fun it => it ≤ offsetPid) ctx offset

/-! ### An open description -/

/-- The processes, by their numbers in the order of `all_processes`, the offset of the description, and the names
    that its calls have reported so far. -/
structure ProcListing where
  allProcesses : List Pid
  offset : Nat
  reported : List (List UInt8)

/-- What happens: a call of `getdents` with a buffer, a process is registered, or one is reaped. -/
inductive ProcEvent where
  | getdents (mem : Nat → UInt8) (count : Nat)
  | register (pid : Pid)
  | reap (pid : Pid)

/-- A call of `getdents`. -/
def ProcListing.call (s : ProcListing) (mem : Nat → UInt8) (count : Nat) : GetdentsResult :=
  fileDescriptionGetdents (procfsRootGetdents s.allProcesses) s.offset mem count

/-- The list is sorted, and no process number above zero occurs twice. -/
def SortedByPid (allProcesses : List Pid) : Prop :=
  allProcesses.Pairwise fun p q => p ≤ q ∧ (0 < q → p < q)

/-- One step. Only the number zero, of kernel processes, is given twice. -/
inductive ProcStep : ProcListing → ProcEvent → ProcListing → Prop where
  | getdents {s : ProcListing} (mem : Nat → UInt8) (count : Nat) (caller : s.allProcesses ≠ []) :
      ProcStep s (.getdents mem count)
        { s with
          offset := (s.call mem count).offset
          reported := s.reported ++ (s.call mem count).listed.map (·.chars) }
  | register {s : ProcListing} (pid : Pid) (fresh : 0 < pid → pid ∉ s.allProcesses) :
      ProcStep s (.register pid)
        { s with allProcesses := insertByPid (fun p : Pid => ((p : Nat) : Int)) pid s.allProcesses }
  | reap {s : ProcListing} (pid : Pid) (member : pid ∈ s.allProcesses) :
      ProcStep s (.reap pid) { s with allProcesses := s.allProcesses.erase pid }

/-- One open description of the root of procfs. -/
def procListingSystem : TransitionSystem ProcListing ProcEvent where
  init s := SortedByPid s.allProcesses ∧ s.offset = 0 ∧ s.reported = []
  step := ProcStep

end Chaotix
