/-
Module: Chaotix.Kernel.Path
Layer: Kernel
Purpose: Pathnames of `kernel/fs/vfs.c`: how a pathname and the path of the working directory become a list of
  components, and how the list is written out again. A string is the list of its characters without the terminating
  zero. Each call of `kmalloc` is answered from outside, so that it can succeed and fail in any way.
Imports: Chaotix.Kernel.Base
Trusted boundary: human-reviewed model of `list_push`, `list_pop`, `create_path_component_list` and
  `vfs_canonicalize_path` of `kernel/fs/vfs.c`, of `strtok_r` of `common/string.c` and of `kstrdup` of
  `kernel/memory/kmalloc.c`
Main exports: strtokR, Allocations, kmallocAnswer, ComponentList, createPathComponentList, vfsCanonicalizePath
-/
import Chaotix.Kernel.Base

namespace Chaotix

/-- The characters of a string, without the zero at its end. -/
abbrev Chars := List UInt8

namespace Pathname

/-! ### Tokens -/

/-- `strtok_r(str, sep, &last)`: the token, and `last` after it. The argument is `str`, or `last` when `str` is `NULL`,
    which may itself be `NULL`. -/
def strtokR (sep : UInt8 → Bool) : Option Chars → Option (Chars × Option Chars)
  | none => none
  | some str =>
      match str.dropWhile sep with
      | [] => none
      | c :: cs =>
          let token := (c :: cs).takeWhile fun c => !sep c
          match (c :: cs).dropWhile fun c => !sep c with
          | [] => some (token, none)
          | _ :: rest => some (token, some rest)

/-! ### Memory -/

/-- What the calls of `kmalloc` answer, and how many there have been. -/
structure Allocations where
  answers : Nat → Bool
  calls : Nat := 0

/-- Whether one call of `kmalloc` returns memory. -/
def kmallocAnswer : Kernel Allocations Bool := do
  let s ← get
  set { s with calls := s.calls + 1 }
  return s.answers s.calls

/-- `kstrdup`. -/
def kstrdup (src : Chars) : Kernel Allocations (Option Chars) := do
  if ← kmallocAnswer then return some src else return none

/-! ### Lists of components -/

/-- `PATH_SEPARATOR`. -/
abbrev PATH_SEPARATOR : UInt8 := 0x2f

/-- `ROOT_DIR`. -/
abbrev ROOT_DIR : Chars := [PATH_SEPARATOR]

/-- `strchr(PATH_SEPARATOR_STR, c)`. -/
def isSeparator (c : UInt8) : Bool := c == PATH_SEPARATOR

/-- `is_absolute_path`. -/
def isAbsolutePath (path : Chars) : Bool := path.head? == some PATH_SEPARATOR

/-- The component `.`. -/
abbrev dot : Chars := [0x2e]

/-- The component `..`. -/
abbrev dotDot : Chars := [0x2e, 0x2e]

/-- The `list` and the `num_components` of `create_path_component_list`. -/
structure ComponentList where
  list : List Chars := []
  numComponents : Nat := 0
deriving DecidableEq

/-- `list_push`. -/
def listPush (list : List Chars) (value : Chars) : Kernel Allocations (Except Errno (List Chars)) := do
  if !(← kmallocAnswer) then
    return .error .ENOMEM
  else
    match ← kstrdup value with
    | none => return .error .ENOMEM
    | some value => return .ok (list ++ [value])

/-- `list_pop`. -/
def listPop (list : List Chars) : List Chars := list.dropLast

/-- `list_push`, with the counter. -/
def pushComponent (component : Chars) (cs : ComponentList) : Kernel Allocations (Except Errno ComponentList) := do
  match ← listPush cs.list component with
  | .error e => return .error e
  | .ok list => return .ok { list := list, numComponents := cs.numComponents + 1 }

/-- The body of the second loop of `create_path_component_list`. -/
def takeComponent (component : Chars) (cs : ComponentList) : Kernel Allocations (Except Errno ComponentList) :=
  if component = dot then
    return .ok cs
  else if component = dotDot then
    if cs.numComponents > 0 then
      return .ok { list := listPop cs.list, numComponents := cs.numComponents - 1 }
    else
      return .ok cs
  else
    pushComponent component cs

/-- `for (component = strtok_r(str, ...); component; component = strtok_r(NULL, ...))` with a body that may end the
    loop with an error. No string has more tokens than it has characters. -/
def forTokens (body : Chars → ComponentList → Kernel Allocations (Except Errno ComponentList)) :
    Nat → Option Chars → ComponentList → Kernel Allocations (Except Errno ComponentList)
  | 0, _, _ => throw .hang
  | n + 1, str, cs => do
      match strtokR isSeparator str with
      | none => return .ok cs
      | some (component, last) =>
          match ← body component cs with
          | .error e => return .error e
          | .ok cs => forTokens body n last cs

/-- One of the two parts of `create_path_component_list`: a copy of the string is cut into tokens. -/
def addComponents (body : Chars → ComponentList → Kernel Allocations (Except Errno ComponentList)) (str : Chars)
    (cs : ComponentList) : Kernel Allocations (Except Errno ComponentList) := do
  match ← kstrdup str with
  | none => return .error .ENOMEM
  | some dup => forTokens body (dup.length + 1) (some dup) cs

/-- `create_path_component_list`, for a process whose `cwd_path` is given. -/
def createPathComponentList (cwdPath pathname : Chars) : Kernel Allocations (Except Errno ComponentList) := do
  if pathname = ROOT_DIR then
    return .ok {}
  else if isAbsolutePath pathname then
    addComponents takeComponent pathname {}
  else
    match ← addComponents pushComponent cwdPath {} with
    | .error e => return .error e
    | .ok cs => addComponents takeComponent pathname cs

/-! ### Canonical paths -/

/-- A store of `len` bytes at an index of a block of `size` bytes. -/
def checkStore (size idx len : Nat) : Kernel Allocations Unit := Program.require (idx + len ≤ size) .fault

/-- The second loop of `vfs_canonicalize_path`: the components are written into a block of `size` bytes, of which
    `out` have been written. `strcpy` writes the terminating zero as well. -/
def writeComponents (size : Nat) : List Chars → Chars → Kernel Allocations Chars
  | [], out => do
      checkStore size out.length 1
      return out
  | component :: rest, out => do
      checkStore size out.length 1
      let out := out ++ [PATH_SEPARATOR]
      checkStore size out.length (component.length + 1)
      writeComponents size rest (out ++ component)

/-- `vfs_canonicalize_path`. -/
def vfsCanonicalizePath (cwdPath pathname : Chars) : Kernel Allocations (Except Errno Chars) := do
  match ← createPathComponentList cwdPath pathname with
  | .error e => return .error e
  | .ok cs =>
      if cs.numComponents = 0 then
        match ← kstrdup ROOT_DIR with
        | none => return .error .ENOMEM
        | some canonicalized => return .ok canonicalized
      else
        let len := (cs.list.map fun component => component.length + 1).sum
        if ← kmallocAnswer then
          let canonicalized ← writeComponents (len + 1) cs.list []
          return .ok canonicalized
        else
          return .error .ENOMEM

end Pathname

end Chaotix
