/-
Module: Chaotix.Userland.Sh
Layer: Userland
Purpose: The parser of the shell. It works on the line in place: a word is a pointer into the line and a length, and
  once the line is parsed a zero is written behind each word. `rest` is the string at the cursor, so the character at
  the cursor is its first one, or zero. Memory from `malloc` is zero where it is given. Each nested call of `parse_pipe`
  or `parse_juxtaposition` begins behind a character that the one before it has consumed, so as many rounds as there
  are characters are enough for them.
Imports: Mathlib.Logic.Function.Basic, Chaotix.Kernel.ExecStack
Trusted boundary: human-reviewed model of the `parse` functions and `null_terminate` of `userland/sh.c` and of `isspace`
  of `common/ctype.h`
Main exports: ShNode, Parser, parseExecute, parseRedirect, parsePipe, parseJuxtaposition, nullTerminate, parse
-/
import Mathlib.Logic.Function.Basic
import Chaotix.Kernel.ExecStack

namespace Chaotix

namespace Sh

/-- `MAX_ARGC`. -/
abbrev MAX_ARGC : Nat := 16

/-- `struct node`. A pointer into the line is its address, and `none` is `NULL`. -/
inductive ShNode where
  | execute (argv : Nat → Option Nat) (lengths : Nat → Nat)
  | juxtaposition (left right : ShNode)
  | pipe (left right : ShNode)
  | redirect (source : ShNode) (target targetLength : Nat)
  | background (inner : ShNode)

/-- `result`. -/
inductive ParseResult where
  | SUCCESS
  | EMPTY
  | NOMEM_ERROR
  | SYNTAX_ERROR
  | TOO_MANY_ARGS_ERROR
deriving DecidableEq, Repr

/-- `struct parser`, the string at the cursor, and how often `malloc` has been called. -/
structure Parser where
  cursor : Nat
  rest : List UInt8
  result : ParseResult
  mallocs : Nat := 0

/-- The code of the parser. -/
abbrev Parse (α : Type) := Kernel Parser α

/-! ### Characters -/

/-- `isspace`. -/
def isspace (c : UInt8) : Bool :=
  c = '\t'.toUInt8 ∨ c = '\n'.toUInt8 ∨ c = 0x0b ∨ c = 0x0c ∨ c = '\r'.toUInt8 ∨ c = ' '.toUInt8

/-- `is_valid_filename_character`. -/
def isValidFilenameCharacter (c : UInt8) : Bool :=
  if c = '>'.toUInt8 ∨ c = ' '.toUInt8 ∨ c = '|'.toUInt8 ∨ c = '&'.toUInt8 ∨ c = ';'.toUInt8 then false
  else ' '.toUInt8 ≤ c ∧ c ≤ '~'.toUInt8

/-- `consume_if`. -/
def consumeIf (c : UInt8) : Parse Bool := do
  let p ← get
  match p.rest with
  | d :: rest =>
      if d = c then
        set { p with cursor := p.cursor + 1, rest := rest }
        return true
      else return false
  | [] => return false

/-- `consume_while`. -/
def consumeWhile (cond : UInt8 → Bool) : Parse (Option Nat) := do
  let p ← get
  match p.rest with
  | [] => return none
  | c :: _ =>
      if cond c then
        set { p with cursor := p.cursor + (p.rest.takeWhile cond).length, rest := p.rest.dropWhile cond }
        return some p.cursor
      else return none

/-- `skip_whitespaces`. -/
def skipWhitespaces : Parse Unit := do
  let _ ← consumeWhile isspace

/-- `parse_filename`. -/
def parseFilename : Parse (Option Nat) := consumeWhile isValidFilenameCharacter

/-- The function gives up with an error. -/
def fail {α : Type} (result : ParseResult) : Parse (Option α) := do
  modify fun p => { p with result := result }
  return none

/-! ### The functions of the grammar -/

section Malloc

variable (malloc : Nat → Bool)

/-- `node = malloc(sizeof(struct node))`, and whether it is not `NULL`. -/
def mallocNode : Parse Bool := do
  let p ← get
  set { p with mallocs := p.mallocs + 1 }
  return malloc p.mallocs

/-- The loop of `parse_execute`, with the rounds that are left, `i` and the two arrays. -/
def parseExecuteLoop : Nat → Nat → (Nat → Option Nat) → (Nat → Nat) → Parse (Option (Nat × ShNode))
  | 0, _, _, _ => fail .TOO_MANY_ARGS_ERROR
  | n + 1, i, argv, lengths => do
      match ← parseFilename with
      | none => return some (i, .execute argv lengths)
      | some arg => do
          let savedCursor := (← get).cursor
          skipWhitespaces
          parseExecuteLoop n (i + 1) (Function.update argv i (some arg)) (Function.update lengths i (savedCursor - arg))

/-- `parse_execute`. -/
def parseExecute : Parse (Option ShNode) := do
  if ← mallocNode malloc then
    match ← parseExecuteLoop MAX_ARGC 0 (fun _ => none) (fun _ => 0) with
    | none => return none
    | some (i, node) => if i = 0 then fail .EMPTY else return some node
  else fail .NOMEM_ERROR

/-- `parse_redirect`. -/
def parseRedirect : Parse (Option ShNode) := do
  match ← parseExecute malloc with
  | none => return none
  | some source => do
      skipWhitespaces
      if ← consumeIf '>'.toUInt8 then
        skipWhitespaces
        match ← parseFilename with
        | none => fail .SYNTAX_ERROR
        | some target => do
            if ← mallocNode malloc then return some (.redirect source target ((← get).cursor - target))
            else fail .NOMEM_ERROR
      else return some source

/-- `parse_pipe`. -/
def parsePipe : Nat → Parse (Option ShNode)
  | 0 => throw .hang
  | n + 1 => do
      match ← parseRedirect malloc with
      | none => return none
      | some left => do
          skipWhitespaces
          if ← consumeIf '|'.toUInt8 then
            skipWhitespaces
            match ← parsePipe n with
            | none => do
                if (← get).result = .EMPTY then fail .SYNTAX_ERROR else return none
            | some right => do
                if ← mallocNode malloc then return some (.pipe left right) else fail .NOMEM_ERROR
          else return some left

/-- The end of `parse_juxtaposition`, behind `&` or `;`, where `parseRight` is the nested call. -/
def parseJuxtapositionRight (parseRight : Parse (Option ShNode)) (left : ShNode) : Parse (Option ShNode) := do
  skipWhitespaces
  match ← parseRight with
  | none => do
      if (← get).result = .EMPTY then
        modify fun p => { p with result := .SUCCESS }
      return some left
  | some right => do
      if ← mallocNode malloc then return some (.juxtaposition left right) else fail .NOMEM_ERROR

/-- `parse_juxtaposition`. -/
def parseJuxtaposition : Nat → Parse (Option ShNode)
  | 0 => throw .hang
  | n + 1 => do
      match ← parsePipe malloc ((← get).rest.length + 1) with
      | none => return none
      | some left => do
          skipWhitespaces
          if ← consumeIf '&'.toUInt8 then
            if ← mallocNode malloc then parseJuxtapositionRight malloc (parseJuxtaposition n) (.background left)
            else fail .NOMEM_ERROR
          else if ← consumeIf ';'.toUInt8 then parseJuxtapositionRight malloc (parseJuxtaposition n) left
          else return some left

/-! ### The whole line -/

/-- The loop of `null_terminate` over `argv`, whose last entry is `NULL`. -/
def nullTerminateArgv (argv : Nat → Option Nat) (lengths : Nat → Nat) :
    Nat → Nat → (Nat → UInt8) → Nat → UInt8
  | 0, _, mem => mem
  | n + 1, i, mem =>
      match argv i with
      | none => mem
      | some arg => nullTerminateArgv argv lengths n (i + 1) (Function.update mem (arg + lengths i) 0)

/-- `null_terminate`, as what it does to the memory. -/
def nullTerminate : ShNode → (Nat → UInt8) → Nat → UInt8
  | .execute argv lengths, mem => nullTerminateArgv argv lengths MAX_ARGC 0 mem
  | .juxtaposition left right, mem => nullTerminate right (nullTerminate left mem)
  | .pipe left right, mem => nullTerminate right (nullTerminate left mem)
  | .redirect source target targetLength, mem =>
      Function.update (nullTerminate source mem) (target + targetLength) 0
  | .background inner, mem => nullTerminate inner mem

/-- `parse`, but for `null_terminate`: the node and the result. -/
def parseLine : Parse (Option ShNode) := do
  skipWhitespaces
  let node ← parseJuxtaposition malloc ((← get).rest.length + 1)
  skipWhitespaces
  if (← get).rest ≠ [] then fail .SYNTAX_ERROR else return node

/-- `parse`, on the string at an address: the node, the result and the memory. -/
def parse (mem : Nat → UInt8) (line : Nat) (str : CString) :
    Except Stop (Option ShNode × ParseResult × (Nat → UInt8)) :=
  match parseLine malloc { cursor := line, rest := str.chars, result := .SUCCESS } with
  | .error stop => .error stop
  | .ok (none, p) => .ok (none, p.result, mem)
  | .ok (some node, p) => .ok (some node, p.result, nullTerminate node mem)

end Malloc

end Sh

end Chaotix
