/-
Module: Chaotix.Userland.ShGrammar
Layer: Userland
Purpose: The grammar of the shell, apart from its parser: the tokens of a line, the trees, the tokens of each tree, and
  how tokens are written with whitespace around them. A tree may be written in more than one way: the last terminator
  of a line may be left out.
Imports: Chaotix.Userland.Sh
Trusted boundary: the statement of what the shell accepts
Main exports: Word, Word.str, Token, Command, Represents, ExecuteTokens, RedirectTokens, PipeTokens, LineTokens, Spelled, Renders
-/
import Chaotix.Userland.Sh

namespace Chaotix

namespace Sh

/-- A non-empty string of filename characters. -/
structure Word where
  chars : List UInt8
  ne_nil : chars ≠ []
  valid : ∀ c ∈ chars, isValidFilenameCharacter c = true

theorem filename_ne_zero {c : UInt8} (h : isValidFilenameCharacter c = true) : c ≠ 0 := by
  rintro rfl
  exact absurd h (by decide)

/-- A word as a string in C. -/
def Word.str (w : Word) : CString := ⟨w.chars, fun c hc => filename_ne_zero (w.valid c hc)⟩

/-- A token: a word, `>`, `|`, `;` or `&`. -/
inductive Token where
  | word (w : Word)
  | gt
  | bar
  | semi
  | amp

/-- How a token is written. -/
def Token.chars : Token → List UInt8
  | .word w => w.chars
  | .gt => ['>'.toUInt8]
  | .bar => ['|'.toUInt8]
  | .semi => [';'.toUInt8]
  | .amp => ['&'.toUInt8]

def Token.IsWord : Token → Prop
  | .word _ => True
  | _ => False

/-- What a line says. -/
inductive Command where
  | execute (words : List Word)
  | juxtaposition (left right : Command)
  | pipe (left right : Command)
  | redirect (source : Command) (target : Word)
  | background (inner : Command)

/-- A command is one to fifteen words. -/
inductive ExecuteTokens : Command → List Token → Prop where
  | words (words : List Word) (some : 1 ≤ words.length) (few : words.length ≤ 15) :
      ExecuteTokens (.execute words) (words.map .word)

/-- A redirect is a command, or one with `>` and a word behind it. -/
inductive RedirectTokens : Command → List Token → Prop where
  | command {c ts} : ExecuteTokens c ts → RedirectTokens c ts
  | redirect {c ts} (target : Word) : ExecuteTokens c ts → RedirectTokens (.redirect c target) (ts ++ [.gt, .word target])

/-- A pipeline is redirects with `|` between them, nested to the right. -/
inductive PipeTokens : Command → List Token → Prop where
  | last {c ts} : RedirectTokens c ts → PipeTokens c ts
  | pipe {l ls r rs} : RedirectTokens l ls → PipeTokens r rs → PipeTokens (.pipe l r) (ls ++ .bar :: rs)

/-- A line is pipelines, each with `;` or `&` behind it, but for the last one, which may have none. -/
inductive LineTokens : Command → List Token → Prop where
  | last {c ts} : PipeTokens c ts → LineTokens c ts
  | lastSemi {c ts} : PipeTokens c ts → LineTokens c (ts ++ [.semi])
  | lastAmp {c ts} : PipeTokens c ts → LineTokens (.background c) (ts ++ [.amp])
  | semi {l ls r rs} : PipeTokens l ls → LineTokens r rs → LineTokens (.juxtaposition l r) (ls ++ .semi :: rs)
  | amp {l ls r rs} : PipeTokens l ls → LineTokens r rs →
      LineTokens (.juxtaposition (.background l) r) (ls ++ .amp :: rs)

/-- A node of the parser stands for a command, where `at'` says how a word is found from its pointer and length: `argv`
    has one entry for each word, and `NULL` behind them, which is inside the array. -/
def Represents (at' : Nat → Nat → Word → Prop) : ShNode → Command → Prop
  | .execute argv lengths, .execute words =>
      (∀ i (h : i < words.length), ∃ arg, argv i = some arg ∧ at' arg (lengths i) words[i]) ∧
        argv words.length = none ∧ words.length < MAX_ARGC
  | .juxtaposition left right, .juxtaposition left' right' => Represents at' left left' ∧ Represents at' right right'
  | .pipe left right, .pipe left' right' => Represents at' left left' ∧ Represents at' right right'
  | .redirect source target targetLength, .redirect source' target' =>
      Represents at' source source' ∧ at' target targetLength target'
  | .background inner, .background inner' => Represents at' inner inner'
  | _, _ => False

/-- Any number of whitespace characters. -/
def Whitespace (ws : List UInt8) : Prop := ∀ c ∈ ws, isspace c = true

/-- Tokens with whitespace behind each of them. Between two words there is at least one character of it. -/
inductive Spelled : List Token → List UInt8 → Prop where
  | nil : Spelled [] []
  | cons {ts : List Token} {text ws : List UInt8} (t : Token) (whitespace : Whitespace ws)
      (separated : t.IsWord → (∃ u ∈ ts.head?, u.IsWord) → ws ≠ []) (rest : Spelled ts text) :
      Spelled (t :: ts) (t.chars ++ ws ++ text)

/-- A line is the tokens with whitespace around them. -/
def Renders (ts : List Token) (line : List UInt8) : Prop :=
  ∃ ws text, Whitespace ws ∧ Spelled ts text ∧ line = ws ++ text

end Sh

end Chaotix
