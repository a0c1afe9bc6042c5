/-
Module: Chaotix.Proofs.ShellParser
Layer: Proofs
Purpose: The shell accepts its grammar and nothing else. Each function of the parser has two lemmas. On the spelling of
  what it looks for, with nothing behind it that could belong to it, it returns the tree. And whatever it returns
  without an error is such a tree, spelled by what it has consumed up to the next token. The zeros that `null_terminate`
  writes replace characters that are not in any word.
Imports: Mathlib.Data.List.TakeWhile, Chaotix.Userland.Dirent, Chaotix.Userland.ShGrammar
Trusted boundary: none
Main exports: Spelled.split, Spelled.append, exists_words, parsePipe_complete, parseJuxtaposition_complete, Parsed,
  parseJuxtaposition_sound, represents_nullTerminate, parse_accepts_grammar
-/
import Mathlib.Data.List.TakeWhile
import Chaotix.Userland.Dirent
import Chaotix.Userland.ShGrammar

open Program

namespace Chaotix

namespace Sh

/-! ### Characters -/

theorem not_filename_of_isspace {c : UInt8} (h : isspace c = true) : isValidFilenameCharacter c = false := by
  simp only [isspace, decide_eq_true_eq] at h
  rcases h with rfl | rfl | rfl | rfl | rfl | rfl <;> decide

/-- The first character, if there is one, does not satisfy the condition. -/
def Stops (cond : UInt8 → Bool) (rest : List UInt8) : Prop := ∀ c ∈ rest.head?, cond c = false

theorem stops_nil (cond : UInt8 → Bool) : Stops cond [] := nofun

theorem stops_cons {cond : UInt8 → Bool} {c : UInt8} {rest : List UInt8} : Stops cond (c :: rest) ↔ cond c = false := by
  simp [Stops]

theorem stops_dropWhile (cond : UInt8 → Bool) (rest : List UInt8) : Stops cond (rest.dropWhile cond) := by
  induction rest with
  | nil => exact stops_nil cond
  | cons c rest ih =>
      rw [List.dropWhile_cons]
      split
      · exact ih
      · rename_i hc
        exact stops_cons.2 (eq_false_of_ne_true hc)

theorem dropWhile_of_stops {cond : UInt8 → Bool} {rest : List UInt8} (h : Stops cond rest) :
    rest.dropWhile cond = rest := by
  cases rest with
  | nil => rfl
  | cons c rest => rw [List.dropWhile_cons, stops_cons.1 h, if_neg Bool.false_ne_true]

/-- Whitespace ends a word, and so does what ended it before. -/
theorem stops_filename_append {ws rest : List UInt8} (hws : Whitespace ws)
    (h : Stops isValidFilenameCharacter rest) : Stops isValidFilenameCharacter (ws ++ rest) := by
  cases ws with
  | nil => exact h
  | cons c ws => exact stops_cons.2 (not_filename_of_isspace (hws c List.mem_cons_self))

/-- A word begins with a filename character. -/
theorem Word.exists_cons (w : Word) : ∃ c cs, w.chars = c :: cs ∧ isValidFilenameCharacter c = true := by
  cases h : w.chars with
  | nil => exact absurd h w.ne_nil
  | cons c cs => exact ⟨c, cs, rfl, w.valid c (h ▸ List.mem_cons_self)⟩

theorem Word.stops_isspace (w : Word) (rest : List UInt8) : Stops isspace (w.chars ++ rest) := by
  obtain ⟨c, cs, hcs, hc⟩ := w.exists_cons
  rw [hcs, List.cons_append, stops_cons]
  refine eq_false_of_ne_true fun hspace => ?_
  rw [not_filename_of_isspace hspace] at hc
  exact Bool.false_ne_true hc

/-! ### Moving the cursor -/

/-- The parser behind the first characters. -/
def Parser.advance (p : Parser) (n : Nat) : Parser := { p with cursor := p.cursor + n, rest := p.rest.drop n }

/-- The parser behind the whitespace. -/
def Parser.skip (p : Parser) : Parser := p.advance (p.rest.takeWhile isspace).length

theorem takeWhile_append_of_stops {cond : UInt8 → Bool} {a b : List UInt8} (ha : ∀ c ∈ a, cond c = true)
    (hb : Stops cond b) : (a ++ b).takeWhile cond = a := by
  induction a with
  | nil =>
      cases b with
      | nil => rfl
      | cons c b => rw [List.nil_append, List.takeWhile_cons, stops_cons.1 hb, if_neg Bool.false_ne_true]
  | cons c a ih =>
      rw [List.cons_append, List.takeWhile_cons, if_pos (ha c List.mem_cons_self),
        ih fun d hd => ha d (List.mem_cons_of_mem c hd)]

theorem drop_length_takeWhile (cond : UInt8 → Bool) (rest : List UInt8) :
    rest.drop (rest.takeWhile cond).length = rest.dropWhile cond := by
  induction rest with
  | nil => rfl
  | cons c rest ih =>
      rw [List.takeWhile_cons, List.dropWhile_cons]
      split
      · exact ih
      · rfl

theorem Parser.skip_rest (p : Parser) : p.skip.rest = p.rest.dropWhile isspace :=
  drop_length_takeWhile isspace p.rest

/-- The whitespace up to what comes next is skipped. -/
theorem Parser.skip_rest_of_eq {p : Parser} {ws rest : List UInt8} (hrest : p.rest = ws ++ rest) (hws : Whitespace ws)
    (hstops : Stops isspace rest) : p.skip.rest = rest := by
  rw [Parser.skip, Parser.advance, hrest, takeWhile_append_of_stops hws hstops]
  exact List.drop_left

theorem Parser.skip_rest_of_stops {p : Parser} {rest : List UInt8} (hrest : p.rest = rest)
    (hstops : Stops isspace rest) : p.skip.rest = rest := by
  rw [p.skip_rest, hrest, dropWhile_of_stops hstops]

theorem Parser.skip_skip_rest (p : Parser) : p.skip.skip.rest = p.skip.rest := by
  refine Parser.skip_rest_of_stops rfl ?_
  rw [p.skip_rest]
  exact stops_dropWhile isspace p.rest

theorem Parser.rest_eq_skip (p : Parser) : ∃ ws, Whitespace ws ∧ p.rest = ws ++ p.skip.rest :=
  ⟨p.rest.takeWhile isspace, fun _ => List.mem_takeWhile_imp, by
    rw [p.skip_rest, List.takeWhile_append_dropWhile]⟩

theorem consumeWhile_eq (cond : UInt8 → Bool) (p : Parser) :
    consumeWhile cond p = .ok (if p.rest.takeWhile cond = [] then none else some p.cursor,
      p.advance (p.rest.takeWhile cond).length) := by
  rcases p with ⟨cursor, rest, result, mallocs⟩
  rw [Parser.advance, drop_length_takeWhile]
  cases rest with
  | nil => rfl
  | cons c rest =>
      by_cases hc : cond c = true
      · simp [consumeWhile, hc]
      · simp [consumeWhile, hc]

theorem skipWhitespaces_eq (p : Parser) : skipWhitespaces p = .ok ((), p.skip) := by
  rw [skipWhitespaces, run_bind, consumeWhile_eq]
  rfl

/-- A name at the cursor is parsed to its end. -/
theorem parseFilename_word {p : Parser} {w : Word} {rest : List UInt8} (hrest : p.rest = w.chars ++ rest)
    (hstops : Stops isValidFilenameCharacter rest) :
    parseFilename p = .ok (some p.cursor, p.advance w.chars.length) := by
  rw [parseFilename, consumeWhile_eq, hrest, takeWhile_append_of_stops w.valid hstops, if_neg w.ne_nil]

theorem parseFilename_none {p : Parser} (h : Stops isValidFilenameCharacter p.rest) :
    parseFilename p = .ok (none, p) := by
  have htake : p.rest.takeWhile isValidFilenameCharacter = [] :=
    takeWhile_append_of_stops (a := []) nofun h
  rw [parseFilename, consumeWhile_eq, htake, if_pos rfl]
  rfl

theorem consumeIf_of_eq {c : UInt8} {p : Parser} {rest : List UInt8} (h : p.rest = c :: rest) :
    consumeIf c p = .ok (true, p.advance 1) := by
  rcases p with ⟨cursor, _, result, mallocs⟩
  subst h
  simp [consumeIf, Parser.advance]

theorem consumeIf_of_ne {c : UInt8} {p : Parser} (h : p.rest.head? ≠ some c) : consumeIf c p = .ok (false, p) := by
  rcases p with ⟨cursor, rest, result, mallocs⟩
  cases rest with
  | nil => rfl
  | cons d rest =>
      have hne : d ≠ c := fun heq => h (congrArg some heq)
      simp [consumeIf, hne]

/-! ### The line in memory -/

/-- The rest of the line is in memory at the cursor. -/
def InLine (mem : Nat → UInt8) (p : Parser) : Prop := BytesAt mem p.cursor (p.rest ++ [0])

/-- The word is in memory, and what is behind it is not part of a word. -/
def WordAt (mem : Nat → UInt8) (a len : Nat) (w : Word) : Prop :=
  len = w.chars.length ∧ BytesAt mem a w.chars ∧ isValidFilenameCharacter (mem (a + len)) = false

theorem InLine.advance {mem : Nat → UInt8} {p : Parser} (h : InLine mem p) {n : Nat} (hn : n ≤ p.rest.length) :
    InLine mem (p.advance n) := by
  rw [InLine, ← List.take_append_drop n p.rest, List.append_assoc, bytesAt_append, List.length_take,
    Nat.min_eq_left hn] at h
  exact h.2

theorem InLine.skip {mem : Nat → UInt8} {p : Parser} (h : InLine mem p) : InLine mem p.skip :=
  h.advance (List.takeWhile_sublist _).length_le

/-- The word that was parsed is in the line. -/
theorem InLine.wordAt {mem : Nat → UInt8} {p : Parser} (h : InLine mem p) {w : Word} {rest : List UInt8}
    (hrest : p.rest = w.chars ++ rest) (hstops : Stops isValidFilenameCharacter rest) :
    WordAt mem p.cursor w.chars.length w := by
  rw [InLine, hrest, List.append_assoc, bytesAt_append] at h
  obtain ⟨hword, hbehind⟩ := h
  refine ⟨rfl, hword, ?_⟩
  have hfirst := hbehind 0 (by simp)
  rw [Nat.add_zero] at hfirst
  rw [hfirst]
  cases rest with
  | nil => rfl
  | cons c rest => exact stops_cons.1 hstops

/-! ### Spelled tokens -/

theorem whitespace_nil : Whitespace [] := List.forall_mem_nil _

/-- A token begins with a character that is not whitespace. -/
theorem Token.stops_isspace (t : Token) (rest : List UInt8) : Stops isspace (t.chars ++ rest) := by
  cases t with
  | word w => exact w.stops_isspace rest
  | gt => exact stops_cons.2 rfl
  | bar => exact stops_cons.2 rfl
  | semi => exact stops_cons.2 rfl
  | amp => exact stops_cons.2 rfl

theorem Spelled.stops_isspace {ts : List Token} {text rest : List UInt8} (h : Spelled ts text)
    (hrest : Stops isspace rest) : Stops isspace (text ++ rest) := by
  cases h with
  | nil => exact hrest
  | cons t whitespace separated tail =>
      rw [List.append_assoc, List.append_assoc]
      exact t.stops_isspace _

theorem Spelled.stops {ts : List Token} {text : List UInt8} (h : Spelled ts text) : Stops isspace text := by
  have hstops := h.stops_isspace (stops_nil isspace)
  rwa [List.append_nil] at hstops

/-- Tokens are spelled one behind the other, unless there is a word on both sides. -/
theorem Spelled.append {ls rs : List Token} {a b : List UInt8} (hl : Spelled ls a) (hr : Spelled rs b)
    (hapart : ∀ t ∈ rs.head?, ¬t.IsWord) : Spelled (ls ++ rs) (a ++ b) := by
  induction hl with
  | nil => exact hr
  | @cons ls text ws t whitespace separated rest ih =>
      rw [List.append_assoc]
      refine .cons t whitespace (fun ht hnext => separated ht ?_) ih
      cases ls with
      | nil =>
          obtain ⟨u, hu, hword⟩ := hnext
          exact absurd hword (hapart u hu)
      | cons u ls => exact hnext

theorem Spelled.operator {t : Token} (ht : ¬t.IsWord) {ws : List UInt8} (hws : Whitespace ws) {ts : List Token}
    {text : List UInt8} (h : Spelled ts text) : Spelled (t :: ts) (t.chars ++ ws ++ text) :=
  .cons t hws (fun hword => absurd hword ht) h

/-- A spelling with an operator inside has it between two spellings. -/
theorem Spelled.split {ls rs : List Token} {t : Token} {text : List UInt8} (h : Spelled (ls ++ t :: rs) text) :
    ∃ a ws b, text = a ++ (t.chars ++ ws ++ b) ∧ Spelled ls a ∧ Whitespace ws ∧ Spelled rs b := by
  induction ls generalizing text with
  | nil =>
      cases h with
      | cons _ whitespace separated rest => exact ⟨[], _, _, rfl, .nil, whitespace, rest⟩
  | cons u ls ih =>
      cases h with
      | cons _ whitespace separated rest =>
          obtain ⟨a, ws, b, rfl, hls, hws, hrs⟩ := ih rest
          refine ⟨_, ws, b, (List.append_assoc _ a _).symm, .cons u whitespace (fun hu hnext => separated hu ?_) hls,
            hws, hrs⟩
          cases ls with
          | nil =>
              obtain ⟨v, hv, -⟩ := hnext
              cases hv
          | cons v ls => exact hnext

/-! ### The words of a command -/

/-- A spelling that begins with a word goes on with a word until it is over. -/
theorem Spelled.not_stops {w : Word} {ts : List Token} {text rest : List UInt8} (h : Spelled (.word w :: ts) text) :
    ¬Stops isValidFilenameCharacter (text ++ rest) := by
  intro hstops
  cases h with
  | cons _ whitespace separated tail =>
      obtain ⟨c, cs, hcs, hc⟩ := w.exists_cons
      rw [Token.chars, hcs] at hstops
      have hfalse : isValidFilenameCharacter c = false := stops_cons.1 hstops
      rw [hc] at hfalse
      cases hfalse

/-- What does not stop a word begins with one. -/
theorem exists_word {text : List UInt8} (h : ¬Stops isValidFilenameCharacter text) :
    ∃ (w : Word) (rest : List UInt8), text = w.chars ++ rest ∧ Stops isValidFilenameCharacter rest := by
  have hsplit := List.takeWhile_append_dropWhile (p := isValidFilenameCharacter) (l := text)
  have hdrop := stops_dropWhile isValidFilenameCharacter text
  have hne : text.takeWhile isValidFilenameCharacter ≠ [] := by
    intro hnil
    rw [hnil, List.nil_append] at hsplit
    exact h (hsplit ▸ hdrop)
  exact ⟨⟨_, hne, fun _ => List.mem_takeWhile_imp⟩, _, hsplit.symm, hdrop⟩

/-- What begins with words is those words, and then something that is not one. -/
theorem exists_words (text : List UInt8) : ∃ (words : List Word) (a b : List UInt8), text = a ++ b ∧
    Spelled (words.map .word) a ∧ Stops isValidFilenameCharacter b ∧ (words ≠ [] → Stops isspace b) := by
  induction h : text.length using Nat.strong_induction_on generalizing text with
  | _ n ih =>
      by_cases hstops : Stops isValidFilenameCharacter text
      · exact ⟨[], [], text, rfl, .nil, hstops, fun hne => absurd rfl hne⟩
      · obtain ⟨w, behind, htext, hbehind⟩ := exists_word hstops
        have hspaces : behind = behind.takeWhile isspace ++ behind.dropWhile isspace :=
          List.takeWhile_append_dropWhile.symm
        have hshorter : (behind.dropWhile isspace).length < n := by
          have hword := List.length_pos_iff.2 w.ne_nil
          have hlength := congrArg List.length htext
          have hspace := (List.dropWhile_sublist isspace (l := behind)).length_le
          rw [List.length_append] at hlength
          omega
        obtain ⟨words, a, b, hab, ha, hb, hspace⟩ := ih _ hshorter _ rfl
        refine ⟨w :: words, w.chars ++ behind.takeWhile isspace ++ a, b, ?_,
          .cons (.word w) (fun _ => List.mem_takeWhile_imp) (fun _ hnext hnil => ?_) ha, hb, fun _ => ?_⟩
        · rw [List.append_assoc, List.append_assoc, ← hab, ← hspaces, ← htext]
        · -- without whitespace behind it, the next word would have been part of this one
          rw [hspaces, hnil, List.nil_append, hab] at hbehind
          cases words with
          | nil =>
              obtain ⟨u, hu, -⟩ := hnext
              cases hu
          | cons w' words => exact ha.not_stops hbehind
        · cases words with
          | nil =>
              cases ha
              rw [List.nil_append] at hab
              exact hab ▸ stops_dropWhile isspace behind
          | cons w' words => exact hspace (List.cons_ne_nil _ _)

/-- An operator is not part of a word. -/
theorem Token.stops_filename {t : Token} (ht : ¬t.IsWord) (rest : List UInt8) :
    Stops isValidFilenameCharacter (t.chars ++ rest) := by
  cases t with
  | word w => exact absurd trivial ht
  | gt => exact stops_cons.2 rfl
  | bar => exact stops_cons.2 rfl
  | semi => exact stops_cons.2 rfl
  | amp => exact stops_cons.2 rfl

/-- A word ends where its spelling does. -/
theorem stops_behind_word {ts : List Token} {ws a b : List UInt8} (hws : Whitespace ws)
    (hapart : (∃ u ∈ ts.head?, u.IsWord) → ws ≠ []) (ha : Spelled ts a) (hb : Stops isValidFilenameCharacter b) :
    Stops isValidFilenameCharacter (ws ++ (a ++ b)) := by
  cases ha with
  | nil => exact stops_filename_append hws hb
  | @cons ts text ws' t whitespace separated rest =>
      by_cases ht : t.IsWord
      · obtain ⟨c, cs, rfl⟩ := List.exists_cons_of_ne_nil (hapart ⟨t, rfl, ht⟩)
        exact stops_cons.2 (not_filename_of_isspace (hws c List.mem_cons_self))
      · rw [List.append_assoc, List.append_assoc]
        exact stops_filename_append hws (Token.stops_filename ht _)

/-- Parsing a word and the whitespace behind it. -/
theorem parseFilename_spelled {mem : Nat → UInt8} {p : Parser} {w : Word} {ws a b : List UInt8} {ts : List Token}
    (hline : InLine mem p) (hrest : p.rest = w.chars ++ ws ++ a ++ b) (hws : Whitespace ws)
    (hapart : (∃ u ∈ ts.head?, u.IsWord) → ws ≠ []) (ha : Spelled ts a) (hb : Stops isValidFilenameCharacter b)
    (hspace : Stops isspace b) :
    parseFilename p = .ok (some p.cursor, p.advance w.chars.length) ∧ WordAt mem p.cursor w.chars.length w ∧
      InLine mem (p.advance w.chars.length) ∧ (p.advance w.chars.length).skip.rest = a ++ b := by
  have hstops := stops_behind_word hws hapart ha hb
  rw [List.append_assoc, List.append_assoc] at hrest
  have hlength : w.chars.length ≤ p.rest.length := by
    rw [hrest, List.length_append]
    exact Nat.le_add_right _ _
  have hrest' : (p.advance w.chars.length).rest = ws ++ (a ++ b) := by
    rw [Parser.advance, hrest]
    exact List.drop_left
  exact ⟨parseFilename_word hrest hstops, hline.wordAt hrest hstops, hline.advance hlength,
    Parser.skip_rest_of_eq hrest' hws (ha.stops_isspace hspace)⟩

/-- The loop of `parse_execute` puts the words into the arrays, from `i` on. -/
theorem parseExecuteLoop_words {mem : Nat → UInt8} {words : List Word} {n i : Nat} {argv : Nat → Option Nat}
    {lengths : Nat → Nat} {a b : List UInt8} {p : Parser} (hline : InLine mem p) (hrest : p.rest = a ++ b)
    (ha : Spelled (words.map .word) a) (hb : Stops isValidFilenameCharacter b) (hspace : words ≠ [] → Stops isspace b)
    (hroom : words.length < n) :
    Yields (parseExecuteLoop n i argv lengths) p fun r p' =>
      (∃ argv' lengths', r = some (i + words.length, .execute argv' lengths') ∧
        (∀ j (h : j < words.length), ∃ arg, argv' (i + j) = some arg ∧ WordAt mem arg (lengths' (i + j)) words[j]) ∧
        ∀ j, j < i ∨ i + words.length ≤ j → argv' j = argv j ∧ lengths' j = lengths j) ∧
      InLine mem p' ∧ p'.rest = b ∧ p'.result = p.result := by
  induction words generalizing n i argv lengths a p with
  | nil =>
      cases ha
      obtain ⟨n, rfl⟩ := Nat.exists_eq_add_of_lt hroom
      have hnone : parseFilename p = .ok (none, p) := parseFilename_none (hrest ▸ hb)
      rw [parseExecuteLoop, yields_bind_of_return hnone]
      exact ⟨⟨argv, lengths, rfl, nofun, fun _ _ => ⟨rfl, rfl⟩⟩, hline, hrest, rfl⟩
  | cons w words ih =>
      have hspace' := hspace (List.cons_ne_nil w words)
      cases ha with
      | @cons _ text ws _ whitespace separated tail =>
          obtain ⟨n, rfl⟩ : ∃ m, n = m + 1 := ⟨n - 1, by omega⟩
          obtain ⟨hparse, hword, hline', hrest'⟩ :=
            parseFilename_spelled hline hrest whitespace (separated trivial) tail hb hspace'
          rw [parseExecuteLoop, yields_bind_of_return hparse]
          change Yields (do skipWhitespaces; _) _ _
          rw [yields_bind_of_return (skipWhitespaces_eq _)]
          refine (ih hline'.skip hrest' tail (fun _ => hspace') (Nat.lt_of_succ_lt_succ hroom)).mono ?_
          rintro _ p' ⟨⟨argv', lengths', rfl, hwords, hothers⟩, hend⟩
          refine ⟨⟨argv', lengths', ?_, ?_, ?_⟩, hend⟩
          · rw [List.length_cons, Nat.add_assoc, Nat.add_comm 1]
          · intro j hj
            cases j with
            | zero =>
                obtain ⟨hargv, hlengths⟩ := hothers i (Or.inl (Nat.lt_succ_self i))
                refine ⟨p.cursor, hargv.trans (Function.update_self ..), ?_⟩
                have hlen : (p.advance w.chars.length).cursor - p.cursor = w.chars.length :=
                  Nat.add_sub_cancel_left p.cursor w.chars.length
                rw [Nat.add_zero, hlengths, Function.update_self, hlen]
                exact hword
            | succ j =>
                have hj' := hwords j (Nat.lt_of_succ_lt_succ hj)
                rw [Nat.add_assoc, Nat.add_comm 1 j] at hj'
                exact hj'
          · intro j hj
            rw [List.length_cons] at hj
            obtain ⟨hargv, hlengths⟩ := hothers j (by omega)
            rw [hargv, hlengths, Function.update_of_ne (by omega), Function.update_of_ne (by omega)]
            exact ⟨rfl, rfl⟩

theorem parseExecuteLoop_tooMany {mem : Nat → UInt8} {words : List Word} {n i : Nat} {argv : Nat → Option Nat}
    {lengths : Nat → Nat} {a b : List UInt8} {p : Parser} (hline : InLine mem p) (hrest : p.rest = a ++ b)
    (ha : Spelled (words.map .word) a) (hb : Stops isValidFilenameCharacter b) (hspace : words ≠ [] → Stops isspace b)
    (hmany : n ≤ words.length) :
    Yields (parseExecuteLoop n i argv lengths) p fun r p' => r = none ∧ p'.result = .TOO_MANY_ARGS_ERROR := by
  induction n generalizing words i argv lengths a p with
  | zero => exact ⟨rfl, rfl⟩
  | succ n ih =>
      cases words with
      | nil => exact absurd hmany (Nat.not_succ_le_zero n)
      | cons w words =>
          have hspace' := hspace (List.cons_ne_nil w words)
          cases ha with
          | @cons _ text ws _ whitespace separated tail =>
              obtain ⟨hparse, -, hline', hrest'⟩ :=
                parseFilename_spelled hline hrest whitespace (separated trivial) tail hb hspace'
              rw [parseExecuteLoop, yields_bind_of_return hparse]
              change Yields (do skipWhitespaces; _) _ _
              rw [yields_bind_of_return (skipWhitespaces_eq _)]
              exact ih hline'.skip hrest' tail (fun _ => hspace') (Nat.le_of_succ_le_succ hmany)

/-! ### What the grammar derives is parsed -/

section Malloc

variable {malloc : Nat → Bool}

theorem mallocNode_eq (hmalloc : ∀ k, malloc k = true) (p : Parser) :
    mallocNode malloc p = .ok (true, { p with mallocs := p.mallocs + 1 }) := by
  simp [mallocNode, hmalloc]

/-- What comes next ends a word, is not whitespace, and is none of these characters. -/
def Follows (cs : List UInt8) (rest : List UInt8) : Prop :=
  Stops isValidFilenameCharacter rest ∧ Stops isspace rest ∧ ∀ c ∈ cs, rest.head? ≠ some c

theorem follows_nil (cs : List UInt8) : Follows cs [] := ⟨stops_nil _, stops_nil _, fun _ _ => nofun⟩

theorem Follows.mono {cs cs' rest : List UInt8} (h : Follows cs rest) (hcs : cs' ⊆ cs) : Follows cs' rest :=
  ⟨h.1, h.2.1, fun c hc => h.2.2 c (hcs hc)⟩

theorem follows_cons {cs : List UInt8} {c : UInt8} (hfilename : isValidFilenameCharacter c = false)
    (hspace : isspace c = false) (hc : c ∉ cs) (rest : List UInt8) : Follows cs (c :: rest) :=
  ⟨stops_cons.2 hfilename, stops_cons.2 hspace, fun _ hd heq => hc (Option.some.inj heq ▸ hd)⟩

/-- The function returns the tree of the command, up to `rest`. -/
def Accepts (mem : Nat → UInt8) (parse : Parse (Option ShNode)) (p : Parser) (c : Command) (rest : List UInt8) : Prop :=
  Yields parse p fun r p' => (∃ n, r = some n ∧ Represents (WordAt mem) n c) ∧ InLine mem p' ∧ p'.skip.rest = rest ∧
    p'.result = p.result

theorem parseExecute_complete (hmalloc : ∀ k, malloc k = true) {mem : Nat → UInt8} {p : Parser} {c : Command}
    {ts : List Token} {a b : List UInt8} (hc : ExecuteTokens c ts) (ha : Spelled ts a) (hline : InLine mem p)
    (hrest : p.rest = a ++ b) (hb : Follows [] b) : Accepts mem (parseExecute malloc) p c b := by
  obtain ⟨hstops, hspace, -⟩ := hb
  cases hc with
  | words words hone few =>
      rw [Accepts, parseExecute, yields_bind_of_return (mallocNode_eq hmalloc p), if_pos rfl, yields_bind]
      refine (parseExecuteLoop_words (p := { p with mallocs := p.mallocs + 1 }) hline hrest ha hstops (fun _ => hspace)
        (Nat.lt_succ_of_le few)).mono ?_
      rintro _ p' ⟨⟨argv, lengths, rfl, hwords, hothers⟩, hline', hrest', hresult⟩
      have hsome : ¬0 + words.length = 0 := by omega
      change Yields (if 0 + words.length = 0 then fail .EMPTY else pure (some (ShNode.execute argv lengths))) p' _
      rw [if_neg hsome]
      refine ⟨⟨_, rfl, fun j hj => ?_, ?_, Nat.lt_succ_of_le few⟩, hline', ?_, hresult⟩
      · have hj' := hwords j hj
        rw [Nat.zero_add] at hj'
        exact hj'
      · exact (hothers words.length (Or.inr (Nat.zero_add _).le)).1
      · exact Parser.skip_rest_of_stops hrest' hspace

/-- Skipping the whitespace before an operator, the operator and the whitespace behind it. -/
theorem skip_operator {mem : Nat → UInt8} {p : Parser} {c : UInt8} {ws rest : List UInt8} (hline : InLine mem p)
    (hrest : p.skip.rest = c :: (ws ++ rest)) (hws : Whitespace ws) (hspace : Stops isspace rest) :
    InLine mem (p.skip.advance 1).skip ∧ (p.skip.advance 1).skip.rest = rest := by
  have hone : 1 ≤ p.skip.rest.length := by
    rw [hrest, List.length_cons]
    exact Nat.le_add_left 1 _
  refine ⟨(hline.skip.advance hone).skip, Parser.skip_rest_of_eq ?_ hws hspace⟩
  rw [Parser.advance, hrest]
  rfl

theorem parseRedirect_complete (hmalloc : ∀ k, malloc k = true) {mem : Nat → UInt8} {p : Parser} {c : Command}
    {ts : List Token} {a b : List UInt8} (hc : RedirectTokens c ts) (ha : Spelled ts a) (hline : InLine mem p)
    (hrest : p.rest = a ++ b) (hb : Follows ['>'.toUInt8] b) : Accepts mem (parseRedirect malloc) p c b := by
  obtain ⟨hstops, hspace, hgt⟩ := hb
  rw [Accepts, parseRedirect, yields_bind]
  cases hc with
  | command hc =>
      refine (parseExecute_complete hmalloc hc ha hline hrest ⟨hstops, hspace, nofun⟩).mono ?_
      rintro _ p' ⟨⟨n, rfl, hn⟩, hline', hrest', hresult⟩
      have hno : p'.skip.rest.head? ≠ some '>'.toUInt8 := by
        rw [hrest']
        exact hgt _ List.mem_cons_self
      change Yields (do skipWhitespaces; _) p' _
      rw [yields_bind_of_return (skipWhitespaces_eq p'), yields_bind_of_return (consumeIf_of_ne hno)]
      refine ⟨⟨n, rfl, hn⟩, hline'.skip, ?_, hresult⟩
      exact Parser.skip_rest_of_stops hrest' hspace
  | redirect target hc =>
      obtain ⟨a, ws, _, rfl, hleft, hws, htarget⟩ := ha.split
      cases htarget with
      | @cons _ _ ws' _ hws' hapart htail =>
          cases htail
          have hgt : Stops isspace (target.chars ++ (ws' ++ b)) := target.stops_isspace _
          have hrest' : p.rest = a ++ '>'.toUInt8 :: (ws ++ (target.chars ++ (ws' ++ b))) := by
            rw [hrest]
            simp [Token.chars]
          refine (parseExecute_complete hmalloc hc hleft hline hrest' (follows_cons rfl rfl List.not_mem_nil _)).mono ?_
          rintro _ p' ⟨⟨n, rfl, hn⟩, hline', hskip, hresult⟩
          change Yields (do skipWhitespaces; _) p' _
          obtain ⟨hline'', htext⟩ := skip_operator hline' hskip hws hgt
          rw [yields_bind_of_return (skipWhitespaces_eq p'), yields_bind_of_return (consumeIf_of_eq hskip), if_pos rfl,
            yields_bind_of_return (skipWhitespaces_eq _)]
          have htext' : (p'.skip.advance 1).skip.rest = target.chars ++ ws' ++ [] ++ b := by
            rw [htext, List.append_nil, List.append_assoc]
          obtain ⟨hparse, hword, hline₃, hend⟩ :=
            parseFilename_spelled hline'' htext' hws' (hapart trivial) .nil hstops hspace
          rw [yields_bind_of_return hparse]
          change Yields (do if ← mallocNode malloc then _ else _) _ _
          rw [yields_bind_of_return (mallocNode_eq hmalloc _), if_pos rfl]
          refine ⟨⟨_, rfl, hn, ?_⟩, hline₃, hend, hresult⟩
          change WordAt mem _ (_ + target.chars.length - _) target
          rw [Nat.add_sub_cancel_left]
          exact hword

theorem append_operator {rest a ws text b : List UInt8} {c : UInt8} (h : rest = a ++ ([c] ++ ws ++ text) ++ b) :
    rest = a ++ c :: (ws ++ (text ++ b)) := by
  rw [h, List.append_assoc, List.append_assoc, List.append_assoc]
  rfl

/-- Behind an operator there is less of the line. -/
theorem length_behind_operator {rest a ws text : List UInt8} {c : UInt8} {n : Nat}
    (h : rest = a ++ c :: (ws ++ text)) (hn : rest.length < n + 1) : text.length < n := by
  rw [h, List.length_append, List.length_cons, List.length_append] at hn
  omega

theorem parsePipe_complete (hmalloc : ∀ k, malloc k = true) {mem : Nat → UInt8} {p : Parser} {c : Command}
    {ts : List Token} {a b : List UInt8} {n : Nat} (hc : PipeTokens c ts) (ha : Spelled ts a) (hline : InLine mem p)
    (hrest : p.rest = a ++ b) (hb : Follows ['>'.toUInt8, '|'.toUInt8] b) (hn : p.rest.length < n) :
    Accepts mem (parsePipe malloc n) p c b := by
  have hspace := hb.2.1
  induction hc generalizing p a n with
  | @last c ts hc =>
      obtain ⟨n, rfl⟩ := Nat.exists_eq_add_of_lt hn
      rw [Accepts, parsePipe, yields_bind]
      refine (parseRedirect_complete hmalloc hc ha hline hrest (hb.mono (by simp))).mono ?_
      rintro _ p' ⟨⟨node, rfl, hnode⟩, hline', hskip, hresult⟩
      have hno : p'.skip.rest.head? ≠ some '|'.toUInt8 := by
        rw [hskip]
        exact hb.2.2 _ (List.mem_cons_of_mem _ List.mem_cons_self)
      change Yields (do skipWhitespaces; _) p' _
      rw [yields_bind_of_return (skipWhitespaces_eq p'), yields_bind_of_return (consumeIf_of_ne hno)]
      exact ⟨⟨node, rfl, hnode⟩, hline'.skip, Parser.skip_rest_of_stops hskip hspace, hresult⟩
  | @pipe l ls r rs hl hr ih =>
      obtain ⟨n, rfl⟩ := Nat.exists_eq_add_of_lt hn
      obtain ⟨a, ws, text, rfl, hleft, hws, hright⟩ := ha.split
      have hrest' := append_operator hrest
      rw [Accepts, parsePipe, yields_bind]
      refine (parseRedirect_complete hmalloc hl hleft hline hrest' (follows_cons rfl rfl (by decide) _)).mono ?_
      rintro _ p' ⟨⟨node, rfl, hnode⟩, hline', hskip, hresult⟩
      change Yields (do skipWhitespaces; _) p' _
      obtain ⟨hline'', htext⟩ := skip_operator hline' hskip hws (hright.stops_isspace hspace)
      rw [yields_bind_of_return (skipWhitespaces_eq p'), yields_bind_of_return (consumeIf_of_eq hskip), if_pos rfl,
        yields_bind_of_return (skipWhitespaces_eq _), yields_bind]
      have hshorter := length_behind_operator hrest' hn
      rw [← htext] at hshorter
      refine (ih hright hline'' htext (by omega)).mono ?_
      rintro _ p₃ ⟨⟨node', rfl, hnode'⟩, hline₃, hend, hresult'⟩
      change Yields (do if ← mallocNode malloc then _ else _) _ _
      rw [yields_bind_of_return (mallocNode_eq hmalloc _), if_pos rfl]
      exact ⟨⟨_, rfl, hnode, hnode'⟩, hline₃, hend, hresult'.trans hresult⟩

/-- Where there is no word, no function of the grammar finds anything. -/
def Parser.empty (p : Parser) : Parser := { p with result := .EMPTY, mallocs := p.mallocs + 1 }

theorem parseExecute_empty (hmalloc : ∀ k, malloc k = true) {p : Parser} (h : Stops isValidFilenameCharacter p.rest) :
    parseExecute malloc p = .ok (none, p.empty) := by
  have hnone : parseFilename { p with mallocs := p.mallocs + 1 } = .ok (none, { p with mallocs := p.mallocs + 1 }) :=
    parseFilename_none h
  rw [parseExecute, run_bind, mallocNode_eq hmalloc, MAX_ARGC]
  simp only [if_true, run_bind, parseExecuteLoop, hnone, run_pure]
  rfl

theorem parseRedirect_empty (hmalloc : ∀ k, malloc k = true) {p : Parser} (h : Stops isValidFilenameCharacter p.rest) :
    parseRedirect malloc p = .ok (none, p.empty) := by
  rw [parseRedirect, run_bind, parseExecute_empty hmalloc h]
  rfl

theorem parsePipe_empty (hmalloc : ∀ k, malloc k = true) {p : Parser} {n : Nat}
    (h : Stops isValidFilenameCharacter p.rest) : parsePipe malloc (n + 1) p = .ok (none, p.empty) := by
  rw [parsePipe, run_bind, parseRedirect_empty hmalloc h]
  rfl

theorem parseJuxtaposition_empty (hmalloc : ∀ k, malloc k = true) {p : Parser} {n : Nat}
    (h : Stops isValidFilenameCharacter p.rest) : parseJuxtaposition malloc (n + 1) p = .ok (none, p.empty) := by
  rw [parseJuxtaposition, run_bind, run_get]
  simp only [run_bind, parsePipe_empty hmalloc h]
  rfl

/-- The end of `parse_juxtaposition`, where nothing is behind the operator. -/
theorem parseJuxtapositionRight_empty (hmalloc : ∀ k, malloc k = true) {p : Parser} {n : Nat} {left : ShNode}
    (h : Stops isValidFilenameCharacter p.skip.rest) :
    parseJuxtapositionRight malloc (parseJuxtaposition malloc (n + 1)) left p =
      .ok (some left, { p.skip with result := .SUCCESS, mallocs := p.mallocs + 1 }) := by
  rw [parseJuxtapositionRight, run_bind, skipWhitespaces_eq]
  simp only [run_bind, parseJuxtaposition_empty hmalloc h]
  rfl

/-- The end of `parse_juxtaposition`, where there is a line behind the operator. -/
theorem parseJuxtapositionRight_complete (hmalloc : ∀ k, malloc k = true) {mem : Nat → UInt8} {p : Parser}
    {parseRight : Parse (Option ShNode)} {left : ShNode} {c r : Command} (hleft : Represents (WordAt mem) left c)
    (hright : Accepts mem parseRight p.skip r []) :
    Accepts mem (parseJuxtapositionRight malloc parseRight left) p (.juxtaposition c r) [] := by
  rw [Accepts, parseJuxtapositionRight, yields_bind_of_return (skipWhitespaces_eq p), yields_bind]
  refine hright.mono ?_
  rintro _ p' ⟨⟨node, rfl, hnode⟩, hline, hskip, hresult⟩
  change Yields (do if ← mallocNode malloc then _ else _) _ _
  rw [yields_bind_of_return (mallocNode_eq hmalloc _), if_pos rfl]
  exact ⟨⟨_, rfl, hleft, hnode⟩, hline, hskip, hresult⟩

theorem yields_juxtaposition_semi (hmalloc : ∀ k, malloc k = true) {mem : Nat → UInt8} {p : Parser} {c : Command}
    {ts : List Token} {a rest : List UInt8} {n : Nat} {post : Option ShNode → Parser → Prop} (hc : PipeTokens c ts)
    (ha : Spelled ts a) (hline : InLine mem p) (hrest : p.rest = a ++ ';'.toUInt8 :: rest)
    (hright : ∀ q node, Represents (WordAt mem) node c → InLine mem q → q.rest = rest → q.result = p.result →
      Yields (parseJuxtapositionRight malloc (parseJuxtaposition malloc n) node) q post) :
    Yields (parseJuxtaposition malloc (n + 1)) p post := by
  rw [parseJuxtaposition, yields_bind, yields_get, yields_bind]
  refine (parsePipe_complete hmalloc hc ha hline hrest (follows_cons rfl rfl (by decide) _) (Nat.lt_succ_self _)).mono ?_
  rintro _ p' ⟨⟨node, rfl, hnode⟩, hline', hskip, hresult⟩
  have hno : p'.skip.rest.head? ≠ some '&'.toUInt8 := by
    rw [hskip, List.head?_cons]
    decide
  have hone : 1 ≤ p'.skip.rest.length := by
    rw [hskip, List.length_cons]
    exact Nat.le_add_left 1 _
  change Yields (do skipWhitespaces; _) p' _
  rw [yields_bind_of_return (skipWhitespaces_eq p'), yields_bind_of_return (consumeIf_of_ne hno),
    if_neg Bool.false_ne_true, yields_bind_of_return (consumeIf_of_eq hskip), if_pos rfl]
  exact hright _ node hnode (hline'.skip.advance hone) (congrArg (List.drop 1) hskip) hresult

theorem yields_juxtaposition_amp (hmalloc : ∀ k, malloc k = true) {mem : Nat → UInt8} {p : Parser} {c : Command}
    {ts : List Token} {a rest : List UInt8} {n : Nat} {post : Option ShNode → Parser → Prop} (hc : PipeTokens c ts)
    (ha : Spelled ts a) (hline : InLine mem p) (hrest : p.rest = a ++ '&'.toUInt8 :: rest)
    (hright : ∀ q node, Represents (WordAt mem) node c → InLine mem q → q.rest = rest → q.result = p.result →
      Yields (parseJuxtapositionRight malloc (parseJuxtaposition malloc n) (.background node)) q post) :
    Yields (parseJuxtaposition malloc (n + 1)) p post := by
  rw [parseJuxtaposition, yields_bind, yields_get, yields_bind]
  refine (parsePipe_complete hmalloc hc ha hline hrest (follows_cons rfl rfl (by decide) _) (Nat.lt_succ_self _)).mono ?_
  rintro _ p' ⟨⟨node, rfl, hnode⟩, hline', hskip, hresult⟩
  have hone : 1 ≤ p'.skip.rest.length := by
    rw [hskip, List.length_cons]
    exact Nat.le_add_left 1 _
  change Yields (do skipWhitespaces; _) p' _
  rw [yields_bind_of_return (skipWhitespaces_eq p'), yields_bind_of_return (consumeIf_of_eq hskip), if_pos rfl,
    yields_bind_of_return (mallocNode_eq hmalloc _), if_pos rfl]
  refine hright _ node hnode ?_ (congrArg (List.drop 1) hskip) hresult
  exact hline'.skip.advance hone

/-- A terminator with only whitespace behind it. -/
theorem parseJuxtapositionRight_whitespace (hmalloc : ∀ k, malloc k = true) {mem : Nat → UInt8} {q : Parser} {n : Nat}
    {left : ShNode} {c : Command} (hn : 0 < n) (hleft : Represents (WordAt mem) left c) (hline : InLine mem q)
    (hrest : Whitespace q.rest) (hresult : q.result = .SUCCESS) :
    Accepts mem (parseJuxtapositionRight malloc (parseJuxtaposition malloc n) left) q c [] := by
  obtain ⟨n, rfl⟩ := Nat.exists_eq_add_of_lt hn
  have hskip : q.skip.rest = [] := Parser.skip_rest_of_eq (List.append_nil _).symm hrest (stops_nil _)
  have hstops : Stops isValidFilenameCharacter q.skip.rest := hskip ▸ stops_nil _
  refine yields_of_return (parseJuxtapositionRight_empty hmalloc hstops) ?_
  exact ⟨⟨left, rfl, hleft⟩, hline.skip, Parser.skip_rest_of_stops hskip (stops_nil _), hresult.symm⟩

theorem Accepts.of_result {mem : Nat → UInt8} {parse : Parse (Option ShNode)} {p q : Parser} {c : Command}
    {rest : List UInt8} (h : Accepts mem parse q c rest) (hresult : q.result = p.result) :
    Yields parse q fun r p' => (∃ n, r = some n ∧ Represents (WordAt mem) n c) ∧ InLine mem p' ∧ p'.skip.rest = rest ∧
      p'.result = p.result :=
  h.mono fun _ _ hpost => ⟨hpost.1, hpost.2.1, hpost.2.2.1, hpost.2.2.2.trans hresult⟩

theorem parseJuxtaposition_complete (hmalloc : ∀ k, malloc k = true) {mem : Nat → UInt8} {p : Parser} {c : Command}
    {ts : List Token} {n : Nat} (hc : LineTokens c ts) (ha : Spelled ts p.rest) (hline : InLine mem p)
    (hresult : p.result = .SUCCESS) (hn : p.rest.length < n) :
    Accepts mem (parseJuxtaposition malloc n) p c [] := by
  obtain ⟨n, rfl⟩ : ∃ m, n = m + 1 := ⟨n - 1, by omega⟩
  induction hc generalizing p n with
  | @last c ts hc =>
      rw [Accepts, parseJuxtaposition, yields_bind, yields_get, yields_bind]
      refine (parsePipe_complete hmalloc hc ha hline (List.append_nil _).symm (follows_nil _)
        (Nat.lt_succ_self _)).mono ?_
      rintro _ p' ⟨⟨node, rfl, hnode⟩, hline', hskip, hresult'⟩
      have hno : ∀ d, p'.skip.rest.head? ≠ some d := by
        rw [hskip]
        exact fun _ => nofun
      change Yields (do skipWhitespaces; _) p' _
      rw [yields_bind_of_return (skipWhitespaces_eq p'), yields_bind_of_return (consumeIf_of_ne (hno _)),
        if_neg Bool.false_ne_true, yields_bind_of_return (consumeIf_of_ne (hno _))]
      exact ⟨⟨node, rfl, hnode⟩, hline'.skip, Parser.skip_rest_of_stops hskip (stops_nil _), hresult'⟩
  | @lastSemi c ts hc =>
      obtain ⟨a, ws, _, htext, hleft, hws, ⟨⟩⟩ := ha.split
      have hrest : p.rest = a ++ ';'.toUInt8 :: (ws ++ []) := htext
      refine yields_juxtaposition_semi hmalloc hc hleft hline hrest fun q node hnode hline' hq hresult' => ?_
      rw [List.append_nil] at hq
      exact (parseJuxtapositionRight_whitespace hmalloc (length_behind_operator hrest hn) hnode hline' (hq ▸ hws)
        (hresult'.trans hresult)).of_result hresult'
  | @lastAmp c ts hc =>
      obtain ⟨a, ws, _, htext, hleft, hws, ⟨⟩⟩ := ha.split
      have hrest : p.rest = a ++ '&'.toUInt8 :: (ws ++ []) := htext
      refine yields_juxtaposition_amp hmalloc hc hleft hline hrest fun q node hnode hline' hq hresult' => ?_
      rw [List.append_nil] at hq
      have hbackground : Represents (WordAt mem) (.background node) (.background c) := hnode
      exact (parseJuxtapositionRight_whitespace hmalloc (length_behind_operator hrest hn) hbackground hline'
        (hq ▸ hws) (hresult'.trans hresult)).of_result hresult'
  | @semi l ls r rs hl hr ih =>
      obtain ⟨a, ws, text, htext, hleft, hws, hright⟩ := ha.split
      have hrest : p.rest = a ++ ';'.toUInt8 :: (ws ++ text) := htext
      refine yields_juxtaposition_semi hmalloc hl hleft hline hrest fun q node hnode hline' hq hresult' => ?_
      have hskip : q.skip.rest = text := Parser.skip_rest_of_eq hq hws hright.stops
      have hshorter := length_behind_operator hrest hn
      rw [← hskip] at hright hshorter
      obtain ⟨n, rfl⟩ : ∃ m, n = m + 1 := ⟨n - 1, by omega⟩
      exact (parseJuxtapositionRight_complete hmalloc hnode
        (ih hright hline'.skip (hresult'.trans hresult) n hshorter)).of_result hresult'
  | @amp l ls r rs hl hr ih =>
      obtain ⟨a, ws, text, htext, hleft, hws, hright⟩ := ha.split
      have hrest : p.rest = a ++ '&'.toUInt8 :: (ws ++ text) := htext
      refine yields_juxtaposition_amp hmalloc hl hleft hline hrest fun q node hnode hline' hq hresult' => ?_
      have hbackground : Represents (WordAt mem) (.background node) (.background l) := hnode
      have hskip : q.skip.rest = text := Parser.skip_rest_of_eq hq hws hright.stops
      have hshorter := length_behind_operator hrest hn
      rw [← hskip] at hright hshorter
      obtain ⟨n, rfl⟩ : ∃ m, n = m + 1 := ⟨n - 1, by omega⟩
      exact (parseJuxtapositionRight_complete hmalloc hbackground
        (ih hright hline'.skip (hresult'.trans hresult) n hshorter)).of_result hresult'

/-! ### What is parsed is derived from the grammar -/

/-- What a function of the grammar returns: a tree for what it has consumed up to the next token; nothing, where there
    was no word; or an error. -/
inductive Parsed (grammar : Command → List Token → Prop) (p : Parser) : Option ShNode → Parser → Prop where
  | done {node c ts a p'} : grammar c ts → Spelled ts a → p.rest = a ++ p'.skip.rest → p'.result = .SUCCESS →
      Parsed grammar p (some node) p'
  | empty {p'} : p'.rest = p.rest → p'.result = .EMPTY → Parsed grammar p none p'
  | failed {p'} : p'.result ≠ .SUCCESS → p'.result ≠ .EMPTY → Parsed grammar p none p'

theorem parseExecute_sound (hmalloc : ∀ k, malloc k = true) {p : Parser} (hresult : p.result = .SUCCESS) :
    Yields (parseExecute malloc) p (Parsed ExecuteTokens p) := by
  obtain ⟨words, a, b, hrest, ha, hb, hspace⟩ := exists_words p.rest
  have hline : InLine (writeBytes (fun _ => 0) p.cursor (p.rest ++ [0])) p := bytesAt_writeBytes _ _ _
  cases words with
  | nil =>
      cases ha
      exact yields_of_return (parseExecute_empty hmalloc (hrest ▸ hb)) (.empty rfl rfl)
  | cons w words =>
      have hspace' := hspace (List.cons_ne_nil w words)
      by_cases hfew : (w :: words).length ≤ 15
      · have htokens := ExecuteTokens.words (w :: words) (Nat.le_add_left 1 _) hfew
        refine (parseExecute_complete hmalloc htokens ha hline hrest ⟨hb, hspace', nofun⟩).mono ?_
        rintro _ p' ⟨⟨node, rfl, -⟩, -, hskip, hresult'⟩
        exact .done htokens ha (by rw [hskip, hrest]) (hresult'.trans hresult)
      · rw [parseExecute, yields_bind_of_return (mallocNode_eq hmalloc p), if_pos rfl, yields_bind]
        refine (parseExecuteLoop_tooMany (p := { p with mallocs := p.mallocs + 1 }) hline hrest ha hb hspace
          (Nat.lt_of_not_le hfew)).mono ?_
        rintro _ p' ⟨rfl, hmany⟩
        exact .failed (by rw [hmany]; decide) (by rw [hmany]; decide)

theorem Parser.behind_operator {p : Parser} {c : UInt8} (h : p.skip.rest.head? = some c) :
    consumeIf c p.skip = .ok (true, p.skip.advance 1) ∧
      ∃ ws, Whitespace ws ∧ p.skip.rest = [c] ++ ws ++ (p.skip.advance 1).skip.rest := by
  obtain ⟨rest, hrest⟩ := List.head?_eq_some_iff.1 h
  obtain ⟨ws, hws, hbehind⟩ := (p.skip.advance 1).rest_eq_skip
  refine ⟨consumeIf_of_eq hrest, ws, hws, ?_⟩
  have htail : (p.skip.advance 1).rest = rest := congrArg (List.drop 1) hrest
  rw [hrest, List.append_assoc, ← hbehind, htail]
  rfl

theorem parseRedirect_sound (hmalloc : ∀ k, malloc k = true) {p : Parser} (hresult : p.result = .SUCCESS) :
    Yields (parseRedirect malloc) p (Parsed RedirectTokens p) := by
  rw [parseRedirect, yields_bind]
  refine (parseExecute_sound hmalloc hresult).mono fun r p' hparsed => ?_
  cases hparsed with
  | empty hrest hempty => exact .empty hrest hempty
  | failed hsuccess hempty => exact .failed hsuccess hempty
  | @done node c ts a _ hc ha hrest hsuccess =>
      change Yields (do skipWhitespaces; _) p' _
      rw [yields_bind_of_return (skipWhitespaces_eq p')]
      by_cases hgt : p'.skip.rest.head? = some '>'.toUInt8
      · obtain ⟨hconsume, ws, hws, hbehind⟩ := Parser.behind_operator hgt
        rw [yields_bind_of_return hconsume, if_pos rfl, yields_bind_of_return (skipWhitespaces_eq _)]
        by_cases hstops : Stops isValidFilenameCharacter (p'.skip.advance 1).skip.rest
        · rw [yields_bind_of_return (parseFilename_none hstops)]
          exact .failed nofun nofun
        · obtain ⟨w, rest, hword, hstops⟩ := exists_word hstops
          rw [yields_bind_of_return (parseFilename_word hword hstops)]
          change Yields (do if ← mallocNode malloc then _ else _) _ _
          rw [yields_bind_of_return (mallocNode_eq hmalloc _), if_pos rfl]
          let end' := (p'.skip.advance 1).skip.advance w.chars.length
          have hend : end'.rest = rest := by
            change (p'.skip.advance 1).skip.rest.drop w.chars.length = rest
            rw [hword]
            exact List.drop_left
          obtain ⟨ws', hws', htail⟩ := end'.rest_eq_skip
          have htarget : Spelled [.gt, .word w] ([_] ++ ws ++ (w.chars ++ ws' ++ [])) :=
            Spelled.operator id hws (.cons (.word w) hws' (fun _ => nofun) .nil)
          refine Parsed.done (.redirect w hc) (ha.append htarget ?_) ?_ hsuccess
          · rintro _ ⟨⟩
            exact id
          · change p.rest = _ ++ end'.skip.rest
            rw [hrest, hbehind, hword, ← hend, htail]
            simp
      · rw [yields_bind_of_return (consumeIf_of_ne hgt)]
        refine Parsed.done (.command hc) ha ?_ hsuccess
        rw [hrest, p'.skip_skip_rest]

/-- An operator between two spellings. -/
theorem Spelled.append_operator {ls rs : List Token} {t : Token} {a ws b : List UInt8} (hl : Spelled ls a)
    (ht : ¬t.IsWord) (hws : Whitespace ws) (hr : Spelled rs b) :
    Spelled (ls ++ t :: rs) (a ++ (t.chars ++ ws ++ b)) := by
  refine hl.append (.operator ht hws hr) ?_
  rintro _ ⟨⟩
  exact ht

theorem parsePipe_sound (hmalloc : ∀ k, malloc k = true) {p : Parser} {n : Nat} (hresult : p.result = .SUCCESS)
    (hn : p.rest.length < n) : Yields (parsePipe malloc n) p (Parsed PipeTokens p) := by
  induction n generalizing p with
  | zero => exact absurd hn (Nat.not_lt_zero _)
  | succ n ih =>
      rw [parsePipe, yields_bind]
      refine (parseRedirect_sound hmalloc hresult).mono fun r p' hparsed => ?_
      cases hparsed with
      | empty hrest hempty => exact .empty hrest hempty
      | failed hsuccess hempty => exact .failed hsuccess hempty
      | @done node c ts a _ hc ha hrest hsuccess =>
          change Yields (do skipWhitespaces; _) p' _
          rw [yields_bind_of_return (skipWhitespaces_eq p')]
          by_cases hbar : p'.skip.rest.head? = some '|'.toUInt8
          · obtain ⟨hconsume, ws, hws, hbehind⟩ := Parser.behind_operator hbar
            rw [yields_bind_of_return hconsume, if_pos rfl, yields_bind_of_return (skipWhitespaces_eq _), yields_bind]
            have hsplit : p.rest = a ++ '|'.toUInt8 :: (ws ++ (p'.skip.advance 1).skip.rest) := by
              rw [hrest, hbehind]
              rfl
            have hgoing : (p'.skip.advance 1).skip.result = .SUCCESS := hsuccess
            refine (ih hgoing (length_behind_operator hsplit hn)).mono fun r p₃ hparsed => ?_
            cases hparsed with
            | empty hrest' hempty =>
                change Yields (if p₃.result = .EMPTY then fail .SYNTAX_ERROR else pure none) p₃ _
                rw [if_pos hempty]
                exact .failed nofun nofun
            | failed hsuccess' hempty =>
                change Yields (if p₃.result = .EMPTY then fail .SYNTAX_ERROR else pure none) p₃ _
                rw [if_neg hempty]
                exact .failed hsuccess' hempty
            | @done node' c' ts' a' _ hc' ha' hrest' hsuccess' =>
                change Yields (do if ← mallocNode malloc then _ else _) _ _
                rw [yields_bind_of_return (mallocNode_eq hmalloc _), if_pos rfl]
                refine Parsed.done (.pipe hc hc') (ha.append_operator (t := .bar) id hws ha') ?_ hsuccess'
                change p.rest = _ ++ p₃.skip.rest
                rw [hrest, hbehind, hrest']
                simp [Token.chars]
          · rw [yields_bind_of_return (consumeIf_of_ne hbar)]
            refine Parsed.done (.last hc) ha ?_ hsuccess
            rw [hrest, p'.skip_skip_rest]

/-- The end of `parse_juxtaposition` goes on with a line that has begun with these tokens. -/
theorem parseJuxtapositionRight_sound (hmalloc : ∀ k, malloc k = true) {p q : Parser} {left : ShNode} {c : Command}
    {ls : List Token} {t : Token} {a ws : List UInt8} {parseRight : Parse (Option ShNode)} (ht : ¬t.IsWord)
    (hlast : LineTokens c (ls ++ [t]))
    (hmore : ∀ r rs, LineTokens r rs → LineTokens (.juxtaposition c r) (ls ++ t :: rs))
    (ha : Spelled ls a) (hws : Whitespace ws) (hrest : p.rest = a ++ (t.chars ++ ws ++ q.skip.rest))
    (hright : Yields parseRight q.skip fun r p' =>
      Parsed LineTokens q.skip r p' ∨ p'.result ≠ .SUCCESS ∧ p'.result ≠ .EMPTY) :
    Yields (parseJuxtapositionRight malloc parseRight left) q fun r p' =>
      Parsed LineTokens p r p' ∨ p'.result ≠ .SUCCESS ∧ p'.result ≠ .EMPTY := by
  rw [parseJuxtapositionRight, yields_bind_of_return (skipWhitespaces_eq q), yields_bind]
  refine hright.mono fun r p' hparsed => ?_
  rcases hparsed with hparsed | ⟨hsuccess, hempty⟩
  · cases hparsed with
    | done hc ha' hrest' hsuccess =>
        change Yields (do if ← mallocNode malloc then _ else _) _ _
        rw [yields_bind_of_return (mallocNode_eq hmalloc _), if_pos rfl]
        refine Or.inl (.done (hmore _ _ hc) (ha.append_operator ht hws ha') ?_ hsuccess)
        change p.rest = _ ++ p'.skip.rest
        rw [hrest, hrest']
        simp only [List.append_assoc]
    | empty hrest' hempty =>
        -- nothing behind the terminator is not an error
        change Yields (if p'.result = .EMPTY then _ else _) p' _
        rw [if_pos hempty]
        refine Or.inl (.done hlast (ha.append_operator ht hws .nil) ?_ rfl)
        have hskip : p'.skip.rest = q.skip.rest := by
          rw [p'.skip_rest, hrest', ← q.skip.skip_rest, q.skip_skip_rest]
        change p.rest = _ ++ p'.skip.rest
        rw [hrest, hskip]
        simp only [List.append_assoc, List.nil_append]
    | failed hsuccess hempty =>
        change Yields (if p'.result = .EMPTY then _ else _) p' _
        rw [if_neg hempty]
        exact Or.inr ⟨hsuccess, hempty⟩
  · cases r with
    | none =>
        change Yields (if p'.result = .EMPTY then _ else _) p' _
        rw [if_neg hempty]
        exact Or.inr ⟨hsuccess, hempty⟩
    | some right =>
        change Yields (do if ← mallocNode malloc then _ else _) _ _
        rw [yields_bind_of_return (mallocNode_eq hmalloc _), if_pos rfl]
        exact Or.inr ⟨hsuccess, hempty⟩

theorem parseJuxtaposition_sound (hmalloc : ∀ k, malloc k = true) {p : Parser} {n : Nat} (hresult : p.result = .SUCCESS)
    (hn : p.rest.length < n) :
    Yields (parseJuxtaposition malloc n) p fun r p' =>
      Parsed LineTokens p r p' ∨ p'.result ≠ .SUCCESS ∧ p'.result ≠ .EMPTY := by
  induction n generalizing p with
  | zero => exact absurd hn (Nat.not_lt_zero _)
  | succ n ih =>
      rw [parseJuxtaposition, yields_bind, yields_get, yields_bind]
      refine (parsePipe_sound hmalloc hresult (Nat.lt_succ_self _)).mono fun r p' hparsed => ?_
      cases hparsed with
      | empty hrest hempty => exact Or.inl (.empty hrest hempty)
      | failed hsuccess hempty => exact Or.inr ⟨hsuccess, hempty⟩
      | @done node c ts a _ hc ha hrest hsuccess =>
          change Yields (do skipWhitespaces; _) p' _
          rw [yields_bind_of_return (skipWhitespaces_eq p')]
          have hgoing : (p'.skip.advance 1).skip.result = .SUCCESS := hsuccess
          by_cases hamp : p'.skip.rest.head? = some '&'.toUInt8
          · obtain ⟨hconsume, ws, hws, hbehind⟩ := Parser.behind_operator hamp
            have hsplit : p.rest = a ++ '&'.toUInt8 :: (ws ++ (p'.skip.advance 1).skip.rest) := by
              rw [hrest, hbehind]
              rfl
            have hshorter := length_behind_operator hsplit hn
            rw [yields_bind_of_return hconsume, if_pos rfl, yields_bind_of_return (mallocNode_eq hmalloc _), if_pos rfl]
            exact parseJuxtapositionRight_sound (t := .amp) hmalloc id (.lastAmp hc) (fun _ _ => .amp hc) ha hws hsplit
              (ih hgoing hshorter)
          · rw [yields_bind_of_return (consumeIf_of_ne hamp), if_neg Bool.false_ne_true]
            by_cases hsemi : p'.skip.rest.head? = some ';'.toUInt8
            · obtain ⟨hconsume, ws, hws, hbehind⟩ := Parser.behind_operator hsemi
              have hsplit : p.rest = a ++ ';'.toUInt8 :: (ws ++ (p'.skip.advance 1).skip.rest) := by
                rw [hrest, hbehind]
                rfl
              rw [yields_bind_of_return hconsume, if_pos rfl]
              exact parseJuxtapositionRight_sound (t := .semi) hmalloc id (.lastSemi hc) (fun _ _ => .semi hc) ha hws
                hsplit (ih hgoing (length_behind_operator hsplit hn))
            · rw [yields_bind_of_return (consumeIf_of_ne hsemi)]
              refine Or.inl (.done (.last hc) ha ?_ hsuccess)
              rw [hrest, p'.skip_skip_rest]

end Malloc

/-! ### The zeros behind the words -/

theorem Represents.mono {at₁ at₂ : Nat → Nat → Word → Prop} {node : ShNode} {c : Command}
    (h : Represents at₁ node c) (hmono : ∀ a len w, at₁ a len w → at₂ a len w) : Represents at₂ node c := by
  induction node generalizing c with
  | execute argv lengths =>
      cases c with
      | execute words =>
          refine ⟨fun i hi => ?_, h.2⟩
          obtain ⟨arg, hargv, harg⟩ := h.1 i hi
          exact ⟨arg, hargv, hmono _ _ _ harg⟩
      | _ => exact h.elim
  | juxtaposition left right ihl ihr =>
      cases c with
      | juxtaposition l r => exact ⟨ihl h.1, ihr h.2⟩
      | _ => exact h.elim
  | pipe left right ihl ihr =>
      cases c with
      | pipe l r => exact ⟨ihl h.1, ihr h.2⟩
      | _ => exact h.elim
  | redirect source target targetLength ih =>
      cases c with
      | redirect source' target' => exact ⟨ih h.1, hmono _ _ _ h.2⟩
      | _ => exact h.elim
  | background inner ih =>
      cases c with
      | background inner' => exact ih (c := inner') h
      | _ => exact h.elim

/-- Some characters that are not part of a word have been replaced by zero. -/
def Cuts (mem mem' : Nat → UInt8) : Prop :=
  ∀ x, mem' x = mem x ∨ mem' x = 0 ∧ isValidFilenameCharacter (mem x) = false

theorem Cuts.refl (mem : Nat → UInt8) : Cuts mem mem := fun _ => Or.inl rfl

theorem Cuts.not_filename {mem mem' : Nat → UInt8} (h : Cuts mem mem') {x : Nat}
    (hx : isValidFilenameCharacter (mem x) = false) : isValidFilenameCharacter (mem' x) = false := by
  rcases h x with heq | ⟨heq, -⟩
  · rw [heq, hx]
  · rw [heq]
    rfl

theorem Cuts.trans {mem₁ mem₂ mem₃ : Nat → UInt8} (h : Cuts mem₁ mem₂) (h' : Cuts mem₂ mem₃) : Cuts mem₁ mem₃ := by
  intro x
  rcases h' x with heq | ⟨hzero, hcut⟩
  · rw [heq]
    exact h x
  · rcases h x with heq | ⟨-, hcut'⟩
    · exact Or.inr ⟨hzero, heq ▸ hcut⟩
    · exact Or.inr ⟨hzero, hcut'⟩

theorem Cuts.zero {mem mem' : Nat → UInt8} (h : Cuts mem mem') {x : Nat} (hx : mem x = 0) : mem' x = 0 := by
  rcases h x with heq | ⟨heq, -⟩
  · rw [heq, hx]
  · exact heq

theorem cuts_update {mem : Nat → UInt8} {x : Nat} (h : isValidFilenameCharacter (mem x) = false) :
    Cuts mem (Function.update mem x 0) := by
  intro y
  by_cases hy : y = x
  · rw [hy, Function.update_self]
    exact Or.inr ⟨rfl, h⟩
  · exact Or.inl (Function.update_of_ne hy 0 mem)

/-- The word is in memory, with a zero behind it. -/
def EndedAt (mem mem' : Nat → UInt8) (a len : Nat) (w : Word) : Prop := WordAt mem a len w ∧ mem' (a + len) = 0

theorem EndedAt.cut {mem mem₁ mem₂ : Nat → UInt8} {a len : Nat} {w : Word} (h : EndedAt mem mem₁ a len w)
    (hcuts : Cuts mem₁ mem₂) : EndedAt mem mem₂ a len w := ⟨h.1, hcuts.zero h.2⟩

theorem nullTerminateArgv_ends {mem mem₁ : Nat → UInt8} {words : List Word} {argv : Nat → Option Nat}
    {lengths : Nat → Nat} {n i : Nat} (hcuts : Cuts mem mem₁)
    (hwords : ∀ j (h : j < words.length), ∃ arg, argv j = some arg ∧ WordAt mem arg (lengths j) words[j])
    (hend : argv words.length = none) (hi : i ≤ words.length) (hn : words.length < i + n) :
    Cuts mem₁ (nullTerminateArgv argv lengths n i mem₁) ∧
      ∀ j, i ≤ j → (h : j < words.length) → ∃ arg, argv j = some arg ∧
        EndedAt mem (nullTerminateArgv argv lengths n i mem₁) arg (lengths j) words[j] := by
  induction n generalizing i mem₁ with
  | zero => omega
  | succ n ih =>
      rcases Nat.eq_or_lt_of_le hi with rfl | hlt
      · rw [nullTerminateArgv, hend]
        exact ⟨.refl _, fun j hj hlt => absurd hlt (Nat.not_lt_of_le hj)⟩
      · obtain ⟨arg, hargv, hword⟩ := hwords i hlt
        have hstep := cuts_update (hcuts.not_filename hword.2.2)
        obtain ⟨hcuts', hends⟩ := ih (hcuts.trans hstep) hlt (by omega)
        rw [nullTerminateArgv, hargv]
        refine ⟨hstep.trans hcuts', fun j hj hjlt => ?_⟩
        rcases Nat.eq_or_lt_of_le hj with rfl | hij
        · exact ⟨arg, hargv, hword, hcuts'.zero (Function.update_self ..)⟩
        · exact hends j hij hjlt

theorem represents_nullTerminate {mem mem₁ : Nat → UInt8} {node : ShNode} {c : Command}
    (h : Represents (WordAt mem) node c) (hcuts : Cuts mem mem₁) :
    Cuts mem₁ (nullTerminate node mem₁) ∧ Represents (EndedAt mem (nullTerminate node mem₁)) node c := by
  induction node generalizing c mem₁ with
  | execute argv lengths =>
      cases c with
      | execute words =>
          obtain ⟨hwords, hend, hfew⟩ := h
          obtain ⟨hcuts', hends⟩ := nullTerminateArgv_ends (n := MAX_ARGC) hcuts hwords hend (Nat.zero_le _) (by omega)
          exact ⟨hcuts', fun i hi => hends i (Nat.zero_le i) hi, hend, hfew⟩
      | _ => exact h.elim
  | juxtaposition left right ihl ihr =>
      cases c with
      | juxtaposition l r =>
          obtain ⟨hl, hleft⟩ := ihl h.1 hcuts
          obtain ⟨hr, hright⟩ := ihr h.2 (hcuts.trans hl)
          exact ⟨hl.trans hr, hleft.mono fun _ _ _ hended => hended.cut hr, hright⟩
      | _ => exact h.elim
  | pipe left right ihl ihr =>
      cases c with
      | pipe l r =>
          obtain ⟨hl, hleft⟩ := ihl h.1 hcuts
          obtain ⟨hr, hright⟩ := ihr h.2 (hcuts.trans hl)
          exact ⟨hl.trans hr, hleft.mono fun _ _ _ hended => hended.cut hr, hright⟩
      | _ => exact h.elim
  | redirect source target targetLength ih =>
      cases c with
      | redirect source' target' =>
          obtain ⟨hsource, hnode⟩ := ih h.1 hcuts
          have htarget := cuts_update ((hcuts.trans hsource).not_filename h.2.2.2)
          exact ⟨hsource.trans htarget, hnode.mono fun _ _ _ hended => hended.cut htarget, h.2, Function.update_self ..⟩
      | _ => exact h.elim
  | background inner ih =>
      cases c with
      | background inner' => exact ih (c := inner') h hcuts
      | _ => exact h.elim

theorem EndedAt.cStrAt {mem mem' : Nat → UInt8} {a len : Nat} {w : Word} (h : EndedAt mem mem' a len w)
    (hcuts : Cuts mem mem') : CStrAt mem' a w.str := by
  obtain ⟨⟨rfl, hword, -⟩, hzero⟩ := h
  rw [CStrAt, bytesAt_append]
  constructor
  · intro i (hi : i < w.chars.length)
    have hchar := hword i hi
    have hvalid : isValidFilenameCharacter w.chars[i] = true := w.valid _ (List.getElem_mem hi)
    rcases hcuts (a + i) with heq | ⟨-, hcut⟩
    · exact heq.trans hchar
    · rw [hchar, hvalid] at hcut
      cases hcut
  · intro i hi
    obtain rfl : i = 0 := Nat.lt_one_iff.1 hi
    exact hzero

/-! ### The whole line -/

theorem parseLine_complete {malloc : Nat → Bool} (hmalloc : ∀ k, malloc k = true) {mem : Nat → UInt8} {p : Parser}
    {c : Command} {ts : List Token} (hc : LineTokens c ts) (hrenders : Renders ts p.rest) (hline : InLine mem p)
    (hresult : p.result = .SUCCESS) :
    Yields (parseLine malloc) p fun r p' => (∃ n, r = some n ∧ Represents (WordAt mem) n c) ∧ p'.result = .SUCCESS := by
  obtain ⟨ws, text, hws, htext, hrest⟩ := hrenders
  have hskip : p.skip.rest = text := Parser.skip_rest_of_eq hrest hws htext.stops
  rw [parseLine, yields_bind_of_return (skipWhitespaces_eq p), yields_bind, yields_get, yields_bind]
  refine (parseJuxtaposition_complete hmalloc hc (hskip ▸ htext) hline.skip hresult (Nat.lt_succ_self _)).mono ?_
  rintro r p' ⟨hnode, -, hend, hsuccess⟩
  have hend' : ¬p'.skip.rest ≠ [] := fun hne => hne hend
  rw [yields_bind_of_return (skipWhitespaces_eq p'), yields_bind, yields_get, if_neg hend']
  exact ⟨hnode, hsuccess.trans hresult⟩

theorem parseLine_sound {malloc : Nat → Bool} (hmalloc : ∀ k, malloc k = true) {p : Parser}
    (hresult : p.result = .SUCCESS) :
    Yields (parseLine malloc) p fun _ p' => p'.result = .SUCCESS → ∃ c ts, LineTokens c ts ∧ Renders ts p.rest := by
  rw [parseLine, yields_bind_of_return (skipWhitespaces_eq p), yields_bind, yields_get, yields_bind]
  refine (parseJuxtaposition_sound hmalloc (p := p.skip) hresult (Nat.lt_succ_self _)).mono fun r p' hparsed => ?_
  rw [yields_bind_of_return (skipWhitespaces_eq p'), yields_bind, yields_get]
  by_cases hend : p'.skip.rest = []
  · rw [if_neg (not_not.2 hend)]
    intro hsuccess
    have hsuccess' : p'.result = .SUCCESS := hsuccess
    rcases hparsed with hparsed | ⟨hne, -⟩
    · cases hparsed with
      | empty hrest hempty => cases hempty.symm.trans hsuccess'
      | failed hne _ => exact absurd hsuccess' hne
      | @done node c ts a _ hc ha hrest _ =>
          rw [hend, List.append_nil] at hrest
          obtain ⟨ws, hws, hline⟩ := p.rest_eq_skip
          exact ⟨c, ts, hc, ws, a, hws, ha, hrest ▸ hline⟩
    · exact absurd hsuccess' hne
  · rw [if_pos hend]
    exact nofun

/-- The shell accepts its grammar, and nothing else: parsing succeeds on a line just where the line is a rendering of
    some tree, the tree that is returned is that one, and its words are strings in the memory of the line. -/
theorem parse_accepts_grammar {malloc : Nat → Bool} (hmalloc : ∀ k, malloc k = true) {mem : Nat → UInt8} {line : Nat}
    {str : CString} (hstr : CStrAt mem line str) :
    ∃ node result mem', parse malloc mem line str = .ok (node, result, mem') ∧
      (result = .SUCCESS ↔ ∃ c ts, LineTokens c ts ∧ Renders ts str.chars) ∧
      ∀ c ts, LineTokens c ts → Renders ts str.chars →
        ∃ n, node = some n ∧ Represents (fun a _ w => CStrAt mem' a w.str) n c := by
  let p : Parser := { cursor := line, rest := str.chars, result := .SUCCESS }
  have hline : InLine mem p := hstr
  obtain ⟨r, p', hreturn, hsound⟩ := yields_iff.1 (parseLine_sound hmalloc (p := p) rfl)
  have hcomplete : ∀ c ts, LineTokens c ts → Renders ts str.chars →
      (∃ n, r = some n ∧ Represents (WordAt mem) n c) ∧ p'.result = .SUCCESS := fun c ts hc hrenders =>
    (parseLine_complete hmalloc hc hrenders hline rfl).and_return hreturn
  have hiff : p'.result = .SUCCESS ↔ ∃ c ts, LineTokens c ts ∧ Renders ts str.chars :=
    ⟨hsound, fun ⟨c, ts, hc, hrenders⟩ => (hcomplete c ts hc hrenders).2⟩
  cases r with
  | none =>
      refine ⟨none, p'.result, mem, by rw [parse, hreturn], hiff, fun c ts hc hrenders => ?_⟩
      obtain ⟨⟨n, hnone, -⟩, -⟩ := hcomplete c ts hc hrenders
      cases hnone
  | some node =>
      refine ⟨some node, p'.result, nullTerminate node mem, by rw [parse, hreturn], hiff, fun c ts hc hrenders => ?_⟩
      obtain ⟨⟨n, hsome, hnode⟩, -⟩ := hcomplete c ts hc hrenders
      obtain rfl := Option.some.inj hsome
      obtain ⟨hcuts, hended⟩ := represents_nullTerminate hnode (.refl mem)
      exact ⟨node, rfl, hended.mono fun _ _ _ h => h.cStrAt hcuts⟩

/-- `ls >x &`. -/
def backgroundLine : CString :=
  ⟨['l'.toUInt8, 's'.toUInt8, ' '.toUInt8, '>'.toUInt8, 'x'.toUInt8, ' '.toUInt8, '&'.toUInt8],
    List.forall_iff_forall_mem.1 (by decide)⟩

theorem parse_accepts_grammar_background :
    ∃ node mem', parse (fun _ => true) (writeBytes (fun _ => 0) 0 (backgroundLine.chars ++ [0])) 0 backgroundLine =
        .ok (some node, .SUCCESS, mem') ∧
      Represents (fun a _ w => CStrAt mem' a w.str) node
        (.background (.redirect (.execute [⟨['l'.toUInt8, 's'.toUInt8], by decide, List.all_eq_true.1 rfl⟩])
          ⟨['x'.toUInt8], by decide, List.all_eq_true.1 rfl⟩)) := by
  let ls : Word := ⟨['l'.toUInt8, 's'.toUInt8], by decide, List.all_eq_true.1 rfl⟩
  let x : Word := ⟨['x'.toUInt8], by decide, List.all_eq_true.1 rfl⟩
  have hc : LineTokens (.background (.redirect (.execute [ls]) x)) ([.word ls, .gt, .word x] ++ [.amp]) :=
    .lastAmp (.last (.redirect x (.words [ls] (by decide) (by decide))))
  have hspace : Whitespace [' '.toUInt8] := List.forall_mem_singleton.2 rfl
  have htext : Spelled [.word ls, .gt, .word x, .amp] backgroundLine.chars :=
    .cons (.word ls) hspace (fun _ _ => List.cons_ne_nil _ _) <| .cons .gt whitespace_nil (fun hword => hword.elim) <|
      .cons (.word x) hspace (fun _ _ => List.cons_ne_nil _ _) <| .cons .amp whitespace_nil (fun hword => hword.elim) .nil
  have hrenders : Renders ([.word ls, .gt, .word x] ++ [.amp]) backgroundLine.chars := ⟨[], _, whitespace_nil, htext, rfl⟩
  have hmalloc : ∀ k, (fun _ : Nat => true) k = true := fun _ => rfl
  obtain ⟨node, result, mem', hreturn, hsuccess, htree⟩ := parse_accepts_grammar hmalloc
    (bytesAt_writeBytes (fun _ => 0) 0 (backgroundLine.chars ++ [0]))
  obtain ⟨n, rfl, hn⟩ := htree _ _ hc hrenders
  obtain rfl := hsuccess.2 ⟨_, _, hc, hrenders⟩
  exact ⟨n, mem', hreturn, hn⟩

end Sh

end Chaotix
