import ConceptForest.Grammar.Error
import ConceptForest.Grammar.FencedBody
import ConceptForest.Grammar.Token
import ConceptForest.Text.Blank
import ConceptForest.Text.Mark

/-!
From text to tokens.

Reading skips a gap of blanks and then scans one lexeme, until the input ends. A scan hands back
the lexeme, the characters it was read from and the characters behind them, so no character is lost
and the place of every token follows from what has been read:

* `scan_append`: what was read and what is left are the input of the scan;
* `scan_ne_nil`: a scan reads at least one character, which ends the recursion of `tokensFrom`.

The only thing that can go wrong is an enclosure without its closing mark.
-/

namespace ConceptForest.Grammar

open ConceptForest.Text

/-- The mark on both sides of a snippet. -/
def fenceMark : List Char := "```".toList

/-- May the character belong to the name of a command? -/
def isNameChar (c : Char) : Bool :=
  c.isAlphanum || c == '_'

/-- May the character belong to the tag of a snippet? -/
def isTagChar (c : Char) : Bool :=
  isNameChar c || c == '-'

/-- Does a word end before this text? -/
def endsWord : List Char → Bool
  | [] => true
  | c :: cs =>
    isBlank c || c == '[' || c == ']' || c == ';' || c == '"' || fenceMark.isPrefixOf (c :: cs)

/-- The characters up to the place where a word ends, and the rest. -/
def wordSpan : List Char → List Char × List Char
  | [] => ([], [])
  | c :: cs =>
    if endsWord (c :: cs) then ([], c :: cs)
    else let (text, rest) := wordSpan cs; (c :: text, rest)

/-- A quotation's text, the characters it was read from and what stands behind the closing mark.
The one escape is that of the quotation mark. -/
def quotationBody : List Char → Option (List Char × List Char × List Char)
  | [] => none
  | '"' :: cs => some ([], ['"'], cs)
  | '\\' :: '"' :: cs =>
    (quotationBody cs).map fun (text, source, rest) => ('"' :: text, '\\' :: '"' :: source, rest)
  | c :: cs => (quotationBody cs).map fun (text, source, rest) => (c :: text, c :: source, rest)

/-- A lexeme, the characters that it was read from, and the characters behind them. -/
structure Scan where
  lexeme : Lexeme
  source : List Char
  rest : List Char

/-- Reads the lexeme that begins with `c`, a character outside of every gap. `atStart` says that an
expression begins here: only there a colon can introduce a command. -/
def scan (atStart : Bool) (c : Char) (cs : List Char) : Except Enclosure Scan :=
  match c with
  | '\n' | ';' => .ok ⟨.separator c, [c], cs⟩
  | '[' =>
    match cs with
    | '[' :: inner =>
      match breakOn [']', ']'] inner with
      | some (body, rest) =>
        .ok ⟨.phrase (String.ofList (trim body)), '[' :: '[' :: body ++ [']', ']'], rest⟩
      | none => .error .phrase
    | _ => .ok ⟨.openBlock, [c], cs⟩
  | ']' => .ok ⟨.closeBlock, [c], cs⟩
  | '"' =>
    match quotationBody cs with
    | some (text, source, rest) => .ok ⟨.quotation (String.ofList text), c :: source, rest⟩
    | none => .error .quotation
  | _ =>
    match fenceMark.isPrefixOf? (c :: cs) with
    | some inner =>
      let tag := inner.takeWhile isTagChar
      match breakOn fenceMark (inner.dropWhile isTagChar) with
      | some (body, rest) =>
        .ok ⟨.snippet (if tag.isEmpty then none else some (String.ofList tag))
          (String.ofList (FencedBody.normalize body)),
          fenceMark ++ tag ++ body ++ fenceMark, rest⟩
      | none => .error .snippet
    | none =>
      if c == ':' && atStart && cs.head?.any (fun d => d.isAlpha || d == '_') then
        let name := cs.takeWhile isNameChar
        .ok ⟨.command (String.ofList name), c :: name, cs.dropWhile isNameChar⟩
      else
        let (text, rest) := wordSpan cs
        .ok ⟨.word (String.ofList (c :: text)), c :: text, rest⟩

/-! ### A scan splits its input -/

theorem wordSpan_append (cs : List Char) : (wordSpan cs).1 ++ (wordSpan cs).2 = cs := by
  induction cs with
  | nil => rfl
  | cons c cs ih =>
    simp only [wordSpan]
    split
    · rfl
    · simpa using ih

theorem quotationBody_append {cs text source rest : List Char}
    (h : quotationBody cs = some (text, source, rest)) : source ++ rest = cs := by
  fun_induction quotationBody cs generalizing text source with
  | case1 => simp at h
  | case2 cs =>
    obtain ⟨rfl, rfl, rfl⟩ : [] = text ∧ ['"'] = source ∧ cs = rest := by simpa using h
    rfl
  | case3 cs ih =>
    obtain ⟨⟨t, s, r⟩, hb, he⟩ := Option.map_eq_some_iff.mp h
    obtain ⟨rfl, rfl, rfl⟩ : '"' :: t = text ∧ '\\' :: '"' :: s = source ∧ r = rest := by
      simpa using he
    simpa using ih hb
  | case4 c cs _ _ ih =>
    obtain ⟨⟨t, s, r⟩, hb, he⟩ := Option.map_eq_some_iff.mp h
    obtain ⟨rfl, rfl, rfl⟩ : c :: t = text ∧ c :: s = source ∧ r = rest := by simpa using he
    simpa using ih hb

/-- What was read and what is left are the input of the scan. -/
theorem scan_append {atStart : Bool} {c : Char} {cs : List Char} {s : Scan}
    (h : scan atStart c cs = .ok s) : s.source ++ s.rest = c :: cs := by
  unfold scan at h
  split at h
  · cases h; rfl
  · cases h; rfl
  · split at h
    · split at h
      · next hb => cases h; simpa using append_of_breakOn hb
      · cases h
    · cases h; rfl
  · cases h; rfl
  · split at h
    · next hb => cases h; simpa using quotationBody_append hb
    · cases h
  · split at h
    · next hp =>
      split at h
      · next hb =>
        cases h
        rw [← append_of_isPrefixOf? hp]
        simpa [List.append_assoc] using (congrArg (List.takeWhile isTagChar _ ++ ·)
          (append_of_breakOn hb)).trans List.takeWhile_append_dropWhile
      · cases h
    · split at h
      · cases h; simp [List.takeWhile_append_dropWhile]
      · cases h; simpa using wordSpan_append cs

/-- A scan reads at least one character. -/
theorem scan_ne_nil {atStart : Bool} {c : Char} {cs : List Char} {s : Scan}
    (h : scan atStart c cs = .ok s) : s.source ≠ [] := by
  unfold scan at h
  split at h
  · cases h; simp
  · cases h; simp
  · split at h
    · split at h
      · cases h; simp
      · cases h
    · cases h; simp
  · cases h; simp
  · split at h
    · cases h; simp
    · cases h
  · split at h
    · split at h
      · cases h; simp [fenceMark]
      · cases h
    · split at h
      · cases h; simp
      · cases h; simp

theorem scan_rest_length_lt {atStart : Bool} {c : Char} {cs : List Char} {s : Scan}
    (h : scan atStart c cs = .ok s) : s.rest.length < (c :: cs).length := by
  have := congrArg List.length (scan_append h)
  have := List.length_pos_iff.mpr (scan_ne_nil h)
  simp only [List.length_append] at *
  omega

/-! ### The tokens of a text -/

/-- Is the character part of a gap? A line break outside of brackets is not: it separates
expressions. -/
def isGap (depth : Nat) (c : Char) : Bool :=
  isBlank c && !(c == '\n' && depth == 0)

/-- The tokens of `cs`, which begins at `p` with `depth` brackets open; `atStart` says that an
expression begins here. -/
def tokensFrom (depth : Nat) (atStart : Bool) (p : Position) (cs : List Char) :
    Except GrammarError (List Token) :=
  let here := p.after (cs.takeWhile (isGap depth))
  match _gap : cs.dropWhile (isGap depth) with
  | [] => .ok [⟨.endOfInput, here⟩]
  | c :: rest =>
    match _scan : scan atStart c rest with
    | .error enclosure => .error (.unterminated enclosure here)
    | .ok s => do
      let tokens ← tokensFrom (s.lexeme.depthAfter depth) s.lexeme.endsExpression
        (here.after s.source) s.rest
      return ⟨s.lexeme, here⟩ :: tokens
termination_by cs.length
decreasing_by
  have := scan_rest_length_lt _scan
  have := (List.dropWhile_suffix (isGap depth) (l := cs)).length_le
  rw [_gap] at this
  omega

/-- The tokens of a text, the end of input last. -/
def tokens (input : String) : Except GrammarError (List Token) :=
  tokensFrom 0 true .start input.toList

end ConceptForest.Grammar
