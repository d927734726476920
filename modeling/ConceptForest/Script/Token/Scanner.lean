import ConceptForest.Script.Error
import ConceptForest.Script.ReplacementField
import ConceptForest.Script.Token
import ConceptForest.Text.Letter
import ConceptForest.Text.Mark

/-!
From the text of a snippet to its tokens.

The text is passed over piece by piece. A *gap* is a run that means nothing: blanks, a comment, a
line break behind a backslash. A *line start* is the run from a line break to the first character
that means something, whose blanks give the indentation; lines that are blank or hold only a comment
are part of it. Everything else is scanned as one token. Inside of brackets line breaks mean
nothing.

* `gap?_append`, `lineStart_append`, `scan_append`: no character is lost;
* `gap?_ne_nil`, `scan_ne_nil`: every step reads something, which ends the recursion.
-/

namespace ConceptForest.Script

open ConceptForest.Text

/-! ### Names, numbers, strings and operators -/

/-- The operators of three characters, then those of two: the longest one is tried first. -/
def longOperators : List String :=
  ["**=", "//=", ">>=", "<<=", "...",
    "->", ":=", "**", "//", "<<", ">>", "<=", ">=", "==", "!=", "+=", "-=", "*=", "/=", "%=",
    "&=", "|=", "^=", "@="]

/-- The operators and punctuation marks of one character. -/
def shortOperators : List Char :=
  "+-*/%@&|^~<>()[]\x7b\x7d,:.;=".toList

/-- May a name begin with the character? -/
def isNameStart (c : Char) : Bool :=
  c == '_' || isLetter c

/-- May a name go on with the character? -/
def isNamePart (c : Char) : Bool :=
  c == '_' || isAlphanumeric c

/-- May a number go on with the character? A number is not looked into, so any run of digits,
letters, underscores and points will do. -/
def isNumberPart (c : Char) : Bool :=
  c.isAlphanum || c == '_' || c == '.'

/-- The characters of a number and the rest. `sign` says that an exponent has just begun, so that a
sign may stand here. -/
def numberSpan (sign : Bool) : List Char → List Char × List Char
  | [] => ([], [])
  | c :: cs =>
    if isNumberPart c then
      let (digits, rest) := numberSpan (c == 'e' || c == 'E') cs
      (c :: digits, rest)
    else if sign && (c == '+' || c == '-') then
      let (digits, rest) := numberSpan false cs
      (c :: digits, rest)
    else ([], c :: cs)

/-- May a string begin with these letters in front of its quotation mark? -/
def isStringLead (letters : List Char) : Bool :=
  ["r", "u", "b", "f", "br", "rb", "fr", "rf"].contains
    (String.ofList (letters.map Char.toLower))

/-- The body of a string up to its closing mark, and what stands behind the mark. A backslash
protects the character behind it; only a string between triple marks holds bare line breaks. -/
def stringBody (mark : List Char) (triple : Bool) : List Char → Option (List Char × List Char)
  | [] => none
  | '\\' :: c :: cs => (stringBody mark triple cs).map fun (body, rest) => ('\\' :: c :: body, rest)
  | c :: cs =>
    match mark.isPrefixOf? (c :: cs) with
    | some rest => some ([], rest)
    | none =>
      if c == '\n' && !triple then none
      else (stringBody mark triple cs).map fun (body, rest) => (c :: body, rest)

/-- A token and the characters around it: those in front that belong to it without being its start,
those it was read from, and those behind it. -/
structure Scan where
  lead : List Char
  lexeme : Lexeme
  source : List Char
  rest : List Char

/-- A fault and the characters in front of the place where it shows. -/
structure ScanFault where
  lead : List Char
  fault : Fault

/-- Reads the string whose mark is `quote`, with `cs` behind the first mark and `lead` in front. -/
def scanString (lead : List Char) (quote : Char) (cs : List Char) : Except ScanFault Scan :=
  let triple := [quote, quote].isPrefixOf cs
  let mark := if triple then [quote, quote, quote] else [quote]
  match stringBody mark triple (if triple then cs.drop 2 else cs) with
  | none => .error ⟨lead, .unterminatedString⟩
  | some (body, rest) =>
    let formatted := lead.any fun c => c == 'f' || c == 'F'
    let fields := if formatted then (replacementFields body).map String.ofList else []
    .ok ⟨lead, .string fields, mark ++ body ++ mark, rest⟩

/-- Reads an operator; `depth` brackets are open. -/
def scanOperator (depth : Nat) (c : Char) (cs : List Char) : Except ScanFault Scan :=
  match longOperators.findSome? fun op => (op.toList.isPrefixOf? (c :: cs)).map (op, ·) with
  | some (op, rest) => .ok ⟨[], .op op, op.toList, rest⟩
  | none =>
    if !shortOperators.contains c then .error ⟨[], .invalidCharacter c⟩
    else if (c == ')' || c == ']' || c == '\x7d') && depth == 0 then
      .error ⟨[], .unmatchedBracket c⟩
    else .ok ⟨[], .op c.toString, [c], cs⟩

/-- Reads the token that begins with `c`; `depth` brackets are open. -/
def scan (depth : Nat) (c : Char) (cs : List Char) : Except ScanFault Scan :=
  if c == '\'' || c == '"' then scanString [] c cs
  else if c.isDigit || (c == '.' && cs.head?.any Char.isDigit) then
    let (digits, rest) := numberSpan (c == 'e' || c == 'E') cs
    .ok ⟨[], .number, c :: digits, rest⟩
  else if isNameStart c then
    let text := c :: cs.takeWhile isNamePart
    match cs.dropWhile isNamePart with
    | q :: rest =>
      if (q == '\'' || q == '"') && isStringLead text then scanString text q rest
      else .ok ⟨[], .name (String.ofList text), text, q :: rest⟩
    | [] => .ok ⟨[], .name (String.ofList text), text, []⟩
  else scanOperator depth c cs

/-! ### Gaps and line starts -/

/-- Is the character a blank inside of a line? -/
def isLineBlank (c : Char) : Bool :=
  c == ' ' || c == '\t' || c == '\r' || c == '\x0c'

/-- The gap at the start of a text that is not at a line break, and what follows it. -/
def gap? : List Char → Option (List Char × List Char)
  | '\\' :: '\n' :: cs => some (['\\', '\n'], cs)
  | '\\' :: '\r' :: '\n' :: cs => some (['\\', '\r', '\n'], cs)
  | '#' :: cs => some ('#' :: cs.takeWhile (· != '\n'), cs.dropWhile (· != '\n'))
  | c :: cs => if isLineBlank c then some ([c], cs) else none
  | [] => none

/-- The indentation after one more blank: a tab leads to the next multiple of eight, form feeds and
carriage returns take no room. -/
def widthAfter (width : Nat) (c : Char) : Nat :=
  if c == ' ' then width + 1 else if c == '\t' then (width / 8 + 1) * 8 else width

/-- The start of a line: the width of its indentation, the characters passed over, and the rest.
Blank lines and lines with only a comment are passed over; `comment` says that one is being passed
over now. -/
def lineStart (comment : Bool) (width : Nat) : List Char → Nat × List Char × List Char
  | [] => (width, [], [])
  | c :: cs =>
    if c == '\n' then
      let (w, source, rest) := lineStart false 0 cs
      (w, c :: source, rest)
    else if comment || c == '#' then
      let (w, source, rest) := lineStart true width cs
      (w, c :: source, rest)
    else if isLineBlank c then
      let (w, source, rest) := lineStart false (widthAfter width c) cs
      (w, c :: source, rest)
    else (width, [], c :: cs)

/-- The layout tokens that lead from the open indentations, the innermost first, to a line of the
given width, and the indentations open then; nothing if no block has that width. -/
def adjustIndent (indents : List Nat) (width : Nat) : Option (List Lexeme × List Nat) :=
  if indents.headD 0 < width then some ([.indent], width :: indents)
  else
    let closed := indents.takeWhile (width < ·)
    let left := indents.dropWhile (width < ·)
    if left.headD 0 = width then some (closed.map fun _ => .dedent, left) else none

/-! ### Nothing is lost -/

theorem numberSpan_append (sign : Bool) (cs : List Char) :
    (numberSpan sign cs).1 ++ (numberSpan sign cs).2 = cs := by
  fun_induction numberSpan sign cs <;> simp_all

theorem stringBody_append {mark : List Char} {triple : Bool} {cs body rest : List Char}
    (h : stringBody mark triple cs = some (body, rest)) : body ++ mark ++ rest = cs := by
  fun_induction stringBody mark triple cs generalizing body with
  | case1 => simp at h
  | case2 c cs ih =>
    obtain ⟨⟨b, r⟩, hb, he⟩ := Option.map_eq_some_iff.mp h
    obtain ⟨rfl, rfl⟩ := Prod.mk.inj he
    simpa using ih hb
  | case3 c cs _ r hp =>
    obtain ⟨rfl, rfl⟩ := Prod.mk.inj (Option.some.inj h)
    simpa using append_of_isPrefixOf? hp
  | case4 => simp at h
  | case5 c cs _ _ _ ih =>
    obtain ⟨⟨b, r⟩, hb, he⟩ := Option.map_eq_some_iff.mp h
    obtain ⟨rfl, rfl⟩ := Prod.mk.inj he
    simpa using ih hb

theorem scanString_append {lead cs : List Char} {quote : Char} {s : Scan}
    (h : scanString lead quote cs = .ok s) :
    s.source ≠ [] ∧ s.lead ++ s.source ++ s.rest = lead ++ quote :: cs := by
  unfold scanString at h
  dsimp only at h
  split at h
  · cases h
  · next hb =>
    cases h
    have hb := stringBody_append hb
    constructor
    · simp; split <;> simp
    · by_cases ht : [quote, quote].isPrefixOf cs = true
      · have hp := append_of_isPrefixOf ht
        simp only [ht, if_true] at hb ⊢
        rw [← hp]
        simpa using hb
      · simp only [Bool.not_eq_true] at ht
        simp only [ht, Bool.false_eq_true, if_false] at hb ⊢
        simpa using hb

theorem scanOperator_append {depth : Nat} {c : Char} {cs : List Char} {s : Scan}
    (h : scanOperator depth c cs = .ok s) :
    s.source ≠ [] ∧ s.lead ++ s.source ++ s.rest = c :: cs := by
  unfold scanOperator at h
  split at h
  · next op rest hop =>
    cases h
    obtain ⟨op', mem, hp⟩ := List.exists_of_findSome?_eq_some hop
    obtain ⟨r, hr, he⟩ := Option.map_eq_some_iff.mp hp
    obtain ⟨rfl, rfl⟩ := Prod.mk.inj he
    refine ⟨?_, by simpa using append_of_isPrefixOf? hr⟩
    have : ∀ o ∈ longOperators, o.toList ≠ [] := by decide
    exact this _ mem
  · split at h
    · cases h
    · split at h
      · cases h
      · cases h; simp

/-- A scan reads something, and what it read and what is left are its input. -/
theorem scan_append {depth : Nat} {c : Char} {cs : List Char} {s : Scan}
    (h : scan depth c cs = .ok s) :
    s.source ≠ [] ∧ s.lead ++ s.source ++ s.rest = c :: cs := by
  unfold scan at h
  split at h
  · simpa using scanString_append h
  · split at h
    · cases h; simpa using numberSpan_append _ cs
    · split at h
      · have split := List.takeWhile_append_dropWhile (p := isNamePart) (l := cs)
        dsimp only at h
        split at h
        · next hd =>
          rw [hd] at split
          split at h
          · have := scanString_append h
            refine ⟨this.1, this.2.trans ?_⟩
            simpa using split
          · cases h; simpa using split
        · next hd =>
          rw [hd] at split
          cases h; simpa using split
      · exact scanOperator_append h

/-- A gap is not empty, and it and what follows are the input. -/
theorem gap?_append {cs source rest : List Char} (h : gap? cs = some (source, rest)) :
    source ≠ [] ∧ source ++ rest = cs := by
  unfold gap? at h
  split at h
  · cases h; simp
  · cases h; simp
  · cases h; simp
  · split at h
    · cases h; simp
    · cases h
  · cases h

/-- The characters passed over at the start of a line and what follows are the input. -/
theorem lineStart_append (comment : Bool) (width : Nat) (cs : List Char) :
    (lineStart comment width cs).2.1 ++ (lineStart comment width cs).2.2 = cs := by
  fun_induction lineStart comment width cs <;> simp_all

/-! ### The tokens of a snippet -/

/-- What the tokens so far have opened and not closed. -/
structure Layout where
  /-- The indentations of the open blocks, the innermost first. -/
  indents : List Nat := []
  /-- The number of open brackets. -/
  depth : Nat := 0
  /-- Is there something on the logical line that has not been ended? -/
  lineOpen : Bool := false

/-- The token that ends the logical line, if there is something on it. -/
def Layout.endLine (layout : Layout) (p : Position) : List Token :=
  if layout.lineOpen then [⟨.newline, p⟩] else []

/-- The number of open brackets behind a lexeme. -/
def Lexeme.depthAfter (depth : Nat) : Lexeme → Nat
  | .op text =>
    if text == "(" || text == "[" || text == "\x7b" then depth + 1
    else if text == ")" || text == "]" || text == "\x7d" then depth - 1
    else depth
  | _ => depth

/-- The tokens that stand at the end of a snippet. -/
def finalTokens (layout : Layout) (p : Position) : Except SyntaxError (List Token) :=
  if layout.depth > 0 then .error ⟨.openBrackets, p⟩
  else
    .ok (layout.endLine p ++ layout.indents.map (fun _ => ⟨.dedent, p⟩) ++ [⟨.endOfInput, p⟩])

/-- The layout tokens in front of a line, `rest`, of the given width, which begins at `p`, and the
indentations open then. The end of the snippet is no line. -/
def lineTokens (indents : List Nat) (width : Nat) (p : Position) (rest : List Char) :
    Except SyntaxError (List Token × List Nat) :=
  if rest.isEmpty then .ok ([], indents)
  else
    match adjustIndent indents width with
    | some (lexemes, indents) => .ok (lexemes.map (⟨·, p⟩), indents)
    | none => .error ⟨.unindentMismatch, p⟩

/-- The tokens of `cs`, which begins at `p` behind the start of a line. -/
def tokensFrom (layout : Layout) (p : Position) (cs : List Char) :
    Except SyntaxError (List Token) :=
  match cs with
  | [] => finalTokens layout p
  | '\n' :: rest =>
    if layout.depth > 0 then tokensFrom layout (p.advance '\n') rest
    else do
      let start := lineStart false 0 rest
      let q := (p.advance '\n').after start.2.1
      let (front, indents) ← lineTokens layout.indents start.1 q start.2.2
      let tokens ← tokensFrom { layout with indents, lineOpen := false } q start.2.2
      return layout.endLine p ++ front ++ tokens
  | c :: rest =>
    match _gap : gap? (c :: rest) with
    | some (source, rest') => tokensFrom layout (p.after source) rest'
    | none =>
      match _scan : scan layout.depth c rest with
      | .error e => .error ⟨e.fault, p.after e.lead⟩
      | .ok s => do
        let q := p.after s.lead
        let tokens ← tokensFrom
          { layout with depth := s.lexeme.depthAfter layout.depth, lineOpen := true }
          (q.after s.source) s.rest
        return ⟨s.lexeme, q⟩ :: tokens
termination_by cs.length
decreasing_by
  · simp
  · have := congrArg List.length (lineStart_append false 0 rest)
    simp only [List.length_append, List.length_cons] at *
    omega
  · have ⟨ne, eq⟩ := gap?_append _gap
    have := List.length_pos_iff.mpr ne
    have := congrArg List.length eq
    simp only [List.length_append, List.length_cons] at *
    omega
  · have ⟨ne, eq⟩ := scan_append _scan
    have := List.length_pos_iff.mpr ne
    have := congrArg List.length eq
    simp only [List.length_append, List.length_cons] at *
    omega

/-- The tokens of a snippet, the end of input last. -/
def tokens (source : String) : Except SyntaxError (List Token) := do
  let start := lineStart false 0 source.toList
  let p := Position.start.after start.2.1
  let (front, indents) ← lineTokens [] start.1 p start.2.2
  return front ++ (← tokensFrom { indents } p start.2.2)

end ConceptForest.Script
