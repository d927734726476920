import ConceptForest.Proofs.Script.Separators
import ConceptForest.Proofs.Script.TokenLayout

/-!
A snippet with a further line.

Whatever a snippet ends with, a comment, blank lines or open blocks, a line break puts an end to it:
the tokens in front are those of the snippet alone, and what stands behind the line break is read
with what the snippet has left open.

* `Scans.continued` — the tokens of a text in front of a line break.
* `tokens_continued` — a further line that assigns to a name.
-/

namespace ConceptForest.Script

open ConceptForest.Text

variable {layout : Layout} {p q : Position} {cs rest source : List Char} {ts front : List Token}
  {indents indents' : List Nat} {width : Nat}

/-! ### The place behind a text -/

theorem after_line {rest' : List Char} (start : lineStart false 0 rest = (width, source, rest'))
    (place : q = (p.advance '\n').after source) : q.after rest' = p.after ('\n' :: rest) := by
  have written : source ++ rest' = rest := by
    have whole := lineStart_append false 0 rest
    rwa [start] at whole
  rw [place, ← Position.after_append, written]
  rfl

theorem after_gap (gap : gap? cs = some (source, rest)) :
    (p.after source).after rest = p.after cs := by
  rw [← Position.after_append, (gap?_append gap).2]

theorem after_scan {depth : Nat} {c : Char} {s : Scan} (scanned : scan depth c cs = .ok s) :
    ((p.after s.lead).after s.source).after s.rest = p.after (c :: cs) := by
  rw [← Position.after_append, ← Position.after_append, ← List.append_assoc, (scan_append scanned).2]

/-! ### A line break behind a text -/

/-- The indentations of blocks, which are all positive. -/
def Indented (indents : List Nat) : Prop := ∀ width ∈ indents, 0 < width

theorem Indented.line (fits : lineTokens indents width p rest = .ok (front, indents'))
    (positive : Indented indents) : Indented indents' := by
  cases Fronted.of_lineTokens fits with
  | empty => exact positive
  | deeper deeper => exact List.forall_mem_cons.mpr ⟨Nat.zero_lt_of_lt deeper, positive⟩
  | closing => exact fun w mem => positive w ((List.dropWhile_suffix _).subset mem)

/-- The tokens at the end of a snippet, in front of the end of input. -/
def Layout.closing (layout : Layout) (p : Position) : List Token :=
  layout.endLine p ++ layout.indents.map fun _ => ⟨.dedent, p⟩

/-- The text that begins at `p` may be followed by a line break and more: the tokens are then those
in front and those of the rest, which is read with `left` open. -/
structure Continued (layout : Layout) (p : Position) (cs : List Char) (left : Layout)
    (front : List Token) : Prop where
  outside : left.depth = 0
  indented : Indented layout.indents → Indented left.indents
  further : ∀ ys us, Scans left (p.after cs) ('\n' :: ys) us →
    Scans layout p (cs ++ '\n' :: ys) (front ++ us)

/-- Blank lines at the end of a snippet end its last line. -/
theorem Continued.blank (outside : layout.depth = 0)
    (ended : (lineStart false 0 rest).2.2 = []) :
    Continued layout p ('\n' :: rest) { layout with lineOpen := false } (layout.endLine p) where
  outside := outside
  indented := id
  further := by
    intro ys us further
    have place : p.after ('\n' :: rest) = (p.advance '\n').after rest := rfl
    generalize whole : '\n' :: ys = cs at further
    cases further with
    | done => cases whole
    | wrapped inside =>
      have : layout.depth = 0 := outside
      have : 0 < layout.depth := inside
      omega
    | line _ start same fits further =>
      obtain ⟨-, rfl⟩ := List.cons.inj whole
      have start' : lineStart false 0 (rest ++ '\n' :: ys) = _ := lineStart_append_of_end ended
      rw [start] at start'
      rw [List.cons_append]
      have empty : ({ layout with lineOpen := false } : Layout).endLine (p.after ('\n' :: rest)) = [] :=
        rfl
      rw [empty, List.nil_append, ← List.append_assoc]
      refine .line outside start' ?_ fits further
      rw [same, place, Position.after_append]
      rfl
    | gap inLine => exact absurd (List.cons.inj whole).1.symm inLine
    | token inLine => exact absurd (List.cons.inj whole).1.symm inLine

theorem Continued.wrapped {left : Layout} (inside : 0 < layout.depth)
    (behind : Continued layout (p.advance '\n') rest left front) :
    Continued layout p ('\n' :: rest) left front :=
  ⟨behind.outside, behind.indented, fun ys us further => .wrapped inside (behind.further ys us further)⟩

/-- The start of a line in front of its tokens, which are no part of the line break to come. -/
theorem Continued.line {left : Layout} {rest' : List Char} {front' : List Token}
    (outside : layout.depth = 0) (start : lineStart false 0 rest = (width, source, rest'))
    (some : rest' ≠ []) (place : q = (p.advance '\n').after source)
    (fits : lineTokens layout.indents width q rest' = .ok (front, indents))
    (behind : Continued { layout with indents, lineOpen := false } q rest' left front') :
    Continued layout p ('\n' :: rest) left (layout.endLine p ++ front ++ front') where
  outside := behind.outside
  indented positive := behind.indented (positive.line fits)
  further := by
    intro ys us further
    have line : (lineStart false 0 rest).2.2 ≠ [] := by rwa [start]
    have start' : lineStart false 0 (rest ++ '\n' :: ys) = _ := lineStart_append_of_rest line
    rw [start] at start'
    have fits' : lineTokens layout.indents width q (rest' ++ '\n' :: ys) = .ok (front, indents) := by
      unfold lineTokens at fits ⊢
      simpa [some] using fits
    rw [List.append_assoc]
    exact .line outside start' place fits'
      (behind.further ys us (after_line start place ▸ further))

theorem Continued.gap {left : Layout} {c : Char} {cs : List Char} (inLine : c ≠ '\n')
    (gap : gap? (c :: cs) = some (source, rest))
    (behind : Continued layout (p.after source) rest left front) :
    Continued layout p (c :: cs) left front where
  outside := behind.outside
  indented := behind.indented
  further ys us further := .gap inLine (gap?_append_of_some gap (.inl rfl))
    (behind.further ys us (after_gap gap ▸ further))

theorem Continued.token {left : Layout} {c : Char} {cs : List Char} {s : Scan} (inLine : c ≠ '\n')
    (noGap : gap? (c :: cs) = none) (scanned : scan layout.depth c cs = .ok s)
    (behind : Continued { layout with depth := s.lexeme.depthAfter layout.depth, lineOpen := true }
      ((p.after s.lead).after s.source) s.rest left front) :
    Continued layout p (c :: cs) left (⟨s.lexeme, p.after s.lead⟩ :: front) where
  outside := behind.outside
  indented := behind.indented
  further := by
    intro ys us further
    have longer : scan layout.depth c (cs ++ '\n' :: ys) = .ok (s.before ('\n' :: ys)) :=
      scan_append_of_ok separator_newline scanned
    have scans := Scans.token inLine (gap?_append_of_none noGap scanned) longer
      (behind.further ys us (after_scan scanned ▸ further))
    exact scans

/-- The tokens of a text are those in front of a line break and, of what it has left open, those
that close it. -/
theorem Scans.continued (scans : Scans layout p cs ts) : ∃ left front,
    Continued layout p cs left front ∧
      ts = front ++ (left.closing (p.after cs) ++ [⟨.endOfInput, p.after cs⟩]) := by
  induction scans with
  | @done layout p closed =>
    exact ⟨layout, [], ⟨closed, id, fun ys us further => further⟩, rfl⟩
  | wrapped inside _ ih =>
    obtain ⟨left, front, behind, rfl⟩ := ih
    exact ⟨left, front, behind.wrapped inside, rfl⟩
  | @line layout p q rest source rest' width front ts indents outside start place fits further ih =>
    rw [← after_line start place]
    by_cases ended : rest' = []
    · -- Nothing is on the line: its break goes with the text, and the layout stays as it was.
      subst ended
      obtain ⟨⟩ : Except.ok ([], layout.indents) = Except.ok (ε := SyntaxError) (front, indents) :=
        fits
      refine ⟨_, _, .blank outside (by rw [start]), ?_⟩
      cases further with
      | done => simp [Layout.closing, Layout.endLine]
    · obtain ⟨left, front', behind, rfl⟩ := ih
      exact ⟨left, _, .line outside start ended place fits behind, by simp only [List.append_assoc]⟩
  | gap inLine gap _ ih =>
    obtain ⟨left, front, behind, rfl⟩ := ih
    rw [after_gap gap]
    exact ⟨left, front, .gap inLine gap behind, rfl⟩
  | token inLine noGap scanned _ ih =>
    obtain ⟨left, front, behind, rfl⟩ := ih
    rw [after_scan scanned]
    exact ⟨left, _, .token inLine noGap scanned behind, rfl⟩

/-! ### A line that assigns to a name -/

/-- The text may be a name, and is no keyword. -/
structure IsIdentifier (name : String) : Prop where
  starts : name.toList.head?.any isNameStart = true
  parts : name.toList.all isNamePart = true
  free : isKeyword name = false

theorem scan_name {name : String} {c : Char} {cs rest : List Char}
    (written : name.toList = c :: cs) (starts : isNameStart c = true)
    (parts : ∀ d ∈ cs, isNamePart d = true) (depth : Nat) :
    scan depth c (cs ++ ' ' :: rest) = .ok ⟨[], .name name, c :: cs, ' ' :: rest⟩ := by
  obtain ⟨text, behind⟩ : (cs ++ ' ' :: rest).takeWhile isNamePart = cs.takeWhile isNamePart ∧
      (cs ++ ' ' :: rest).dropWhile isNamePart = cs.dropWhile isNamePart ++ ' ' :: rest :=
    takeWhile_append_cons (by decide)
  rw [List.takeWhile_eq_self_iff.mpr parts] at text
  rw [List.dropWhile_eq_nil_iff.mpr parts] at behind
  have noLead : ∀ q rest', (cs ++ ' ' :: rest).dropWhile isNamePart = q :: rest' →
      (q = '\'' ∨ q = '"') → isStringLead (c :: (cs ++ ' ' :: rest).takeWhile isNamePart) = false := by
    intro q rest' ended quoted
    rw [behind] at ended
    obtain ⟨rfl, -⟩ := List.cons.inj ended
    exact absurd quoted (by decide)
  rw [scan_of_noLead starts noLead, text, behind, ← written, String.ofList_toList]
  rfl

theorem scan_equals (depth : Nat) (rest : List Char) :
    scan depth '=' (' ' :: rest) = .ok ⟨[], .op "=", ['='], ' ' :: rest⟩ := by
  rfl

theorem scan_zero (depth : Nat) (rest : List Char) :
    scan depth '0' ('\n' :: rest) = .ok ⟨[], .number, ['0'], '\n' :: rest⟩ := by
  rfl

/-- The tokens are those of a last line that assigns a number to the name. -/
def Assigns (name : String) (ts : List Token) : Prop :=
  ∃ p₁ p₂ p₃ p₄ p₅, ts =
    [⟨.name name, p₁⟩, ⟨.op "=", p₂⟩, ⟨.number, p₃⟩, ⟨.newline, p₄⟩, ⟨.endOfInput, p₅⟩]

theorem isLineBlank_of_isNameStart {c : Char} (starts : isNameStart c = true) :
    isLineBlank c = false := by
  simp [isLineBlank, ne_of_isNameStart starts (show isNameStart ' ' = false by decide),
    ne_of_isNameStart starts (show isNameStart '\t' = false by decide),
    ne_of_isNameStart starts (show isNameStart '\r' = false by decide),
    ne_of_isNameStart starts (show isNameStart '\x0c' = false by decide)]

/-- In front of a line that is not indented all blocks end. -/
theorem lineTokens_outermost (indented : Indented indents) (some : rest ≠ []) :
    lineTokens indents 0 q rest = .ok (indents.map fun _ => ⟨.dedent, q⟩, []) := by
  have closed : indents.takeWhile (0 < ·) = indents :=
    List.takeWhile_eq_self_iff.mpr (by simpa [Indented] using indented)
  have left : indents.dropWhile (0 < ·) = [] :=
    List.dropWhile_eq_nil_iff.mpr (by simpa [Indented] using indented)
  simp [lineTokens, adjustIndent, closed, left, some]

/-- The line itself. -/
theorem Scans.assignment {name : String} {c : Char} (written : name.toList = c :: cs)
    (starts : isNameStart c = true) (parts : ∀ d ∈ cs, isNamePart d = true)
    (outside : layout.depth = 0) (outermost : layout.indents = []) :
    ∃ tail, Scans layout q (c :: (cs ++ [' ', '=', ' ', '0', '\n'])) tail ∧ Assigns name tail := by
  have noBreak : c ≠ '\n' := ne_of_isNameStart starts (by decide)
  have noGap : gap? (c :: (cs ++ [' ', '=', ' ', '0', '\n'])) = none := by
    rw [gap?_cons (ne_of_isNameStart starts (by decide)) (ne_of_isNameStart starts (by decide)),
      isLineBlank_of_isNameStart starts]
    rfl
  obtain ⟨indents, depth, lineOpen⟩ := layout
  subst outermost
  exact ⟨_, .token noBreak noGap (scan_name written starts parts _) <| .gap (by decide) rfl <|
    .token (by decide) rfl (scan_equals _ _) <| .gap (by decide) rfl <|
    .token (by decide) rfl (scan_zero _ _) <| .line outside rfl rfl rfl (.done outside),
    _, _, _, _, _, rfl⟩

/-- The line that assigns to the name, and the blocks it closes. -/
theorem Scans.assigning {name : String} (identifier : IsIdentifier name)
    (outside : layout.depth = 0) (indented : Indented layout.indents) :
    ∃ closing tail, Scans layout p ('\n' :: (name ++ " = 0\n").toList) (closing ++ tail) ∧
      closing.map Token.lexeme = (layout.closing p).map Token.lexeme ∧ Assigns name tail := by
  obtain ⟨c, cs, written⟩ : ∃ c cs, name.toList = c :: cs := by
    refine List.exists_cons_of_ne_nil fun empty => ?_
    have starts := identifier.starts
    rw [empty] at starts
    cases starts
  have starts : isNameStart c = true := by
    have starts := identifier.starts
    rwa [written] at starts
  have parts : ∀ d ∈ cs, isNamePart d = true := fun d mem =>
    List.all_eq_true.mp identifier.parts d (written ▸ List.mem_cons_of_mem c mem)
  have text : (name ++ " = 0\n").toList = c :: (cs ++ [' ', '=', ' ', '0', '\n']) := by
    rw [String.toList_append, written]
    rfl
  rw [text]
  have line : lineStart false 0 (c :: (cs ++ [' ', '=', ' ', '0', '\n'])) =
      (0, [], c :: (cs ++ [' ', '=', ' ', '0', '\n'])) :=
    lineStart_of_content (ne_of_isNameStart starts (by decide))
      (ne_of_isNameStart starts (by decide)) (isLineBlank_of_isNameStart starts)
  have fits := lineTokens_outermost (q := (p.advance '\n').after []) indented
    (List.cons_ne_nil c (cs ++ [' ', '=', ' ', '0', '\n']))
  obtain ⟨tail, further, assigns⟩ : ∃ tail,
      Scans { layout with indents := [], lineOpen := false } ((p.advance '\n').after [])
        (c :: (cs ++ [' ', '=', ' ', '0', '\n'])) tail ∧ Assigns name tail :=
    Scans.assignment written starts parts outside rfl
  refine ⟨_, tail, .line outside line rfl fits further, ?_, assigns⟩
  simp only [Layout.closing, List.map_append, List.map_map]
  rfl

/-- A snippet with a further line that assigns to a name: the tokens in front are those of the
snippet alone, but for their places. -/
theorem tokens_assigning {source name : String} (identifier : IsIdentifier name)
    (accepted : tokens source = .ok ts) : ∃ front front' tail p,
      ts = front ++ [⟨.endOfInput, p⟩] ∧
      tokens (source ++ "\n" ++ name ++ " = 0\n") = .ok (front' ++ tail) ∧
      front'.map Token.lexeme = front.map Token.lexeme ∧ Assigns name tail := by
  obtain ⟨left, front, behind, rfl⟩ := (tokens_eq_ok_iff.mp accepted).continued
  obtain ⟨closing, tail, further, same, assigns⟩ :=
    Scans.assigning identifier behind.outside (behind.indented (List.forall_mem_nil _))
  have written : (source ++ "\n" ++ name ++ " = 0\n").toList =
      source.toList ++ '\n' :: (name ++ " = 0\n").toList := by
    simp [String.toList_append]
  have longer := behind.further _ _ further
  rw [← List.append_assoc] at longer
  refine ⟨_, front ++ closing, tail, _, (List.append_assoc _ _ _).symm, tokens_eq_ok_iff.mpr ?_, ?_,
    assigns⟩
  · rw [written]
    exact longer
  · rw [List.map_append, List.map_append, same]

end ConceptForest.Script
