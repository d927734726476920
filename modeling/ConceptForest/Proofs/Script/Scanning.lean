import ConceptForest.Proofs.Steps
import ConceptForest.Script.Token.Scanner
import Mathlib.Data.List.TakeWhile

/-!
How a snippet is cut into tokens, step by step.

`Scans` tells an accepted run of the scanner by what each of its steps passes over: a line break
inside of brackets, the start of a line, a gap, or one token. What holds of the tokens of a snippet
is shown by induction on it, and nobody has to look at the scanner's recursion again.

* `tokensFrom_eq_ok_iff` — the scanner accepts a text exactly if it can be cut so.
* `tokens_eq` — a snippet is read as what stands behind a line break.
* `Scanned` — the kinds of tokens, and what each is written as.
-/

namespace ConceptForest.Script

open ConceptForest.Text

variable {layout : Layout} {p : Position} {c : Char} {cs source rest : List Char}
  {ts front : List Token} {indents indents' : List Nat} {width depth : Nat} {s : Scan} {e : ScanFault}

/-! ### One step of the scanner -/

theorem tokensFrom_wrapped (inside : 0 < layout.depth) :
    tokensFrom layout p ('\n' :: rest) = tokensFrom layout (p.advance '\n') rest := by
  rw [tokensFrom, if_pos inside]

theorem tokensFrom_gap (inLine : c ≠ '\n') (gap : gap? (c :: cs) = some (source, rest)) :
    tokensFrom layout p (c :: cs) = tokensFrom layout (p.after source) rest := by
  rw [tokensFrom.eq_3 _ _ _ _ inLine]
  split
  · next gap' =>
    obtain ⟨⟩ := gap.symm.trans gap'
    rfl
  · next noGap => cases gap.symm.trans noGap

theorem tokensFrom_error (inLine : c ≠ '\n') (noGap : gap? (c :: cs) = none)
    (failed : scan layout.depth c cs = .error e) :
    tokensFrom layout p (c :: cs) = .error ⟨e.fault, p.after e.lead⟩ := by
  rw [tokensFrom.eq_3 _ _ _ _ inLine]
  split
  · next gap => cases noGap.symm.trans gap
  · split
    · next failed' =>
      obtain ⟨⟩ := failed.symm.trans failed'
      rfl
    · next scanned => cases failed.symm.trans scanned

theorem tokensFrom_token (inLine : c ≠ '\n') (noGap : gap? (c :: cs) = none)
    (scanned : scan layout.depth c cs = .ok s) :
    tokensFrom layout p (c :: cs) = do
      return [⟨s.lexeme, p.after s.lead⟩] ++ (← tokensFrom
        { layout with depth := s.lexeme.depthAfter layout.depth, lineOpen := true }
        ((p.after s.lead).after s.source) s.rest) := by
  rw [tokensFrom.eq_3 _ _ _ _ inLine]
  split
  · next gap => cases noGap.symm.trans gap
  · split
    · next failed => cases scanned.symm.trans failed
    · next scanned' =>
      obtain ⟨⟩ := scanned.symm.trans scanned'
      rfl

/-! ### Names -/

theorem ne_of_isNameStart {d : Char} (starts : isNameStart c = true)
    (other : isNameStart d = false) : c ≠ d := by
  rintro rfl
  cases starts.symm.trans other

theorem not_isDigit_of_isNameStart (starts : isNameStart c = true) :
    c.isDigit = false := by
  refine Bool.eq_false_iff.mpr fun digit => ?_
  have underscore : c ≠ '_' := by rintro rfl; cases digit
  have ascii : c.toNat < 0x80 := by
    simp only [Char.isDigit, Bool.and_eq_true, decide_eq_true_eq, UInt32.le_iff_toNat_le] at digit
    exact Nat.lt_of_le_of_lt digit.2 (by decide)
  have letter : (decide (c.val ≥ 'A'.val ∧ c.val ≤ 'Z'.val) ||
      (c.val ≥ 'a'.val && c.val ≤ 'z'.val)) = true :=
    show c.isAlpha = true by simpa [isNameStart, isLetter, underscore, ascii] using starts
  simp only [Char.isDigit, Bool.and_eq_true,
    Bool.or_eq_true, decide_eq_true_eq, UInt32.le_iff_toNat_le, Char.reduceVal,
    UInt32.reduceToNat] at digit letter
  omega

/-- Neither a quotation mark nor a number begins like a name. -/
theorem word_of_isNameStart (cs : List Char) (starts : isNameStart c = true) :
    ¬ (c == '\'' || c == '"') = true ∧
      ¬ (c.isDigit || (c == '.' && cs.head?.any Char.isDigit)) = true := by
  have single : c ≠ '\'' := ne_of_isNameStart starts (by decide)
  have double : c ≠ '"' := ne_of_isNameStart starts (by decide)
  have point : c ≠ '.' := ne_of_isNameStart starts (by decide)
  simp [single, double, point, not_isDigit_of_isNameStart starts]

/-- What begins like a name is a string, if it may stand in front of the quotation mark behind it. -/
theorem scan_of_lead {q : Char} (starts : isNameStart c = true)
    (behind : cs.dropWhile isNamePart = q :: rest) (quoted : q = '\'' ∨ q = '"')
    (lead : isStringLead (c :: cs.takeWhile isNamePart) = true) :
    scan depth c cs = scanString (c :: cs.takeWhile isNamePart) q rest := by
  obtain ⟨noQuote, noNumber⟩ := word_of_isNameStart cs starts
  rw [scan, if_neg noQuote, if_neg noNumber, if_pos starts, behind]
  exact if_pos (by simpa [lead] using quoted)

/-- Otherwise it is a name. -/
theorem scan_of_noLead (starts : isNameStart c = true)
    (noLead : ∀ q rest, cs.dropWhile isNamePart = q :: rest → (q = '\'' ∨ q = '"') →
      isStringLead (c :: cs.takeWhile isNamePart) = false) :
    scan depth c cs = .ok ⟨[], .name (String.ofList (c :: cs.takeWhile isNamePart)),
      c :: cs.takeWhile isNamePart, cs.dropWhile isNamePart⟩ := by
  obtain ⟨noQuote, noNumber⟩ := word_of_isNameStart cs starts
  rw [scan, if_neg noQuote, if_neg noNumber, if_pos starts]
  cases behind : cs.dropWhile isNamePart with
  | nil => rfl
  | cons q rest => exact if_neg (by simpa using noLead q rest behind)

/-! ### The layout in front of a line -/

/-- What stands in front of a line: nothing if the line is empty, the opening of a block if it is
deeper than the blocks that are open, or the end of those it is no part of. -/
inductive Fronted (indents : List Nat) (width : Nat) (p : Position) :
    List Token → List Nat → Prop where
  | empty : Fronted indents width p [] indents
  | deeper (deeper : indents.headD 0 < width) :
    Fronted indents width p [⟨.indent, p⟩] (width :: indents)
  | closing (level : (indents.dropWhile (width < ·)).headD 0 = width) :
    Fronted indents width p ((indents.takeWhile (width < ·)).map fun _ => ⟨.dedent, p⟩)
      (indents.dropWhile (width < ·))

theorem Fronted.of_lineTokens (fits : lineTokens indents width p rest = .ok (front, indents')) :
    Fronted indents width p front indents' := by
  unfold lineTokens at fits
  split at fits
  · obtain ⟨⟩ := fits
    exact .empty
  · split at fits
    · next lexemes left adjusted =>
      obtain ⟨⟩ := fits
      unfold adjustIndent at adjusted
      split at adjusted
      · next deeper =>
        obtain ⟨⟩ := adjusted
        exact .deeper deeper
      · dsimp only at adjusted
        split at adjusted
        · next level =>
          obtain ⟨⟩ := adjusted
          rw [List.map_map]
          exact .closing level
        · cases adjusted
    · cases fits

/-! ### The steps of a run -/

/-- With `layout` open, the text that begins at `p` is cut into the tokens. -/
inductive Scans : Layout → Position → List Char → List Token → Prop where
  | done {layout : Layout} {p : Position} (closed : layout.depth = 0) :
    Scans layout p []
      (layout.endLine p ++ layout.indents.map (fun _ => ⟨.dedent, p⟩) ++ [⟨.endOfInput, p⟩])
  | wrapped {layout : Layout} {p : Position} {rest : List Char} {ts : List Token}
    (inside : 0 < layout.depth) (further : Scans layout (p.advance '\n') rest ts) :
    Scans layout p ('\n' :: rest) ts
  | line {layout : Layout} {p q : Position} {rest source rest' : List Char} {width : Nat}
    {front ts : List Token} {indents : List Nat} (outside : layout.depth = 0)
    (start : lineStart false 0 rest = (width, source, rest'))
    (place : q = (p.advance '\n').after source)
    (fits : lineTokens layout.indents width q rest' = .ok (front, indents))
    (further : Scans { layout with indents, lineOpen := false } q rest' ts) :
    Scans layout p ('\n' :: rest) (layout.endLine p ++ front ++ ts)
  | gap {layout : Layout} {p : Position} {c : Char} {rest source rest' : List Char}
    {ts : List Token} (inLine : c ≠ '\n') (gap : gap? (c :: rest) = some (source, rest'))
    (further : Scans layout (p.after source) rest' ts) : Scans layout p (c :: rest) ts
  | token {layout : Layout} {p : Position} {c : Char} {rest : List Char} {s : Scan}
    {ts : List Token} (inLine : c ≠ '\n') (noGap : gap? (c :: rest) = none)
    (scanned : scan layout.depth c rest = .ok s)
    (further : Scans { layout with depth := s.lexeme.depthAfter layout.depth, lineOpen := true }
      ((p.after s.lead).after s.source) s.rest ts) :
    Scans layout p (c :: rest) (⟨s.lexeme, p.after s.lead⟩ :: ts)

theorem Scans.of_tokensFrom (accepted : tokensFrom layout p cs = .ok ts) :
    Scans layout p cs ts := by
  fun_induction tokensFrom layout p cs generalizing ts with
  | case1 layout p =>
    unfold finalTokens at accepted
    split at accepted
    · cases accepted
    · next closed =>
      obtain ⟨⟩ := accepted
      exact .done (Nat.eq_zero_of_not_pos closed)
  | case2 layout p rest inside ih => exact .wrapped inside (ih accepted)
  | case3 layout p rest outside start q =>
    rename_i ih
    obtain ⟨⟨front, indents⟩, fits, accepted⟩ := bind_eq_ok_iff.mp accepted
    obtain ⟨ts', further, accepted⟩ := bind_eq_ok_iff.mp accepted
    obtain ⟨⟩ := accepted
    exact .line (Nat.eq_zero_of_not_pos outside) rfl rfl fits (ih indents further)
  | case4 layout p c rest inLine source rest' gap ih => exact .gap inLine gap (ih accepted)
  | case5 => cases accepted
  | case6 layout p c rest inLine noGap s scanned q =>
    rename_i ih
    obtain ⟨ts', further, accepted⟩ := bind_eq_ok_iff.mp accepted
    obtain ⟨⟩ := accepted
    exact .token inLine noGap scanned (ih further)

theorem Scans.tokensFrom_eq (scans : Scans layout p cs ts) : tokensFrom layout p cs = .ok ts := by
  induction scans with
  | done closed => simp [tokensFrom, finalTokens, closed]
  | wrapped inside _ ih =>
    rw [tokensFrom_wrapped inside]
    exact ih
  | line outside start place fits _ ih =>
    rw [tokensFrom, if_neg (by omega)]
    simp only [start, ← place, fits, ok_bind, ih]
    rfl
  | gap inLine gap _ ih =>
    rw [tokensFrom_gap inLine gap]
    exact ih
  | token inLine noGap scanned _ ih =>
    rw [tokensFrom_token inLine noGap scanned, ih]
    rfl

/-- The scanner accepts a text exactly if it can be cut into the tokens. -/
theorem tokensFrom_eq_ok_iff : tokensFrom layout p cs = .ok ts ↔ Scans layout p cs ts :=
  ⟨.of_tokensFrom, Scans.tokensFrom_eq⟩

/-- A snippet is read as what stands behind a line break. -/
theorem tokens_eq (source : String) :
    tokens source = tokensFrom {} ⟨0, 0⟩ ('\n' :: source.toList) := by
  rw [tokensFrom]
  simp [tokens, Layout.endLine, Position.advance, Position.start]

theorem tokens_eq_ok_iff {source : String} :
    tokens source = .ok ts ↔ Scans {} ⟨0, 0⟩ ('\n' :: source.toList) ts := by
  rw [tokens_eq, tokensFrom_eq_ok_iff]

/-! ### What a token is written as -/

/-- The text `c :: cs`, with so many brackets open in front of it, begins with the token. -/
inductive Scanned (depth : Nat) (c : Char) (cs : List Char) : Scan → Prop where
  | string {lead rest : List Char} {quote : Char} {s : Scan} (quoted : quote = '\'' ∨ quote = '"')
    (letters : ∀ d ∈ lead, isNamePart d = true) (written : lead ++ quote :: rest = c :: cs)
    (read : scanString lead quote rest = .ok s) : Scanned depth c cs s
  | number {digits rest : List Char} (written : digits ++ rest = c :: cs)
    (parts : ∀ d ∈ digits, isNumberPart d = true ∨ d = '+' ∨ d = '-') :
    Scanned depth c cs ⟨[], .number, digits, rest⟩
  | name {text rest : List Char} (written : text ++ rest = c :: cs)
    (parts : ∀ d ∈ text, isNamePart d = true) :
    Scanned depth c cs ⟨[], .name (String.ofList text), text, rest⟩
  | operator {op : String} {rest : List Char} (long : op ∈ longOperators)
    (written : op.toList ++ rest = c :: cs) : Scanned depth c cs ⟨[], .op op, op.toList, rest⟩
  | mark (short : c ∈ shortOperators) (opened : c = ')' ∨ c = ']' ∨ c = '\x7d' → 0 < depth) :
    Scanned depth c cs ⟨[], .op c.toString, [c], cs⟩

theorem numberSpan_parts (sign : Bool) (cs : List Char) :
    ∀ d ∈ (numberSpan sign cs).1, isNumberPart d = true ∨ d = '+' ∨ d = '-' := by
  induction cs generalizing sign with
  | nil => nofun
  | cons c cs ih =>
    rw [numberSpan]
    split
    · next part => exact List.forall_mem_cons.mpr ⟨.inl part, ih _⟩
    · split
      · next signed =>
        refine List.forall_mem_cons.mpr ⟨.inr ?_, ih _⟩
        simp only [Bool.and_eq_true, Bool.or_eq_true, beq_iff_eq] at signed
        exact signed.2
      · nofun

theorem isNumberPart_of_isDigit {c : Char} (digit : c.isDigit = true) : isNumberPart c = true := by
  simp [isNumberPart, Char.isAlphanum, digit]

theorem isNamePart_of_isNameStart {c : Char} (starts : isNameStart c = true) :
    isNamePart c = true := by
  simp only [isNameStart, Bool.or_eq_true] at starts
  simp only [isNamePart, isAlphanumeric, Bool.or_eq_true]
  exact starts.imp_right .inl

theorem Scanned.of_scanOperator (read : scanOperator depth c cs = .ok s) :
    Scanned depth c cs s := by
  unfold scanOperator at read
  split at read
  · next op rest found =>
    obtain ⟨⟩ := read
    obtain ⟨op', long, found⟩ := List.exists_of_findSome?_eq_some found
    obtain ⟨rest', starts, same⟩ := Option.map_eq_some_iff.mp found
    obtain ⟨rfl, rfl⟩ := Prod.mk.inj same
    exact .operator long (append_of_isPrefixOf? starts)
  · split at read
    · cases read
    · next short =>
      split at read
      · cases read
      · next opened =>
        obtain ⟨⟩ := read
        refine .mark (by simpa using short) fun closing => Nat.pos_of_ne_zero fun outside => ?_
        simp [outside, or_assoc, closing] at opened

/-- What is scanned is a token of some kind. -/
theorem Scanned.of_scan (read : scan depth c cs = .ok s) : Scanned depth c cs s := by
  unfold scan at read
  split at read
  · next quoted => exact .string (by simpa using quoted) (List.forall_mem_nil _) rfl read
  · split at read
    · next numeric =>
      obtain ⟨⟩ := read
      refine .number (by simpa using numberSpan_append _ cs)
        (List.forall_mem_cons.mpr ⟨.inl ?_, numberSpan_parts _ cs⟩)
      simp only [Bool.or_eq_true, Bool.and_eq_true, beq_iff_eq] at numeric
      rcases numeric with digit | ⟨point, -⟩
      · exact isNumberPart_of_isDigit digit
      · simp [isNumberPart, point]
    · split at read
      · next starts =>
        have whole := List.takeWhile_append_dropWhile (p := isNamePart) (l := cs)
        have parts : ∀ d ∈ c :: cs.takeWhile isNamePart, isNamePart d = true :=
          List.forall_mem_cons.mpr
            ⟨isNamePart_of_isNameStart starts, fun d mem => List.mem_takeWhile_imp mem⟩
        dsimp only at read
        split at read
        · next q rest behind =>
          rw [behind] at whole
          split at read
          · next lead =>
            simp only [Bool.and_eq_true, Bool.or_eq_true, beq_iff_eq] at lead
            exact .string lead.1 parts (congrArg (c :: ·) whole) read
          · obtain ⟨⟩ := read
            exact .name (congrArg (c :: ·) whole) parts
        · next behind =>
          rw [behind] at whole
          obtain ⟨⟩ := read
          exact .name (congrArg (c :: ·) whole) parts
      · exact .of_scanOperator read

end ConceptForest.Script
