import ConceptForest.Proofs.Script.Brackets

/-!
A line in parentheses.

A text that makes up one line of its own has the same tokens between parentheses, whatever blanks
and line breaks stand around it: all that is added are the parentheses. Brackets that are open in
front change nothing but the meaning of line breaks.

* `Scans.enclosed` — the tokens of a line, with one more bracket open.
* `tokens_enclosed` — the tokens of a text, and those of the text in parentheses.
-/

namespace ConceptForest.Script

open ConceptForest.Text

variable {c x : Char} {cs e front rest : List Char} {depth : Nat} {s : Scan} {layout : Layout}
  {p q : Position} {ts us : List Token}

/-- The characters that mean something of their own in a replacement field, and those that shield
others. -/
def fieldMarks : List Char := ['\x7b', '\x7d', '\'', '"', ':', '!', '=', '\\', '#']

theorem plain_of_bare (bare : c ∉ fieldMarks) : Plain c := by
  simp only [fieldMarks, List.mem_cons, not_or] at bare
  exact ⟨bare.2.2.1, bare.2.2.2.1, bare.2.2.2.2.2.2.2.1, bare.2.2.2.2.2.2.2.2.1⟩

theorem separator_closing : Separator ')' := by
  constructor <;> decide

/-! ### One more bracket -/

/-- What can be scanned can be scanned with one more bracket open in front. -/
theorem scan_deeper (read : scan depth c cs = .ok s) : scan (depth + 1) c cs = .ok s := by
  have marks : ∀ {c cs s}, scanOperator depth c cs = .ok s →
      scanOperator (depth + 1) c cs = .ok s := by
    intro c cs s read
    unfold scanOperator at read ⊢
    split at read
    · exact read
    · split at read
      · cases read
      · next short =>
        rw [if_neg short, if_neg (by simp)]
        split at read
        · cases read
        · exact read
  unfold scan at read ⊢
  split at read
  · next quoted => rw [if_pos quoted, read]
  · next plain =>
    rw [if_neg plain]
    split at read
    · next numeric => rw [if_pos numeric, read]
    · next other =>
      rw [if_neg other]
      split at read
      · next starts => rw [if_pos starts, read]
      · next mark => rw [if_neg mark, marks read]

theorem depthAfter_succ {l : Lexeme} (opened : l.isClosing = true → 0 < depth) :
    l.depthAfter (depth + 1) = l.depthAfter depth + 1 := by
  have opened' : l.isClosing = true → 0 < depth + 1 := fun _ => Nat.succ_pos depth
  have balance := Lexeme.depthAfter_balance opened
  have balance' := Lexeme.depthAfter_balance opened'
  omega

/-- A name is not bound on the fly where no colon is written. -/
theorem ne_binding (read : scan depth c cs = .ok s) (plain : ∀ d ∈ c :: cs, Plain d)
    (noColon : ':' ∉ c :: cs) : s.lexeme ≠ .op ":=" := by
  intro same
  cases Scanned.of_scan read with
  | @string lead rest quote _ quoted _ written =>
    obtain ⟨single, double, -⟩ := plain quote (by rw [← written]; simp)
    exact quoted.elim single double
  | number => cases same
  | name => cases same
  | operator _ written =>
    obtain ⟨⟩ := same
    exact noColon (by rw [← written]; simp)
  | mark =>
    have long := congrArg (fun op => op.toList.length) (Lexeme.op.inj same)
    simp [Char.toString] at long

/-- The text goes on with a line to its end: `line` is what its tokens show, alone and with one more
bracket open in front, there in front of anything that does not go on with the last of them. -/
structure OneLine (layout : Layout) (cs : List Char) (ts : List Token) (line : List Lexeme) :
    Prop where
  content : ∀ l ∈ line, l.isContent = true ∧ l ≠ .op ":="
  written : ts.map Token.lexeme = line ++
    ((if layout.lineOpen || !line.isEmpty then [.newline] else []) ++ [.endOfInput])
  longer : ∀ q x ys, Separator x →
    shown (tokensFrom ⟨[], layout.depth + 1, true⟩ q (cs ++ x :: ys)) =
      (shown (tokensFrom ⟨[], 1, true⟩ q (x :: ys))).map (line ++ ·)

variable {line : List Lexeme}

theorem OneLine.nil (closed : layout.depth = 0) (outermost : layout.indents = []) :
    OneLine layout [] (layout.endLine p ++ layout.indents.map (fun _ => ⟨.dedent, p⟩) ++
      [⟨.endOfInput, p⟩]) [] where
  content := nofun
  written := by
    cases lineOpen : layout.lineOpen <;> simp [Layout.endLine, lineOpen, outermost]
  longer q x ys _ := by
    rw [closed, List.nil_append]
    cases shown _ <;> rfl

theorem OneLine.wrapped (behind : OneLine layout rest ts line) :
    OneLine layout ('\n' :: rest) ts line where
  content := behind.content
  written := behind.written
  longer q x ys separator := by
    rw [List.cons_append, tokensFrom_wrapped (Nat.succ_pos _), behind.longer _ x ys separator,
      tokensFrom_anywhere _ _ q]

theorem OneLine.blank (blank : isLineBlank c = true) (behind : OneLine layout rest ts line) :
    OneLine layout (c :: rest) ts line where
  content := behind.content
  written := behind.written
  longer q x ys separator := by
    have inLine : c ≠ '\n' := by rintro rfl; cases blank
    obtain ⟨-, -, slash, noComment⟩ := plain_of_isLineBlank blank
    have gap : gap? (c :: (rest ++ x :: ys)) = some ([c], rest ++ x :: ys) := by
      rw [gap?_cons slash noComment, if_pos blank]
    rw [List.cons_append, tokensFrom_gap inLine gap, behind.longer _ x ys separator,
      tokensFrom_anywhere _ _ q]

theorem OneLine.token (inLine : c ≠ '\n') (noGap : gap? (c :: rest) = none)
    (scanned : scan layout.depth c rest = .ok s) (noBinding : s.lexeme ≠ .op ":=")
    (behind : OneLine { layout with depth := s.lexeme.depthAfter layout.depth, lineOpen := true }
      s.rest ts line) :
    OneLine layout (c :: rest) (⟨s.lexeme, p⟩ :: ts) (s.lexeme :: line) := by
  obtain ⟨content, opened⟩ := isContent_of_scan scanned
  refine ⟨List.forall_mem_cons.mpr ⟨⟨content, noBinding⟩, behind.content⟩, ?_,
    fun q x ys separator => ?_⟩
  · rw [List.map_cons, behind.written]
    simp
  · have scanned' : scan (layout.depth + 1) c (rest ++ x :: ys) = .ok (s.before (x :: ys)) :=
      scan_append_of_ok separator (scan_deeper scanned)
    have noGap' : gap? (c :: (rest ++ x :: ys)) = none := gap?_append_of_none noGap scanned
    have further := behind.longer ((q.after s.lead).after s.source) x ys separator
    rw [← depthAfter_succ opened] at further
    rw [List.cons_append, tokensFrom_token inLine noGap' scanned']
    refine (shown_append _).trans ?_
    rw [show (s.before (x :: ys)).rest = s.rest ++ x :: ys from rfl]
    refine (congrArg _ further).trans ?_
    rw [tokensFrom_anywhere _ _ q]
    cases shown _ <;> rfl

/-- The tokens of a text that makes up one line are the same with one more bracket open in front. -/
theorem Scans.enclosed (scans : Scans layout p cs ts) (bare : ∀ c ∈ cs, c ∉ fieldMarks)
    (joined : breaksLine layout.depth cs = false) (outermost : layout.indents = []) :
    ∃ line, OneLine layout cs ts line := by
  induction scans with
  | done closed => exact ⟨[], .nil closed outermost⟩
  | @wrapped layout p rest ts inside _ ih =>
    obtain ⟨-, bare⟩ := List.forall_mem_cons.mp bare
    obtain ⟨-, joined⟩ := Bool.or_eq_false_iff.mp joined
    obtain ⟨line, behind⟩ := ih bare (by simpa [bracketStep] using joined) outermost
    exact ⟨line, behind.wrapped⟩
  | @line layout _ _ _ _ _ _ _ _ _ outside =>
    -- A line break outside of brackets breaks the line.
    rw [outside] at joined
    cases joined
  | @gap layout p c rest source rest' ts inLine gap _ ih =>
    obtain ⟨mark, bare⟩ := List.forall_mem_cons.mp bare
    obtain ⟨-, joined⟩ := Bool.or_eq_false_iff.mp joined
    obtain ⟨-, -, slash, noComment⟩ := plain_of_bare mark
    rw [gap?_cons slash noComment] at gap
    split at gap
    · next blank =>
      obtain ⟨⟩ := gap
      rw [bracketStep_of_isBlank (isBlank_of_isLineBlank blank), Int.add_zero] at joined
      obtain ⟨line, behind⟩ := ih bare joined outermost
      exact ⟨line, behind.blank blank⟩
    · cases gap
  | @token layout p c rest s ts inLine noGap scanned _ ih =>
    have plain : ∀ d ∈ c :: rest, Plain d := fun d here => plain_of_bare (bare d here)
    have whole := source_append_rest scanned plain
    have noColon : ':' ∉ c :: rest := fun here => bare _ here (by decide)
    rw [← whole, breaksLine_append, ← depthAfter_scan scanned plain] at joined
    obtain ⟨-, joined⟩ := Bool.or_eq_false_iff.mp joined
    obtain ⟨line, behind⟩ :=
      ih (fun d here => bare d (whole ▸ List.mem_append_right _ here)) joined outermost
    exact ⟨_, behind.token inLine noGap scanned (ne_binding scanned plain noColon)⟩

/-! ### Blanks around a line -/

/-- No token begins with a blank. -/
theorem scan_refuses_blank (blank : isBlank c = true) : scan depth c cs ≠ .ok s := by
  intro read
  have separator := separator_of_isBlank blank
  have noMark : shortOperators.contains c = false := by
    simpa using of_isBlank (!shortOperators.contains ·) (by decide) blank
  have some := (scan_append read).1
  cases Scanned.of_scan read with
  | @string lead rest quote _ quoted letters written =>
    cases lead with
    | nil =>
      obtain ⟨rfl, -⟩ := List.cons.inj written
      exact quoted.elim separator.quote.1 separator.quote.2
    | cons d lead =>
      obtain ⟨rfl, -⟩ := List.cons.inj written
      cases separator.name.symm.trans (letters d List.mem_cons_self)
  | @number digits _ written parts =>
    obtain ⟨d, digits, rfl⟩ := List.exists_cons_of_ne_nil some
    obtain ⟨rfl, -⟩ := List.cons.inj written
    rcases parts d List.mem_cons_self with part | plus | minus
    · cases separator.number.symm.trans part
    · exact separator.sign.1 plus
    · exact separator.sign.2 minus
  | @name text _ written parts =>
    obtain ⟨d, text, rfl⟩ := List.exists_cons_of_ne_nil some
    obtain ⟨rfl, -⟩ := List.cons.inj written
    cases separator.name.symm.trans (parts d List.mem_cons_self)
  | @operator op _ long written =>
    obtain ⟨d, others, same⟩ := List.exists_cons_of_ne_nil some
    rw [show op.toList = d :: others from same] at written
    obtain ⟨rfl, -⟩ := List.cons.inj written
    exact separator.operator op long (by rw [show op.toList = d :: others from same]; simp)
  | mark short =>
    cases noMark.symm.trans (List.contains_iff_mem.mpr short)

/-- Inside of brackets blanks are passed over, where they are accepted at all. -/
theorem shown_blanks (blanks : ∀ c ∈ cs, isBlank c = true) (inside : 0 < layout.depth)
    (accepted : tokensFrom layout p (cs ++ rest) = .ok ts) :
    shown (tokensFrom layout q rest) = .ok (ts.map Token.lexeme) := by
  induction cs generalizing p with
  | nil =>
    rw [tokensFrom_anywhere _ q p, show tokensFrom layout p rest = .ok ts from accepted]
    rfl
  | cons c cs ih =>
    obtain ⟨blank, others⟩ := List.forall_mem_cons.mp blanks
    rw [List.cons_append] at accepted
    by_cases breaks : c = '\n'
    · subst breaks
      rw [tokensFrom_wrapped inside] at accepted
      exact ih others accepted
    · have plain : Plain c := by
        simpa using of_isBlank (fun c => decide (Plain c)) (by decide) blank
      have gap : gap? (c :: (cs ++ rest)) = _ := gap?_cons plain.2.2.1 plain.2.2.2
      split at gap
      · rw [tokensFrom_gap breaks gap] at accepted
        exact ih others accepted
      · cases failed : scan layout.depth c (cs ++ rest) with
        | ok s => exact absurd failed (scan_refuses_blank blank)
        | error e => cases (tokensFrom_error breaks gap failed).symm.trans accepted

/-! ### Whole texts -/

/-- A snippet that begins with its first token. -/
theorem tokens_begun (begun : ∀ c ∈ cs.head?, isBlank c = false ∧ c ≠ '#') :
    tokens (String.ofList cs) = tokensFrom {} .start cs := by
  have start : lineStart false 0 cs = (0, [], cs) := by
    cases cs with
    | nil => rfl
    | cons c cs =>
      obtain ⟨content, noComment⟩ := begun c rfl
      have noBreak : c ≠ '\n' := by rintro rfl; cases content
      have noBlank : isLineBlank c = false := Bool.eq_false_iff.mpr fun blank => by
        cases content.symm.trans (isBlank_of_isLineBlank blank)
      exact lineStart_of_content noBreak noComment noBlank
  have fits : lineTokens [] 0 .start cs = .ok ([], []) := by
    cases cs <;> rfl
  rw [tokens, String.toList_ofList, start]
  dsimp only [Position.after, List.foldl_nil]
  rw [fits]
  dsimp only [bind, Except.bind]
  cases tokensFrom {} .start cs <;> rfl

theorem shown_closing : shown (tokensFrom ⟨[], 1, true⟩ p [')']) =
    .ok [.op ")", .newline, .endOfInput] := by
  have scanned : scan 1 ')' [] = .ok ⟨[], .op ")", [')'], []⟩ := rfl
  rw [tokensFrom_token (by decide) rfl scanned, tokensFrom]
  rfl

/-- The tokens of a text that makes up one line, and those of the text in parentheses, with blanks
around it. -/
theorem tokens_enclosed (bare : ∀ c ∈ e, c ∉ fieldMarks) (joined : breaksLine 0 (trim e) = false)
    (lexed : tokens (String.ofList (trim e)) = .ok ts)
    (lexed' : tokens (String.ofList ('(' :: (e ++ [')']))) = .ok us) :
    ∃ line : List Lexeme, (∀ l ∈ line, l.isContent = true ∧ l ≠ .op ":=") ∧
      ts.map Token.lexeme =
        line ++ ((if line.isEmpty then [] else [.newline]) ++ [.endOfInput]) ∧
      us.map Token.lexeme = .op "(" :: (line ++ [.op ")", .newline, .endOfInput]) := by
  obtain ⟨front, back, whole, blank, blank'⟩ := trim_parts e
  have within : ∀ c ∈ trim e, c ∉ fieldMarks := fun c here => bare c <| by
    rw [← whole]
    exact List.mem_append_right _ (List.mem_append_left _ here)
  have begun : ∀ c ∈ (trim e).head?, isBlank c = false ∧ c ≠ '#' := fun c first =>
    ⟨isBlank_of_trim first, (plain_of_bare (within c (List.mem_of_mem_head? first))).2.2.2⟩
  rw [tokens_begun begun] at lexed
  obtain ⟨line, content, written, longer⟩ := (Scans.of_tokensFrom lexed).enclosed within joined rfl
  have scanned : scan 0 '(' (e ++ [')']) = .ok ⟨[], .op "(", ['('], e ++ [')']⟩ := rfl
  rw [tokens_begun (by simp [isBlank]), tokensFrom_token (by decide) rfl scanned] at lexed'
  obtain ⟨us', inner, same⟩ := bind_eq_ok_iff.mp lexed'
  obtain ⟨⟩ := same
  dsimp only at inner
  rw [← whole, List.append_assoc, List.append_assoc] at inner
  have inner := shown_blanks (q := .start) blank (Nat.succ_pos 0) inner
  obtain ⟨x, ys, ended, separator⟩ : ∃ x ys, back ++ [')'] = x :: ys ∧ Separator x := by
    cases back with
    | nil => exact ⟨')', [], rfl, separator_closing⟩
    | cons x ys => exact ⟨x, ys ++ [')'], rfl, separator_of_isBlank (blank' x List.mem_cons_self)⟩
  rw [ended] at inner
  have inner := (longer .start x ys separator).symm.trans inner
  cases behind : tokensFrom ⟨[], 1, true⟩ .start (x :: ys) with
  | error e => rw [behind] at inner; cases inner
  | ok vs =>
    rw [behind] at inner
    rw [← ended] at behind
    have closed := shown_closing.symm.trans
      (shown_blanks (q := .start) blank' (Nat.succ_pos 0) behind)
    refine ⟨line, content, ?_, ?_⟩
    · rw [written]
      cases line <;> rfl
    · have inner : line ++ vs.map Token.lexeme = us'.map Token.lexeme := Except.ok.inj inner
      rw [List.map_append, ← inner, ← Except.ok.inj closed]
      rfl

end ConceptForest.Script
