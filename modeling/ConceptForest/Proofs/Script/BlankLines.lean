import ConceptForest.Proofs.Script.Separators

/-!
Blank lines and comments mean nothing to the scanner.

`leavesOpen` tells whether a text ends inside of a string, or with a backslash that a line break
would belong to. Where it does not, a line break behind the text is one that the scanner sees, in
whatever state it is: it is passed over inside of brackets, or ends a line. A blank line behind it
is passed over as well, and what is wrong in front of it is wrong in the same way.

* `scan_append_of_error` — what cannot be scanned in front of a line break.
* `tokensFrom_blankLine` — the tokens are the same, but for their places.
-/

namespace ConceptForest.Script

open ConceptForest.Text

variable {c d quote : Char} {cs ys lead mark line front source rest : List Char} {triple : Bool}
  {depth width : Nat} {comment : Bool} {s : Scan} {e : ScanFault}

/-! ### What a text leaves open -/

/-- Would a line break behind the text stand inside of the string? The text is what follows the
opening mark. -/
def bodyOpen (mark : List Char) (triple : Bool) : List Char → Bool
  | [] => triple
  | ['\\'] => true
  | '\\' :: _ :: cs => bodyOpen mark triple cs
  | c :: cs =>
    match mark.isPrefixOf? (c :: cs) with
    | some _ => false
    | none => (triple || c != '\n') && bodyOpen mark triple cs

/-- The same for a text that follows the first quotation mark. -/
def stringOpen (quote : Char) (cs : List Char) : Bool :=
  if [quote, quote].isPrefixOf cs then bodyOpen [quote, quote, quote] true (cs.drop 2)
  else bodyOpen [quote] false cs

/-- Would a line break behind the text stand inside of a string, or belong to a backslash? -/
def leavesOpen (cs : List Char) : Bool :=
  match cs with
  | [] => false
  | c :: cs =>
    match _gap : gap? (c :: cs) with
    | some (_, rest) => leavesOpen rest
    | none =>
      if c == '\\' then cs == [] || cs == ['\r']
      else if c == '\'' || c == '"' then
        match _string : scanString [] c cs with
        | .ok s => leavesOpen s.rest
        | .error _ => stringOpen c cs
      else leavesOpen cs
termination_by cs.length
decreasing_by
  · have ⟨ne, eq⟩ := gap?_append _gap
    have := List.length_pos_iff.mpr ne
    have := congrArg List.length eq
    simp only [List.length_append, List.length_cons] at *
    omega
  · have ⟨ne, eq⟩ := scanString_append _string
    have := List.length_pos_iff.mpr ne
    have := congrArg List.length eq
    simp only [List.length_append, List.length_cons, List.length_nil] at *
    omega
  · simp

/-- Neither a string nor a comment begins with the character, and it protects no other. -/
def Plain (c : Char) : Prop := c ≠ '\'' ∧ c ≠ '"' ∧ c ≠ '\\' ∧ c ≠ '#'

instance : Decidable (Plain c) := inferInstanceAs (Decidable (_ ∧ _))

theorem leavesOpen_gap (gap : gap? (c :: cs) = some (source, rest)) :
    leavesOpen (c :: cs) = leavesOpen rest := by
  rw [leavesOpen]
  split
  · next gap' =>
    obtain ⟨⟩ := gap.symm.trans gap'
    rfl
  · next noGap => cases gap.symm.trans noGap

theorem leavesOpen_plain (plain : Plain c) : leavesOpen (c :: cs) = leavesOpen cs := by
  obtain ⟨single, double, slash, comment⟩ := plain
  cases gap : gap? (c :: cs) with
  | some found =>
    obtain ⟨source, rest⟩ := found
    rw [leavesOpen_gap gap]
    rw [gap?_cons slash comment] at gap
    split at gap
    · obtain ⟨⟩ := gap
      rfl
    · cases gap
  | none =>
    rw [leavesOpen]
    split
    · next gap' => cases gap.symm.trans gap'
    · simp [single, double, slash]

theorem leavesOpen_append (plain : ∀ c ∈ front, Plain c) :
    leavesOpen (front ++ rest) = leavesOpen rest := by
  induction front with
  | nil => rfl
  | cons c front ih =>
    obtain ⟨first, others⟩ := List.forall_mem_cons.mp plain
    rw [List.cons_append, leavesOpen_plain first, ih others]

theorem leavesOpen_comment (inLine : c ≠ '\n') :
    leavesOpen ('#' :: c :: cs) = leavesOpen ('#' :: cs) := by
  have found : gap? ('#' :: c :: cs) = some (_, (c :: cs).dropWhile (· != '\n')) := rfl
  have found' : gap? ('#' :: cs) = some (_, cs.dropWhile (· != '\n')) := rfl
  rw [leavesOpen_gap found, leavesOpen_gap found', List.dropWhile_cons_of_pos (by simpa using inLine)]

theorem leavesOpen_string (quoted : quote = '\'' ∨ quote = '"') :
    leavesOpen (quote :: cs) =
      match scanString [] quote cs with
      | .ok s => leavesOpen s.rest
      | .error _ => stringOpen quote cs := by
  have noGap : gap? (quote :: cs) = none := by
    rcases quoted with rfl | rfl <;> rfl
  have slash : quote ≠ '\\' := by
    rintro rfl
    revert quoted
    decide
  rw [leavesOpen]
  split
  · next gap => cases noGap.symm.trans gap
  · rw [if_neg (by simpa using slash), if_pos (by simpa using quoted)]
    split <;> simp_all

theorem gap?_backslash (noBreak : cs.head? ≠ some '\n') (noReturn : cs.take 2 ≠ ['\r', '\n']) :
    gap? ('\\' :: cs) = none := by
  unfold gap?
  split
  · next same => cases same; exact absurd rfl noBreak
  · next same => cases same; exact absurd rfl noReturn
  · next same => cases same
  · next same => cases same; rfl
  · next same => cases same

/-- A backslash that no line break can follow any more. -/
theorem gap?_backslash_append (noGap : gap? ('\\' :: cs) = none)
    (closed : leavesOpen ('\\' :: cs) = false) : gap? ('\\' :: (cs ++ '\n' :: ys)) = none := by
  rw [leavesOpen] at closed
  split at closed
  · next gap => cases noGap.symm.trans gap
  · simp only [beq_self_eq_true, if_true, Bool.or_eq_false_iff, beq_eq_false_iff_ne] at closed
    obtain ⟨more, noReturn⟩ := closed
    cases cs with
    | nil => exact absurd rfl more
    | cons c cs =>
      have noBreak : c ≠ '\n' := by rintro rfl; cases noGap
      refine gap?_backslash (by simpa using noBreak) ?_
      cases cs with
      | nil =>
        intro same
        obtain rfl : c = '\r' := by simpa using same
        exact noReturn rfl
      | cons d cs =>
        intro same
        obtain ⟨rfl, rfl⟩ : c = '\r' ∧ d = '\n' := by simpa using same
        cases noGap

/-- Where no gap begins in front of a line break, none begins if the line break stands there. -/
theorem gap?_append_of_closed (noGap : gap? (c :: cs) = none)
    (closed : leavesOpen (c :: cs) = false) : gap? (c :: (cs ++ '\n' :: ys)) = none := by
  by_cases slash : c = '\\'
  · subst slash
    exact gap?_backslash_append noGap closed
  · have content : c ≠ '#' := by
      rintro rfl
      cases noGap
    rw [gap?_cons slash content] at noGap ⊢
    split at noGap
    · cases noGap
    · next noBlank => rw [if_neg noBlank]

theorem plain_of_isLineBlank (blank : isLineBlank c = true) : Plain c := by
  refine ⟨?_, ?_, ?_, ?_⟩ <;> rintro rfl <;> cases blank

/-- What is passed over at the start of a line leaves nothing open. -/
theorem leavesOpen_lineStart : leavesOpen (lineStart comment width cs).2.2 =
    leavesOpen (if comment then '#' :: cs else cs) := by
  have newline : Plain '\n' := by decide
  fun_induction lineStart comment width cs with
  | case1 comment =>
    have found : gap? ['#'] = some (['#'], []) := rfl
    cases comment with
    | false => rfl
    | true => exact (leavesOpen_gap found).symm
  | case2 comment width c cs ends w source rest start ih =>
    obtain rfl : c = '\n' := by simpa using ends
    rw [start] at ih
    have found : gap? ('#' :: '\n' :: cs) = some (['#'], '\n' :: cs) := rfl
    cases comment with
    | false => exact ih.trans (leavesOpen_plain newline).symm
    | true => exact ih.trans ((leavesOpen_gap found).trans (leavesOpen_plain newline)).symm
  | case3 comment width c cs inLine passed w source rest start ih =>
    rw [start] at ih
    have inLine : c ≠ '\n' := by simpa using inLine
    cases comment with
    | false =>
      obtain rfl : c = '#' := by simpa using passed
      exact ih
    | true => exact ih.trans (leavesOpen_comment inLine).symm
  | case4 comment width c cs inLine content blank w source rest start ih =>
    rw [start] at ih
    obtain ⟨rfl, -⟩ : comment = false ∧ _ := by simpa using content
    exact ih.trans (leavesOpen_plain (plain_of_isLineBlank blank)).symm
  | case5 comment width c cs inLine content =>
    obtain ⟨rfl, -⟩ : comment = false ∧ _ := by simpa using content
    rfl

theorem plain_of_isNamePart (part : isNamePart c = true) : Plain c := by
  refine ⟨?_, ?_, ?_, ?_⟩ <;> rintro rfl <;> revert part <;> decide

theorem plain_of_isNumberPart (part : isNumberPart c = true ∨ c = '+' ∨ c = '-') : Plain c := by
  refine ⟨?_, ?_, ?_, ?_⟩ <;> rintro rfl <;> revert part <;> decide

/-- What is in front of the mark does not change where a string ends. -/
theorem scanString_rest (read : scanString lead quote cs = .ok s) :
    ∃ s', scanString [] quote cs = .ok s' ∧ s'.rest = s.rest := by
  unfold scanString at read ⊢
  dsimp only at read ⊢
  split at read
  · cases read
  · obtain ⟨⟩ := read
    exact ⟨_, rfl, rfl⟩

theorem scanString_failed (failed : scanString lead quote cs = .error e) :
    ∃ e', scanString [] quote cs = .error e' := by
  unfold scanString at failed ⊢
  dsimp only at failed ⊢
  split at failed
  · exact ⟨_, rfl⟩
  · cases failed

/-- A token leaves nothing open. -/
theorem leavesOpen_scan (scanned : scan depth c cs = .ok s) :
    leavesOpen (c :: cs) = leavesOpen s.rest := by
  cases Scanned.of_scan scanned with
  | @string lead rest quote _ quoted letters written read =>
    obtain ⟨s', read', same⟩ := scanString_rest read
    rw [← written, leavesOpen_append fun c here => plain_of_isNamePart (letters c here),
      leavesOpen_string quoted, read', ← same]
  | number written parts =>
    rw [← written, leavesOpen_append fun c here => plain_of_isNumberPart (parts c here)]
  | name written parts =>
    rw [← written, leavesOpen_append fun c here => plain_of_isNamePart (parts c here)]
  | operator long written =>
    have plain : longOperators.all (·.toList.all (Plain ·)) = true := by decide
    rw [← written, leavesOpen_append (by simpa using List.all_eq_true.mp plain _ long)]
  | mark short =>
    have plain : shortOperators.all (Plain ·) = true := by decide
    rw [leavesOpen_plain (by simpa using List.all_eq_true.mp plain c short)]

/-! ### What is wrong in front of a line break -/

theorem stringBody_append_of_none (quoted : quote = '\'' ∨ quote = '"') (apart : '\n' ∉ mark)
    (open_ : stringBody (quote :: mark) triple cs = none)
    (closed : bodyOpen (quote :: mark) triple cs = false) :
    stringBody (quote :: mark) triple (cs ++ '\n' :: ys) = none := by
  have slash : quote ≠ '\\' := by
    rintro rfl
    revert quoted
    decide
  have newline : '\n' ≠ quote := by
    rintro rfl
    revert quoted
    decide
  fun_induction bodyOpen (quote :: mark) triple cs with
  | case1 => simp [stringBody, isPrefixOf?_cons, newline.symm, closed]
  | case2 => cases closed
  | case3 c cs ih =>
    rw [stringBody, Option.map_eq_none_iff] at open_
    rw [List.cons_append, List.cons_append, stringBody, ih open_ closed]
    rfl
  | case4 c cs single other rest' starts =>
    rw [stringBody.eq_3 _ _ _ _ fun d cs' same more => other d cs' same more, starts] at open_
    cases open_
  | case5 c cs single other none ih =>
    have here : c ≠ '\\' := by
      rintro rfl
      cases cs with
      | nil => exact single rfl rfl
      | cons d cs => exact other d cs rfl rfl
    have none' : (quote :: mark).isPrefixOf? (c :: cs ++ '\n' :: ys) = .none := by
      rw [isPrefixOf?_append (by simpa [newline] using apart), none]
      rfl
    rw [stringBody.eq_3 _ _ _ _ fun _ _ same _ => here same, none] at open_
    rw [List.cons_append, stringBody.eq_3 _ _ _ _ fun _ _ same _ => here same, ← List.cons_append,
      none']
    dsimp only at open_ ⊢
    split at open_
    · next ends => rw [if_pos ends]
    · next inside =>
      rw [Option.map_eq_none_iff] at open_
      have further : (triple || c != '\n') = true := by
        cases triple <;> simp_all
      rw [further, Bool.true_and] at closed
      rw [if_neg inside, ih open_ closed]
      rfl

/-- A string that a line break ends is not ended by what stands behind the line break. -/
theorem scanString_append_of_error (quoted : quote = '\'' ∨ quote = '"')
    (failed : scanString lead quote cs = .error e) (closed : stringOpen quote cs = false) :
    scanString lead quote (cs ++ '\n' :: ys) = .error e := by
  have apart : '\n' ≠ quote := by
    rintro rfl
    revert quoted
    decide
  have triple : [quote, quote].isPrefixOf (cs ++ '\n' :: ys) = [quote, quote].isPrefixOf cs :=
    isPrefixOf_append (by simp [apart])
  unfold stringOpen at closed
  cases starts : [quote, quote].isPrefixOf cs with
  | false =>
    rw [starts] at triple
    simp only [scanString, starts, triple, Bool.false_eq_true, if_false] at failed closed ⊢
    cases found : stringBody [quote] false cs with
    | some found' => rw [found] at failed; cases failed
    | none =>
      rw [found] at failed
      have longer : stringBody [quote] false (cs ++ '\n' :: ys) = none :=
        stringBody_append_of_none quoted (by simp) found closed
      rw [longer, failed]
  | true =>
    obtain ⟨rest, rfl⟩ := List.isPrefixOf_iff_prefix.mp starts
    rw [starts] at triple
    simp only [scanString, starts, triple, if_true] at failed closed ⊢
    simp only [List.cons_append, List.nil_append, List.drop_succ_cons, List.drop_zero]
      at failed closed ⊢
    cases found : stringBody [quote, quote, quote] true rest with
    | some found' => rw [found] at failed; cases failed
    | none =>
      rw [found] at failed
      have longer : stringBody [quote, quote, quote] true (rest ++ '\n' :: ys) = none :=
        stringBody_append_of_none quoted (by simp [apart]) found closed
      rw [longer, failed]

/-- What cannot be scanned in front of a line break cannot be scanned for the same reason, whatever
stands behind it. -/
theorem scan_append_of_error (failed : scan depth c cs = .error e)
    (closed : leavesOpen (c :: cs) = false) :
    scan depth c (cs ++ '\n' :: ys) = .error e := by
  have strings : KeepsString depth c cs ('\n' :: ys) := by
    intro lead quote rest quoted parts written same
    have failed' := same.symm.trans failed
    obtain ⟨_, unmarked⟩ := scanString_failed failed'
    rw [← written, leavesOpen_append fun l here => plain_of_isNamePart (parts l here),
      leavesOpen_string quoted, unmarked] at closed
    rw [scanString_append_of_error quoted failed' closed, failed']
    rfl
  rw [scan_append_of_strings separator_newline strings, failed]
  rfl

/-! ### What the tokens show -/

variable {layout : Layout} {p q : Position} {rest' after : List Char} {l : Lexeme}
  {read : Except SyntaxError (List Token)}

/-- What the tokens show, or what is wrong with the text, wherever it stands. -/
def shown (read : Except SyntaxError (List Token)) : Except Fault (List Lexeme) :=
  (read.map (List.map Token.lexeme)).mapError SyntaxError.fault

theorem shown_append (front : List Token) :
    shown (do return front ++ (← read)) = (shown read).map (front.map Token.lexeme ++ ·) := by
  cases read with
  | error e => rfl
  | ok ts => exact congrArg Except.ok List.map_append

/-- The layout in front of a line does not hang on the place of the line, nor on what it says. -/
theorem lineTokens_cases (indents : List Nat) (width : Nat) (empty : Bool) :
    (∀ p rest, rest.isEmpty = empty →
      lineTokens indents width p rest = .error ⟨.unindentMismatch, p⟩) ∨
    ∃ (lexemes : List Lexeme) (indents' : List Nat), ∀ p rest, rest.isEmpty = empty →
      lineTokens indents width p rest = .ok (lexemes.map (⟨·, p⟩), indents') := by
  cases empty with
  | true => exact .inr ⟨[], indents, fun p rest none => by rw [lineTokens, if_pos none]; rfl⟩
  | false =>
    cases adjusted : adjustIndent indents width with
    | none =>
      exact .inl fun p rest some => by
        rw [lineTokens, if_neg (Bool.eq_false_iff.mp some), adjusted]
    | some found =>
      exact .inr ⟨found.1, found.2, fun p rest some => by
        rw [lineTokens, if_neg (Bool.eq_false_iff.mp some), adjusted]⟩

theorem endLine_lexemes (p q : Position) :
    (layout.endLine p).map Token.lexeme = (layout.endLine q).map Token.lexeme := by
  unfold Layout.endLine
  split <;> rfl

theorem gap_shorter (gap : gap? cs = some (source, rest)) : rest.length < cs.length := by
  obtain ⟨some, whole⟩ := gap?_append gap
  have := List.length_pos_iff.mpr some
  rw [← whole, List.length_append]
  omega

theorem scan_shorter (scanned : scan depth c cs = .ok s) : s.rest.length < (c :: cs).length := by
  obtain ⟨some, whole⟩ := scan_append scanned
  have := List.length_pos_iff.mpr some
  rw [← whole, List.length_append, List.length_append]
  omega

/-- Texts that cannot be scanned for the same reason show the same. -/
theorem shown_error (inLine : c ≠ '\n') (noGap : gap? (c :: cs) = none)
    (noGap' : gap? (c :: ys) = none) (failed : scan layout.depth c cs = .error e)
    (failed' : scan layout.depth c ys = .error e) :
    shown (tokensFrom layout p (c :: cs)) = shown (tokensFrom layout q (c :: ys)) := by
  rw [tokensFrom_error inLine noGap failed, tokensFrom_error inLine noGap' failed']
  rfl

/-- Texts that begin with the same token show the same if they show the same behind it. -/
theorem shown_token {s' : Scan} (inLine : c ≠ '\n') (noGap : gap? (c :: cs) = none)
    (noGap' : gap? (c :: ys) = none) (scanned : scan layout.depth c cs = .ok s)
    (scanned' : scan layout.depth c ys = .ok s') (same : s.lexeme = s'.lexeme)
    (further : ∀ layout p q,
      shown (tokensFrom layout p s.rest) = shown (tokensFrom layout q s'.rest)) :
    shown (tokensFrom layout p (c :: cs)) = shown (tokensFrom layout q (c :: ys)) := by
  rw [tokensFrom_token inLine noGap scanned, tokensFrom_token inLine noGap' scanned']
  refine (shown_append _).trans (Eq.trans ?_ (shown_append _).symm)
  rw [same, further _ _ ((q.after s'.lead).after s'.source)]
  rfl

/-- Lines of one width show the same if they show the same behind their start. -/
theorem shown_line (outside : layout.depth = 0)
    (width : (lineStart false 0 rest).1 = (lineStart false 0 rest').1)
    (empty : (lineStart false 0 rest).2.2.isEmpty = (lineStart false 0 rest').2.2.isEmpty)
    (further : ∀ layout p q, shown (tokensFrom layout p (lineStart false 0 rest).2.2) =
      shown (tokensFrom layout q (lineStart false 0 rest').2.2)) :
    shown (tokensFrom layout p ('\n' :: rest)) = shown (tokensFrom layout q ('\n' :: rest')) := by
  rw [tokensFrom, tokensFrom, if_neg (by omega), if_neg (by omega)]
  dsimp only
  rw [width]
  obtain failed | ⟨lexemes, indents', fits⟩ :=
    lineTokens_cases layout.indents (lineStart false 0 rest').1 (lineStart false 0 rest').2.2.isEmpty
  · rw [failed _ _ empty, failed _ _ rfl]
    rfl
  · rw [fits _ _ empty, fits _ _ rfl, ok_bind, ok_bind]
    refine (shown_append _).trans (Eq.trans ?_ (shown_append _).symm)
    rw [further _ _ _, List.map_append, List.map_append, endLine_lexemes p q]
    simp only [List.map_map]
    rfl

/-- Where a text stands does not change what it shows. -/
theorem tokensFrom_anywhere (layout : Layout) (p q : Position) (cs : List Char) :
    shown (tokensFrom layout p cs) = shown (tokensFrom layout q cs) := by
  induction size : cs.length using Nat.strongRecOn generalizing layout p q cs with
  | ind n ih =>
    subst size
    cases cs with
    | nil =>
      rw [tokensFrom, tokensFrom, finalTokens, finalTokens]
      split
      · rfl
      · simp [shown, Except.map, Except.mapError, endLine_lexemes p q]
    | cons c cs =>
      by_cases breaks : c = '\n'
      · subst breaks
        by_cases inside : 0 < layout.depth
        · rw [tokensFrom_wrapped inside, tokensFrom_wrapped inside]
          exact ih _ (Nat.lt_succ_self _) _ _ _ _ rfl
        · refine shown_line (by omega) rfl rfl fun layout p q => ih _ ?_ _ _ _ _ rfl
          have whole := congrArg List.length (lineStart_append false 0 cs)
          simp only [List.length_append, List.length_cons] at whole ⊢
          omega
      · cases gap : gap? (c :: cs) with
        | some found =>
          obtain ⟨source, rest⟩ := found
          rw [tokensFrom_gap breaks gap, tokensFrom_gap breaks gap]
          exact ih _ (gap_shorter gap) _ _ _ _ rfl
        | none =>
          cases scanned : scan layout.depth c cs with
          | error e => exact shown_error breaks gap gap scanned scanned
          | ok s =>
            exact shown_token breaks gap gap scanned scanned rfl fun layout p q =>
              ih _ (scan_shorter scanned) layout p q s.rest rfl

/-! ### A blank line -/

/-- Blanks, a comment or none, and a line break. -/
def BlankLine (line : List Char) : Prop :=
  ∃ blanks comment, line = blanks ++ comment ++ ['\n'] ∧ (∀ c ∈ blanks, isLineBlank c = true) ∧
    (comment = [] ∨ ∃ text, comment = '#' :: text ∧ '\n' ∉ text)

theorem lineStart_comment (inLine : '\n' ∉ cs) : (lineStart true width cs).2.2 = [] := by
  induction cs with
  | nil => rfl
  | cons c cs ih =>
    obtain ⟨other, inLine⟩ := List.ne_and_not_mem_of_not_mem_cons inLine
    simp [lineStart, other.symm, ih inLine]

theorem lineStart_blanks (blanks : ∀ c ∈ front, isLineBlank c = true)
    (comment : cs = [] ∨ ∃ text, cs = '#' :: text ∧ '\n' ∉ text) :
    (lineStart false width (front ++ cs)).2.2 = [] := by
  induction front generalizing width with
  | nil =>
    obtain rfl | ⟨text, rfl, inLine⟩ := comment
    · rfl
    · simp [lineStart, lineStart_comment inLine]
  | cons c front ih =>
    obtain ⟨blank, blanks⟩ := List.forall_mem_cons.mp blanks
    have inLine : c ≠ '\n' := by rintro rfl; cases blank
    have content : c ≠ '#' := by rintro rfl; cases blank
    simp [lineStart, inLine, content, blank, ih blanks]

/-- A blank line is part of the start of the next line. -/
theorem lineStart_blankLine (blank : BlankLine line) :
    lineStart false 0 (line ++ after) = ((lineStart false 0 after).1,
      line ++ (lineStart false 0 after).2.1, (lineStart false 0 after).2.2) := by
  obtain ⟨blanks, comment, rfl, blank, commented⟩ := blank
  have ended : (lineStart false 0 (blanks ++ comment)).2.2 = [] := lineStart_blanks blank commented
  rw [List.append_assoc, List.singleton_append, lineStart_append_of_end ended]
  simp

/-- Inside of brackets a blank line is passed over. -/
theorem tokensFrom_blankLine_inside (blank : BlankLine line) (inside : 0 < layout.depth) :
    shown (tokensFrom layout p (line ++ after)) = shown (tokensFrom layout q after) := by
  obtain ⟨blanks, comment, rfl, blank, commented⟩ := blank
  rw [List.append_assoc, List.append_assoc]
  induction blanks generalizing p with
  | cons c blanks ih =>
    obtain ⟨first, others⟩ := List.forall_mem_cons.mp blank
    have inLine : c ≠ '\n' := by rintro rfl; cases first
    obtain ⟨-, -, slash, content⟩ := plain_of_isLineBlank first
    have gap : ∀ cs, gap? (c :: cs) = some ([c], cs) := fun cs => by
      rw [gap?_cons slash content, if_pos first]
    rw [List.cons_append, tokensFrom_gap inLine (gap _), ih others]
  | nil =>
    have ended : ∀ p, shown (tokensFrom layout p ('\n' :: after)) =
        shown (tokensFrom layout q after) := fun p => by
      rw [tokensFrom_wrapped inside]
      exact tokensFrom_anywhere _ _ _ _
    obtain rfl | ⟨text, rfl, inLine⟩ := commented
    · exact ended _
    · have gap : gap? ('#' :: (text ++ '\n' :: after)) = some ('#' :: text, '\n' :: after) := by
        have apart : ∀ c ∈ text, (c != '\n') = true := fun c here => by
          simpa using fun same : c = '\n' => inLine (same ▸ here)
        obtain ⟨comment, behind⟩ : (text ++ '\n' :: after).takeWhile (· != '\n') = _ ∧
            (text ++ '\n' :: after).dropWhile (· != '\n') = _ := takeWhile_append_cons (by decide)
        rw [gap?, comment, behind, List.takeWhile_eq_self_iff.mpr apart,
          List.dropWhile_eq_nil_iff.mpr apart]
        rfl
      rw [List.nil_append, List.cons_append, List.singleton_append, tokensFrom_gap (by decide) gap]
      exact ended _

/-- The step over a line break in front. The blank line is part of the start of the next line, or it
stands behind what is written there, which `further` is about. -/
theorem shown_line_blankLine (outside : layout.depth = 0) (blank : BlankLine line)
    (further : (lineStart false 0 front).2.2 ≠ [] → ∀ layout p q,
      shown (tokensFrom layout p ((lineStart false 0 front).2.2 ++ '\n' :: (line ++ after))) =
        shown (tokensFrom layout q ((lineStart false 0 front).2.2 ++ '\n' :: after))) :
    shown (tokensFrom layout p ('\n' :: (front ++ '\n' :: (line ++ after)))) =
      shown (tokensFrom layout q ('\n' :: (front ++ '\n' :: after))) := by
  by_cases ended : (lineStart false 0 front).2.2 = []
  · refine shown_line outside ?_ ?_ fun layout p q => ?_
    all_goals rw [lineStart_append_of_end ended, lineStart_append_of_end ended]
    all_goals rw [lineStart_blankLine blank]
    exact tokensFrom_anywhere _ _ _ _
  · refine shown_line outside ?_ ?_ fun layout p q => ?_
    all_goals rw [lineStart_append_of_rest ended, lineStart_append_of_rest ended]
    · cases (lineStart false 0 front).2.2 <;> rfl
    · exact further ended layout p q

/-- The same tokens, with a blank line behind a line break and without it. -/
theorem tokensFrom_blankLine (blank : BlankLine line) (closed : leavesOpen front = false) :
    shown (tokensFrom layout p (front ++ '\n' :: (line ++ after))) =
      shown (tokensFrom layout q (front ++ '\n' :: after)) := by
  -- Both runs take the same steps over `front`, so the induction is on what is left of it; what it
  -- leaves open is not changed by a step.
  induction size : front.length using Nat.strongRecOn generalizing layout p q front with
  | ind n ih =>
    subst size
    cases front with
    | nil =>
      rw [List.nil_append, List.nil_append]
      by_cases inside : 0 < layout.depth
      · rw [tokensFrom_wrapped inside, tokensFrom_wrapped inside]
        exact tokensFrom_blankLine_inside blank inside
      · refine shown_line (by omega) ?_ ?_ fun layout p q => ?_
        all_goals rw [lineStart_blankLine blank]
        exact tokensFrom_anywhere _ _ _ _
    | cons c front =>
      rw [List.cons_append, List.cons_append]
      by_cases breaks : c = '\n'
      · subst breaks
        rw [leavesOpen_plain (by decide)] at closed
        by_cases inside : 0 < layout.depth
        · rw [tokensFrom_wrapped inside, tokensFrom_wrapped inside]
          exact ih _ (Nat.lt_succ_self _) closed rfl
        · refine shown_line_blankLine (by omega) blank fun _ layout p q => ?_
          have left : leavesOpen (lineStart false 0 front).2.2 = leavesOpen front :=
            leavesOpen_lineStart
          have shorter := congrArg List.length (lineStart_append false 0 front)
          rw [List.length_append] at shorter
          exact ih _ (by rw [List.length_cons]; omega) (left.trans closed) rfl
      · cases gap : gap? (c :: front) with
        | some found =>
          obtain ⟨source, rest⟩ := found
          have longer : ∀ ys, gap? (c :: (front ++ '\n' :: ys)) = some (source, rest ++ '\n' :: ys) :=
            fun ys => gap?_append_of_some gap (.inl rfl)
          rw [leavesOpen_gap gap] at closed
          rw [tokensFrom_gap breaks (longer _), tokensFrom_gap breaks (longer _)]
          exact ih _ (gap_shorter gap) closed rfl
        | none =>
          have noGap : ∀ ys, gap? (c :: (front ++ '\n' :: ys)) = none :=
            fun ys => gap?_append_of_closed gap closed
          cases scanned : scan layout.depth c front with
          | error e =>
            have failed : ∀ ys, scan layout.depth c (front ++ '\n' :: ys) = .error e :=
              fun ys => scan_append_of_error scanned closed
            exact shown_error breaks (noGap _) (noGap _) (failed _) (failed _)
          | ok s =>
            have longer : ∀ ys, scan layout.depth c (front ++ '\n' :: ys) =
                .ok (s.before ('\n' :: ys)) :=
              fun ys => scan_append_of_ok separator_newline scanned
            rw [leavesOpen_scan scanned] at closed
            exact shown_token breaks (noGap _) (noGap _) (longer _) (longer _) rfl
              fun layout p q => ih _ (scan_shorter scanned) closed rfl

end ConceptForest.Script
