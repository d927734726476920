import ConceptForest.Proofs.Script.Scanning

/-!
Separators: characters that nothing reaches over.

What is scanned in front of a separator is scanned the same way whatever stands behind the
separator, and also where nothing stands there. Line breaks, blanks and closing brackets are
separators.

* `scan_append_of_strings`, `scan_append_of_ok` — a token in front of a separator.
* `gap?_append_of_some`, `lineStart_append_of_rest` — gaps and line starts.
-/

namespace ConceptForest.Script

open ConceptForest.Text

/-- Nothing that is scanned reaches over the character. -/
structure Separator (d : Char) : Prop where
  quote : d ≠ '\'' ∧ d ≠ '"'
  name : isNamePart d = false
  number : isNumberPart d = false
  sign : d ≠ '+' ∧ d ≠ '-'
  operator : ∀ op ∈ longOperators, d ∉ op.toList

theorem separator_newline : Separator '\n' := by
  constructor <;> decide

variable {c d quote : Char} {cs ys mark lead body rest : List Char} {triple sign : Bool}
  {depth : Nat} {s : Scan}

/-- The token is followed by more. -/
def Scan.before (s : Scan) (ys : List Char) : Scan :=
  { s with rest := s.rest ++ ys }

/-! ### Marks -/

theorem isPrefixOf?_cons {m : Char} :
    (m :: mark).isPrefixOf? (c :: cs) = if m == c then mark.isPrefixOf? cs else none :=
  rfl

theorem isPrefixOf?_append (apart : d ∉ mark) :
    mark.isPrefixOf? (cs ++ d :: ys) = (mark.isPrefixOf? cs).map (· ++ d :: ys) := by
  induction mark generalizing cs with
  | nil => rfl
  | cons m mark ih =>
    obtain ⟨other, apart⟩ := List.ne_and_not_mem_of_not_mem_cons apart
    cases cs with
    | nil =>
      rw [List.nil_append, isPrefixOf?_cons, if_neg (by simpa using other.symm)]
      rfl
    | cons c cs =>
      simp only [List.cons_append, isPrefixOf?_cons]
      split
      · exact ih apart
      · rfl

theorem isPrefixOf_append (apart : d ∉ mark) :
    mark.isPrefixOf (cs ++ d :: ys) = mark.isPrefixOf cs := by
  induction mark generalizing cs with
  | nil => simp
  | cons m mark ih =>
    obtain ⟨other, apart⟩ := List.ne_and_not_mem_of_not_mem_cons apart
    cases cs with
    | nil => simp [List.isPrefixOf, other.symm]
    | cons c cs => simp [List.isPrefixOf, ih apart]

/-- The body of a string. -/
theorem stringBody_append_of_some (apart : d ∉ quote :: mark) (plain : quote ≠ '\\')
    (found : stringBody (quote :: mark) triple cs = some (body, rest)) :
    stringBody (quote :: mark) triple (cs ++ d :: ys) = some (body, rest ++ d :: ys) := by
  fun_induction stringBody (quote :: mark) triple cs generalizing body with
  | case1 => cases found
  | case2 c cs ih =>
    obtain ⟨⟨inner, rest'⟩, within, same⟩ := Option.map_eq_some_iff.mp found
    obtain ⟨rfl, rfl⟩ := Prod.mk.inj same
    simp [stringBody, ih within]
  | case3 c cs other rest' starts =>
    obtain ⟨rfl, rfl⟩ := Prod.mk.inj (Option.some.inj found)
    have here : c ≠ '\\' := by
      rintro rfl
      simp [isPrefixOf?_cons, plain] at starts
    have starts : (quote :: mark).isPrefixOf? (c :: cs ++ d :: ys) = some (rest' ++ d :: ys) := by
      rw [isPrefixOf?_append apart, starts]
      rfl
    rw [List.cons_append, stringBody.eq_3 _ _ _ _ fun _ _ same _ => here same]
    rw [← List.cons_append, starts]
  | case4 => cases found
  | case5 c cs other none inLine ih =>
    obtain ⟨⟨inner, rest'⟩, within, same⟩ := Option.map_eq_some_iff.mp found
    obtain ⟨rfl, rfl⟩ := Prod.mk.inj same
    have here : c ≠ '\\' := by
      rintro rfl
      cases cs with
      | nil => cases within
      | cons c' cs => exact other c' cs rfl rfl
    have none : (quote :: mark).isPrefixOf? (c :: cs ++ d :: ys) = Option.none := by
      rw [isPrefixOf?_append apart, none]
      rfl
    rw [List.cons_append, stringBody.eq_3 _ _ _ _ fun _ _ same _ => here same]
    rw [← List.cons_append, none]
    simp [inLine, ih within]

variable (separator : Separator d)

include separator

theorem scanString_append_of_ok (quoted : quote = '\'' ∨ quote = '"')
    (read : scanString lead quote cs = .ok s) :
    scanString lead quote (cs ++ d :: ys) = .ok (s.before (d :: ys)) := by
  have apart : d ≠ quote := by
    rintro rfl
    exact quoted.elim separator.quote.1 separator.quote.2
  have plain : quote ≠ '\\' := by
    rintro rfl
    revert quoted
    decide
  have triple : [quote, quote].isPrefixOf (cs ++ d :: ys) = [quote, quote].isPrefixOf cs :=
    isPrefixOf_append (by simp [apart])
  cases starts : [quote, quote].isPrefixOf cs with
  | false =>
    rw [starts] at triple
    simp only [scanString, starts, triple, Bool.false_eq_true, if_false] at read ⊢
    cases found : stringBody [quote] false cs with
    | none => rw [found] at read; cases read
    | some found' =>
      rw [found] at read
      obtain ⟨⟩ := read
      have longer : stringBody [quote] false (cs ++ d :: ys) = _ :=
        stringBody_append_of_some (by simpa using apart) plain found
      rw [longer]
      rfl
  | true =>
    obtain ⟨rest, rfl⟩ := List.isPrefixOf_iff_prefix.mp starts
    rw [starts] at triple
    simp only [scanString, starts, triple, if_true] at read ⊢
    cases found : stringBody [quote, quote, quote] true rest with
    | none => simp [found] at read
    | some found' =>
      simp only [List.cons_append, List.nil_append, List.drop_succ_cons, List.drop_zero, found]
        at read ⊢
      obtain ⟨⟩ := read
      have longer : stringBody [quote, quote, quote] true (rest ++ d :: ys) = _ :=
        stringBody_append_of_some (by simpa using apart) plain found
      rw [longer]
      rfl

theorem numberSpan_append_separator :
    numberSpan sign (cs ++ d :: ys) =
      ((numberSpan sign cs).1, (numberSpan sign cs).2 ++ d :: ys) := by
  fun_induction numberSpan sign cs with
  | case1 sign => simp [numberSpan, separator.number, separator.sign]
  | case2 sign c cs part digits rest split ih => simp [numberSpan, part, ih, split]
  | case3 sign c cs other signed digits rest split ih => simp [numberSpan, other, signed, ih, split]
  | case4 sign c cs other unsigned => simp [numberSpan, other, unsigned]

omit separator in
/-- The longest operator in front of a separator. -/
theorem findOperator_append {ops : List String} (apart : ∀ op ∈ ops, d ∉ op.toList) :
    (ops.findSome? fun op => (op.toList.isPrefixOf? (cs ++ d :: ys)).map (op, ·)) =
      (ops.findSome? fun op => (op.toList.isPrefixOf? cs).map (op, ·)).map
        fun found => (found.1, found.2 ++ d :: ys) := by
  induction ops with
  | nil => rfl
  | cons op ops ih =>
    obtain ⟨first, others⟩ := List.forall_mem_cons.mp apart
    rw [List.findSome?_cons, List.findSome?_cons, isPrefixOf?_append first]
    cases op.toList.isPrefixOf? cs with
    | none => exact ih others
    | some rest => rfl

theorem scanOperator_append_separator :
    scanOperator depth c (cs ++ d :: ys) = (scanOperator depth c cs).map (·.before (d :: ys)) := by
  unfold scanOperator
  rw [← List.cons_append, findOperator_append separator.operator]
  cases longOperators.findSome? fun op => (op.toList.isPrefixOf? (c :: cs)).map (op, ·) with
  | some operator => rfl
  | none =>
    dsimp only [Option.map_none]
    split
    · rfl
    · split <;> rfl

omit separator in
/-- A run of characters in front of one that does not belong to it. -/
theorem takeWhile_append_cons {p : Char → Bool} (other : p d = false) :
    (cs ++ d :: ys).takeWhile p = cs.takeWhile p ∧
      (cs ++ d :: ys).dropWhile p = cs.dropWhile p ++ d :: ys := by
  induction cs with
  | nil => simp [other]
  | cons c cs ih =>
    simp only [List.cons_append, List.takeWhile_cons, List.dropWhile_cons]
    split
    · exact ⟨congrArg _ ih.1, ih.2⟩
    · exact ⟨rfl, rfl⟩

/-- The string that is scanned at the start of the text, if there is one, is the same in front of
more. -/
def KeepsString (depth : Nat) (c : Char) (cs more : List Char) : Prop :=
  ∀ lead quote rest, (quote = '\'' ∨ quote = '"') → (∀ l ∈ lead, isNamePart l = true) →
    lead ++ quote :: rest = c :: cs → scan depth c cs = scanString lead quote rest →
      scanString lead quote (rest ++ more) = (scanString lead quote rest).map (·.before more)

/-- A name, or a string with letters in front of its mark. -/
theorem scan_append_of_word (strings : KeepsString depth c cs (d :: ys))
    (starts : isNameStart c = true) :
    scan depth c (cs ++ d :: ys) = (scan depth c cs).map (·.before (d :: ys)) := by
  obtain ⟨name, behind⟩ : (cs ++ d :: ys).takeWhile isNamePart = _ ∧
      (cs ++ d :: ys).dropWhile isNamePart = _ := takeWhile_append_cons separator.name
  by_cases lead : ∃ q rest, cs.dropWhile isNamePart = q :: rest ∧ (q = '\'' ∨ q = '"') ∧
      isStringLead (c :: cs.takeWhile isNamePart) = true
  · obtain ⟨q, rest, ended, quoted, lead⟩ := lead
    have parts : ∀ l ∈ c :: cs.takeWhile isNamePart, isNamePart l = true :=
      List.forall_mem_cons.mpr
        ⟨isNamePart_of_isNameStart starts, fun l here => List.mem_takeWhile_imp here⟩
    have written : c :: cs.takeWhile isNamePart ++ q :: rest = c :: cs := by
      rw [← ended, List.cons_append, List.takeWhile_append_dropWhile]
    have alone : scan depth c cs = _ := scan_of_lead starts ended quoted lead
    have longer : scan depth c (cs ++ d :: ys) = _ :=
      scan_of_lead starts (by rw [behind, ended, List.cons_append]) quoted (by rwa [name])
    rw [longer, name, strings _ q rest quoted parts written alone, alone]
  · have noLead : ∀ q rest, cs.dropWhile isNamePart = q :: rest → (q = '\'' ∨ q = '"') →
        isStringLead (c :: cs.takeWhile isNamePart) = false := fun q rest ended quoted =>
      Bool.eq_false_iff.mpr fun some => lead ⟨q, rest, ended, quoted, some⟩
    -- A separator is no quotation mark, so no string begins with it where the name ends the text.
    have noLead' : ∀ q rest, (cs ++ d :: ys).dropWhile isNamePart = q :: rest →
        (q = '\'' ∨ q = '"') →
        isStringLead (c :: (cs ++ d :: ys).takeWhile isNamePart) = false := by
      intro q rest ended quoted
      rw [name]
      rw [behind] at ended
      cases dropped : cs.dropWhile isNamePart with
      | nil =>
        rw [dropped] at ended
        obtain ⟨rfl, -⟩ := List.cons.inj ended
        exact (quoted.elim separator.quote.1 separator.quote.2).elim
      | cons q' rest' =>
        rw [dropped] at ended
        obtain ⟨rfl, -⟩ := List.cons.inj ended
        exact noLead _ rest' dropped quoted
    rw [scan_of_noLead starts noLead, scan_of_noLead starts noLead', name, behind]
    rfl

/-- What is scanned in front of a separator is the same whatever stands behind it, if that holds of
the string that is scanned there. -/
theorem scan_append_of_strings (strings : KeepsString depth c cs (d :: ys)) :
    scan depth c (cs ++ d :: ys) = (scan depth c cs).map (·.before (d :: ys)) := by
  by_cases starts : isNameStart c = true
  · exact scan_append_of_word separator strings starts
  by_cases quoted : (c == '\'' || c == '"') = true
  · have read : ∀ cs, scan depth c cs = scanString [] c cs := fun cs => by rw [scan, if_pos quoted]
    rw [read, read]
    exact strings [] c cs (by simpa using quoted) (List.forall_mem_nil _) rfl (read cs)
  have head : (cs ++ d :: ys).head?.any Char.isDigit = cs.head?.any Char.isDigit := by
    cases cs with
    | cons => rfl
    | nil =>
      have noDigit : d.isDigit = false := Bool.eq_false_iff.mpr fun digit => by
        cases separator.number.symm.trans (isNumberPart_of_isDigit digit)
      simpa using noDigit
  rw [scan, scan, if_neg quoted, if_neg quoted, head]
  split
  · rw [numberSpan_append_separator separator]
    rfl
  · exact scanOperator_append_separator separator

/-- The token in front of a separator is the same whatever stands behind it. -/
theorem scan_append_of_ok (read : scan depth c cs = .ok s) :
    scan depth c (cs ++ d :: ys) = .ok (s.before (d :: ys)) := by
  have strings : KeepsString depth c cs (d :: ys) := by
    intro lead quote rest quoted _ _ same
    have found := same.symm.trans read
    rw [scanString_append_of_ok separator quoted found, found]
    rfl
  rw [scan_append_of_strings separator strings, read]
  rfl

/-! ### Gaps -/

omit separator

theorem gap?_cons (noBreak : c ≠ '\\') (noComment : c ≠ '#') :
    gap? (c :: cs) = if isLineBlank c then some ([c], cs) else none := by
  unfold gap?
  split
  · next same => exact absurd (List.cons.inj same).1 noBreak
  · next same => exact absurd (List.cons.inj same).1 noBreak
  · next same => exact absurd (List.cons.inj same).1 noComment
  · next same => obtain ⟨rfl, rfl⟩ := List.cons.inj same; rfl
  · next same => cases same

/-- A gap in front of more, unless it is a comment that goes on with it. -/
theorem gap?_append_of_some {source : List Char} (found : gap? cs = some (source, rest))
    (ends : d = '\n' ∨ '#' ∉ cs) : gap? (cs ++ d :: ys) = some (source, rest ++ d :: ys) := by
  unfold gap? at found
  split at found
  · obtain ⟨⟩ := found
    rfl
  · obtain ⟨⟩ := found
    rfl
  · next cs =>
    obtain ⟨⟩ := found
    obtain rfl := ends.resolve_right (by simp)
    obtain ⟨comment, behind⟩ : (cs ++ '\n' :: ys).takeWhile (· != '\n') = cs.takeWhile (· != '\n') ∧
        (cs ++ '\n' :: ys).dropWhile (· != '\n') = cs.dropWhile (· != '\n') ++ '\n' :: ys :=
      takeWhile_append_cons (by decide)
    simp only [List.cons_append, gap?, comment, behind]
  · next c cs _ _ noComment =>
    split at found
    · next blank =>
      obtain ⟨⟩ := found
      have noBreak : c ≠ '\\' := by rintro rfl; cases blank
      have noComment : c ≠ '#' := by rintro rfl; cases blank
      rw [List.cons_append, gap?_cons noBreak noComment, if_pos blank]
    · cases found
  · cases found

theorem scan_backslash (depth : Nat) (cs : List Char) :
    scan depth '\\' cs = .error ⟨[], .invalidCharacter '\\'⟩ := by
  have none : (longOperators.findSome? fun op =>
      (op.toList.isPrefixOf? ('\\' :: cs)).map (op, ·)) = none := rfl
  have letter : isNameStart '\\' = false := by decide
  simp only [scan, scanOperator, none, letter]
  rfl

/-- Where a token begins, one begins also in front of more. -/
theorem gap?_append_of_none (noGap : gap? (c :: cs) = none) (read : scan depth c cs = .ok s) :
    gap? (c :: cs ++ ys) = none := by
  have noBreak : c ≠ '\\' := by
    rintro rfl
    cases (scan_backslash depth cs).symm.trans read
  have noComment : c ≠ '#' := by
    rintro rfl
    cases noGap
  rw [gap?_cons noBreak noComment] at noGap
  rw [List.cons_append, gap?_cons noBreak noComment]
  split at noGap
  · cases noGap
  · next noBlank => rw [if_neg noBlank]

/-! ### Line starts -/

variable {comment : Bool} {width : Nat}

/-- A line that begins with something to read. -/
theorem lineStart_of_content (inLine : c ≠ '\n') (noComment : c ≠ '#')
    (noBlank : isLineBlank c = false) : lineStart false width (c :: cs) = (width, [], c :: cs) := by
  simp [lineStart, inLine, noComment, noBlank]

/-- A line that begins in a text begins the same way in a longer one. -/
theorem lineStart_append_of_rest (line : (lineStart comment width cs).2.2 ≠ []) :
    lineStart comment width (cs ++ ys) =
      ((lineStart comment width cs).1, (lineStart comment width cs).2.1,
        (lineStart comment width cs).2.2 ++ ys) := by
  fun_induction lineStart comment width cs with
  | case1 => exact absurd rfl line
  | case2 comment width c cs ends w source rest start ih =>
    rw [start] at ih
    simp [lineStart, ends, ih line]
  | case3 comment width c cs inLine passed w source rest start ih =>
    rw [start] at ih
    simp [lineStart, inLine, passed, ih line]
  | case4 comment width c cs inLine content blank w source rest start ih =>
    rw [start] at ih
    simp [lineStart, inLine, content, blank, ih line]
  | case5 comment width c cs inLine content noBlank => simp [lineStart, inLine, content, noBlank]

/-- Blank lines at the end of a text are passed over. -/
theorem lineStart_append_of_end (ended : (lineStart comment width cs).2.2 = []) :
    lineStart comment width (cs ++ '\n' :: ys) =
      ((lineStart false 0 ys).1, cs ++ '\n' :: (lineStart false 0 ys).2.1,
        (lineStart false 0 ys).2.2) := by
  fun_induction lineStart comment width cs with
  | case1 => simp [lineStart]
  | case2 comment width c cs ends w source rest start ih =>
    rw [start] at ih
    simp [lineStart, ends, ih ended]
  | case3 comment width c cs inLine passed w source rest start ih =>
    rw [start] at ih
    simp [lineStart, inLine, passed, ih ended]
  | case4 comment width c cs inLine content blank w source rest start ih =>
    rw [start] at ih
    simp [lineStart, inLine, content, blank, ih ended]
  | case5 => cases ended

end ConceptForest.Script
