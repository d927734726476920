import ConceptForest.Proofs.Script.FreeNames
import ConceptForest.Proofs.Script.Parenthesized

/-!
Replacement fields and parentheses.

The expression in a field of a formatted string is read as a snippet of its own, outside of all
brackets. Where it makes up one logical line, it means what it means in parentheses. Where it does
not, only its first line is read: a field is complete if its expression ends at the end of a line,
and nobody looks behind that.

* `replacementFields_of_bare` — the source of a single field.
* `freeNames_field` — the names of a field that is one line.
* `freeNames_field_broken` — of two lines, the second one is skipped.
-/

namespace ConceptForest.Script

open Reader
open ConceptForest.Text

variable {c : Char} {cs e : List Char} {ts us : List Token} {level : Level}
  {fields : List String} {es : List Expr} {p : Position} {statements : List Stmt}
  {source : String}

/-! ### The source of a field -/

/-- The expression of a field does not end where no mark stands. -/
theorem fieldExpression_append_of_bare (bare : ∀ c ∈ cs, c ∉ fieldMarks) (depth : Nat)
    (rest : List Char) :
    fieldExpression depth none (cs ++ rest) =
      (cs ++ (fieldExpression (cs.foldl bracketDepth depth) none rest).1,
        (fieldExpression (cs.foldl bracketDepth depth) none rest).2) := by
  induction cs generalizing depth with
  | nil => rfl
  | cons c cs ih =>
    obtain ⟨mark, bare⟩ := List.forall_mem_cons.mp bare
    simp only [fieldMarks, List.mem_cons, not_or] at mark
    have further : endsFieldExpression c (cs ++ rest) = false := by
      simp [endsFieldExpression, mark]
    rw [List.cons_append, fieldExpression]
    simp [further, mark, ih bare]

theorem ne_nil_of_trim (content : isBlank c = false) (here : c ∈ cs) : trim cs ≠ [] := by
  intro nothing
  obtain ⟨front, back, whole, blank, blank'⟩ := trim_parts cs
  rw [nothing, List.nil_append] at whole
  rw [← whole] at here
  rcases List.mem_append.mp here with here | here
  · cases content.symm.trans (blank c here)
  · cases content.symm.trans (blank' c here)

/-- A string of one field has that field, with the closing brace if brackets are left open, and none
if there are only blanks. -/
theorem replacementFields_of_bare (bare : ∀ c ∈ e, c ∉ fieldMarks) : ∃ tail,
    (tail = [] ∨ tail = ['\x7d']) ∧ replacementFields ('\x7b' :: (e ++ ['\x7d'])) =
      if (trim (e ++ tail)).isEmpty then [] else [trim (e ++ tail)] := by
  have single : ∀ cs, e ++ ['\x7d'] = '\x7b' :: cs → False := by
    intro cs same
    cases e with
    | nil => cases same
    | cons c e =>
      obtain ⟨rfl, -⟩ := List.cons.inj same
      exact bare _ List.mem_cons_self (by decide)
  rw [replacementFields.eq_3 _ single, fieldExpression_append_of_bare bare]
  by_cases closed : e.foldl bracketDepth 0 = 0
  · refine ⟨[], .inl rfl, ?_⟩
    have ended : fieldExpression 0 none ['\x7d'] = ([], ['\x7d']) := rfl
    have format : fieldFormat 0 ['\x7d'] = ([], ['\x7d']) := rfl
    simp [closed, ended, format, replacementFields]
  · refine ⟨['\x7d'], .inr rfl, ?_⟩
    have ended : fieldExpression (e.foldl bracketDepth 0) none ['\x7d'] = (['\x7d'], []) := by
      simp [fieldExpression, closed]
    have format : fieldFormat 0 [] = ([], []) := rfl
    simp [ended, format, replacementFields]

/-! ### The string around it -/

/-- The text of a formatted string with a single field. -/
def formatted (e : List Char) : List Char :=
  'f' :: '"' :: '"' :: '"' :: '\x7b' :: (e ++ ['\x7d', '"', '"', '"'])

theorem stringBody_of_bare (bare : ∀ c ∈ cs, c ≠ '"' ∧ c ≠ '\\') :
    stringBody ['"', '"', '"'] true (cs ++ ['"', '"', '"']) = some (cs, []) := by
  induction cs with
  | nil => rfl
  | cons c cs ih =>
    obtain ⟨⟨noQuote, noSlash⟩, bare⟩ := List.forall_mem_cons.mp bare
    have inside : ['"', '"', '"'].isPrefixOf? (c :: (cs ++ ['"', '"', '"'])) = none := by
      rw [isPrefixOf?_cons, if_neg (by simpa using noQuote.symm)]
    rw [List.cons_append, stringBody.eq_3 _ _ _ _ fun _ _ same _ => noSlash same, inside]
    simp [ih bare]

theorem tokens_formatted (bare : ∀ c ∈ e, c ∉ fieldMarks) : ∃ ts,
    tokens (String.ofList (formatted e)) = .ok ts ∧ ts.map Token.lexeme =
      [.string ((replacementFields ('\x7b' :: (e ++ ['\x7d']))).map String.ofList),
        .newline, .endOfInput] := by
  have body : stringBody ['"', '"', '"'] true ('\x7b' :: (e ++ ['\x7d', '"', '"', '"'])) =
      some ('\x7b' :: (e ++ ['\x7d']), []) := by
    have inside : ∀ c ∈ '\x7b' :: (e ++ ['\x7d']), c ≠ '"' ∧ c ≠ '\\' := by
      refine List.forall_mem_cons.mpr ⟨by decide, List.forall_mem_append.mpr ⟨fun c here => ?_, ?_⟩⟩
      · obtain ⟨-, double, slash, -⟩ := plain_of_bare (bare c here)
        exact ⟨double, slash⟩
      · simp
    simpa using stringBody_of_bare inside
  have read : scanString ['f'] '"' ('"' :: '"' :: '\x7b' :: (e ++ ['\x7d', '"', '"', '"'])) =
      .ok ⟨['f'], .string ((replacementFields ('\x7b' :: (e ++ ['\x7d']))).map String.ofList),
        ['"', '"', '"'] ++ ('\x7b' :: (e ++ ['\x7d'])) ++ ['"', '"', '"'], []⟩ := by
    have triple : ['"', '"'].isPrefixOf ('"' :: '"' :: '\x7b' :: (e ++ ['\x7d', '"', '"', '"'])) =
        true := rfl
    have lead : (['f'].any fun c => c == 'f' || c == 'F') = true := rfl
    rw [scanString]
    dsimp only
    rw [triple, if_pos rfl, if_pos rfl, List.drop_succ_cons, List.drop_succ_cons, List.drop_zero,
      body]
    dsimp only
    rw [lead, if_pos rfl]
  have scanned : scan 0 'f' ('"' :: '"' :: '"' :: '\x7b' :: (e ++ ['\x7d', '"', '"', '"'])) = _ :=
    read
  rw [formatted, tokens_begun (by simp [isBlank]), tokensFrom_token (by decide) rfl scanned, tokensFrom]
  exact ⟨_, rfl, rfl⟩

/-! ### The values of fields -/

/-- A formatted string that stands alone is an operation on the values of its fields. -/
theorem plainAtom_string (values : fields.mapM (fieldValue level p) = .ok es)
    (ended : headLexeme us = .newline) :
    plainAtom level (⟨.string fields, p⟩ :: us) = .ok (.operation es, us) := by
  have first : stringFields? level p (⟨.string fields, p⟩ :: us) = .ok (some es, us) := by
    have read : (do return some (← (fields.mapM (fieldValue level p) : Except SyntaxError _)) :
        Reader (Option (List Expr))) us = .ok (some es, us) := by
      rw [values]
      rfl
    exact read
  have last : stringFields? level p us = .ok (none, us) := by
    rw [stringFields?, run_bind_of_ok (rfl : peek us = .ok (headLexeme us, us)), ended]
    rfl
  have all : many (stringFields? level p) (⟨.string fields, p⟩ :: us) = .ok ([es], us) := by
    rw [many, first]
    dsimp only
    rw [if_pos (by simp), many_of_none last]
  have whole : (do return Expr.operation (← many (stringFields? level p)).flatten : Reader Expr)
      (⟨.string fields, p⟩ :: us) = .ok (.operation es, us) := by
    rw [run_bind_of_ok all]
    simp
    rfl
  exact whole

/-- It is refused if one of its fields is. -/
theorem plainAtom_refuses_string {err : SyntaxError}
    (failed : fields.mapM (fieldValue level p) = .error err) :
    Refuses (plainAtom level) (.string fields) := by
  refine .position fun q => .peek ?_
  have first : Refuses (stringFields? level q) (.string fields) := by
    refine .peek fun ts head => ?_
    have same : (fields.mapM (fieldValue level p)).mapError SyntaxError.fault = _ :=
      fieldValues_anywhere p q fields
    rw [failed] at same
    cases values : fields.mapM (fieldValue level q) with
    | ok es => rw [values] at same; cases same
    | error e => exact ⟨e, by simp only [values]; rfl⟩
  have all : Refuses (many (stringFields? level q)) (.string fields) := by
    intro ts head
    obtain ⟨e, failed⟩ := first ts head
    exact ⟨e, by rw [many, failed]⟩
  exact all.bind

/-! ### Snippets of one expression -/

/-- A formatted string that is accepted is one whose field is. -/
theorem parse_formatted (bare : ∀ c ∈ e, c ∉ fieldMarks)
    (parsed : Stmt.parse (String.ofList (formatted e)) = .ok statements) : ∃ p es,
      ((replacementFields ('\x7b' :: (e ++ ['\x7d']))).map String.ofList).mapM
          (fieldValue (.over (nested 98)) p) = .ok es ∧
        statements = [.read (.operation es)] := by
  obtain ⟨_, lexed, written⟩ := tokens_formatted bare
  obtain ⟨p, us, rfl, ended⟩ := cons_of_lexemes written
  have line : headLexeme us = .newline := headLexeme_of_lexemes ended
  refine ⟨p, ?_⟩
  cases values : ((replacementFields ('\x7b' :: (e ++ ['\x7d']))).map String.ofList).mapM
      (fieldValue (.over (nested 98)) p) with
  | error err =>
    have refuses : Refuses (Suite.withRoom maxNesting).level.test (.string _) :=
      conditional_refuses rfl (plainAtom_refuses_string values)
    obtain ⟨_, failed⟩ := parse_fails lexed rfl refuses
    cases parsed.symm.trans failed
  | ok es =>
    have test : (Suite.withRoom maxNesting).level.test (⟨.string _, p⟩ :: us) =
        .ok (.operation es, us) :=
      test_alone 98 rfl (by rw [line]; rfl) (plainAtom_string values line)
    rw [parse_alone lexed rfl test ended] at parsed
    split at parsed
    · exact ⟨es, rfl, (Except.ok.inj parsed).symm⟩
    · cases parsed

/-- A snippet in parentheses is the expression between them. -/
theorem parse_parenthesized {rest : List Token} {value : Expr}
    (lexed : tokens source = .ok (⟨.op "(", p⟩ :: us))
    (read : parenthesized (.over (nested 98)) us = .ok (value, rest))
    (ended : rest.map Token.lexeme = [.newline, .endOfInput])
    (parsed : Stmt.parse source = .ok statements) : statements = [.read value] := by
  have line : headLexeme rest = .newline := headLexeme_of_lexemes ended
  have test : (Suite.withRoom maxNesting).level.test (⟨.op "(", p⟩ :: us) = .ok (value, rest) :=
    test_alone 98 rfl (by rw [line]; rfl) (plainAtom_parenthesis.trans read)
  rw [parse_alone lexed rfl test ended] at parsed
  split at parsed
  · exact (Except.ok.inj parsed).symm
  · cases parsed

theorem balanced_of_tokens (lexed : tokens (String.ofList cs) = .ok ts)
    (plain : ∀ c ∈ cs, Plain c) : netBrackets cs = 0 := by
  have scans := tokens_eq_ok_iff.mp lexed
  rw [String.toList_ofList] at scans
  have balanced := scans.balanced (List.forall_mem_cons.mpr ⟨by decide, plain⟩)
  simpa [netBrackets, bracketStep] using balanced

/-- The field of an accepted string is read as a text of its own. -/
theorem fieldValue_eq_ok_iff {field : String} {value : Expr} :
    fieldValue level p field = .ok value ↔ ∃ ts rest, tokens field = .ok ts ∧
      testList level ts = .ok (value, rest) ∧
        (headLexeme rest = .newline ∨ headLexeme rest = .endOfInput) := by
  unfold fieldValue
  constructor
  · intro read
    split at read
    · cases read
    · next ts lexed =>
      split at read
      · cases read
      · next value' rest one =>
        obtain ⟨ended, rfl⟩ := grant_eq_ok_iff.mp read
        refine ⟨ts, rest, lexed, one, ?_⟩
        split at ended <;> simp_all
  · rintro ⟨ts, rest, lexed, read, ended⟩
    rw [lexed]
    dsimp only
    rw [read]
    rcases ended with ended | ended <;> simp [ended]

/-! ### A field and parentheses -/

/-- What is read from a field that is one line is what stands between the parentheses. -/
theorem parse_enclosed {value : Expr} (bare : ∀ c ∈ e, c ∉ fieldMarks)
    (joined : breaksLine 0 (trim e) = false)
    (field : fieldValue (.over (nested 98)) p (String.ofList (trim e)) = .ok value)
    (parsed : Stmt.parse (String.ofList ('(' :: (e ++ [')']))) = .ok statements) :
    statements = [.read value] := by
  obtain ⟨us, lexed', -⟩ := bind_eq_ok_iff.mp parsed
  obtain ⟨ts, rest, lexed, read, ended⟩ := fieldValue_eq_ok_iff.mp field
  obtain ⟨line, content, written, written'⟩ := tokens_enclosed bare joined lexed lexed'
  obtain ⟨q, us, rfl, within⟩ := cons_of_lexemes written'
  have opens := opensExpression_of_testList read
  have filled : line.isEmpty = false := by
    cases line with
    | nil =>
      rw [headLexeme_of_lexemes written] at opens
      cases opens
    | cons => rfl
  rw [filled] at written
  have paired : Closing ts us := ⟨line, fun l here => (content l here).1, written, within⟩
  have opens' : (headLexeme us).opensExpression = true := by
    rcases paired.step with ⟨atEnd, -⟩ | ⟨-, same, -⟩
    · rw [atEnd] at opens
      cases opens
    · rwa [same]
  have bindless : Bindless us := by
    intro t here
    have among : t.lexeme ∈ line ++ [.op ")", .newline, .endOfInput] :=
      within ▸ List.mem_map_of_mem here
    rcases List.mem_append.mp among with inLine | behind
    · exact (content _ inLine).2
    · rintro same
      rw [same] at behind
      simp at behind
  have tracks : Level.Tracks False Closing (.over (nested 98)) (.over (nested 98)) :=
    .withRoom parallel_closing 98
  obtain ⟨rest', read', paired'⟩ :=
    (testList_tracks parallel_closing tracks ts us paired).1 value rest read
  have closing : rest'.map Token.lexeme = [.op ")", .newline, .endOfInput] := by
    rcases paired'.step with ⟨-, closing⟩ | ⟨more, -⟩
    · exact closing
    · rcases ended with ended | ended <;> rw [ended] at more <;> cases more
  have sound : (Level.over (nested 98)).Fits _ := .withRoom 98
  refine parse_parenthesized lexed'
    (parenthesized_of_testList sound bindless opens' (headLexeme_of_lexemes closing) read') ?_ parsed
  rw [List.map_drop, closing]
  rfl

theorem parse_enclosed_blank (bare : ∀ c ∈ e, c ∉ fieldMarks) (blank : trim e = [])
    (parsed : Stmt.parse (String.ofList ('(' :: (e ++ [')']))) = .ok statements) :
    statements = [.read (.tuple [])] := by
  obtain ⟨us, lexed', -⟩ := bind_eq_ok_iff.mp parsed
  have lexed : tokens (String.ofList (trim e)) = .ok [⟨.endOfInput, .start⟩] := by
    rw [blank, tokens_begun (by simp), tokensFrom]
    rfl
  obtain ⟨line, -, written, written'⟩ := tokens_enclosed bare (by rw [blank]; rfl) lexed lexed'
  obtain rfl : line = [] := by
    have length := congrArg List.length written
    simp only [List.length_map, List.length_append, List.length_cons, List.length_nil] at length
    exact List.eq_nil_of_length_eq_zero (by omega)
  obtain ⟨q, us, rfl, within⟩ := cons_of_lexemes written'
  have read : parenthesized (.over (nested 98)) us = .ok (.tuple [], us.drop 1) := by
    rw [parenthesized, run_bind_of_ok (eatOp_of_head (headLexeme_of_lexemes within))]
    rfl
  refine parse_parenthesized lexed' read ?_ parsed
  rw [List.map_drop, within]
  rfl

/-- Parentheses that are balanced leave no field open. -/
theorem field_closed (bare : ∀ c ∈ e, c ∉ fieldMarks)
    (lexed : tokens (String.ofList ('(' :: (e ++ [')']))) = .ok us) :
    tokens (String.ofList (trim (e ++ ['\x7d']))) ≠ .ok ts := by
  intro lexed'
  have plain : ∀ c ∈ e, Plain c := fun c here => plain_of_bare (bare c here)
  have within : ∀ c ∈ trim (e ++ ['\x7d']), Plain c := by
    obtain ⟨front, back, whole, -, -⟩ := trim_parts (e ++ ['\x7d'])
    intro c here
    have among : c ∈ e ++ ['\x7d'] := by
      rw [← whole]
      exact List.mem_append_right _ (List.mem_append_left _ here)
    rcases List.mem_append.mp among with inner | brace
    · exact plain c inner
    · obtain rfl := List.mem_singleton.mp brace
      decide
  have inner := balanced_of_tokens lexed (List.forall_mem_cons.mpr ⟨by decide,
    List.forall_mem_append.mpr ⟨plain, by simp [Plain]⟩⟩)
  have outer := balanced_of_tokens lexed' within
  rw [netBrackets_trim, netBrackets_append] at outer
  rw [netBrackets, netBrackets_append] at inner
  have opening : bracketStep '(' = 1 := rfl
  have closing : netBrackets [')'] = -1 := rfl
  have brace : netBrackets ['\x7d'] = -1 := rfl
  omega

/-- A field that is one line does to names what the same text in parentheses does. -/
theorem outline_field {statements' : List Stmt} (bare : ∀ c ∈ e, c ∉ fieldMarks)
    (joined : breaksLine 0 (trim e) = false)
    (parsed : Stmt.parse (String.ofList ('(' :: (e ++ [')']))) = .ok statements)
    (parsed' : Stmt.parse (String.ofList (formatted e)) = .ok statements') :
    outlineAll statements' = outlineAll statements := by
  obtain ⟨p, es, values, rfl⟩ := parse_formatted bare parsed'
  obtain ⟨us, lexed, -⟩ := bind_eq_ok_iff.mp parsed
  obtain ⟨tail, either, source⟩ := replacementFields_of_bare bare
  rw [source] at values
  have single : ∀ {field : List Char}, ([field].map String.ofList).mapM
      (fieldValue (.over (nested 98)) p) = .ok es →
        ∃ value, fieldValue (.over (nested 98)) p (String.ofList field) = .ok value ∧ es = [value] := by
    intro field values
    rw [List.map_singleton, List.mapM_cons] at values
    obtain ⟨value, one, others⟩ := bind_eq_ok_iff.mp values
    obtain ⟨⟩ := others
    exact ⟨value, one, rfl⟩
  rcases either with rfl | rfl
  · rw [List.append_nil] at values
    by_cases blank : trim e = []
    · rw [blank] at values
      obtain ⟨⟩ := values
      obtain rfl := parse_enclosed_blank bare blank parsed
      rfl
    · rw [if_neg (by simpa using blank)] at values
      obtain ⟨value, field, rfl⟩ := single values
      obtain rfl := parse_enclosed bare joined field parsed
      simp [outlineAll, Stmt.outline, Expr.reading, readingAll]
  · have content : isBlank '\x7d' = false := rfl
    have brace : trim (e ++ ['\x7d']) ≠ [] :=
      ne_nil_of_trim content (List.mem_append_right _ List.mem_cons_self)
    rw [if_neg (by simpa using brace)] at values
    obtain ⟨value, field, -⟩ := single values
    obtain ⟨ts, -, lexed', -⟩ := fieldValue_eq_ok_iff.mp field
    exact absurd lexed' (field_closed bare lexed)

/-- The free names of a field are those of the same text in parentheses, if it is one logical line:
every line break in it, blanks around it apart, stands inside of brackets. -/
theorem freeNames_field (analyzer : Analyzer) {e : String} {names fieldNames : List String}
    (bare : ∀ c ∈ e.toList, c ∉ fieldMarks) (joined : breaksLine 0 (trim e.toList) = false)
    (accepted : analyzer.freeNames ("(" ++ e ++ ")") = .ok names)
    (accepted' : analyzer.freeNames ("f\"\"\"\x7b" ++ e ++ "\x7d\"\"\"") = .ok fieldNames) :
    fieldNames = names := by
  have source : "(" ++ e ++ ")" = String.ofList ('(' :: (e.toList ++ [')'])) :=
    String.toList_inj.mp (by simp [String.toList_append])
  have source' : "f\"\"\"\x7b" ++ e ++ "\x7d\"\"\"" = String.ofList (formatted e.toList) :=
    String.toList_inj.mp (by simp [String.toList_append, formatted])
  obtain ⟨statements, parsed, rfl⟩ := freeNames_eq_ok_iff.mp accepted
  obtain ⟨statements', parsed', rfl⟩ := freeNames_eq_ok_iff.mp accepted'
  rw [source] at parsed
  rw [source'] at parsed'
  rw [outline_field bare joined parsed parsed']

/-- A call over two lines and a starred name, between line breaks. -/
theorem freeNames_field_call :
    (∀ c ∈ "\n f(a,\n  b), *c\n".toList, c ∉ fieldMarks) ∧
      breaksLine 0 (trim "\n f(a,\n  b), *c\n".toList) = false ∧
      (⟨pythonTag, true⟩ : Analyzer).freeNames ("(" ++ "\n f(a,\n  b), *c\n" ++ ")") =
        .ok ["f", "a", "b", "c"] ∧
      (⟨pythonTag, true⟩ : Analyzer).freeNames
        ("f\"\"\"\x7b" ++ "\n f(a,\n  b), *c\n" ++ "\x7d\"\"\"") = .ok ["f", "a", "b", "c"] := by
  have bare : ∀ c ∈ "\n f(a,\n  b), *c\n".toList, c ∉ fieldMarks := by simp [fieldMarks]
  have joined : breaksLine 0 (trim "\n f(a,\n  b), *c\n".toList) = false := by decide +kernel
  have accepted : (⟨pythonTag, true⟩ : Analyzer).freeNames ("(" ++ "\n f(a,\n  b), *c\n" ++ ")") =
      .ok ["f", "a", "b", "c"] := eq_ok_of_toOption (by decide +kernel)
  -- that the field is accepted is computed, and what is reported then is the theorem's
  have accepts : ((⟨pythonTag, true⟩ : Analyzer).freeNames
      ("f\"\"\"\x7b" ++ "\n f(a,\n  b), *c\n" ++ "\x7d\"\"\"")).toOption.isSome = true := by
    decide +kernel
  obtain ⟨fieldNames, some⟩ := Option.isSome_iff_exists.mp accepts
  have accepted' := eq_ok_of_toOption some
  rw [freeNames_field _ bare joined accepted accepted'] at accepted'
  exact ⟨bare, joined, accepted, accepted'⟩

/-- Behind a line break outside of brackets, the rest of a field is skipped. -/
theorem freeNames_field_broken :
    ¬ ∀ (analyzer : Analyzer) (e : String) (names fieldNames : List String),
      (∀ c ∈ e.toList, c ∉ fieldMarks) → analyzer.freeNames ("(" ++ e ++ ")") = .ok names →
      analyzer.freeNames ("f\"\"\"\x7b" ++ e ++ "\x7d\"\"\"") = .ok fieldNames →
        fieldNames = names := by
  intro same
  have bare : ∀ c ∈ "a,\nb".toList, c ∉ fieldMarks := by simp [fieldMarks]
  have accepted : (⟨pythonTag, true⟩ : Analyzer).freeNames ("(" ++ "a,\nb" ++ ")") =
      .ok ["a", "b"] := eq_ok_of_toOption (by decide +kernel)
  have accepted' : (⟨pythonTag, true⟩ : Analyzer).freeNames
      ("f\"\"\"\x7b" ++ "a,\nb" ++ "\x7d\"\"\"") = .ok ["a"] :=
    eq_ok_of_toOption (by decide +kernel)
  cases same _ _ _ _ bare accepted accepted'

end ConceptForest.Script
