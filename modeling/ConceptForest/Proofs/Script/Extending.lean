import ConceptForest.Proofs.Forest.Reaching
import ConceptForest.Proofs.Script.Alone
import ConceptForest.Proofs.Script.Appending
import ConceptForest.Proofs.Script.FreeNames
import ConceptForest.Proofs.Script.Parallel.Fronts

/-!
What a further line does to the free names.

A line behind a snippet that assigns to a name is read as one more statement of the module, whatever
the snippet ends with, and all it does is to bind the name there.

* `moduleItems_extended` — the statements of a snippet, and those that follow it.
* `freeNames_bind` — one more name that the module binds.
* `freeNames_assigning` — the name is free no more, and nothing else changes.
-/

namespace ConceptForest.Script

open Reader

variable {items : List Item} {frames : List Frame} {name : String} {inModule : List String}
  {ts us rest last tail : List Token}

/-! ### One more name that the module binds -/

theorem isFree_cons (read : String) : isFree (name :: inModule) frames read =
    (isFree inModule frames read && read != name) := by
  unfold isFree
  split
  · rfl
  · rw [List.contains_cons, Bool.not_or, Bool.and_comm, bne]
  · rw [List.contains_cons, Bool.not_or, Bool.and_comm, bne]

mutual

/-- What is read of the name is not free then, and every other read is what it was. -/
theorem Item.freeReads_cons (frames : List Frame) : (item : Item) →
    item.freeReads (name :: inModule) frames =
      (item.freeReads inModule frames).filter (· != name)
  | .read text => by
    rw [Item.freeReads, Item.freeReads, isFree_cons]
    cases isFree inModule frames text <;> by_cases same : text = name <;> simp [same]
  | .scope kind items => by rw [Item.freeReads, Item.freeReads, freeReadsAll_cons _ items]
  | .bind _ | .bindOutward _ | .declareGlobal _ | .declareNonlocal _ => rfl

theorem freeReadsAll_cons (frames : List Frame) : (items : List Item) →
    freeReadsAll (name :: inModule) frames items =
      (freeReadsAll inModule frames items).filter (· != name)
  | [] => rfl
  | item :: items => by
    rw [freeReadsAll, freeReadsAll, List.filter_append, Item.freeReads_cons frames item,
      freeReadsAll_cons frames items]

end

theorem freeReadsAll_append (more : List Item) : freeReadsAll inModule frames (items ++ more) =
    freeReadsAll inModule frames items ++ freeReadsAll inModule frames more := by
  induction items with
  | nil => rfl
  | cons item items ih => rw [List.cons_append, freeReadsAll, freeReadsAll, ih, List.append_assoc]

theorem exportedNamesAll_append (more : List Item) : exportedNamesAll (items ++ more) =
    exportedNamesAll items ++ exportedNamesAll more := by
  induction items with
  | nil => rfl
  | cons item items ih =>
    rw [List.cons_append, exportedNamesAll, exportedNamesAll, ih, List.append_assoc]

/-- Nothing has been declared to belong elsewhere. -/
def ScopeTable.Undeclared (table : ScopeTable) : Prop :=
  table.globals = [] ∧ table.nonlocals = []

theorem ScopeTable.Undeclared.bind {table : ScopeTable} (undeclared : table.Undeclared)
    (name : String) : table.bind name = { table with bound := name :: table.bound } := by
  simp [ScopeTable.bind, undeclared.1, undeclared.2]

theorem ScopeTable.Undeclared.foldl_bind {table : ScopeTable} (undeclared : table.Undeclared)
    (names : List String) : (names.foldl ScopeTable.bind table).Undeclared := by
  induction names generalizing table with
  | nil => exact undeclared
  | cons name names ih =>
    rw [List.foldl_cons, undeclared.bind]
    exact ih undeclared

/-- In the module declarations mean nothing. -/
theorem undeclared_ofModule (items : List Item) : (ScopeTable.ofModule items).Undeclared := by
  have step : ∀ table : ScopeTable, table.Undeclared → ∀ item,
      (ScopeTable.step false true table item).Undeclared := by
    intro table undeclared item
    cases item with
    | bind name => exact undeclared.foldl_bind [name]
    | declareGlobal | declareNonlocal => exact undeclared
    | _ => exact undeclared.foldl_bind _
  unfold ScopeTable.ofModule
  generalize start : ({} : ScopeTable) = table
  have undeclared : table.Undeclared := start ▸ ⟨rfl, rfl⟩
  clear start
  induction items generalizing table with
  | nil => exact undeclared
  | cons item items ih => exact ih _ (step table undeclared item)

theorem moduleNames_bind : moduleNames (items ++ [.bind name]) = name :: moduleNames items := by
  have table : ScopeTable.ofModule (items ++ [.bind name]) =
      (ScopeTable.ofModule items).bind name := by
    rw [ScopeTable.ofModule, List.foldl_append]
    rfl
  rw [moduleNames, table, exportedNamesAll_append, (undeclared_ofModule items).bind]
  simp [moduleNames, exportedNamesAll, Item.exportedNames]

/-- A name that the module binds in addition is not free, and nothing else changes. -/
theorem freeNames_bind : freeNames (items ++ [.bind name]) = (freeNames items).filter (· != name) := by
  rw [freeNames, moduleNames_bind, freeReadsAll_cons, freeReadsAll_append, freeNames,
    filter_eraseDups]
  simp [freeReadsAll, Item.freeReads]

/-! ### The statements of a longer snippet -/

/-- A statement of a module, or nothing at the end of input. -/
theorem moduleItem?_cases {found : Option (List Stmt)} (laid : Laid 0 0 false ts)
    (read : moduleItem? ts = .ok (found, rest)) :
    found = none ∧ (∃ p, ts = [⟨.endOfInput, p⟩]) ∨
      ∃ statements, found = some statements ∧ (headLexeme ts).isContent = true ∧
        statement (.withRoom maxNesting) ts = .ok (statements, rest) := by
  have goes := laid.goes
  unfold moduleItem? at read
  rw [run_bind_of_ok (rfl : peek ts = .ok (headLexeme ts, ts))] at read
  have further : ∀ {l : Lexeme}, headLexeme ts = l → l.isContent = true →
      (do return some (← statement (.withRoom maxNesting))) ts = .ok (found, rest) →
      ∃ statements, found = some statements ∧ (headLexeme ts).isContent = true ∧
        statement (.withRoom maxNesting) ts = .ok (statements, rest) := by
    intro l shown content read
    obtain ⟨⟨statements, between⟩, one, read⟩ := bind_eq_ok_iff.mp read
    obtain ⟨⟩ := read
    exact ⟨statements, rfl, shown ▸ content, one⟩
  cases shown : headLexeme ts with
  | endOfInput =>
    rw [shown] at read
    obtain ⟨⟩ := read
    refine .inl ⟨rfl, ?_⟩
    cases laid with
    | endOfInput => exact ⟨_, rfl⟩
    | @content _ _ _ t _ written =>
      rw [show t.lexeme = .endOfInput from shown] at written
      cases written
    | _ => cases shown
  | newline => rw [shown] at goes; cases goes.1
  | dedent => rw [shown] at goes; obtain ⟨-, _, none, -⟩ := goes; cases none
  | indent =>
    rw [shown] at read
    obtain ⟨⟨statements, between⟩, one, -⟩ := bind_eq_ok_iff.mp read
    have refuses : Refuses (statement (.withRoom maxNesting)) .indent := .peek (.fail _)
    obtain ⟨e, failed⟩ := refuses ts shown
    cases one.symm.trans failed
  | _ => rw [shown] at read; exact .inr (shown ▸ further shown rfl read)

/-- What follows a snippet is read behind its statements. -/
theorem moduleItems_extended {p : Text.Position} {parts more : List (List Stmt)} {rest' : List Token}
    (named : headLexeme tail = .name name) (free : isKeyword name = false)
    (further : many moduleItem? tail = .ok (more, rest'))
    (paired : AtLine [⟨.endOfInput, p⟩] tail 0 ts us)
    (read : many moduleItem? ts = .ok (parts, rest)) :
    many moduleItem? us = .ok (parts ++ more, rest') := by
  have lines : Lines False (OnLine [⟨.endOfInput, p⟩] tail) (AtLine [⟨.endOfInput, p⟩] tail) :=
    lines_of_fronts rfl (.inr ⟨id, name, named, free⟩)
  have suite : (Suite.withRoom maxNesting).Parallel := .withRoom maxNesting
  induction size : ts.length using Nat.strongRecOn generalizing ts us parts with
  | ind n ih =>
    rw [many] at read
    cases one : moduleItem? ts with
    | error e => rw [one] at read; cases read
    | ok found =>
      obtain ⟨found, ts'⟩ := found
      rw [one] at read
      rcases moduleItem?_cases paired.2 one with ⟨rfl, q, rfl⟩ | ⟨statements, rfl, content, one⟩
      · obtain ⟨⟩ := read
        rcases paired.1.step with ⟨-, rfl⟩ | ⟨-, front, front', whole, -⟩
        · exact further
        · simp at whole
      · have begun := lines.begin paired content
        obtain ⟨us', one', paired'⟩ :=
          (statement_follows lines (suite lines) ts us begun).1 statements ts' one
        have less := statement_reads lines suite begun one
        have less' := (lines.shorter (.inl begun) (.inr paired')).mp less
        have item : moduleItem? us = .ok (some statements, us') :=
          moduleItem?_of_statement (lines.same begun ▸ content) one'
        dsimp only at read
        rw [if_pos less] at read
        cases others : many moduleItem? ts' with
        | error e => rw [others] at read; cases read
        | ok left =>
          rw [others] at read
          obtain ⟨⟩ := read
          rw [many, item]
          dsimp only
          rw [if_pos less', ih ts'.length (size ▸ less) paired' others rfl]
          rfl

/-- A line that assigns a number to a name. -/
theorem moduleItems_assignment (free : isKeyword name = false) (assigns : Assigns name tail) :
    ∃ rest, many moduleItem? tail = .ok ([[.read (.operation []), .assign (.name name)]], rest) := by
  obtain ⟨p₁, p₂, p₃, p₄, p₅, rfl⟩ := assigns
  have operand : (Lexeme.name name).opensOperand = true := by simp [Lexeme.opensOperand, free]
  have target : (Suite.withRoom maxNesting).level.test
      [⟨.name name, p₁⟩, ⟨.op "=", p₂⟩, ⟨.number, p₃⟩, ⟨.newline, p₄⟩, ⟨.endOfInput, p₅⟩] =
      .ok (.name name, [⟨.op "=", p₂⟩, ⟨.number, p₃⟩, ⟨.newline, p₄⟩, ⟨.endOfInput, p₅⟩]) :=
    test_alone 98 operand rfl (plainAtom_name free)
  have value : (Suite.withRoom maxNesting).level.test
      [⟨.number, p₃⟩, ⟨.newline, p₄⟩, ⟨.endOfInput, p₅⟩] =
      .ok (.operation [], [⟨.newline, p₄⟩, ⟨.endOfInput, p₅⟩]) :=
    test_alone 98 rfl rfl plainAtom_number
  have line : statement (.withRoom maxNesting)
      [⟨.name name, p₁⟩, ⟨.op "=", p₂⟩, ⟨.number, p₃⟩, ⟨.newline, p₄⟩, ⟨.endOfInput, p₅⟩] =
      .ok ([.read (.operation []), .assign (.name name)], [⟨.endOfInput, p₅⟩]) := by
    refine statement_assignment ?_ target rfl value rfl rfl rfl
    exact operand
  have last : many moduleItem? [⟨.endOfInput, p₅⟩] = .ok ([], [⟨.endOfInput, p₅⟩]) :=
    many_of_none rfl
  refine ⟨[⟨.endOfInput, p₅⟩], ?_⟩
  rw [many, moduleItem?_of_statement rfl line]
  dsimp only
  rw [if_pos (by simp), last]

/-- Assigning to a name on a further line takes exactly that name from the free names. -/
theorem freeNames_assigning {source name : String} {names : List String}
    (identifier : IsIdentifier name)
    (accepted : (⟨pythonTag, false⟩ : Analyzer).freeNames source = .ok names) :
    (⟨pythonTag, false⟩ : Analyzer).freeNames (source ++ "\n" ++ name ++ " = 0\n") =
      .ok (names.filter (· != name)) := by
  obtain ⟨statements, parsed, reported⟩ := freeNames_eq_ok_iff.mp accepted
  obtain ⟨ts, tokenized, parsed⟩ := bind_eq_ok_iff.mp parsed
  obtain ⟨⟨parts, rest⟩, read, same⟩ := bind_eq_ok_iff.mp parsed
  obtain ⟨⟩ := same
  obtain ⟨front, front', tail, p, rfl, tokenized', lexemes, assigns⟩ :=
    tokens_assigning identifier tokenized
  obtain ⟨_, further⟩ := moduleItems_assignment identifier.free assigns
  have named : headLexeme tail = .name name := by
    obtain ⟨_, _, _, _, _, rfl⟩ := assigns
    rfl
  have paired : AtLine [⟨.endOfInput, p⟩] tail 0 (front ++ [⟨.endOfInput, p⟩]) (front' ++ tail) :=
    ⟨⟨front, front', rfl, rfl, lexemes⟩, laid_of_tokens tokenized⟩
  have longer := moduleItems_extended named identifier.free further paired read
  refine freeNames_eq_ok_iff.mpr ⟨parts.flatten ++ [.read (.operation []), .assign (.name name)],
    ?_, ?_⟩
  · rw [Stmt.parse, tokenized', ok_bind]
    show (many moduleItem? (front' ++ tail) >>= _) = _
    rw [longer, ok_bind]
    simp
    rfl
  · rw [← reported, outlineAll_append]
    exact freeNames_bind

/-- A function with an open block at the end, and a comment behind it. -/
theorem freeNames_assigning_function :
    IsIdentifier "n" ∧ (⟨pythonTag, false⟩ : Analyzer).freeNames
        "def f(a):\n  return a + n + m  # n" = .ok ["n", "m"] ∧
      (⟨pythonTag, false⟩ : Analyzer).freeNames
        ("def f(a):\n  return a + n + m  # n" ++ "\n" ++ "n" ++ " = 0\n") = .ok ["m"] := by
  have identifier : IsIdentifier "n" := ⟨by decide, by decide, by decide⟩
  have accepted : (⟨pythonTag, false⟩ : Analyzer).freeNames
      "def f(a):\n  return a + n + m  # n" = .ok ["n", "m"] :=
    eq_ok_of_toOption (by decide +kernel)
  exact ⟨identifier, accepted, freeNames_assigning identifier accepted⟩

end ConceptForest.Script
