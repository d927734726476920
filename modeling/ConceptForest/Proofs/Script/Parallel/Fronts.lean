import ConceptForest.Proofs.Script.Parallel.Statements

/-!
Lists of tokens that go on differently.

`Fronts` pairs lists that show the same lexemes up to a place where the one goes on with `last` and
the other with `tail`. If the one is laid out as a snippet and ends there, then the rules for
statements read both alike up to there, whatever name the other goes on with.

* `lines_of_fronts` — such lists, as whole snippets.
-/

namespace ConceptForest.Script

open Reader

variable {strict : Prop} {last tail ts us ts' us' : List Token} {blocks depth : Nat}
  {lineOpen : Bool}

/-! ### The same lexemes -/

/-- The lists show the same lexemes up to where the one goes on with `last` and the other with
`tail`. -/
def Fronts (last tail : List Token) : Pairing := fun ts us =>
  ∃ front front', ts = front ++ last ∧ us = front' ++ tail ∧
    front'.map Token.lexeme = front.map Token.lexeme

/-- Either that place is reached, or the same lexeme is at the front of both. -/
theorem Fronts.step (paired : Fronts last tail ts us) : ts = last ∧ us = tail ∨
    headLexeme us = headLexeme ts ∧ Fronts last tail (ts.drop 1) (us.drop 1) := by
  obtain ⟨front, front', rfl, rfl, same⟩ := paired
  cases front with
  | nil => exact .inl ⟨rfl, by rw [List.map_eq_nil_iff.mp same]; rfl⟩
  | cons t front =>
    obtain ⟨t', front', rfl, head, same⟩ := List.map_eq_cons_iff.mp same
    exact .inr ⟨head, front, front', rfl, rfl, same⟩

/-- The place is not reached before the end of input. -/
theorem Fronts.step_of_more (paired : Fronts last tail ts us) (ended : headLexeme last = .endOfInput)
    (more : headLexeme ts ≠ .endOfInput) :
    headLexeme us = headLexeme ts ∧ Fronts last tail (ts.drop 1) (us.drop 1) :=
  paired.step.resolve_left fun whole => more (whole.1 ▸ ended)

theorem Fronts.shorter (paired : Fronts last tail ts us) (further : Fronts last tail ts' us') :
    ts'.length < ts.length ↔ us'.length < us.length := by
  obtain ⟨front, front', rfl, rfl, same⟩ := paired
  obtain ⟨next, next', rfl, rfl, same'⟩ := further
  have length := congrArg List.length same
  have length' := congrArg List.length same'
  simp only [List.length_map, List.length_append] at *
  omega

/-! ### What comes next -/

/-- What may be at the front where so much is open, and what is open behind it. -/
def Goes (blocks : Nat) (lineOpen : Bool) (rest : List Token) : Lexeme → Prop
  | .endOfInput => lineOpen = false ∧ blocks = 0
  | .newline => lineOpen = true ∧ Laid blocks 0 false rest
  | .indent => lineOpen = false ∧ Laid (blocks + 1) 0 false rest
  | .dedent => lineOpen = false ∧ ∃ blocks', blocks = blocks' + 1 ∧ Laid blocks' 0 false rest
  | _ => ∃ depth, Laid blocks depth true rest

theorem Laid.goes (laid : Laid blocks depth lineOpen ts) :
    Goes blocks lineOpen (ts.drop 1) (headLexeme ts) := by
  cases laid with
  | endOfInput => exact ⟨rfl, rfl⟩
  | newline further => exact ⟨rfl, further⟩
  | indent further => exact ⟨rfl, further⟩
  | dedent further => exact ⟨rfl, _, rfl, further⟩
  | @content _ _ _ t rest written _ further =>
    show Goes blocks lineOpen rest t.lexeme
    cases shown : t.lexeme with
    | newline | indent | dedent | endOfInput => rw [shown] at written; cases written
    | _ => exact ⟨_, further⟩

/-- The lists show the same lexemes, and in the one something stands on the line. -/
def OnLine (last tail : List Token) (blocks : Nat) : Pairing := fun ts us =>
  Fronts last tail ts us ∧ ∃ depth lineOpen, Laid blocks depth lineOpen ts ∧
    (lineOpen = true ∨ (headLexeme ts).isContent = true)

/-- The lists show the same lexemes, and in the one a line may begin. -/
def AtLine (last tail : List Token) (blocks : Nat) : Pairing := fun ts us =>
  Fronts last tail ts us ∧ Laid blocks 0 false ts

theorem OnLine.goes (paired : OnLine last tail blocks ts us) :
    headLexeme ts = .newline ∧ Laid blocks 0 false (ts.drop 1) ∨
      (headLexeme ts).isContent = true ∧ ∃ depth, Laid blocks depth true (ts.drop 1) := by
  obtain ⟨-, depth, lineOpen, laid, open_⟩ := paired
  have goes := laid.goes
  cases shown : headLexeme ts with
  | newline => rw [shown] at goes; exact .inl ⟨rfl, goes.2⟩
  | indent | dedent | endOfInput =>
    rw [shown] at goes open_
    rcases open_ with line | content
    · rw [goes.1] at line
      cases line
    · cases content
  | _ => rw [shown] at goes; exact .inr ⟨rfl, goes⟩

theorem OnLine.more (paired : OnLine last tail blocks ts us) : headLexeme ts ≠ .endOfInput := by
  intro ended
  rcases paired.goes with ⟨line, -⟩ | ⟨content, -⟩
  · cases line.symm.trans ended
  · rw [ended] at content
    cases content

theorem parallel_onLine (ended : headLexeme last = .endOfInput) :
    Parallel strict (OnLine last tail blocks) where
  head paired := .inl (paired.1.step_of_more ended paired.more).1
  drop paired content := by
    obtain ⟨depth, laid⟩ := (paired.goes.resolve_left fun line => by
      rw [line.1] at content; cases content).2
    exact ⟨(paired.1.step_of_more ended paired.more).2, depth, true, laid, .inl rfl⟩
  shorter paired further := paired.1.shorter further.1

/-- Snippets that show the same lexemes up to the end of the one are read alike, whatever name the
other goes on with. -/
theorem lines_of_fronts (ended : headLexeme last = .endOfInput)
    (further : headLexeme tail = .endOfInput ∨
      ¬ strict ∧ ∃ name, headLexeme tail = .name name ∧ isKeyword name = false) :
    Lines strict (OnLine last tail) (AtLine last tail) where
  inLine _ := parallel_onLine ended
  same paired := (paired.1.step_of_more ended paired.more).1
  ends paired := paired.more
  front paired := by
    rcases paired.1.step with ⟨rfl, rfl⟩ | ⟨same, -⟩
    · exact further.imp (fun shown => shown.trans ended.symm) fun ⟨lax, named⟩ => ⟨lax, ended, named⟩
    · exact .inl same
  closes paired shown := by
    have goes := paired.2.goes
    rw [shown] at goes
    cases goes.2
  filled paired shown := by
    have goes := paired.2.goes
    rw [shown] at goes
    cases goes.1
  begin paired content := ⟨paired.1, _, _, paired.2, .inr content⟩
  newline paired shown := by
    obtain ⟨-, laid⟩ := paired.goes.resolve_right fun content => by
      rw [shown] at content; cases content.1
    exact ⟨(paired.1.step_of_more ended paired.more).2, laid⟩
  indent paired shown := by
    have goes := paired.2.goes
    rw [shown] at goes
    exact ⟨(paired.1.step_of_more ended (by rw [shown]; nofun)).2, goes.2⟩
  dedent paired shown := by
    have goes := paired.2.goes
    rw [shown] at goes
    obtain ⟨-, blocks', same, laid⟩ := goes
    obtain rfl := Nat.succ.inj same
    exact ⟨(paired.1.step_of_more ended (by rw [shown]; nofun)).2, laid⟩
  shorter paired further := (paired.elim And.left And.left).shorter (further.elim And.left And.left)

end ConceptForest.Script
