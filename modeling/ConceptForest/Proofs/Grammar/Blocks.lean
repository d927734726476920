import ConceptForest.Grammar.Program.Parser
import ConceptForest.Proofs.Steps

/-!
No block that has been parsed is empty.

* `proper_of_symbolsFrom` — the walk over the tokens closes a block only behind a symbol.
* `proper_of_parse` — so no block is empty in a program, and none in a symbol that can be typed.
-/

namespace ConceptForest.Grammar

/-- No block is empty, neither the symbol nor any in it. -/
inductive Symbol.Proper : Symbol → Prop where
  | token (text : String) : Proper (.token text)
  | snippet (s : Snippet) : Proper (.snippet s)
  | block {symbols : List Symbol} (some : symbols ≠ []) (inside : ∀ s ∈ symbols, Proper s) :
    Proper (.block symbols)

/-- The symbols that an expression is made of, but not those in blocks. -/
def Expression.symbols : Expression → List Symbol
  | .statement symbols => symbols
  | .command _ args => args
  | .snippet s => [.snippet s]

theorem proper_of_symbolsFrom {blocks : List OpenBlock} {before : List Symbol}
    {tokens rest : List Token} {symbols : List Symbol}
    (outer : ∀ b ∈ blocks, ∀ s ∈ b.before, s.Proper) (inner : ∀ s ∈ before, s.Proper)
    (read : symbolsFrom blocks before tokens = .ok (symbols, rest)) :
    ∀ s ∈ symbols, s.Proper := by
  have reversed : ∀ s ∈ before.reverse, s.Proper := by simpa using inner
  induction tokens generalizing blocks before with
  | nil =>
    unfold symbolsFrom at read
    split at read
    · obtain ⟨⟩ := read
      exact reversed
    · cases read
  | cons t tokens ih =>
    have goes_on : ∀ {blocks : List OpenBlock} {before : List Symbol},
        (∀ b ∈ blocks, ∀ s ∈ b.before, s.Proper) → (∀ s ∈ before, s.Proper) →
        symbolsFrom blocks before tokens = .ok (symbols, rest) → ∀ s ∈ symbols, s.Proper := by
      intro blocks before outer inner read
      exact ih outer inner read (by simpa using inner)
    unfold symbolsFrom at read
    split at read
    · exact goes_on outer (List.forall_mem_cons.mpr ⟨.token _, inner⟩) read
    · exact goes_on outer (List.forall_mem_cons.mpr ⟨.token _, inner⟩) read
    · exact goes_on outer (List.forall_mem_cons.mpr ⟨.token _, inner⟩) read
    · exact goes_on outer (List.forall_mem_cons.mpr ⟨.snippet _, inner⟩) read
    · split at read
      · cases read
      · exact goes_on (List.forall_mem_cons.mpr ⟨inner, outer⟩) (by simp) read
    · split at read
      · obtain ⟨⟩ := read
        exact reversed
      · cases read
      · -- the block has the symbols in front of the bracket, and there is one at least
        obtain ⟨frame, outer⟩ := List.forall_mem_cons.mp outer
        have closed : Symbol.Proper (.block _) := .block (by simp) reversed
        exact goes_on outer (List.forall_mem_cons.mpr ⟨closed, frame⟩) read
    all_goals
      split at read
      · obtain ⟨⟩ := read
        exact reversed
      · cases read

theorem proper_of_leadingExpression {run rest : List Token} {e : Expression}
    (read : leadingExpression run = .ok (e, rest)) : ∀ s ∈ e.symbols, s.Proper := by
  unfold leadingExpression at read
  split at read
  · obtain ⟨⟨args, others⟩, first, read⟩ := bind_eq_ok_iff.mp read
    obtain ⟨⟩ := read
    exact proper_of_symbolsFrom (by simp) (by simp) first
  · obtain ⟨⟨symbols, others⟩, first, read⟩ := bind_eq_ok_iff.mp read
    have proper := proper_of_symbolsFrom (by simp) (by simp) first
    dsimp only at read
    split at read
    · cases read
    · obtain ⟨⟩ := read
      exact proper
    · obtain ⟨⟩ := read
      exact proper

theorem proper_of_expressionOfRun {run : List Token} {e : Expression}
    (read : expressionOfRun run = .ok e) : ∀ s ∈ e.symbols, s.Proper := by
  obtain ⟨⟨first, rest⟩, leading, read⟩ := bind_eq_ok_iff.mp read
  have proper := proper_of_leadingExpression leading
  dsimp only at read
  split at read
  · obtain ⟨⟩ := read
    exact proper
  · split at read
    · obtain ⟨⟩ := read
      exact proper
    · cases read

/-- No block in a program is empty, wherever it stands. -/
theorem proper_of_parse {input : String} {program : Program}
    (parsed : Program.parse input = .ok program) :
    ∀ e ∈ program.expressions, ∀ s ∈ e.symbols, s.Proper := by
  obtain ⟨tokens, -, parsed⟩ := bind_eq_ok_iff.mp parsed
  obtain ⟨expressions, each, parsed⟩ := bind_eq_ok_iff.mp parsed
  obtain ⟨⟩ := parsed
  intro e mem
  obtain ⟨run, -, read⟩ := exists_of_mem_mapM each mem
  exact proper_of_expressionOfRun read

/-- The symbol can be typed: it stands in an expression of some text. -/
def Symbol.Typed (symbol : Symbol) : Prop :=
  ∃ input program, Program.parse input = .ok program ∧ ∃ e ∈ program.expressions, symbol ∈ e.symbols

theorem Symbol.Typed.proper {symbol : Symbol} (typed : symbol.Typed) : symbol.Proper := by
  obtain ⟨_, _, parsed, e, mem, inside⟩ := typed
  exact proper_of_parse parsed e mem symbol inside

end ConceptForest.Grammar
