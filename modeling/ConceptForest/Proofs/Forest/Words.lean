import ConceptForest.Proofs.Expansion.Readings
import ConceptForest.Proofs.Grammar.Yields

/-!
Typed words, read off what is built of them.

The words of symbols, from left to right through all blocks, are one of the token sequences that the
concept built of them can be written as: the concept of a token or of a snippet as its text, that of
a block as what is in it, for no block is empty.

* `words_mem_symbol`, `words_mem_symbols` — so it is for symbols, by induction on them.
* `writtenAs_expression` — and for expressions, but for commands without arguments.
* `words_exact` — so the words of what has been parsed and built come back.
-/

namespace ConceptForest

open Grammar (Symbol Expression Program Snippet)
open Script (Registry)

/-! ### Words -/

mutual

/-- The words of a symbol as they can be typed, from left to right: its texts, and the bodies of its
snippets. -/
def Grammar.Symbol.words : Symbol → List String
  | .token text => [renderToken text]
  | .block symbols => Grammar.wordsAll symbols
  | .snippet s => [renderToken s.body]

/-- The words of symbols as they can be typed, from left to right. -/
def Grammar.wordsAll : List Symbol → List String
  | [] => []
  | s :: others => s.words ++ Grammar.wordsAll others

end

namespace Grammar

/-- No block in the expression is empty, and it is no empty statement. -/
structure Expression.Proper (e : Expression) : Prop where
  proper_symbols : ∀ s ∈ e.symbols, s.Proper
  ne_statement : e ≠ .statement []

/-- Only a command may have no symbols. -/
theorem Expression.Proper.symbols_ne_nil {e : Expression} (proper : e.Proper)
    (some : ∀ name, e ≠ .command name []) : e.symbols ≠ [] := by
  intro none
  cases e with
  | statement symbols => exact proper.ne_statement (congrArg _ none)
  | command name args => exact some name (congrArg _ none)
  | snippet s => cases none

/-- What is parsed has neither empty blocks nor empty statements. -/
theorem Expression.proper_of_parse {input : String} {program : Program}
    (parsed : Program.parse input = .ok program) : ∀ e ∈ program.expressions, e.Proper := by
  have statements : ∀ {ts es}, SpellsProgram ts es → ∀ e ∈ es, e ≠ .statement [] := by
    intro ts es spelled
    induction spelled with
    | finish => nofun
    | separator _ _ ih => exact ih
    | expression first _ _ ih =>
      refine List.forall_mem_cons.mpr ⟨?_, ih⟩
      rintro rfl
      cases first with
      | statement some => exact some rfl
  obtain ⟨ts, lexed, -⟩ := bind_eq_ok_iff.mp parsed
  have spelled := (parse_eq_ok_iff lexed).mp parsed
  exact fun e mem => ⟨Grammar.proper_of_parse parsed e mem, statements spelled e mem⟩

end Grammar

/-! ### Concepts that can be written as they were typed -/

namespace Forest

/-- The words are one of the token sequences that the concept can be written as, and come out
whenever these are flattened as a whole. -/
def WrittenAs (f : Forest) (h : Handle) (words : List String) : Prop :=
  ∃ e, f.expand h = .ok e ∧ words ∈ e.sequences ∧
    ∀ limit, (e.flatten limit).truncated = false → words ∈ (e.flatten limit).alternatives

theorem writtenAs_of_tree {f : Forest} {h : Handle} {t : Tree} {words : List String}
    (found : f.tree h = .ok t) (mem : words ∈ (Expansion.ofTree t).sequences) :
    f.WrittenAs h words :=
  ⟨.ofTree t, expand_of_tree found, mem, fun _ => Expansion.mem_alternatives_flatten mem⟩

end Forest

namespace Build

open Grammar (wordsAll)

variable {g : Forest} {registry : Registry}

/-- A concept can be written as symbols if its children can, one behind the other. -/
theorem words_mem_node {h first : Handle} {c : Concept} {ts : List Tree} {symbols : List Symbol}
    (some : symbols ≠ [])
    (handles : ts.map Tree.handle = startsFrom first (symbols.map Symbol.size))
    (inside : wordsAll symbols ∈ Expansion.sequencesOfEach (Expansion.ofTrees ts)) :
    wordsAll symbols ∈ (Expansion.ofTree (.node h c ts)).sequences := by
  refine Expansion.mem_sequences_ofTree_iff.mpr (.inr ⟨?_, inside⟩)
  rintro rfl
  cases symbols with
  | nil => exact some rfl
  | cons => cases handles

mutual

/-- What is built of a symbol can be written as the words of the symbol. -/
theorem words_mem_symbol {parent first : Handle} {t : Tree} (symbol : Symbol)
    (proper : symbol.Proper) (resolves : Resolves registry symbol.snippets) (shows : g.Shows t)
    (start : t.handle = first)
    (holds : g.Holds first (slotsOfSymbol registry parent first symbol)) :
    symbol.words ∈ (Expansion.ofTree t).sequences := by
  cases shows with
  | @node h c ts live children below =>
    obtain rfl : h = first := start
    match symbol with
    | .token text =>
      obtain rfl := Option.some.inj (live.symm.trans holds.1)
      exact Expansion.mem_sequences_ofTree_iff.mpr (.inl ⟨_, List.mem_cons_self, rfl⟩)
    | .block symbols =>
      obtain rfl := Option.some.inj (live.symm.trans holds.1)
      cases proper with
      | block some inside =>
        -- the text that a block is known by comes first, but what was typed is what is in it
        exact words_mem_node some children
          (words_mem_symbols symbols inside resolves below children holds.2)
    | .snippet s =>
      obtain ⟨a, found⟩ := resolves s List.mem_cons_self
      rw [slotsOfSymbol, found] at holds
      obtain rfl := Option.some.inj (live.symm.trans holds.1)
      exact Expansion.mem_sequences_ofTree_iff.mpr (.inl ⟨_, List.mem_cons_self, rfl⟩)

/-- What is built of symbols can be written as their words, one behind the other. -/
theorem words_mem_symbols {parent first : Handle} {ts : List Tree} (symbols : List Symbol)
    (proper : ∀ s ∈ symbols, s.Proper)
    (resolves : Resolves registry (Grammar.snippetsOfSymbols symbols))
    (shown : ∀ t ∈ ts, g.Shows t)
    (handles : ts.map Tree.handle = startsFrom first (symbols.map Symbol.size))
    (holds : g.Holds first (slotsOfSymbols registry parent first symbols)) :
    wordsAll symbols ∈ Expansion.sequencesOfEach (Expansion.ofTrees ts) := by
  match symbols, ts with
  | [], [] => exact List.mem_singleton_self _
  | symbol :: rest, t :: ts =>
    obtain ⟨one, others⟩ := List.forall_mem_cons.mp proper
    obtain ⟨resolves, more⟩ := resolves_append.mp resolves
    obtain ⟨shows, shown⟩ := List.forall_mem_cons.mp shown
    obtain ⟨start, handles⟩ := List.cons.inj handles
    rw [slotsOfSymbols, Forest.holds_append, length_slotsOfSymbol] at holds
    exact Expansion.append_mem_join (words_mem_symbol symbol one resolves shows start holds.1)
      (words_mem_symbols rest others more shown handles holds.2)

end

/-- What is built of an expression with symbols can be written as the words of these. -/
theorem writtenAs_expression (wf : g.WellFormed) {parent h : Handle} (e : Expression)
    (proper : ∀ s ∈ e.symbols, s.Proper) (some : e.symbols ≠ [])
    (resolves : Resolves registry e.snippets)
    (holds : g.Holds h (slotsOfExpression registry parent h e)) :
    g.WrittenAs h (wordsAll e.symbols) := by
  cases e with
  | statement symbols | command _ symbols =>
    obtain ⟨top, inside⟩ := holds
    obtain ⟨ts, found, shows, children⟩ := Forest.exists_node wf top
    exact Forest.writtenAs_of_tree found (words_mem_node some children
      (words_mem_symbols symbols proper resolves (fun t => shows.of_mem_children) children inside))
  | snippet s =>
    obtain ⟨a, found⟩ := resolves s List.mem_cons_self
    rw [slotsOfExpression, found] at holds
    obtain ⟨ts, found, -, -⟩ := Forest.exists_node wf holds.1
    refine Forest.writtenAs_of_tree found ?_
    exact Expansion.mem_sequences_ofTree_iff.mpr (.inl ⟨_, List.mem_cons_self, rfl⟩)

/-- So it is for each of the expressions that are built one after the other. -/
theorem writtenAs_expressions (wf : g.WellFormed) {parent first : Handle} {es : List Expression}
    (proper : ∀ e ∈ es, e.Proper) (resolves : Resolves registry (es.flatMap Expression.snippets))
    (holds : g.Holds first (slotsOfExpressions registry parent first es)) :
    List.Forall₂ (fun h e => (∀ name, e ≠ .command name []) → g.WrittenAs h (wordsAll e.symbols))
      (startsFrom first (es.map Expression.size)) es := by
  induction es generalizing first with
  | nil => exact .nil
  | cons e es ih =>
    obtain ⟨one, others⟩ := List.forall_mem_cons.mp proper
    obtain ⟨resolves, more⟩ := resolves_append.mp resolves
    rw [slotsOfExpressions, Forest.holds_append, length_slotsOfExpression] at holds
    refine .cons (fun some => ?_) (ih others more holds.2)
    exact writtenAs_expression wf e one.proper_symbols (one.symbols_ne_nil some) resolves holds.1

end Build

namespace Edit

open Build (Resolves)
open Grammar (wordsAll)

/-- Whatever is parsed and built under a live concept, of any forest that can come about, can be
written as the words that were typed: every statement, and every other expression but a command
without arguments, built on its own or with the rest of its line. -/
theorem words_exact (requests : List Request) (registry : Registry) {parent : Handle}
    (live : (({} : Forest).afterAll requests).contains parent = true) {input : String}
    {program : Program} (parsed : Program.parse input = .ok program) :
    let f := ({} : Forest).afterAll requests
    (∀ e ∈ program.expressions, (∀ name, e ≠ .command name []) → Resolves registry e.snippets →
      ∃ g, buildOne registry parent e f = .ok f.next g ∧ g.WrittenAs f.next (wordsAll e.symbols)) ∧
    (Resolves registry program.snippets →
      ∃ hs g, buildText registry parent input f = .ok hs g ∧
        List.Forall₂ (fun h e => (∀ name, e ≠ .command name []) →
          g.WrittenAs h (wordsAll e.symbols)) hs program.expressions) := by
  intro f
  have wf : f.WellFormed := (Forest.evolves_afterAll Forest.wellFormed_empty requests).wellFormed
  have proper := Expression.proper_of_parse parsed
  constructor
  · intro e mem some resolves
    obtain ⟨g, built, shape, laid⟩ := Build.exists_lays_buildExpression wf live e resolves
    refine ⟨g, (buildOne_eq live resolves).trans built, ?_⟩
    exact Build.writtenAs_expression (shape.toExtends wf live).wellFormed e
      (proper e mem).proper_symbols ((proper e mem).symbols_ne_nil some) resolves
      (Forest.holds_of_get? fun i _ => laid.get?_new i)
  · intro resolves
    obtain ⟨g, built, laid⟩ :=
      Build.exists_lays_buildExpressions wf live program.expressions resolves
    obtain ⟨_, _, built', more⟩ :=
      Build.buildExpressions_of_resolves wf live program.expressions resolves
    obtain ⟨⟩ := built.symm.trans built'
    refine ⟨_, g, (buildText_eq parsed).trans ((build_eq live resolves).trans built), ?_⟩
    exact Build.writtenAs_expressions more.wellFormed proper resolves
      (Forest.holds_of_get? fun i _ => laid.get?_new i)

/-- A phrase in a block comes back in brackets, and so does the body of the snippet behind it. -/
theorem words_exact_block :
    let f := ({} : Forest).afterAll [.create { kind := .root }]
    let symbols := [.token "the", .block [.token "a", .token "black cat"],
      .snippet ⟨some "python", "x + 1", ⟨1, 23⟩⟩]
    ∃ g, buildOne (.withPython false) 0 (.statement symbols) f = .ok f.next g ∧
      g.WrittenAs f.next ["the", "a", "[[black cat]]", "[[x + 1]]"] := by
  intro f symbols
  have live : f.contains 0 = true := rfl
  have parsed : Program.parse "the [a [[black cat]]] ```python x + 1```" =
      .ok ⟨[.statement symbols]⟩ := by with_unfolding_all rfl
  have resolves : Resolves (.withPython false) (Expression.statement symbols).snippets := by
    intro s mem
    obtain rfl := List.mem_singleton.mp mem
    exact ⟨_, rfl⟩
  have typed : wordsAll symbols = ["the", "a", "[[black cat]]", "[[x + 1]]"] := by decide
  rw [← typed]
  exact (words_exact [.create { kind := .root }] (.withPython false) live parsed).1
    (.statement symbols) List.mem_cons_self nofun resolves

end Edit

end ConceptForest
