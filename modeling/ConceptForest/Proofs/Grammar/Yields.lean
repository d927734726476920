import ConceptForest.Proofs.Grammar.Derivations

/-!
Which tree a program is.

What a program was read from can be told from it again. The pieces of its expressions, from left to
right, are the tokens without separators and end of input; and as an expression is a snippet rather
than a statement of one, there is no other row of expressions with these pieces in the same runs.

* `eq_of_yieldAll_append` — no two rows of symbols have the same pieces.
* `yields_of_spellsProgram` — run by run, the pieces of a program are those of its tokens.
* `parse_exact` — which texts are accepted, and which program each of them is.
-/

namespace ConceptForest.Grammar

variable {t : Token} {ts run : List Token} {s : Symbol} {symbols : List Symbol}
  {e e' : Expression} {es es' : List Expression} {behind behind' : List Piece}

/-! ### Pieces -/

/-- What a token adds to a program: a text, a snippet, the name of a command, or a bracket. -/
inductive Piece where
  | text (text : String)
  | snippet (snippet : Snippet)
  | command (name : String)
  | opening
  | closing
  deriving DecidableEq, Repr

/-- The piece that a token is, if it does not end expressions. -/
def Token.piece? (t : Token) : Option Piece :=
  match t.lexeme with
  | .word text | .phrase text | .quotation text => some (.text text)
  | .snippet tag body => some (.snippet ⟨tag, body, t.position⟩)
  | .command name => some (.command name)
  | .openBlock => some .opening
  | .closeBlock => some .closing
  | .separator _ | .endOfInput => none

/-- The pieces of tokens. -/
def pieces (ts : List Token) : List Piece :=
  ts.filterMap Token.piece?

/-- The runs between the tokens that end expressions, without the empty ones. -/
def segments (ts : List Token) : List (List Token) :=
  (ts.splitOnP Token.isEnd).filter (!·.isEmpty)

mutual

/-- The pieces of a symbol, with the brackets of blocks. -/
def Symbol.yield : Symbol → List Piece
  | .token text => [.text text]
  | .snippet s => [.snippet s]
  | .block symbols => .opening :: yieldAll symbols ++ [.closing]

/-- The pieces of symbols. -/
def yieldAll : List Symbol → List Piece
  | [] => []
  | s :: others => s.yield ++ yieldAll others

end

/-- The pieces of an expression. -/
def Expression.yield : Expression → List Piece
  | .statement symbols => yieldAll symbols
  | .command name args => .command name :: yieldAll args
  | .snippet s => [.snippet s]

/-- A snippet with nothing beside it is not a statement. -/
def Expression.Canonical (e : Expression) : Prop :=
  ∀ s, e ≠ .statement [.snippet s]

theorem pieces_append (ts others : List Token) :
    pieces (ts ++ others) = pieces ts ++ pieces others :=
  List.filterMap_append

theorem pieces_cons {piece : Piece} (is : t.piece? = some piece) :
    pieces (t :: ts) = piece :: pieces ts :=
  List.filterMap_cons_some is

theorem pieces_end (ends : t.isEnd = true) : pieces (t :: ts) = pieces ts := by
  have nothing : t.piece? = none := by
    rcases isEnd_iff.mp ends with ⟨mark, separates⟩ | ends
    · simp [Token.piece?, separates]
    · simp [Token.piece?, ends]
  exact List.filterMap_cons_none nothing

theorem segments_end (ends : t.isEnd = true) : segments (t :: ts) = segments ts := by
  have none : ∀ u ∈ ([] : List Token), u.isEnd = false := nofun
  have cut : (t :: ts).splitOnP Token.isEnd = [] :: ts.splitOnP Token.isEnd := by
    simpa using List.splitOnP_append_cons_of_forall_mem none t ends ts
  simp [segments, cut]

theorem segments_run (some : run ≠ []) (inside : ∀ u ∈ run, u.isEnd = false)
    (ends : t.isEnd = true) : segments (run ++ t :: ts) = run :: segments (t :: ts) := by
  rw [segments_end ends, segments, List.splitOnP_append_cons_of_forall_mem inside t ends ts]
  simp [segments, some]

/-! ### What is spelled has the pieces of its tokens -/

theorem pieces_of_symbol? (alone : t.symbol? = some s) :
    pieces (t :: ts) = s.yield ++ pieces ts := by
  obtain ⟨lexeme, p⟩ := t
  cases lexeme with
  | word | phrase | quotation | snippet =>
    obtain ⟨⟩ := alone
    exact pieces_cons rfl
  | _ => cases alone

theorem yieldAll_of_spells {room : Nat} (spelled : SpellsSymbols room ts symbols) :
    yieldAll symbols = pieces ts := by
  induction spelled with
  | nil => rfl
  | single alone _ ih => rw [yieldAll, pieces_of_symbol? alone, ih]
  | @block _ opening closing inner ts _ _ opens closes _ _ _ inside more =>
    have opened : opening.piece? = some .opening := by simp [Token.piece?, opens]
    have closed : closing.piece? = some .closing := by simp [Token.piece?, closes]
    rw [List.cons_append, pieces_cons opened, pieces_append, pieces_cons closed, yieldAll,
      Symbol.yield, inside, more]
    simp

theorem yield_of_spells (spelled : SpellsExpression ts e) : e.yield = pieces ts := by
  cases spelled with
  | @command t name _ _ calls spelled =>
    have called : t.piece? = some (.command name) := by simp [Token.piece?, calls]
    rw [Expression.yield, yieldAll_of_spells spelled, pieces_cons called]
  | snippet alone => simp [Expression.yield, pieces, Token.piece?, alone]
  | statement _ _ spelled => exact yieldAll_of_spells spelled

theorem canonical_of_spells (spelled : SpellsExpression ts e) : e.Canonical := by
  rintro s rfl
  cases spelled with
  | statement _ other _ => exact other s rfl

/-- Run by run, the pieces of a program are those of its tokens. -/
theorem yields_of_spellsProgram (spelled : SpellsProgram ts es) :
    es.map Expression.yield = (segments ts).map pieces := by
  induction spelled with
  | finish ends => rw [segments_end (isEnd_iff.mpr (.inr ends))]; rfl
  | separator separates _ ih => rw [segments_end (isEnd_iff.mpr (.inl ⟨_, separates⟩)), ih]
  | expression first ends _ ih =>
    rw [segments_run first.ne_nil (isEnd_of_spellsExpression first) ends, List.map_cons,
      List.map_cons, ih, yield_of_spells first]

/-- From left to right, the pieces of a program are those of its tokens. -/
theorem flatMap_yield_of_spellsProgram (spelled : SpellsProgram ts es) :
    es.flatMap Expression.yield = pieces ts := by
  induction spelled with
  | finish ends => rw [pieces_end (isEnd_iff.mpr (.inr ends))]; rfl
  | separator separates _ ih => rw [pieces_end (isEnd_iff.mpr (.inl ⟨_, separates⟩)), ih]
  | expression first _ _ ih => rw [List.flatMap_cons, ih, yield_of_spells first, pieces_append]

theorem canonical_of_spellsProgram (spelled : SpellsProgram ts es) : ∀ e ∈ es, e.Canonical := by
  induction spelled with
  | finish => nofun
  | separator _ _ ih => exact ih
  | expression first _ _ ih => exact List.forall_mem_cons.mpr ⟨canonical_of_spells first, ih⟩

/-! ### No two trees have the same pieces -/

/-- Only the end of a block, or nothing, stands behind these pieces. -/
def Behind (pieces : List Piece) : Prop :=
  ∀ piece ∈ pieces.head?, piece = .closing

theorem behind_closing : Behind (.closing :: behind) := by
  rintro _ ⟨⟩
  rfl

theorem eq_nil_of_yieldAll_append {symbols : List Symbol} (closed : Behind behind')
    (same : yieldAll symbols ++ behind = behind') : symbols = [] := by
  cases symbols with
  | nil => rfl
  | cons s others =>
    have head := closed
    subst same
    cases s with
    | token | snippet | block => cases head _ rfl

/-- No two rows of symbols have the same pieces. -/
theorem eq_of_yieldAll_append {row row' : List Symbol} {behind behind' : List Piece}
    (closed : Behind behind) (closed' : Behind behind')
    (same : yieldAll row ++ behind = yieldAll row' ++ behind') : row = row' ∧ behind = behind' := by
  cases row with
  | nil =>
    obtain rfl := eq_nil_of_yieldAll_append closed same.symm
    exact ⟨rfl, same⟩
  | cons s others =>
    cases row' with
    | nil =>
      cases eq_nil_of_yieldAll_append closed' same
    | cons s' others' =>
      cases s with
      | token text =>
        cases s' with
        | token text' =>
          obtain ⟨head, tail⟩ := List.cons.inj same
          obtain ⟨⟩ := head
          obtain ⟨rfl, rfl⟩ := eq_of_yieldAll_append closed closed' tail
          exact ⟨rfl, rfl⟩
        | snippet | block => cases (List.cons.inj same).1
      | snippet snippet =>
        cases s' with
        | snippet snippet' =>
          obtain ⟨head, tail⟩ := List.cons.inj same
          obtain ⟨⟩ := head
          obtain ⟨rfl, rfl⟩ := eq_of_yieldAll_append closed closed' tail
          exact ⟨rfl, rfl⟩
        | token | block => cases (List.cons.inj same).1
      | block symbols =>
        cases s' with
        | token | snippet => cases (List.cons.inj same).1
        | block symbols' =>
          -- the blocks end at the same bracket, as nothing else closes them
          simp only [yieldAll, Symbol.yield, List.cons_append, List.append_assoc,
            List.nil_append] at same
          obtain ⟨rfl, tail⟩ := eq_of_yieldAll_append behind_closing behind_closing
            (List.cons.inj same).2
          obtain ⟨rfl, rfl⟩ := eq_of_yieldAll_append closed closed' (List.cons.inj tail).2
          exact ⟨rfl, rfl⟩
termination_by sizeOf row

theorem yieldAll_injective {row row' : List Symbol} (same : yieldAll row = yieldAll row') :
    row = row' := by
  have nothing : Behind [] := nofun
  exact (eq_of_yieldAll_append nothing nothing (by simpa using same)).1

/-- The pieces of a statement do not begin with a command. -/
theorem yieldAll_ne_command {row : List Symbol} {name : String} {others : List Piece} :
    yieldAll row ≠ .command name :: others := by
  cases row with
  | nil => nofun
  | cons s row => cases s <;> nofun

/-- Nor is a statement of some other symbols the piece of a snippet. -/
theorem eq_snippet_of_yieldAll {row : List Symbol} {s : Snippet}
    (same : yieldAll row = [.snippet s]) : row = [.snippet s] :=
  yieldAll_injective (by simpa [yieldAll, Symbol.yield] using same)

/-- No two expressions have the same pieces. -/
theorem Expression.Canonical.eq_of_yield (canonical : e.Canonical) (canonical' : e'.Canonical)
    (same : e.yield = e'.yield) : e = e' := by
  cases e with
  | statement symbols =>
    cases e' with
    | statement symbols' => exact congrArg _ (yieldAll_injective same)
    | command => exact absurd same yieldAll_ne_command
    | snippet s => exact absurd (congrArg _ (eq_snippet_of_yieldAll same)) (canonical s)
  | command name args =>
    cases e' with
    | statement => exact absurd same.symm yieldAll_ne_command
    | command name' args' =>
      obtain ⟨head, tail⟩ := List.cons.inj same
      obtain ⟨⟩ := head
      exact congrArg _ (yieldAll_injective tail)
    | snippet => cases (List.cons.inj same).1
  | snippet s =>
    cases e' with
    | statement => exact absurd (congrArg _ (eq_snippet_of_yieldAll same.symm)) (canonical' s)
    | command => cases (List.cons.inj same).1
    | snippet s' =>
      obtain ⟨⟨⟩, -⟩ := List.cons.inj same
      rfl

theorem eq_of_map_yield (canonical : ∀ e ∈ es, e.Canonical) (canonical' : ∀ e ∈ es', e.Canonical)
    (same : es.map Expression.yield = es'.map Expression.yield) : es = es' := by
  induction es generalizing es' with
  | nil => exact (List.map_eq_nil_iff.mp same.symm).symm
  | cons e es ih =>
    cases es' with
    | nil => cases same
    | cons e' es' =>
      obtain ⟨first, others⟩ := List.forall_mem_cons.mp canonical
      obtain ⟨first', others'⟩ := List.forall_mem_cons.mp canonical'
      obtain ⟨head, tail⟩ := List.cons.inj same
      rw [first.eq_of_yield first' head, ih others others' tail]

/-- Tokens spell one program at most. -/
theorem SpellsProgram.unique (spelled : SpellsProgram ts es) (spelled' : SpellsProgram ts es') :
    es = es' :=
  eq_of_map_yield (canonical_of_spellsProgram spelled) (canonical_of_spellsProgram spelled')
    ((yields_of_spellsProgram spelled).trans (yields_of_spellsProgram spelled').symm)

/-! ### Texts -/

theorem parse_eq_ok_iff {input : String} (lexed : tokens input = .ok ts) :
    Program.parse input = .ok ⟨es⟩ ↔ SpellsProgram ts es := by
  rw [Program.parse, lexed, ok_bind]
  exact ofTokens_eq_ok_iff (ended_of_tokens lexed)

/-- A text is accepted exactly if its tokens spell expressions. The program is the one row of
expressions that they spell; its pieces are those of the tokens, from left to right and in each run
of tokens, and no other row of expressions has these pieces, unless it has a snippet with nothing
beside it for a statement. -/
theorem parse_exact {input : String} {ts : List Token} (lexed : tokens input = .ok ts) :
    ((∃ program, Program.parse input = .ok program) ↔ ∃ es, SpellsProgram ts es) ∧
      ∀ program, Program.parse input = .ok program →
        (∀ es, SpellsProgram ts es ↔ es = program.expressions) ∧
        program.expressions.flatMap Expression.yield = pieces ts ∧
        ∀ es, (∀ e ∈ es, e.Canonical) ∧ es.map Expression.yield = (segments ts).map pieces ↔
          es = program.expressions := by
  refine ⟨⟨?_, ?_⟩, ?_⟩
  · rintro ⟨⟨es⟩, parsed⟩
    exact ⟨es, (parse_eq_ok_iff lexed).mp parsed⟩
  · rintro ⟨es, spelled⟩
    exact ⟨⟨es⟩, (parse_eq_ok_iff lexed).mpr spelled⟩
  · rintro ⟨es⟩ parsed
    have spelled := (parse_eq_ok_iff lexed).mp parsed
    have canonical := canonical_of_spellsProgram spelled
    have yields := yields_of_spellsProgram spelled
    refine ⟨fun es' => ⟨fun other => other.unique spelled, ?_⟩,
      flatMap_yield_of_spellsProgram spelled, fun es' => ⟨fun ⟨canonical', yields'⟩ =>
        eq_of_map_yield canonical' canonical (yields'.trans yields.symm), ?_⟩⟩
    · rintro rfl
      exact spelled
    · rintro rfl
      exact ⟨canonical, yields⟩

/-- Blocks in an argument, and a snippet on its own behind a separator that ends nothing. -/
theorem parse_exact_blocks : ∃ ts es,
    tokens ":show [a [b]];; ```py x```" = .ok ts ∧
      Program.parse ":show [a [b]];; ```py x```" = .ok ⟨es⟩ ∧
      es = [.command "show" [.block [.token "a", .block [.token "b"]]],
        .snippet ⟨some "py", "x", ⟨1, 17⟩⟩] ∧
      es.flatMap Expression.yield = pieces ts ∧ ∀ es', SpellsProgram ts es' ↔ es' = es := by
  have lexed : tokens ":show [a [b]];; ```py x```" = .ok
      [⟨.command "show", ⟨1, 1⟩⟩, ⟨.openBlock, ⟨1, 7⟩⟩, ⟨.word "a", ⟨1, 8⟩⟩, ⟨.openBlock, ⟨1, 10⟩⟩,
        ⟨.word "b", ⟨1, 11⟩⟩, ⟨.closeBlock, ⟨1, 12⟩⟩, ⟨.closeBlock, ⟨1, 13⟩⟩,
        ⟨.separator ';', ⟨1, 14⟩⟩, ⟨.separator ';', ⟨1, 15⟩⟩, ⟨.snippet (some "py") "x", ⟨1, 17⟩⟩,
        ⟨.endOfInput, ⟨1, 27⟩⟩] := by with_unfolding_all rfl
  have parsed : Program.parse ":show [a [b]];; ```py x```" = .ok
      ⟨[.command "show" [.block [.token "a", .block [.token "b"]]],
        .snippet ⟨some "py", "x", ⟨1, 17⟩⟩]⟩ := by with_unfolding_all rfl
  obtain ⟨unique, yields, -⟩ := (parse_exact lexed).2 _ parsed
  exact ⟨_, _, lexed, parsed, rfl, yields, unique⟩

end ConceptForest.Grammar
