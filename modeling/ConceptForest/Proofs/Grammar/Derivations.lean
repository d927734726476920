import ConceptForest.Proofs.Grammar.Blocks

/-!
The grammar of programs, and that the program reader accepts it.

The grammar is told apart from the walk over the tokens: runs of symbols (`SpellsSymbols`),
expressions (`SpellsExpression`), and expressions between separators, up to the end of input
(`SpellsProgram`).

* `symbolsFrom_eq_ok_iff` — the walk with its stack of open blocks reads runs of symbols, and every
  run up to the token that cannot continue it.
* `expressionOfRun_eq_ok_iff` — so a run of tokens is read as the expression that it spells.
* `ofTokens_eq_ok_iff` — a program is read exactly from the tokens that spell it.
-/

namespace ConceptForest.Grammar

variable {t opening closing : Token} {ts run rest consumed : List Token} {s : Symbol}
  {symbols before : List Symbol} {blocks : List OpenBlock} {e : Expression} {es : List Expression}

/-! ### The grammar -/

/-- The symbol that a token is on its own. -/
def Token.symbol? (t : Token) : Option Symbol :=
  match t.lexeme with
  | .word text | .phrase text | .quotation text => some (.token text)
  | .snippet tag body => some (.snippet ⟨tag, body, t.position⟩)
  | _ => none

/-- The tokens are a run of symbols in which at most `room` brackets are open at once. -/
inductive SpellsSymbols : Nat → List Token → List Symbol → Prop where
  | nil {room : Nat} : SpellsSymbols room [] []
  | single {room : Nat} {t : Token} {s : Symbol} {ts : List Token} {others : List Symbol}
    (alone : t.symbol? = some s) (more : SpellsSymbols room ts others) :
    SpellsSymbols room (t :: ts) (s :: others)
  | block {room : Nat} {opening closing : Token} {inner ts : List Token}
    {symbols others : List Symbol} (opens : opening.lexeme = .openBlock)
    (closes : closing.lexeme = .closeBlock) (some : symbols ≠ [])
    (inside : SpellsSymbols room inner symbols) (more : SpellsSymbols (room + 1) ts others) :
    SpellsSymbols (room + 1) (opening :: inner ++ closing :: ts) (.block symbols :: others)

/-- The tokens are one expression: a command and its arguments, a snippet with nothing beside it, or
a statement of any other symbols. -/
inductive SpellsExpression : List Token → Expression → Prop where
  | command {t : Token} {name : String} {ts : List Token} {args : List Symbol}
    (calls : t.lexeme = .command name) (spelled : SpellsSymbols maxBlockDepth ts args) :
    SpellsExpression (t :: ts) (.command name args)
  | snippet {t : Token} {tag : Option String} {body : String}
    (alone : t.lexeme = .snippet tag body) :
    SpellsExpression [t] (.snippet ⟨tag, body, t.position⟩)
  | statement {ts : List Token} {symbols : List Symbol} (some : symbols ≠ [])
    (other : ∀ s, symbols ≠ [.snippet s]) (spelled : SpellsSymbols maxBlockDepth ts symbols) :
    SpellsExpression ts (.statement symbols)

/-- The tokens are expressions, each of them followed by a separator or by the end of input, with
any number of separators before, between and behind them; the end of input comes last. -/
inductive SpellsProgram : List Token → List Expression → Prop where
  | finish {t : Token} (ends : t.lexeme = .endOfInput) : SpellsProgram [t] []
  | separator {t : Token} {mark : Char} {ts : List Token} {es : List Expression}
    (separates : t.lexeme = .separator mark) (more : SpellsProgram ts es) :
    SpellsProgram (t :: ts) es
  | expression {run ts : List Token} {t : Token} {e : Expression} {es : List Expression}
    (first : SpellsExpression run e) (ends : t.isEnd = true) (more : SpellsProgram (t :: ts) es) :
    SpellsProgram (run ++ t :: ts) (e :: es)

/-! ### Runs of symbols -/

/-- No symbol begins here. -/
def Stops (ts : List Token) : Prop :=
  ∀ t ∈ ts.head?, t.symbol? = none ∧ t.lexeme ≠ .openBlock

theorem symbolsFrom_single (alone : t.symbol? = some s) :
    symbolsFrom blocks before (t :: ts) = symbolsFrom blocks (s :: before) ts := by
  obtain ⟨lexeme, p⟩ := t
  cases lexeme <;> first | cases alone; simp only [symbolsFrom] | cases alone

theorem symbolsFrom_open (opens : t.lexeme = .openBlock) (room : blocks.length < maxBlockDepth) :
    symbolsFrom blocks before (t :: ts) = symbolsFrom (⟨t.position, before⟩ :: blocks) [] ts := by
  obtain ⟨lexeme, p⟩ := t
  cases opens
  simp only [symbolsFrom, Nat.not_le.mpr room, if_false]

theorem symbolsFrom_close {b : OpenBlock} (closes : t.lexeme = .closeBlock) (some : before ≠ []) :
    symbolsFrom (b :: blocks) before (t :: ts) =
      symbolsFrom blocks (.block before.reverse :: b.before) ts := by
  obtain ⟨lexeme, p⟩ := t
  cases closes
  cases before with
  | nil => exact absurd rfl some
  | cons first others => simp only [symbolsFrom]

theorem symbolsFrom_stop (stops : Stops ts) :
    symbolsFrom [] before ts = .ok (before.reverse, ts) := by
  cases ts with
  | nil => simp only [symbolsFrom]
  | cons t ts =>
    obtain ⟨none, closed⟩ := stops t rfl
    obtain ⟨lexeme, p⟩ := t
    cases lexeme with
    | word | phrase | quotation | snippet => cases none
    | openBlock => exact absurd rfl closed
    | closeBlock | command | separator | endOfInput => simp only [symbolsFrom]

/-- How the walk goes on at a token when it comes to an end. -/
theorem symbolsFrom_cases {r : List Symbol × List Token}
    (read : symbolsFrom blocks before (t :: ts) = .ok r) :
    (∃ s, t.symbol? = some s ∧ symbolsFrom blocks (s :: before) ts = .ok r) ∨
      (t.lexeme = .openBlock ∧ blocks.length < maxBlockDepth ∧
        symbolsFrom (⟨t.position, before⟩ :: blocks) [] ts = .ok r) ∨
      (t.lexeme = .closeBlock ∧ before ≠ [] ∧ ∃ b outer, blocks = b :: outer ∧
        symbolsFrom outer (.block before.reverse :: b.before) ts = .ok r) ∨
      (blocks = [] ∧ Stops (t :: ts) ∧ r = (before.reverse, t :: ts)) := by
  obtain ⟨lexeme, p⟩ := t
  have stopped : ∀ lexeme, (Token.mk lexeme p).symbol? = none → lexeme ≠ .openBlock →
      Stops (⟨lexeme, p⟩ :: ts) := by
    rintro lexeme none closed _ ⟨⟩
    exact ⟨none, closed⟩
  cases lexeme with
  | word | phrase | quotation | snippet =>
    simp only [symbolsFrom] at read
    exact .inl ⟨_, rfl, read⟩
  | openBlock =>
    simp only [symbolsFrom] at read
    split at read
    · cases read
    · next room => exact .inr (.inl ⟨rfl, Nat.not_le.mp room, read⟩)
  | closeBlock =>
    unfold symbolsFrom at read
    simp only at read
    split at read
    · obtain ⟨⟩ := read
      exact .inr (.inr (.inr ⟨rfl, stopped _ rfl (by simp), rfl⟩))
    · cases read
    · exact .inr (.inr (.inl ⟨rfl, List.cons_ne_nil _ _, _, _, rfl, read⟩))
  | command | separator | endOfInput =>
    simp only [symbolsFrom] at read
    split at read
    · obtain ⟨⟩ := read
      exact .inr (.inr (.inr ⟨rfl, stopped _ rfl (by simp), rfl⟩))
    · cases read

/-- What the open blocks still ask for behind the symbols of the innermost one: its closing bracket,
and then the rest of those around it. -/
def Closes (blocks : List OpenBlock) (symbols : List Symbol) (ts : List Token)
    (r : List Symbol × List Token) : Prop :=
  match blocks with
  | [] => Stops ts ∧ r = (symbols, ts)
  | b :: outer => ∃ closing rest, ts = closing :: rest ∧ closing.lexeme = .closeBlock ∧
    symbols ≠ [] ∧ symbolsFrom outer (.block symbols :: b.before) rest = .ok r

/-- A walk that comes to an end reads a run of symbols in the innermost block, and then closes the
blocks. -/
theorem closes_of_symbolsFrom {r : List Symbol × List Token}
    (read : symbolsFrom blocks before ts = .ok r) :
    ∃ consumed symbols rest, ts = consumed ++ rest ∧
      SpellsSymbols (maxBlockDepth - blocks.length) consumed symbols ∧
        Closes blocks (before.reverse ++ symbols) rest r := by
  -- behind a block the walk goes on at a token far away, so the induction is on the length
  induction size : ts.length using Nat.strongRecOn generalizing ts blocks before with
  | ind n ih =>
    cases ts with
    | nil =>
      cases blocks with
      | nil =>
        have stops : Stops [] := nofun
        rw [symbolsFrom_stop stops] at read
        obtain ⟨⟩ := read
        exact ⟨[], [], [], rfl, .nil, nofun, by simp⟩
      | cons b outer => simp [symbolsFrom] at read
    | cons t ts =>
      rw [List.length_cons] at size
      rcases symbolsFrom_cases read with
        ⟨s, alone, read⟩ | ⟨opens, room, read⟩ | ⟨closes, some, b, outer, rfl, closed⟩ |
          ⟨rfl, stops, rfl⟩
      · obtain ⟨consumed, symbols, rest, rfl, spelled, closes⟩ := ih _ (by omega) read rfl
        refine ⟨t :: consumed, s :: symbols, rest, rfl, .single alone spelled, ?_⟩
        simpa using closes
      · obtain ⟨inner, symbols, _, rfl, inside, closing, rest, rfl, shut, some, read⟩ :=
          ih _ (by omega) read rfl
        rw [List.length_append, List.length_cons] at size
        obtain ⟨consumed, others, rest, rfl, more, closes⟩ := ih _ (by omega) read rfl
        have deeper : maxBlockDepth - blocks.length =
            maxBlockDepth - (blocks.length + 1) + 1 := by omega
        rw [deeper] at more ⊢
        refine ⟨t :: inner ++ closing :: consumed, .block symbols :: others, rest, by simp,
          .block opens shut some inside more, ?_⟩
        simpa using closes
      · refine ⟨[], [], t :: ts, rfl, .nil, t, ts, rfl, closes, ?_, ?_⟩
        · simpa using some
        · simpa using closed
      · exact ⟨[], [], t :: ts, rfl, .nil, stops, by simp⟩

/-- A run of symbols is read wherever there is room for its blocks. -/
theorem symbolsFrom_of_spells {room : Nat} (spelled : SpellsSymbols room consumed symbols)
    (fits : blocks.length + room ≤ maxBlockDepth) :
    symbolsFrom blocks before (consumed ++ rest) =
      symbolsFrom blocks (symbols.reverse ++ before) rest := by
  induction spelled generalizing blocks before rest with
  | nil => rfl
  | single alone _ ih =>
    rw [List.cons_append, symbolsFrom_single alone, ih fits]
    simp
  | @block room opening closing inner ts symbols others opens closes some _ _ ih ih' =>
    have deeper : (OpenBlock.mk opening.position before :: blocks).length + room ≤
        maxBlockDepth := by
      rw [List.length_cons]
      omega
    have reversed : symbols.reverse ≠ [] := by simpa using some
    rw [List.append_assoc, List.cons_append, symbolsFrom_open opens (by omega), ih deeper,
      List.append_nil, List.cons_append, symbolsFrom_close closes reversed, List.reverse_reverse,
      ih' fits]
    simp

/-- Outside of all blocks the walk reads the run of symbols up to the token that cannot continue
it. -/
theorem symbolsFrom_eq_ok_iff :
    symbolsFrom [] [] ts = .ok (symbols, rest) ↔
      ∃ consumed, ts = consumed ++ rest ∧ SpellsSymbols maxBlockDepth consumed symbols ∧
        Stops rest := by
  constructor
  · intro read
    obtain ⟨consumed, symbols, rest, rfl, spelled, stops, same⟩ := closes_of_symbolsFrom read
    obtain ⟨⟩ := same
    exact ⟨consumed, rfl, spelled, stops⟩
  · rintro ⟨consumed, rfl, spelled, stops⟩
    rw [symbolsFrom_of_spells spelled (by simp), symbolsFrom_stop stops]
    simp

/-! ### Expressions -/

theorem spellsExpression_snippet {snippet : Snippet} {room : Nat}
    (spelled : SpellsSymbols room consumed [.snippet snippet]) :
    SpellsExpression consumed (.snippet snippet) := by
  cases spelled with
  | @single _ t _ _ _ alone more =>
    cases more
    obtain ⟨lexeme, p⟩ := t
    cases lexeme with
    | snippet tag body =>
      obtain ⟨⟩ := alone
      exact .snippet rfl
    | _ => cases alone

theorem leadingExpression_command {name : String} (calls : t.lexeme = .command name) :
    leadingExpression (t :: ts) = .ok (e, rest) ↔
      ∃ args, symbolsFrom [] [] ts = .ok (args, rest) ∧ e = .command name args := by
  obtain ⟨lexeme, p⟩ := t
  cases calls
  simp only [leadingExpression, bind_eq_ok_iff]
  constructor
  · rintro ⟨⟨args, rest⟩, read, same⟩
    obtain ⟨⟩ := same
    exact ⟨args, read, rfl⟩
  · rintro ⟨args, read, rfl⟩
    exact ⟨(args, rest), read, rfl⟩

/-- Symbols that do not follow a command are a snippet or a statement. -/
theorem leadingExpression_symbols (calls : ∀ name, ∀ t ∈ ts.head?, t.lexeme ≠ .command name) :
    leadingExpression ts = .ok (e, rest) ↔
      ∃ symbols, symbolsFrom [] [] ts = .ok (symbols, rest) ∧
        ((∃ s, symbols = [.snippet s] ∧ e = .snippet s) ∨
          (symbols ≠ [] ∧ (∀ s, symbols ≠ [.snippet s]) ∧ e = .statement symbols)) := by
  unfold leadingExpression
  split
  · next name p others =>
    exact absurd rfl (calls name ⟨.command name, p⟩ rfl)
  · rw [bind_eq_ok_iff]
    constructor
    · rintro ⟨⟨symbols, rest⟩, read, same⟩
      dsimp only at same
      split at same
      · cases same
      · next s =>
        obtain ⟨⟩ := same
        exact ⟨_, read, .inl ⟨s, rfl, rfl⟩⟩
      · next some other =>
        obtain ⟨⟩ := same
        exact ⟨_, read, .inr ⟨some, other, rfl⟩⟩
    · rintro ⟨symbols, read, ⟨s, rfl, rfl⟩ | ⟨some, other, rfl⟩⟩
      · exact ⟨_, read, rfl⟩
      · refine ⟨_, read, ?_⟩
        dsimp only
        split
        · exact absurd rfl some
        · exact absurd rfl (other _)
        · rfl

/-- No token that a run of symbols begins with is a command. -/
theorem ne_command_of_spells {room : Nat} (spelled : SpellsSymbols room consumed symbols)
    (some : symbols ≠ []) (name : String) :
    ∀ t ∈ (consumed ++ rest).head?, t.lexeme ≠ .command name := by
  cases spelled with
  | nil => exact absurd rfl some
  | single alone _ =>
    rintro t ⟨⟩ calls
    simp [Token.symbol?, calls] at alone
  | block opens _ _ _ _ =>
    rintro t ⟨⟩ calls
    cases opens.symm.trans calls

/-- The leading expression of tokens goes up to the token that cannot continue it. -/
theorem leadingExpression_eq_ok_iff :
    leadingExpression ts = .ok (e, rest) ↔
      ∃ consumed, ts = consumed ++ rest ∧ SpellsExpression consumed e ∧ Stops rest := by
  constructor
  · intro read
    by_cases command : ∀ name, ∀ t ∈ ts.head?, t.lexeme ≠ .command name
    · obtain ⟨symbols, read, made⟩ := (leadingExpression_symbols command).mp read
      obtain ⟨consumed, rfl, spelled, stops⟩ := symbolsFrom_eq_ok_iff.mp read
      refine ⟨consumed, rfl, ?_, stops⟩
      rcases made with ⟨s, rfl, rfl⟩ | ⟨some, other, rfl⟩
      · exact spellsExpression_snippet spelled
      · exact .statement some other spelled
    · obtain ⟨name, t, head, calls⟩ : ∃ name, ∃ t ∈ ts.head?, t.lexeme = .command name := by
        simpa using command
      cases ts with
      | nil => cases head
      | cons first others =>
        obtain rfl := Option.some.inj head
        obtain ⟨args, inner, rfl⟩ := (leadingExpression_command calls).mp read
        obtain ⟨consumed, rfl, spelled, stops⟩ := symbolsFrom_eq_ok_iff.mp inner
        exact ⟨first :: consumed, rfl, .command calls spelled, stops⟩
  · rintro ⟨consumed, rfl, spelled, stops⟩
    cases spelled with
    | command calls spelled =>
      exact (leadingExpression_command calls).mpr
        ⟨_, symbolsFrom_eq_ok_iff.mpr ⟨_, rfl, spelled, stops⟩, rfl⟩
    | @snippet t tag body alone =>
      have spelled : SpellsSymbols maxBlockDepth [t] [.snippet ⟨tag, body, t.position⟩] :=
        .single (by simp [Token.symbol?, alone]) .nil
      exact (leadingExpression_symbols (ne_command_of_spells spelled (List.cons_ne_nil _ _))).mpr
        ⟨_, symbolsFrom_eq_ok_iff.mpr ⟨_, rfl, spelled, stops⟩, .inl ⟨_, rfl, rfl⟩⟩
    | statement some other spelled =>
      exact (leadingExpression_symbols (ne_command_of_spells spelled some)).mpr
        ⟨_, symbolsFrom_eq_ok_iff.mpr ⟨_, rfl, spelled, stops⟩, .inr ⟨some, other, rfl⟩⟩

theorem isEnd_iff :
    t.isEnd = true ↔ (∃ mark, t.lexeme = .separator mark) ∨ t.lexeme = .endOfInput := by
  obtain ⟨lexeme, p⟩ := t
  cases lexeme <;> simp [Token.isEnd]

theorem stops_of_isEnd (ends : ∀ t ∈ ts.head?, t.isEnd = true) : Stops ts := by
  intro t head
  rcases isEnd_iff.mp (ends t head) with ⟨mark, separates⟩ | ends
  · simp [Token.symbol?, separates]
  · simp [Token.symbol?, ends]

/-- A run of tokens is an expression if one spells it, up to a token that ends expressions. -/
theorem expressionOfRun_eq_ok_iff :
    expressionOfRun ts = .ok e ↔
      ∃ consumed rest, ts = consumed ++ rest ∧ SpellsExpression consumed e ∧
        ∀ t ∈ rest.head?, t.isEnd = true := by
  unfold expressionOfRun
  rw [bind_eq_ok_iff]
  constructor
  · rintro ⟨⟨first, rest⟩, leading, ended⟩
    obtain ⟨consumed, rfl, spelled, -⟩ := leadingExpression_eq_ok_iff.mp leading
    dsimp only at ended
    split at ended
    · obtain ⟨⟩ := ended
      exact ⟨consumed, [], rfl, spelled, nofun⟩
    · next t others =>
      split at ended
      · next ends =>
        obtain ⟨⟩ := ended
        refine ⟨consumed, t :: others, rfl, spelled, ?_⟩
        rintro _ ⟨⟩
        exact ends
      · cases ended
  · rintro ⟨consumed, rest, rfl, spelled, ends⟩
    have leading := leadingExpression_eq_ok_iff.mpr
      ⟨consumed, rfl, spelled, stops_of_isEnd ends⟩
    refine ⟨(e, rest), leading, ?_⟩
    cases rest with
    | nil => rfl
    | cons t others => exact if_pos (ends t rfl)

/-! ### Programs -/

theorem isEnd_of_symbol? (alone : t.symbol? = some s) : t.isEnd = false := by
  obtain ⟨lexeme, p⟩ := t
  cases lexeme <;> first | rfl | cases alone

/-- No symbol reaches over a separator. -/
theorem isEnd_of_spellsSymbols {room : Nat} (spelled : SpellsSymbols room consumed symbols) :
    ∀ t ∈ consumed, t.isEnd = false := by
  induction spelled with
  | nil => nofun
  | single alone _ ih => exact List.forall_mem_cons.mpr ⟨isEnd_of_symbol? alone, ih⟩
  | @block _ opening closing _ _ _ _ opens closes _ _ _ inside more =>
    have bracket : opening.isEnd = false := by simp [Token.isEnd, opens]
    have bracket' : closing.isEnd = false := by simp [Token.isEnd, closes]
    rw [List.cons_append]
    exact List.forall_mem_cons.mpr ⟨bracket, List.forall_mem_append.mpr
      ⟨inside, List.forall_mem_cons.mpr ⟨bracket', more⟩⟩⟩

theorem isEnd_of_spellsExpression (spelled : SpellsExpression consumed e) :
    ∀ t ∈ consumed, t.isEnd = false := by
  cases spelled with
  | command calls spelled =>
    refine List.forall_mem_cons.mpr ⟨?_, isEnd_of_spellsSymbols spelled⟩
    simp [Token.isEnd, calls]
  | snippet alone =>
    refine List.forall_mem_cons.mpr ⟨?_, nofun⟩
    simp [Token.isEnd, alone]
  | statement _ _ spelled => exact isEnd_of_spellsSymbols spelled

theorem SpellsExpression.ne_nil (spelled : SpellsExpression consumed e) : consumed ≠ [] := by
  cases spelled with
  | command | snippet => exact List.cons_ne_nil _ _
  | statement some _ spelled =>
    cases spelled with
    | nil => exact absurd rfl some
    | single | block => exact List.cons_ne_nil _ _

theorem runs_append (inside : ∀ u ∈ run, u.isEnd = false) (ends : t.isEnd = true) :
    runs (run ++ t :: ts) = (run ++ [t]) :: runs ts := by
  induction run with
  | nil => simp [runs, ends]
  | cons u run ih =>
    obtain ⟨first, others⟩ := List.forall_mem_cons.mp inside
    rw [List.cons_append, runs, ih others]
    simp [first]

/-- Separators in front of an expression are passed over. -/
theorem ofTokens_end (ends : t.isEnd = true) :
    Program.ofTokens (t :: ts) = Program.ofTokens ts := by
  have none : ∀ u ∈ ([] : List Token), u.isEnd = false := nofun
  have cut : runs (t :: ts) = [t] :: runs ts := runs_append none ends
  simp [Program.ofTokens, cut, isEmptyRun, ends]

/-- The first run is the first expression. -/
theorem ofTokens_run (some : run ≠ []) (inside : ∀ u ∈ run, u.isEnd = false)
    (ends : t.isEnd = true) :
    Program.ofTokens (run ++ t :: ts) = .ok ⟨es⟩ ↔
      ∃ e others, es = e :: others ∧ expressionOfRun (run ++ [t]) = .ok e ∧
        Program.ofTokens ts = .ok ⟨others⟩ := by
  have kept : isEmptyRun (run ++ [t]) = false := by
    cases run with
    | nil => exact absurd rfl some
    | cons u run => exact inside u List.mem_cons_self
  unfold Program.ofTokens
  rw [runs_append inside ends, List.filter_cons_of_pos (by simp [kept]), List.mapM_cons]
  simp only [bind_assoc, pure_bind, bind_eq_ok_iff]
  constructor
  · rintro ⟨e, first, others, more, same⟩
    obtain ⟨⟩ := same
    exact ⟨e, others, rfl, first, others, more, rfl⟩
  · rintro ⟨e, _, rfl, first, others, more, same⟩
    obtain ⟨⟩ := same
    exact ⟨e, first, _, more, rfl⟩

/-- The end of input comes last, and nowhere else. -/
inductive Ended : List Token → Prop where
  | finish {t : Token} (ends : t.lexeme = .endOfInput) : Ended [t]
  | cons {t : Token} {ts : List Token} (goes_on : t.lexeme ≠ .endOfInput) (more : Ended ts) :
    Ended (t :: ts)

/-- Tokens up to the end of input begin with a run. -/
theorem Ended.exists_run (ended : Ended ts) :
    ∃ run t rest, ts = run ++ t :: rest ∧ (∀ u ∈ run, u.isEnd = false) ∧ t.isEnd = true ∧
      Ended (t :: rest) := by
  induction ended with
  | @finish t ends => exact ⟨[], t, [], rfl, nofun, isEnd_iff.mpr (.inr ends), .finish ends⟩
  | @cons t ts goes_on more ih =>
    cases here : t.isEnd with
    | true => exact ⟨[], t, ts, rfl, nofun, here, .cons goes_on more⟩
    | false =>
      obtain ⟨run, last, rest, rfl, inside, ends, more⟩ := ih
      exact ⟨t :: run, last, rest, rfl, List.forall_mem_cons.mpr ⟨here, inside⟩, ends, more⟩

/-- An expression that is read from a run and the token that ends it takes up all of the run. -/
theorem spellsExpression_of_expressionOfRun (inside : ∀ u ∈ run, u.isEnd = false)
    (read : expressionOfRun (run ++ [t]) = .ok e) (ends : t.isEnd = true) :
    SpellsExpression run e := by
  obtain ⟨consumed, rest, cut, spelled, behind⟩ := expressionOfRun_eq_ok_iff.mp read
  have whole := isEnd_of_spellsExpression spelled
  -- both cut the tokens at the first one that ends expressions
  have span : ∀ {ts others : List Token}, (∀ u ∈ ts, u.isEnd = false) →
      (∀ u ∈ others.head?, u.isEnd = true) → (ts ++ others).takeWhile (!·.isEnd) = ts := by
    intro ts others inside ends
    rw [List.takeWhile_append_of_pos (by simpa using inside)]
    cases others with
    | nil => simp
    | cons u others => simp [ends u rfl]
  have after : ∀ u ∈ [t].head?, u.isEnd = true := by simpa using ends
  have front := span inside after
  rw [cut, span whole behind] at front
  exact front ▸ spelled

/-- A program is read exactly from the tokens that spell it. -/
theorem ofTokens_eq_ok_iff (ended : Ended ts) :
    Program.ofTokens ts = .ok ⟨es⟩ ↔ SpellsProgram ts es := by
  constructor
  · intro read
    -- behind the first run the reader goes on at the token that ends it
    induction size : ts.length using Nat.strongRecOn generalizing ts es with
    | ind n ih =>
      obtain ⟨run, t, rest, rfl, inside, ends, more⟩ := ended.exists_run
      rw [List.length_append, List.length_cons] at size
      by_cases some : run = []
      · subst some
        rw [List.nil_append, ofTokens_end ends] at read
        cases more with
        | finish last =>
          obtain ⟨⟩ := read
          exact .finish last
        | cons goes_on more =>
          obtain ⟨mark, separates⟩ := (isEnd_iff.mp ends).resolve_right goes_on
          exact .separator separates (ih _ (by omega) more read rfl)
      · obtain ⟨e, others, rfl, first, rest⟩ := (ofTokens_run some inside ends).mp read
        rw [← ofTokens_end ends] at rest
        have shorter := List.length_pos_iff.mpr some
        exact .expression (spellsExpression_of_expressionOfRun inside first ends) ends
          (ih _ (by rw [← size, List.length_cons]; omega) more rest rfl)
  · intro spelled
    clear ended
    induction spelled with
    | finish ends => exact ofTokens_end (isEnd_iff.mpr (.inr ends))
    | separator separates _ ih =>
      exact (ofTokens_end (isEnd_iff.mpr (.inl ⟨_, separates⟩))).trans ih
    | @expression run ts t e es first ends _ ih =>
      have whole : expressionOfRun (run ++ [t]) = .ok e :=
        expressionOfRun_eq_ok_iff.mpr ⟨run, [t], rfl, first, by simpa using ends⟩
      rw [ofTokens_end ends] at ih
      exact (ofTokens_run first.ne_nil (isEnd_of_spellsExpression first) ends).mpr
        ⟨e, es, rfl, whole, ih⟩

/-- No scan reads the end of input. -/
theorem scan_ne_endOfInput {atStart : Bool} {c : Char} {cs : List Char} {scanned : Scan}
    (read : scan atStart c cs = .ok scanned) : scanned.lexeme ≠ .endOfInput := by
  unfold scan at read
  repeat' split at read
  all_goals cases read
  all_goals nofun

theorem ended_of_tokensFrom {depth : Nat} {atStart : Bool} {p : Text.Position} {cs : List Char}
    (lexed : tokensFrom depth atStart p cs = .ok ts) : Ended ts := by
  fun_induction tokensFrom depth atStart p cs generalizing ts with
  | case1 =>
    obtain ⟨⟩ := lexed
    exact .finish rfl
  | case2 => cases lexed
  | case3 =>
    rename_i scanned read ih
    obtain ⟨more, others, same⟩ := bind_eq_ok_iff.mp lexed
    obtain ⟨⟩ := same
    exact .cons (scan_ne_endOfInput read) (ih others)

/-- The tokens of a text come to an end. -/
theorem ended_of_tokens {input : String} (lexed : tokens input = .ok ts) : Ended ts :=
  ended_of_tokensFrom lexed

end ConceptForest.Grammar
