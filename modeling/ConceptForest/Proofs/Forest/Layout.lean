import ConceptForest.Proofs.Forest.Requests

/-!
What is built, slot by slot.

A building fills the next slots of a forest, one after the other, as the pre-order of what was typed
has it (`slotsOfExpressions`); beside that only the parent gets the new concepts of the expressions
for children (`Lays`).

* `Lays.trans`, `Lays.below` — what is built side by side, and what is built below another concept.
* `lays_buildSymbol`, `lays_buildExpression` — so a building follows the layout, by induction on
  what was typed.
* `build_exact` — whatever a building does, in a forest that can come about.
-/

namespace ConceptForest

open Grammar (Symbol Expression Program Snippet)
open Script (Analyzer Registry)

/-! ### The layout -/

mutual

/-- The number of concepts that a symbol is made into. -/
def Grammar.Symbol.size : Symbol → Nat
  | .token _ => 1
  | .block symbols => 1 + Grammar.sizeAll symbols
  | .snippet _ => 1

/-- The number of concepts that symbols are made into. -/
def Grammar.sizeAll : List Symbol → Nat
  | [] => 0
  | s :: others => s.size + Grammar.sizeAll others

end

/-- Every symbol is made into a concept of its own. -/
theorem Grammar.Symbol.size_pos (s : Symbol) : 0 < s.size := by
  cases s <;> simp [Symbol.size, Nat.add_comm 1]

/-- The number of concepts that an expression is made into. -/
def Grammar.Expression.size : Expression → Nat
  | .statement symbols => 1 + Grammar.sizeAll symbols
  | .command _ args => 1 + Grammar.sizeAll args
  | .snippet _ => 1

namespace Build

/-- The handles at which things of the given sizes begin, when they stand one behind the other. -/
def startsFrom (first : Handle) : List Nat → List Handle
  | [] => []
  | size :: others => first :: startsFrom (first + size) others

/-- A concept as it is built: it belongs to its parent, and nothing is associated with it. -/
def builtConcept (parent h : Handle) (kind : Kind) (identifier : Identifier)
    (children : List Handle) (known : List Representation) : Concept where
  handle := h
  kind
  identifier
  parent := some parent
  children
  representations := known ++ identityRepresentations kind identifier

/-- The concept of a token is known by its text. -/
def builtToken (parent h : Handle) (text : String) : Concept :=
  builtConcept parent h .symbol (.assigned h) []
    [⟨text, .inputMorphism⟩, ⟨s!"#|Symbol:{text}|#", .systemInformation⟩]

/-- The concept of a statement, or of a block, has its symbols for children. -/
def builtStatement (parent h : Handle) (symbols : List Symbol) : Concept :=
  builtConcept parent h .statement (.assigned h)
    (startsFrom (h + 1) (symbols.map Symbol.size)) []

/-- The concept of a command has its arguments for children, and its name and its own handle for
identifier. -/
def builtCommand (parent h : Handle) (name : String) (args : List Symbol) : Concept :=
  builtConcept parent h .command (.tagged name h) (startsFrom (h + 1) (args.map Symbol.size))
    [⟨renderCommand name args, .inputMorphism⟩]

/-- The concept of a snippet owns the definition that the analyzer for it makes of its body. -/
def builtSnippet (parent h : Handle) (analyzer : Analyzer) (s : Snippet) : Concept :=
  { builtConcept parent h .script (.assigned h) []
      [⟨s.body, .inputMorphism⟩, ⟨s!"#|Script:{analyzer.language}|#", .systemInformation⟩] with
    context.definition? :=
      some (.script ⟨h, analyzer.language, s.body, analyzer.freeNames s.body⟩) }

mutual

/-- What the slots of a symbol hold, from the slot of its own concept on. -/
def slotsOfSymbol (registry : Registry) (parent h : Handle) : Symbol → List (Option Concept)
  | .token text => [some (builtToken parent h text)]
  | .block symbols =>
    some (builtStatement parent h symbols) :: slotsOfSymbols registry h (h + 1) symbols
  | .snippet s => [(registry.resolve s.tag).map (builtSnippet parent h · s)]

/-- What the slots of symbols hold that are built under a parent, from the first slot on. -/
def slotsOfSymbols (registry : Registry) (parent first : Handle) :
    List Symbol → List (Option Concept)
  | [] => []
  | s :: others =>
    slotsOfSymbol registry parent first s ++
      slotsOfSymbols registry parent (first + s.size) others

end

/-- What the slots of an expression hold, from the slot of its own concept on. -/
def slotsOfExpression (registry : Registry) (parent h : Handle) :
    Expression → List (Option Concept)
  | .statement symbols =>
    some (builtStatement parent h symbols) :: slotsOfSymbols registry h (h + 1) symbols
  | .command name args =>
    some (builtCommand parent h name args) :: slotsOfSymbols registry h (h + 1) args
  | .snippet s => [(registry.resolve s.tag).map (builtSnippet parent h · s)]

/-- What the slots of expressions hold that are built under a parent, from the first slot on. -/
def slotsOfExpressions (registry : Registry) (parent first : Handle) :
    List Expression → List (Option Concept)
  | [] => []
  | e :: others =>
    slotsOfExpression registry parent first e ++
      slotsOfExpressions registry parent (first + e.size) others

/-- The second forest is the first one with so many more slots, which hold what they are said to
hold, and with so many more children of the parent. -/
structure Lays (f : Forest) (parent : Handle) (children : List Handle)
    (slots : List (Option Concept)) (g : Forest) : Prop where
  next_eq : g.next = f.next + slots.length
  get?_new : ∀ i : Nat, g.get? (f.next + i) = slots[i]?.join
  get?_parent : g.get? parent =
    (f.get? parent).map fun c => { c with children := c.children ++ children }
  get?_old : ∀ k, k < f.next → k ≠ parent → g.get? k = f.get? k

variable {f g : Forest} {parent h : Handle} {registry : Registry}

mutual

theorem length_slotsOfSymbol : ∀ (parent h : Handle) (s : Symbol),
    (slotsOfSymbol registry parent h s).length = s.size
  | _, _, .token _ => rfl
  | _, h, .block symbols => by
    rw [slotsOfSymbol, List.length_cons, length_slotsOfSymbols h (h + 1) symbols, Symbol.size,
      Nat.add_comm]
  | _, _, .snippet _ => rfl

theorem length_slotsOfSymbols : ∀ (parent first : Handle) (symbols : List Symbol),
    (slotsOfSymbols registry parent first symbols).length = Grammar.sizeAll symbols
  | _, _, [] => rfl
  | parent, first, s :: others => by
    rw [slotsOfSymbols, List.length_append, length_slotsOfSymbol parent first s,
      length_slotsOfSymbols parent (first + s.size) others, Grammar.sizeAll]

end

/-! ### Laying out -/

variable {e : Forest} {c : Concept} {spec : NewConcept} {children more : List Handle}
  {slots others : List (Option Concept)}

theorem Lays.nil (f : Forest) (parent : Handle) : Lays f parent [] [] f where
  next_eq := rfl
  get?_new i := Forest.get?_eq_none_of_next_le (Nat.le_add_right f.next i)
  get?_parent := by simp
  get?_old _ _ _ := rfl

/-- What is built under the same parent comes behind what has been built. -/
theorem Lays.trans (first : Lays e parent children slots f) (second : Lays f parent more others g)
    (old : parent < e.next) : Lays e parent (children ++ more) (slots ++ others) g where
  next_eq := by rw [second.next_eq, first.next_eq, List.length_append, Nat.add_assoc]
  get?_new i := by
    rcases Nat.lt_or_ge i slots.length with early | late
    · have within : e.next + i < f.next := by
        rw [first.next_eq]
        exact Nat.add_lt_add_left early e.next
      have other : e.next + i ≠ parent := Nat.ne_of_gt (Nat.lt_add_right i old)
      rw [second.get?_old _ within other, first.get?_new, List.getElem?_append_left early]
    · obtain ⟨j, rfl⟩ := Nat.exists_eq_add_of_le late
      rw [← Nat.add_assoc, ← first.next_eq, second.get?_new, List.getElem?_append_right late,
        Nat.add_sub_cancel_left]
  get?_parent := by
    rw [second.get?_parent, first.get?_parent]
    cases e.get? parent <;> simp
  get?_old k before other := by
    have within : k < f.next := by
      rw [first.next_eq]
      exact Nat.lt_add_right _ before
    rw [second.get?_old k within other, first.get?_old k before other]

/-- What is built under a concept that has just been built comes behind it, and gives it its
children. -/
theorem Lays.below (first : Lays e parent [e.next] [some c] f)
    (second : Lays f e.next children slots g) (old : parent < e.next) :
    Lays e parent [e.next] (some { c with children := c.children ++ children } :: slots) g where
  next_eq := by
    rw [second.next_eq, first.next_eq, Nat.add_assoc]
    exact congrArg (e.next + ·) (Nat.add_comm 1 _)
  get?_new i := by
    cases i with
    | zero =>
      have top : f.get? e.next = some c := first.get?_new 0
      rw [Nat.add_zero, second.get?_parent, top]
      rfl
    | succ i =>
      have further : e.next + (i + 1) = f.next + i := by
        rw [first.next_eq, Nat.add_assoc]
        exact congrArg (e.next + ·) (Nat.add_comm i 1)
      rw [further, second.get?_new, List.getElem?_cons_succ]
  get?_parent := by
    have within : parent < f.next := by
      rw [first.next_eq]
      exact Nat.lt_succ_of_lt old
    rw [second.get?_old parent within (Nat.ne_of_lt old), first.get?_parent]
  get?_old k before other := by
    have within : k < f.next := by
      rw [first.next_eq]
      exact Nat.lt_succ_of_lt before
    rw [second.get?_old k within (Nat.ne_of_lt before), first.get?_old k before other]

/-- A concept that has just been built may be changed. -/
theorem Lays.update (first : Lays e parent [e.next] [some c] f) (old : parent < e.next)
    (change : Concept → Concept) :
    Lays e parent [e.next] [some (change c)] (f.update e.next change) where
  next_eq := by
    rw [Forest.next_update]
    exact first.next_eq
  get?_new i := by
    rw [Forest.get?_update, first.get?_new]
    cases i with
    | zero => exact if_pos rfl
    | succ i => exact if_neg (Nat.ne_of_gt (Nat.lt_add_of_pos_right (Nat.succ_pos i)))
  get?_parent := by
    rw [Forest.get?_update, if_neg (Nat.ne_of_lt old), first.get?_parent]
  get?_old k before other := by
    rw [Forest.get?_update, if_neg (Nat.ne_of_lt before), first.get?_old k before other]

/-- A concept without children is laid out alone. -/
theorem lays_created (spec : NewConcept) (alone : spec.children = [])
    (parent_eq : spec.parent = some parent) (live : f.contains parent = true) :
    Lays f parent [f.next] [some { spec.toConcept f.next with parent := some parent }]
      (f.created spec) where
  next_eq := Forest.next_created f spec
  get?_new i := by
    cases i with
    | zero => exact get?_next_created alone parent_eq live
    | succ i =>
      apply Forest.get?_eq_none_of_next_le
      rw [Forest.next_created]
      exact Nat.add_le_add_left (Nat.succ_pos i) f.next
  get?_parent := gets_created alone parent_eq live
  get?_old k before other := by
    rw [Forest.get?_created alone parent_eq live, if_neg (Nat.ne_of_lt before), if_neg other]

/-! ### Buildings -/

theorem lays_buildSnippet (wf : f.WellFormed) (live : f.contains parent = true) {s : Snippet}
    {a : Analyzer} (found : registry.resolve s.tag = some a)
    (built : buildSnippet registry parent s f = .ok h g) :
    Lays f parent [f.next] [(registry.resolve s.tag).map (builtSnippet parent f.next · s)] g := by
  obtain ⟨⟩ := (buildSnippet_eq wf live found).symm.trans built
  rw [found]
  exact (lays_created (snippetConcept parent a s) rfl rfl live).update
    (Forest.lt_next_of_contains live) fun c =>
      { c with context := { c.context with definition? := some (.ofScript f.next a s.body) } }

/-- A concept and the symbols below it. -/
theorem lays_headed (spec : NewConcept) (alone : spec.children = [])
    (parent_eq : spec.parent = some parent) (live : f.contains parent = true)
    {symbols : List Symbol}
    (inside : Lays (f.created spec) f.next
      (startsFrom (f.created spec).next (symbols.map Symbol.size))
      (slotsOfSymbols registry f.next (f.created spec).next symbols) g) :
    Lays f parent [f.next]
      (some { spec.toConcept f.next with
        parent := some parent
        children := startsFrom (f.next + 1) (symbols.map Symbol.size) } ::
        slotsOfSymbols registry f.next (f.next + 1) symbols) g := by
  rw [Forest.next_created] at inside
  exact (lays_created spec alone parent_eq live).below inside (Forest.lt_next_of_contains live)

mutual

/-- A symbol is built as it is laid out. -/
theorem lays_buildSymbol {f g : Forest} {parent h : Handle} (wf : f.WellFormed)
    (live : f.contains parent = true) (symbol : Symbol)
    (resolves : Resolves registry symbol.snippets)
    (built : buildSymbol registry parent symbol f = .ok h g) :
    Lays f parent [f.next] (slotsOfSymbol registry parent f.next symbol) g := by
  match symbol with
  | .token text =>
    obtain ⟨created, -⟩ :=
      create_of_plain wf (tokenConcept parent text) ⟨nofun, rfl, rfl⟩ rfl rfl live
    obtain ⟨⟩ := created.symm.trans built
    exact lays_created (tokenConcept parent text) rfl rfl live
  | .block symbols =>
    obtain ⟨created, grows⟩ :=
      create_of_plain wf (statementConcept parent) ⟨nofun, rfl, rfl⟩ rfl rfl live
    obtain ⟨-, below⟩ := buildSymbols_of_headed created built
    exact lays_headed (statementConcept parent) rfl rfl live
      (lays_buildSymbols grows.wellFormed (contains_next_created f _) symbols resolves below)
  | .snippet s =>
    obtain ⟨a, found⟩ := resolves s List.mem_cons_self
    exact lays_buildSnippet wf live found built

/-- Symbols are built as they are laid out. -/
theorem lays_buildSymbols {f g : Forest} {parent : Handle} (wf : f.WellFormed)
    (live : f.contains parent = true) (symbols : List Symbol)
    (resolves : Resolves registry (Grammar.snippetsOfSymbols symbols))
    (built : buildSymbols registry parent symbols f = .ok () g) :
    Lays f parent (startsFrom f.next (symbols.map Symbol.size))
      (slotsOfSymbols registry parent f.next symbols) g := by
  match symbols with
  | [] =>
    obtain ⟨⟩ : EStateM.Result.ok () f = .ok () g := built
    exact .nil f parent
  | symbol :: rest =>
    obtain ⟨first, others⟩ := resolves_append.mp resolves
    obtain ⟨f', one, grows⟩ := buildSymbol_of_resolves wf live symbol first
    rw [buildSymbols, bind_of_ok one] at built
    have laid := lays_buildSymbol wf live symbol first one
    have more := lays_buildSymbols grows.wellFormed (grows.contains live) rest others built
    have next : f'.next = f.next + symbol.size := by
      rw [laid.next_eq, length_slotsOfSymbol]
    rw [next] at more
    exact laid.trans more (Forest.lt_next_of_contains live)

end

theorem length_slotsOfExpression (parent h : Handle) (e : Expression) :
    (slotsOfExpression registry parent h e).length = e.size := by
  cases e with
  | statement | command =>
    rw [slotsOfExpression, List.length_cons, length_slotsOfSymbols, Expression.size, Nat.add_comm]
  | snippet => rfl

/-- An expression is built as it is laid out. -/
theorem exists_lays_buildExpression (wf : f.WellFormed) (live : f.contains parent = true)
    (e : Expression) (resolves : Resolves registry e.snippets) :
    ∃ g, buildExpression registry parent e f = .ok f.next g ∧ Built f parent e g ∧
      Lays f parent [f.next] (slotsOfExpression registry parent f.next e) g := by
  obtain ⟨g, built, shape⟩ := buildExpression_of_resolves wf live e resolves
  refine ⟨g, built, shape, ?_⟩
  cases e with
  | statement symbols =>
    obtain ⟨created, grows⟩ :=
      create_of_plain wf (statementConcept parent) ⟨nofun, rfl, rfl⟩ rfl rfl live
    obtain ⟨-, below⟩ := buildSymbols_of_headed created built
    exact lays_headed (statementConcept parent) rfl rfl live
      (lays_buildSymbols grows.wellFormed (contains_next_created f _) symbols resolves below)
  | command name args =>
    have admits := admits_commandConcept live name args f.next
    have created : step (Edit.create (commandConcept parent name args f.next)) f = .ok _ _ :=
      adaptExcept_of_ok (Edit.create_of_admits wf admits)
    obtain ⟨-, below⟩ := buildSymbols_of_headed created ((bind_of_ok (run_get f)).symm.trans built)
    exact lays_headed (commandConcept parent name args f.next) rfl rfl live
      (lays_buildSymbols (wf.created admits) (contains_next_created f _) args resolves below)
  | snippet s =>
    obtain ⟨a, found⟩ := resolves s List.mem_cons_self
    exact lays_buildSnippet wf live found built

/-- Expressions are built as they are laid out. -/
theorem exists_lays_buildExpressions (wf : f.WellFormed) (live : f.contains parent = true)
    (es : List Expression) (resolves : Resolves registry (es.flatMap Expression.snippets)) :
    ∃ g, buildExpressions registry parent es f =
        .ok (startsFrom f.next (es.map Expression.size)) g ∧
      Lays f parent (startsFrom f.next (es.map Expression.size))
        (slotsOfExpressions registry parent f.next es) g := by
  induction es generalizing f with
  | nil => exact ⟨f, rfl, .nil f parent⟩
  | cons e es ih =>
    obtain ⟨first, others⟩ := resolves_append.mp resolves
    obtain ⟨d, built, shape, laid⟩ := exists_lays_buildExpression wf live e first
    have extends_d := shape.toExtends wf live
    obtain ⟨g, rest, more⟩ := ih extends_d.wellFormed (extends_d.contains live) others
    have next : d.next = f.next + e.size := by rw [laid.next_eq, length_slotsOfExpression]
    rw [next] at rest more
    exact ⟨g, (bind_of_ok built).trans (bind_of_ok rest),
      laid.trans more (Forest.lt_next_of_contains live)⟩

end Build

namespace Edit

open Build (Resolves Lays startsFrom slotsOfExpression slotsOfExpressions)

/-- A program, or an expression, whose snippets have analyzers is built under any live concept of
any forest that can come about. The new concepts fill the next slots in the pre-order of what was
typed, the parent gets one of them for each expression as its last children, and no other concept is
changed. -/
theorem build_exact (requests : List Request) (registry : Registry) {parent : Handle}
    (live : (({} : Forest).afterAll requests).contains parent = true) :
    let f := ({} : Forest).afterAll requests
    (∀ program : Program, Resolves registry program.snippets →
      let tops := startsFrom f.next (program.expressions.map Expression.size)
      ∃ g, Edit.build registry parent program f = .ok tops g ∧
        Lays f parent tops (slotsOfExpressions registry parent f.next program.expressions) g) ∧
      ∀ e : Expression, Resolves registry e.snippets →
        ∃ g, Edit.buildOne registry parent e f = .ok f.next g ∧
          Lays f parent [f.next] (slotsOfExpression registry parent f.next e) g := by
  intro f
  have wf := (Forest.evolves_afterAll Forest.wellFormed_empty requests).wellFormed
  constructor
  · intro program resolves tops
    obtain ⟨g, built, laid⟩ :=
      Build.exists_lays_buildExpressions wf live program.expressions resolves
    exact ⟨g, (build_eq live resolves).trans built, laid⟩
  · intro e resolves
    obtain ⟨g, built, -, laid⟩ := Build.exists_lays_buildExpression wf live e resolves
    exact ⟨g, (buildOne_eq live resolves).trans built, laid⟩

/-- A statement with a block, and a command with a snippet: six concepts, two of them under the
root. -/
theorem build_exact_block :
    let f := ({} : Forest).afterAll [.create { kind := .root }]
    let program : Program := ⟨[.statement [.token "a", .block [.token "b"]],
      .command "show" [.snippet ⟨some "python", "x", ⟨1, 16⟩⟩]]⟩
    ∃ g, Edit.build (.withPython false) 0 program f = .ok [1, 5] g ∧ g.next = 7 ∧
      (g.get? 0).map Concept.children = some [1, 5] ∧
        (g.get? 3).map Concept.children = some [4] := by
  intro f program
  have live : f.contains 0 = true := rfl
  have resolves : Resolves (.withPython false) program.snippets := by
    intro s mem
    obtain rfl := List.mem_singleton.mp mem
    exact ⟨_, rfl⟩
  obtain ⟨g, built, laid⟩ := (build_exact [.create { kind := .root }] (.withPython false) live).1
    program resolves
  refine ⟨g, built, laid.next_eq, ?_, ?_⟩
  · rw [laid.get?_parent]
    rfl
  · exact congrArg (Option.map Concept.children) (laid.get?_new 2)

end Edit

end ConceptForest
