import ConceptForest.Proofs.Forest.Building
import ConceptForest.Proofs.Forest.Descent
import ConceptForest.Proofs.Grammar.Blocks
import ConceptForest.Session.Reference

/-!
How symbols are known once they have been built.

The concept of a token or of a snippet is known by the text of it, and that of a block is described
by what it is made of (`Spells`). An empty block would be known by its handle, but there is none in
what has been parsed.

* `spells_buildSymbol`, `spells_command` — what is built spells what it was built of.
* `Spells.typedText_eq` — so an argument is taken for the text that was typed.
-/

namespace ConceptForest

open Grammar (Symbol Expression Snippet)
open Script (Registry)

mutual

/-- How the concept of a symbol is described. -/
def describeSymbol : Symbol → String
  | .token text => renderToken text
  | .block symbols => "[" ++ String.intercalate " " (describeSymbols symbols) ++ "]"
  | .snippet s => renderToken s.body

def describeSymbols : List Symbol → List String
  | [] => []
  | s :: rest => describeSymbol s :: describeSymbols rest

end

/-- The text that a symbol is taken for when it is given to a command. -/
def Grammar.Symbol.typedText : Symbol → String
  | .token text => text
  | .block symbols => describeSymbol (.block symbols)
  | .snippet s => s.body

/-- The text that a concept is taken for when it is an argument. -/
def Tree.typedText (t : Tree) : String :=
  if t.concept.preferred.isIdentity then t.describe else t.concept.preferred.raw

namespace Forest

variable {f g : Forest} {h k first parent : Handle} {symbol : Symbol} {symbols : List Symbol}
  {registry : Registry}

/-- The concept and what it owns, all with handles from the first on, are known as the symbol. -/
def Spells (f : Forest) (first h : Handle) (symbol : Symbol) : Prop :=
  ∃ t, f.Shows t ∧ t.handle = h ∧ (∀ k ∈ t.handles, first ≤ k) ∧
    t.typedText = symbol.typedText ∧ t.describe = describeSymbol symbol

theorem Spells.typedText_eq (wf : f.WellFormed) (spells : f.Spells first h symbol) :
    f.typedText h = symbol.typedText := by
  obtain ⟨t, shows, rfl, -, typed, -⟩ := spells
  have described := shows.describe wf
  cases shows with
  | @node h c ts live _ _ =>
    have found : f.get? (Tree.node h c ts).handle = some c := live
    rw [← typed, Forest.typedText, found]
    simp only [described]
    rfl

/-- Concepts go on to spell a symbol as long as they are not changed. -/
theorem Spells.mono (spells : f.Spells first h symbol) {before : Handle} (le : before ≤ first)
    (same : ∀ k, first ≤ k → f.contains k = true → g.get? k = f.get? k) :
    g.Spells before h symbol := by
  obtain ⟨t, shows, handle, late, known⟩ := spells
  refine ⟨t, shows.congr ?_, handle, fun k mem => Nat.le_trans le (late k mem), known⟩
  intro k mem
  exact same k (late k mem) (shows.contains_of_mem_handles mem)

/-- A concept without children that is known by the text of a symbol spells it. -/
theorem spells_of_leaf {c : Concept} (live : f.get? h = some c) (leaf : c.children = [])
    {text : String} (preferred : c.preferred = ⟨text, .inputMorphism⟩) (late : first ≤ h)
    (typed : symbol.typedText = text) (described : describeSymbol symbol = renderToken text) :
    f.Spells first h symbol := by
  refine ⟨.node h c [], .node live leaf.symm (by simp), rfl, ?_, ?_, ?_⟩
  · intro k mem
    rw [Tree.handles_node, List.flatMap_nil, List.mem_singleton] at mem
    exact mem ▸ late
  · simp [Tree.typedText, Tree.concept, preferred, Representation.isIdentity, typed]
  · simp [Tree.describe, preferred, Representation.rendered, described]

/-- Concepts that spell symbols, one after the other, are described together as the symbols are. -/
theorem exists_row_of_spells {hs : List Handle} (each : List.Forall₂ (f.Spells first) hs symbols) :
    ∃ ts, ts.map Tree.handle = hs ∧ (∀ t ∈ ts, f.Shows t ∧ ∀ k ∈ t.handles, first ≤ k) ∧
      Tree.describeAll ts = describeSymbols symbols := by
  induction each with
  | nil => exact ⟨[], rfl, by simp, rfl⟩
  | cons spells _ ih =>
    obtain ⟨t, shows, handle, late, -, described⟩ := spells
    obtain ⟨ts, handles, all, rest⟩ := ih
    refine ⟨t :: ts, by rw [List.map_cons, handle, handles], ?_, ?_⟩
    · exact List.forall_mem_cons.mpr ⟨⟨shows, late⟩, all⟩
    · rw [Tree.describeAll, describeSymbols, described, rest]

/-- A concept that is known by nothing but its handle spells a block if its children spell what the
block is made of. -/
theorem spells_block {c : Concept} (live : f.get? h = some c)
    (preferred : c.preferred.isIdentity = true) (late : first ≤ h) (some : symbols ≠ [])
    (inside : List.Forall₂ (f.Spells first) c.children symbols) :
    f.Spells first h (.block symbols) := by
  obtain ⟨ts, handles, all, described⟩ := exists_row_of_spells inside
  have inner : ts ≠ [] := by
    rintro rfl
    rw [← handles, List.map_nil, List.forall₂_nil_left_iff] at inside
    exact some inside
  have describe : (Tree.node h c ts).describe = describeSymbol (.block symbols) := by
    simp [Tree.describe, describeSymbol, preferred, inner, described]
  refine ⟨.node h c ts, .node live handles fun t mem => (all t mem).1, rfl, ?_, ?_, describe⟩
  · intro k mem
    rw [Tree.handles_node, List.mem_cons, List.mem_flatMap] at mem
    rcases mem with rfl | ⟨t, child, inside⟩
    · exact late
    · exact (all t child).2 k inside
  · exact (if_pos preferred).trans describe

end Forest

/-! ### What is built -/

namespace Build

variable {f g : Forest} {parent : Handle} {registry : Registry}

mutual

/-- What is built of a symbol is known as the symbol. -/
theorem spells_buildSymbol {f g : Forest} {parent h : Handle} (wf : f.WellFormed)
    (live : f.contains parent = true) (symbol : Symbol) (proper : symbol.Proper)
    (resolves : Resolves registry symbol.snippets)
    (built : buildSymbol registry parent symbol f = .ok h g) :
    Gets f g parent [f.next] ∧ g.Spells f.next f.next symbol := by
  have old := Forest.lt_next_of_contains live
  match symbol with
  | .token text =>
    obtain ⟨created, -⟩ :=
      create_of_plain wf (tokenConcept parent text) ⟨nofun, rfl, rfl⟩ rfl rfl live
    obtain ⟨⟩ := created.symm.trans built
    exact ⟨gets_created rfl rfl live, Forest.spells_of_leaf (get?_next_created rfl rfl live) rfl rfl
      (Nat.le_refl _) rfl rfl⟩
  | .snippet s =>
    obtain ⟨a, found⟩ := resolves s List.mem_cons_self
    obtain ⟨⟩ := (buildSnippet_eq wf live found).symm.trans built
    constructor
    · rw [Gets, Forest.get?_update, if_neg (Nat.ne_of_lt old)]
      exact gets_created rfl rfl live
    · have top := Forest.get?_update (f.created (snippetConcept parent a s)) f.next f.next fun c =>
        { c with context := { c.context with definition? := some (.ofScript f.next a s.body) } }
      rw [if_pos rfl, get?_next_created rfl rfl live, Option.map_some] at top
      exact Forest.spells_of_leaf top rfl rfl (Nat.le_refl _) rfl rfl
  | .block symbols =>
    cases proper with
    | block some inside =>
      obtain ⟨created, grows⟩ :=
        create_of_plain wf (statementConcept parent) ⟨nofun, rfl, rfl⟩ rfl rfl live
      obtain ⟨-, below⟩ := buildSymbols_of_headed created built
      have there := contains_next_created f (statementConcept parent)
      obtain ⟨hs, children, spelled⟩ :=
        spells_buildSymbols grows.wellFormed there symbols inside resolves below
      obtain ⟨g', below', more⟩ :=
        buildSymbols_of_resolves grows.wellFormed there symbols resolves
      obtain ⟨⟩ := below'.symm.trans below
      rw [Gets, get?_next_created rfl rfl live, Option.map_some] at children
      constructor
      · rw [Gets, more.get?_old parent (Nat.lt_of_lt_of_le old grows.next_le) (Nat.ne_of_lt old)]
        exact gets_created rfl rfl live
      · apply Forest.spells_block children rfl (Nat.le_refl _) some
        exact spelled.imp fun _ _ spells => spells.mono grows.next_le fun _ _ _ => rfl

theorem spells_buildSymbols {f g : Forest} {parent : Handle} (wf : f.WellFormed)
    (live : f.contains parent = true) (symbols : List Symbol) (proper : ∀ s ∈ symbols, s.Proper)
    (resolves : Resolves registry (Grammar.snippetsOfSymbols symbols))
    (built : buildSymbols registry parent symbols f = .ok () g) :
    ∃ hs, Gets f g parent hs ∧ List.Forall₂ (g.Spells f.next) hs symbols := by
  have old := Forest.lt_next_of_contains live
  match symbols with
  | [] =>
    obtain ⟨⟩ : EStateM.Result.ok () f = .ok () g := built
    exact ⟨[], by simp [Gets], .nil⟩
  | symbol :: rest =>
    obtain ⟨first, others⟩ := resolves_append.mp resolves
    obtain ⟨proper, more_proper⟩ := List.forall_mem_cons.mp proper
    obtain ⟨h, f', one, built⟩ := exists_of_bind_eq_ok built
    obtain ⟨_, one', grows⟩ := buildSymbol_of_resolves wf live symbol first
    obtain ⟨⟩ := one'.symm.trans one
    have live' := grows.contains live
    obtain ⟨_, built', more⟩ := buildSymbols_of_resolves grows.wellFormed live' rest others
    obtain ⟨⟩ := built'.symm.trans built
    obtain ⟨gets, spells⟩ := spells_buildSymbol wf live symbol proper first one
    obtain ⟨hs, gets', spelled⟩ :=
      spells_buildSymbols grows.wellFormed live' rest more_proper others built
    refine ⟨f.next :: hs, ?_, .cons (spells.mono (Nat.le_refl _) ?_) (spelled.imp ?_)⟩
    · rw [Gets, gets', gets, Option.map_map]
      apply Option.map_congr
      intro c _
      simp
    · intro k late there
      exact more.get?_old k (Forest.lt_next_of_contains there)
        (Nat.ne_of_gt (Nat.lt_of_lt_of_le old late))
    · intro _ _ spells
      exact spells.mono grows.next_le fun _ _ _ => rfl

end

/-- What is built of a command, behind its own concept, are its arguments. -/
theorem buildSymbols_of_command (wf : f.WellFormed) (live : f.contains parent = true)
    {name : String} {h : Handle} {args : List Symbol}
    (resolves : Resolves registry (Grammar.snippetsOfSymbols args))
    (built : Edit.buildOne registry parent (.command name args) f = .ok h g) :
    buildSymbols registry f.next args (f.created (commandConcept parent name args f.next)) =
      .ok () g := by
  have admits := admits_commandConcept live name args f.next
  have created : step (Edit.create (commandConcept parent name args f.next)) f = .ok _ _ :=
    adaptExcept_of_ok (Edit.create_of_admits wf admits)
  rw [Edit.buildOne_eq live resolves] at built
  exact (buildSymbols_of_headed created ((bind_of_ok (run_get f)).symm.trans built)).2

/-- The arguments of a command become its children, each known as what was typed. -/
theorem spells_command (wf : f.WellFormed) (live : f.contains parent = true) {name : String}
    {h : Handle} {args : List Symbol} (proper : ∀ s ∈ args, s.Proper)
    (resolves : Resolves registry (Grammar.snippetsOfSymbols args))
    (built : Edit.buildOne registry parent (.command name args) f = .ok h g) :
    ∃ c, g.get? f.next = some c ∧ List.Forall₂ (g.Spells (f.next + 1)) c.children args := by
  have admits := admits_commandConcept live name args f.next
  have there := contains_next_created f (commandConcept parent name args f.next)
  have below := buildSymbols_of_command wf live resolves built
  obtain ⟨hs, children, spelled⟩ :=
    spells_buildSymbols (wf.created admits) there args proper resolves below
  rw [Gets, get?_next_created rfl rfl live, Option.map_some] at children
  rw [Forest.next_created] at spelled
  exact ⟨_, children, spelled⟩

end Build

end ConceptForest
