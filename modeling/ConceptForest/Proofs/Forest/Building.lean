import ConceptForest.Forest.Build
import ConceptForest.Proofs.Forest.Evolution

/-!
What a building makes of a forest.

New concepts come under the parent, or under one another, and the parent gets new children behind
those it has; nothing else changes (`Grows`). Once all snippets have been looked at, no step of a
building is refused.

* `buildSymbols_of_resolves`, `buildExpression_of_resolves` — what is built, by induction on what
  was typed.
* `buildOne_cases`, `build_cases` — a building is refused, and then nothing of it is done, or it is
  done.
-/

namespace ConceptForest

open Grammar (Symbol Expression Program Snippet)
open Script (Analyzer Registry)

/-- A concept as it is made of a symbol: known by its own handle, with nothing but perhaps a
definition of its own. -/
structure Concept.Plain (c : Concept) : Prop where
  kind_ne : c.kind ≠ .command
  identifier_eq : c.identifier = .assigned c.handle
  bindings_eq : c.context.bindings = []
  owner_eq : ∀ d, c.context.definition? = some d → d.owner = c.handle
  associations_eq : c.associations = []
  associatedBy_eq : c.associatedBy = []

/-- A description of a concept that has only what is built. -/
structure NewConcept.Plain (spec : NewConcept) : Prop where
  kind_ne : spec.kind ≠ .command
  identifier_eq : spec.identifier = none
  context_eq : spec.context = {}

theorem NewConcept.Plain.toConcept {spec : NewConcept} (plain : spec.Plain) (h : Handle) :
    (spec.toConcept h).Plain where
  kind_ne := plain.kind_ne
  identifier_eq := by simp [NewConcept.toConcept, plain.identifier_eq]
  bindings_eq := by simp [NewConcept.toConcept, plain.context_eq]
  owner_eq := by simp [NewConcept.toConcept, plain.context_eq]
  associations_eq := rfl
  associatedBy_eq := rfl

/-- A new place does not make a concept less plain. -/
theorem Concept.Plain.placed {c : Concept} (plain : c.Plain) (parent : Option Handle)
    (children : List Handle) : { c with parent, children }.Plain :=
  ⟨plain.kind_ne, plain.identifier_eq, plain.bindings_eq, plain.owner_eq, plain.associations_eq,
    plain.associatedBy_eq⟩

namespace Forest

variable {e f g : Forest} {h k p : Handle} {spec : NewConcept}

/-- What a forest is after a concept without children has been created. -/
theorem get?_created (alone : spec.children = []) (parent : spec.parent = some p)
    (live : f.contains p = true) (k : Handle) :
    (f.created spec).get? k =
      if k = f.next then some { spec.toConcept f.next with parent := some p }
      else if k = p then (f.get? p).map fun c => { c with children := c.children ++ [f.next] }
      else f.get? k := by
  have ne : f.next ≠ p := Nat.ne_of_gt (lt_next_of_contains live)
  have begun : f.begun spec = f.push (spec.toConcept f.next) := by rw [Forest.begun, alone]; rfl
  have root : (f.push (spec.toConcept f.next)).parent? f.next = none := by
    rw [parent?_push_new, parent?_of_next_le (Nat.le_refl _)]
  rw [created, parent]
  show ((f.begun spec).attached p none f.next).get? k = _
  rw [begun, attached, detached_of_parent?_eq_none root, get?_update, get?_update, get?_push]
  by_cases new : k = f.next
  · simp [new, ne]
  · by_cases above : k = p
    · simp [above, Ne.symm ne, Edit.withChild]
    · simp [new, above]

/-! ### Growing -/

/-- The second forest has the concepts of the first one, and new ones that were built under one of
those. -/
structure Grows (f : Forest) (parent : Handle) (g : Forest) : Prop where
  wellFormed : g.WellFormed
  next_le : f.next ≤ g.next
  get?_old : ∀ k, k < f.next → k ≠ parent → g.get? k = f.get? k
  get?_parent : ∃ new, (∀ k ∈ new, k ≥ f.next) ∧
    g.get? parent = (f.get? parent).map fun c => { c with children := c.children ++ new }
  fresh : ∀ {k c}, k ≥ f.next → g.get? k = some c →
    c.Plain ∧ ∃ p, c.parent = some p ∧ (p = parent ∨ p ≥ f.next)

namespace Grows

theorem refl (wf : f.WellFormed) (parent : Handle) : f.Grows parent f where
  wellFormed := wf
  next_le := Nat.le_refl _
  get?_old _ _ _ := rfl
  get?_parent := ⟨[], nofun, by simp⟩
  fresh new live := by simp [get?_eq_none_of_next_le new] at live

theorem contains_eq (grows : f.Grows p g) (k : Handle) (old : k < f.next) :
    g.contains k = f.contains k := by
  by_cases top : k = p
  · obtain ⟨new, -, parent⟩ := grows.get?_parent
    subst top
    simp [contains, parent]
  · simp [contains, grows.get?_old k old top]

theorem toExtends (grows : f.Grows p g) : f.Extends g :=
  ⟨grows.wellFormed, grows.next_le, grows.contains_eq⟩

theorem contains (grows : f.Grows p g) (live : f.contains p = true) : g.contains p = true :=
  grows.toExtends.contains live

theorem trans (first : e.Grows p f) (second : f.Grows p g) (old : p < e.next) : e.Grows p g where
  wellFormed := second.wellFormed
  next_le := Nat.le_trans first.next_le second.next_le
  get?_old k old other := by
    rw [second.get?_old k (Nat.lt_of_lt_of_le old first.next_le) other, first.get?_old k old other]
  get?_parent := by
    obtain ⟨new, late, parent⟩ := first.get?_parent
    obtain ⟨more, later, parent'⟩ := second.get?_parent
    refine ⟨new ++ more, ?_, ?_⟩
    · intro k mem
      rcases List.mem_append.mp mem with mem | mem
      · exact late k mem
      · exact Nat.le_trans first.next_le (later k mem)
    · rw [parent', parent]
      cases e.get? p <;> simp
  fresh {k c} new live := by
    rcases Nat.lt_or_ge k f.next with early | late
    · have other : k ≠ p := (Nat.ne_of_lt (Nat.lt_of_lt_of_le old new)).symm
      rw [second.get?_old k early other] at live
      exact first.fresh new live
    · obtain ⟨plain, q, parent, above⟩ := second.fresh late live
      exact ⟨plain, q, parent, above.imp_right (Nat.le_trans first.next_le)⟩

/-- An old concept is there still, with no more than new children. -/
theorem get?_of_get? (grows : f.Grows p g) {c : Concept} (live : f.get? k = some c) :
    ∃ d, g.get? k = some d ∧ d.parent = c.parent ∧ d.unplaced = c.unplaced := by
  by_cases top : k = p
  · subst top
    obtain ⟨new, -, parent⟩ := grows.get?_parent
    rw [live] at parent
    exact ⟨_, parent, rfl, rfl⟩
  · exact ⟨c, by rw [grows.get?_old k (lt_next_of_get? live) top, live], rfl, rfl⟩

/-- A concept is an old one with no more than new children, or plain and below others. -/
theorem get?_cases (grows : f.Grows p g) {d : Concept} (live : g.get? k = some d) :
    (∃ c, f.get? k = some c ∧ d.parent = c.parent ∧ d.unplaced = c.unplaced) ∨
      k ≥ f.next ∧ d.Plain ∧ ∃ q, d.parent = some q ∧ (q = p ∨ q ≥ f.next) := by
  rcases Nat.lt_or_ge k f.next with old | new
  · have was : f.contains k = true := grows.contains_eq k old ▸ contains_of_get? live
    obtain ⟨c, was⟩ := contains_iff.mp was
    obtain ⟨e, found, same⟩ := grows.get?_of_get? was
    obtain rfl := Option.some.inj (found.symm.trans live)
    exact .inl ⟨c, was, same⟩
  · exact .inr ⟨new, grows.fresh new live⟩

/-- A plain concept without children is the least that can be built. -/
theorem of_created (wf : f.WellFormed) (plain : spec.Plain) (alone : spec.children = [])
    (parent : spec.parent = some p) (live : f.contains p = true) (admits : f.Admits spec) :
    f.Grows p (f.created spec) where
  wellFormed := wf.created admits
  next_le := (extends_created wf admits).next_le
  get?_old k old other := by
    rw [get?_created alone parent live, if_neg (Nat.ne_of_lt old), if_neg other]
  get?_parent := by
    have ne : p ≠ f.next := Nat.ne_of_lt (lt_next_of_contains live)
    refine ⟨[f.next], by simp, ?_⟩
    rw [get?_created alone parent live, if_neg ne, if_pos rfl]
  fresh {k c} new found := by
    rw [get?_created alone parent live] at found
    split at found
    · obtain rfl := Option.some.inj found
      exact ⟨(plain.toConcept f.next).placed _ _, p, rfl, .inl rfl⟩
    · have other : k ≠ p := by
        rintro rfl
        exact Nat.not_lt.mpr new (lt_next_of_contains live)
      rw [if_neg other, get?_eq_none_of_next_le new] at found
      cases found

/-- What is built under a concept that has just been built is built under the parent of that. -/
theorem below (first : e.Grows p f) (second : f.Grows h g) (old : p < e.next) (new : h ≥ e.next) :
    e.Grows p g where
  wellFormed := second.wellFormed
  next_le := Nat.le_trans first.next_le second.next_le
  get?_old k old other := by
    have ne : k ≠ h := Nat.ne_of_lt (Nat.lt_of_lt_of_le old new)
    rw [second.get?_old k (Nat.lt_of_lt_of_le old first.next_le) ne, first.get?_old k old other]
  get?_parent := by
    have ne : p ≠ h := Nat.ne_of_lt (Nat.lt_of_lt_of_le old new)
    rw [second.get?_old p (Nat.lt_of_lt_of_le old first.next_le) ne]
    exact first.get?_parent
  fresh {k c} late live := by
    have above : ∀ {q : Handle}, q ≥ f.next → q = p ∨ q ≥ e.next := by
      intro q late
      exact .inr (Nat.le_trans first.next_le late)
    by_cases top : k = h
    · -- the concept built first has got children, and is what it was else
      subst top
      obtain ⟨more, -, parent⟩ := second.get?_parent
      obtain ⟨d, was, rfl⟩ := Option.map_eq_some_iff.mp (parent.symm.trans live)
      obtain ⟨plain, q, owner, above⟩ := first.fresh late was
      exact ⟨plain.placed d.parent _, q, owner, above⟩
    · rcases Nat.lt_or_ge k f.next with early | later
      · rw [second.get?_old k early top] at live
        exact first.fresh late live
      · obtain ⟨plain, q, owner, rfl | higher⟩ := second.fresh later live
        · exact ⟨plain, q, owner, .inr new⟩
        · exact ⟨plain, q, owner, above higher⟩

/-- A new concept may be changed as long as it stays plain and in its place. -/
theorem update (grows : f.Grows p g) (old : p < f.next) (new : h ≥ f.next)
    {change : Concept → Concept} (keeps : KeepsPlace change)
    (plain : ∀ c, c.handle = h → c.Plain → (change c).Plain) :
    f.Grows p (g.update h change) where
  wellFormed := grows.wellFormed.update h keeps
  next_le := by rw [next_update]; exact grows.next_le
  get?_old k old other := by
    rw [get?_update, if_neg (Nat.ne_of_lt (Nat.lt_of_lt_of_le old new)), grows.get?_old k old other]
  get?_parent := by
    rw [get?_update, if_neg (Nat.ne_of_lt (Nat.lt_of_lt_of_le old new))]
    exact grows.get?_parent
  fresh {k c} late live := by
    rw [get?_update] at live
    split at live
    · next same =>
      subst same
      obtain ⟨d, was, rfl⟩ := Option.map_eq_some_iff.mp live
      obtain ⟨was_plain, q, owner, above⟩ := grows.fresh late was
      refine ⟨plain d (grows.wellFormed.handle_eq was) was_plain, q, ?_, above⟩
      rw [keeps.parent_eq, owner]
    · exact grows.fresh late live

end Grows

end Forest

/-! ### Building, step by step -/

namespace Build

variable {f : Forest} {parent : Handle} {registry : Registry}

/-- There is an analyzer for each of the snippets. -/
def Resolves (registry : Registry) (snippets : List Snippet) : Prop :=
  ∀ s ∈ snippets, ∃ a, registry.resolve s.tag = some a

theorem resolves_append {ss ts : List Snippet} :
    Resolves registry (ss ++ ts) ↔ Resolves registry ss ∧ Resolves registry ts := by
  simp only [Resolves, List.mem_append, or_imp, forall_and]

theorem analyzerFor_of_resolve {s : Snippet} {a : Analyzer}
    (found : registry.resolve s.tag = some a) : analyzerFor registry s = .ok a := by
  simp [analyzerFor, found]

theorem checkSnippets_iff {snippets : List Snippet} :
    checkSnippets registry snippets = .ok () ↔ Resolves registry snippets := by
  induction snippets with
  | nil => simp [checkSnippets, Resolves]
  | cons s rest ih =>
    have first : (∃ a, analyzerFor registry s = .ok a) ↔ ∃ a, registry.resolve s.tag = some a := by
      simp only [analyzerFor]
      cases registry.resolve s.tag <;> simp
    simp only [checkSnippets, bind_eq_ok_iff, exists_and_right, ih, first, Resolves, List.mem_cons,
      forall_eq_or_imp]

/-- The definition that a snippet is made into belongs to the concept that gets it. -/
theorem plain_define {c : Concept} (plain : c.Plain) {d : Definition} (own : d.owner = c.handle) :
    { c with context := { c.context with definition? := some d } }.Plain := by
  refine { plain with owner_eq := ?_ }
  intro e given
  obtain rfl := Option.some.inj given
  exact own

/-- A concept without children is created under any live parent. -/
theorem admits_of_alone {spec : NewConcept} (alone : spec.children = [])
    (parent_eq : spec.parent = some parent) (live : f.contains parent = true) : f.Admits spec where
  contains_parent p eq := by rwa [← Option.some.inj (parent_eq.symm.trans eq)]
  contains child mem := by simp [alone] at mem
  nodup := by simp [alone]
  ne_parent p _ child mem := by simp [alone] at mem
  notOwner p _ child mem := by simp [alone] at mem

theorem contains_next_created (f : Forest) (spec : NewConcept) :
    (f.created spec).contains f.next = true := by
  simp

/-- The concept has the given children behind those it had. -/
def Gets (f g : Forest) (parent : Handle) (hs : List Handle) : Prop :=
  g.get? parent = (f.get? parent).map fun c => { c with children := c.children ++ hs }

theorem gets_created {spec : NewConcept} (alone : spec.children = [])
    (parent_eq : spec.parent = some parent) (live : f.contains parent = true) :
    Gets f (f.created spec) parent [f.next] := by
  have ne : parent ≠ f.next := Nat.ne_of_lt (Forest.lt_next_of_contains live)
  rw [Gets, Forest.get?_created alone parent_eq live, if_neg ne, if_pos rfl]

theorem get?_next_created {spec : NewConcept} (alone : spec.children = [])
    (parent_eq : spec.parent = some parent) (live : f.contains parent = true) :
    (f.created spec).get? f.next = some { spec.toConcept f.next with parent := some parent } := by
  rw [Forest.get?_created alone parent_eq live, if_pos rfl]

theorem create_of_plain (wf : f.WellFormed) (spec : NewConcept) (plain : spec.Plain)
    (alone : spec.children = []) (parent_eq : spec.parent = some parent)
    (live : f.contains parent = true) :
    step (Edit.create spec) f = .ok f.next (f.created spec) ∧
      f.Grows parent (f.created spec) := by
  have admits := admits_of_alone alone parent_eq live
  constructor
  · exact adaptExcept_of_ok (Edit.create_of_admits wf admits)
  · exact .of_created wf plain alone parent_eq live admits

/-- What is built of a concept and the symbols below it, behind the concept, are the symbols. -/
theorem buildSymbols_of_headed {g : Forest} {h : Handle} {spec : NewConcept} {symbols : List Symbol}
    (created : step (Edit.create spec) f = .ok f.next (f.created spec))
    (built : (do
      let h ← step (Edit.create spec)
      buildSymbols registry h symbols
      return h : Edit BuildError Handle) f = .ok h g) :
    h = f.next ∧ buildSymbols registry f.next symbols (f.created spec) = .ok () g := by
  rw [bind_of_ok created] at built
  obtain ⟨_, d, below, done⟩ := exists_of_bind_eq_ok built
  obtain ⟨⟩ : EStateM.Result.ok f.next d = .ok h g := done
  exact ⟨rfl, below⟩

theorem buildSnippet_eq (wf : f.WellFormed) (live : f.contains parent = true) {s : Snippet}
    {a : Analyzer} (found : registry.resolve s.tag = some a) :
    buildSnippet registry parent s f = .ok f.next
      ((f.created (snippetConcept parent a s)).update f.next fun c =>
        { c with context := { c.context with definition? := some (.ofScript f.next a s.body) } }) := by
  have created :=
    (create_of_plain wf (snippetConcept parent a s) ⟨nofun, rfl, rfl⟩ rfl rfl live).1
  have there := contains_next_created f (snippetConcept parent a s)
  obtain ⟨c, there⟩ := Forest.contains_iff.mp there
  have defined : step (Edit.bindDefinition f.next (.ofScript f.next a s.body)) _ = .ok _ _ :=
    adaptExcept_of_ok (Edit.bindDefinition_of_get? there _)
  have analyzer : ask (fun _ => analyzerFor registry s) f = .ok a f :=
    ask_of_ok _ (analyzerFor_of_resolve found)
  exact (bind_of_ok analyzer).trans ((bind_of_ok created).trans (bind_of_ok defined))

theorem buildSnippet_of_resolve (wf : f.WellFormed) (live : f.contains parent = true) {s : Snippet}
    {a : Analyzer} (found : registry.resolve s.tag = some a) :
    ∃ g, buildSnippet registry parent s f = .ok f.next g ∧ f.Grows parent g := by
  obtain ⟨-, grows⟩ :=
    create_of_plain wf (snippetConcept parent a s) ⟨nofun, rfl, rfl⟩ rfl rfl live
  refine ⟨_, buildSnippet_eq wf live found, ?_⟩
  apply grows.update (Forest.lt_next_of_contains live) (Nat.le_refl _)
  · exact Forest.keepsPlace_context _
  · intro c same plain
    exact plain_define plain same.symm

mutual

theorem buildSymbol_of_resolves {f : Forest} {parent : Handle} (wf : f.WellFormed)
    (live : f.contains parent = true) (symbol : Symbol)
    (resolves : Resolves registry symbol.snippets) :
    ∃ g, buildSymbol registry parent symbol f = .ok f.next g ∧ f.Grows parent g := by
  match symbol with
  | .token text =>
    exact ⟨_, create_of_plain wf (tokenConcept parent text) ⟨nofun, rfl, rfl⟩ rfl rfl live⟩
  | .block symbols =>
    obtain ⟨created, grows⟩ :=
      create_of_plain wf (statementConcept parent) ⟨nofun, rfl, rfl⟩ rfl rfl live
    obtain ⟨g, built, below⟩ := buildSymbols_of_resolves grows.wellFormed
      (contains_next_created f _) symbols resolves
    refine ⟨g, ?_, grows.below below (Forest.lt_next_of_contains live) (Nat.le_refl _)⟩
    rw [buildSymbol, bind_of_ok created]
    exact bind_of_ok built
  | .snippet s =>
    obtain ⟨a, found⟩ := resolves s List.mem_cons_self
    exact buildSnippet_of_resolve wf live found

theorem buildSymbols_of_resolves {f : Forest} {parent : Handle} (wf : f.WellFormed)
    (live : f.contains parent = true) (symbols : List Symbol)
    (resolves : Resolves registry (Grammar.snippetsOfSymbols symbols)) :
    ∃ g, buildSymbols registry parent symbols f = .ok () g ∧ f.Grows parent g := by
  match symbols with
  | [] => exact ⟨f, rfl, .refl wf parent⟩
  | symbol :: rest =>
    obtain ⟨first, others⟩ := resolves_append.mp resolves
    obtain ⟨g, built, grows⟩ := buildSymbol_of_resolves wf live symbol first
    obtain ⟨e, all, more⟩ :=
      buildSymbols_of_resolves grows.wellFormed (grows.contains live) rest others
    refine ⟨e, ?_, grows.trans more (Forest.lt_next_of_contains live)⟩
    rw [buildSymbols, bind_of_ok built]
    exact all

end

/-- What an expression makes of a forest: a command becomes a concept of its own kind with its
arguments under it. -/
def Built (f : Forest) (parent : Handle) : Expression → Forest → Prop
  | .command name args, g => (f.created (commandConcept parent name args f.next)).Grows f.next g
  | _, g => f.Grows parent g

theorem admits_commandConcept (live : f.contains parent = true) (name : String)
    (args : List Symbol) (tag : Nat) : f.Admits (commandConcept parent name args tag) :=
  admits_of_alone rfl rfl live

theorem Built.toExtends (wf : f.WellFormed) (live : f.contains parent = true) {e : Expression}
    {g : Forest} (built : Built f parent e g) : f.Extends g := by
  cases e with
  | command name args =>
    have admits := admits_commandConcept live name args f.next
    exact (Forest.extends_created wf admits).trans (Forest.Grows.toExtends built)
  | statement | snippet => exact Forest.Grows.toExtends built

theorem buildExpression_of_resolves (wf : f.WellFormed) (live : f.contains parent = true)
    (e : Expression) (resolves : Resolves registry e.snippets) :
    ∃ g, buildExpression registry parent e f = .ok f.next g ∧ Built f parent e g := by
  cases e with
  | statement symbols =>
    obtain ⟨created, grows⟩ :=
      create_of_plain wf (statementConcept parent) ⟨nofun, rfl, rfl⟩ rfl rfl live
    obtain ⟨g, built, below⟩ := buildSymbols_of_resolves grows.wellFormed
      (contains_next_created f _) symbols resolves
    exact ⟨g, (bind_of_ok created).trans (bind_of_ok built),
      grows.below below (Forest.lt_next_of_contains live) (Nat.le_refl _)⟩
  | command name args =>
    have admits := admits_commandConcept live name args f.next
    have created : step (Edit.create (commandConcept parent name args f.next)) f = .ok _ _ :=
      adaptExcept_of_ok (Edit.create_of_admits wf admits)
    obtain ⟨g, built, below⟩ := buildSymbols_of_resolves (wf.created admits)
      (contains_next_created f _) args resolves
    refine ⟨g, ?_, below⟩
    exact (bind_of_ok (run_get f)).trans ((bind_of_ok created).trans (bind_of_ok built))
  | snippet s =>
    obtain ⟨a, found⟩ := resolves s List.mem_cons_self
    exact buildSnippet_of_resolve wf live found

theorem buildExpressions_of_resolves (wf : f.WellFormed) (live : f.contains parent = true)
    (es : List Expression) (resolves : Resolves registry (es.flatMap Expression.snippets)) :
    ∃ hs g, buildExpressions registry parent es f = .ok hs g ∧ f.Extends g := by
  induction es generalizing f with
  | nil => exact ⟨[], f, rfl, .refl wf⟩
  | cons e es ih =>
    obtain ⟨first, others⟩ := resolves_append.mp resolves
    obtain ⟨g, built, shape⟩ := buildExpression_of_resolves wf live e first
    have more := shape.toExtends wf live
    obtain ⟨hs, d, rest, last⟩ := ih more.wellFormed (more.contains live) others
    exact ⟨f.next :: hs, d, (bind_of_ok built).trans (bind_of_ok rest), more.trans last⟩

end Build

/-! ### Whole buildings -/

namespace Edit

open Build (Resolves Built)
open Forest (ask_node_of_get? ask_node_of_get?_eq_none)

variable {f : Forest} {parent : Handle} {registry : Registry}

/-- Once the parent and the snippets have been looked at, the building goes on. -/
theorem checked_eq {α : Type} (live : f.contains parent = true) {snippets : List Snippet}
    (resolves : Resolves registry snippets) (building : Edit BuildError α) :
    (do
      let _ ← Build.step <| ask (Forest.node · parent)
      ask fun _ => Build.checkSnippets registry snippets
      building : Edit BuildError α) f = building f := by
  obtain ⟨c, there⟩ := Forest.contains_iff.mp live
  have node : Build.step (ask (Forest.node · parent)) f = .ok c f :=
    adaptExcept_of_ok (ask_node_of_get? there)
  have passed : ask (fun _ => Build.checkSnippets registry snippets) f = .ok () f :=
    ask_of_ok _ (Build.checkSnippets_iff.mpr resolves)
  exact (bind_of_ok node).trans (bind_of_ok passed)

/-- Once the parent and the snippets have been looked at, an expression is built. -/
theorem buildOne_eq (live : f.contains parent = true) {e : Expression}
    (resolves : Resolves registry e.snippets) :
    buildOne registry parent e f = Build.buildExpression registry parent e f :=
  checked_eq live resolves _

/-- Once the parent and the snippets have been looked at, a program is built. -/
theorem build_eq (live : f.contains parent = true) {program : Program}
    (resolves : Resolves registry program.snippets) :
    build registry parent program f =
      Build.buildExpressions registry parent program.expressions f :=
  checked_eq live resolves _

theorem buildOne_of_resolves (wf : f.WellFormed) (live : f.contains parent = true) (e : Expression)
    (resolves : Resolves registry e.snippets) :
    ∃ g, buildOne registry parent e f = .ok f.next g ∧ Built f parent e g := by
  obtain ⟨g, built, shape⟩ := Build.buildExpression_of_resolves wf live e resolves
  exact ⟨g, (buildOne_eq live resolves).trans built, shape⟩

/-- A building checks the parent and the snippets before it makes anything. -/
theorem checked_cases {α : Type} (snippets : List Snippet) (building : Edit BuildError α)
    (f : Forest) :
    let checked : Edit BuildError α := do
      let _ ← Build.step <| ask (Forest.node · parent)
      ask fun _ => Build.checkSnippets registry snippets
      building
    (∃ e, checked f = .error e f) ∨
      f.contains parent = true ∧ Resolves registry snippets ∧ checked f = building f := by
  intro checked
  cases there : f.get? parent with
  | none =>
    exact .inl ⟨_, bind_of_error (adaptExcept_of_error (ask_node_of_get?_eq_none there))⟩
  | some c =>
    have node : Build.step (ask (Forest.node · parent)) f = .ok c f :=
      adaptExcept_of_ok (ask_node_of_get? there)
    cases check : Build.checkSnippets registry snippets with
    | error e =>
      have refused : ask (fun _ => Build.checkSnippets registry snippets) f = .error e f :=
        ask_of_error _ check
      exact .inl ⟨e, (bind_of_ok node).trans (bind_of_error refused)⟩
    | ok _ =>
      have live := Forest.contains_of_get? there
      have resolves := Build.checkSnippets_iff.mp check
      exact .inr ⟨live, resolves, checked_eq live resolves building⟩

theorem buildOne_cases (wf : f.WellFormed) (registry : Registry) (parent : Handle)
    (e : Expression) :
    (∃ error, buildOne registry parent e f = .error error f) ∨
      f.contains parent = true ∧
        ∃ g, buildOne registry parent e f = .ok f.next g ∧ Built f parent e g := by
  rcases checked_cases e.snippets (Build.buildExpression registry parent e) f with
    refused | ⟨live, resolves, same⟩
  · exact .inl refused
  · obtain ⟨g, built, shape⟩ := Build.buildExpression_of_resolves wf live e resolves
    exact .inr ⟨live, g, same.trans built, shape⟩

theorem build_cases (wf : f.WellFormed) (registry : Registry) (parent : Handle)
    (program : Program) :
    (∃ error, build registry parent program f = .error error f) ∨
      ∃ hs g, build registry parent program f = .ok hs g ∧ f.Extends g := by
  rcases checked_cases program.snippets
      (Build.buildExpressions registry parent program.expressions) f with
    refused | ⟨live, resolves, same⟩
  · exact .inl refused
  · obtain ⟨hs, g, built, more⟩ :=
      Build.buildExpressions_of_resolves wf live program.expressions resolves
    exact .inr ⟨hs, g, same.trans built, more⟩

/-- A text that can be read is built as the program that it is. -/
theorem buildText_eq {text : String} {program : Program}
    (parsed : Program.parse text = .ok program) :
    buildText registry parent text f = build registry parent program f := by
  have read : ask (fun _ : Forest => (Program.parse text).mapError BuildError.grammar) f =
      .ok program f := ask_of_ok _ (by rw [parsed]; rfl)
  exact bind_of_ok read

/-- Nothing is built of a text that cannot be read. -/
theorem buildText_of_parse_error {text : String} {reason : Grammar.GrammarError}
    (unreadable : Program.parse text = .error reason) :
    buildText registry parent text f = .error (.grammar reason) f := by
  have refused : ask (fun _ : Forest => (Program.parse text).mapError BuildError.grammar) f =
      .error (.grammar reason) f := ask_of_error _ (by rw [unreadable]; rfl)
  exact bind_of_error refused

theorem buildText_cases (wf : f.WellFormed) (registry : Registry) (parent : Handle)
    (text : String) :
    (∃ error, buildText registry parent text f = .error error f) ∨
      ∃ hs g, buildText registry parent text f = .ok hs g ∧ f.Extends g := by
  cases parsed : Program.parse text with
  | error reason => exact .inl ⟨_, buildText_of_parse_error parsed⟩
  | ok program =>
    rw [buildText_eq parsed]
    exact build_cases wf registry parent program

end Edit

end ConceptForest
