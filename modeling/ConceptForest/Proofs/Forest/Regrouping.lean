import ConceptForest.Forest.WellDefined
import ConceptForest.Proofs.Forest.Descent
import ConceptForest.Proofs.Steps

/-!
Concepts that are only grouped anew.

`Tree.Regrouped` relates rows of trees where concepts without a context have been put over
neighbours. Nothing that looks through such concepts can tell the one row from the other: not a
look-up (`Regrouped.lookupAll_eq`), not the judgement on what concepts are made of
(`Regrouped.judgeAll_same`), and not the row of the leaves (`Regrouped.leaves_eq`).

* `sameContent_of_regroups` — where every concept has the same context and what it owns is only
  grouped anew, the content of all concepts is the same.
-/

namespace ConceptForest

/-- The binding, with nothing of its path but the concept that binds the name. -/
def Binding.withoutPath (b : Binding) : Binding :=
  { b with path := b.owner?.toList }

/-- The diagnostic, with nothing of the paths of its bindings but the concepts that bind. -/
def Diagnostic.withoutPaths : Diagnostic → Diagnostic
  | ambiguousBinding c name bindings =>
    ambiguousBinding c name (bindings.map Binding.withoutPath)
  | d => d

mutual

/-- The concepts that a definition and the definitions in it belong to. -/
def Definition.owners : Definition → List Handle
  | .undefined owner => [owner]
  | .script s => [s.owner]
  | .group owner inner => owner :: ownersOfAll inner

def Definition.ownersOfAll : List Definition → List Handle
  | [] => []
  | d :: ds => d.owners ++ ownersOfAll ds

end

namespace Tree

variable {name : String} {h : Handle} {c d : Concept} {ts ts' us us' run run' : List Tree}

/-- The leaves of a tree, from left to right. -/
def leaves (t : Tree) : List Handle :=
  (t.subtrees.filter fun s => s.children.isEmpty).map handle

theorem leaves_node (h : Handle) (c : Concept) (ts : List Tree) :
    (node h c ts).leaves = if ts = [] then [h] else ts.flatMap leaves := by
  have below : (subtreesAll ts).filter (fun s => s.children.isEmpty) =
      ts.flatMap fun t => t.subtrees.filter fun s => s.children.isEmpty := by
    rw [subtreesAll_eq_flatMap, List.filter_flatMap]
  split
  · next leaf => simp [leaves, subtrees, leaf, subtreesAll, children, handle]
  · next inner =>
    have top : (node h c ts).children.isEmpty = false := by simpa [children] using inner
    rw [leaves, subtrees, List.filter_cons, top, if_neg Bool.false_ne_true, below, List.map_flatMap]
    rfl

/-- The second row is the first one but for concepts without a context that have been put over
neighbours, at any depth. -/
inductive Regrouped : List Tree → List Tree → Prop where
  | nil : Regrouped [] []
  | cons {h : Handle} {c d : Concept} {ts ts' us us' : List Tree} (context : d.context = c.context)
    (inside : Regrouped ts ts') (rest : Regrouped us us') :
    Regrouped (node h c ts :: us) (node h d ts' :: us')
  | group {h : Handle} {c : Concept} {run run' us us' : List Tree} (bare : c.context = {})
    (some : run ≠ []) (inside : Regrouped run run') (rest : Regrouped us us') :
    Regrouped (run ++ us) (node h c run' :: us')

namespace Regrouped

theorem refl : (ts : List Tree) → Regrouped ts ts
  | [] => .nil
  | node _ _ us :: ts => .cons rfl (refl us) (refl ts)

theorem append (front : Regrouped ts ts') (rear : Regrouped us us') :
    Regrouped (ts ++ us) (ts' ++ us') := by
  induction front with
  | nil => exact rear
  | cons context inside _ _ ih => exact .cons context inside ih
  | group bare some inside _ _ ih =>
    rw [List.append_assoc]
    exact .group bare some inside ih

theorem nil_iff (regrouped : Regrouped ts ts') : ts = [] ↔ ts' = [] := by
  cases regrouped with
  | nil => simp
  | cons _ _ _ => simp
  | group _ some _ _ => simp [some]

end Regrouped

/-! ### Looking up -/

theorem path_ne_nil_of_mem_lookup {t : Tree} {b : Binding} (mem : b ∈ t.lookup name) :
    b.path ≠ [] := by
  cases t with
  | node h c ts =>
    unfold lookup at mem
    split at mem
    · rw [List.mem_singleton.mp mem]
      exact List.cons_ne_nil _ _
    · obtain ⟨b, -, rfl⟩ := List.mem_map.mp mem
      exact List.cons_ne_nil _ _

theorem lookupAll_eq_flatMap (name : String) (ts : List Tree) :
    lookupAll name ts = ts.flatMap (lookup name) := by
  induction ts with
  | nil => rfl
  | cons t ts ih => simp [lookupAll, ih]

theorem map_lookup_node (name : String) (h : Handle) (c : Concept) (ts : List Tree) :
    ((node h c ts).lookup name).map Binding.withoutPath =
      match c.context.get? name with
      | some value => [⟨[h], name, value⟩]
      | none => (lookupAll name ts).map Binding.withoutPath := by
  unfold lookup
  cases c.context.get? name with
  | some value => rfl
  | none =>
    simp only [List.map_map]
    apply List.map_congr_left
    intro b mem
    rw [lookupAll_eq_flatMap] at mem
    obtain ⟨t, -, found⟩ := List.mem_flatMap.mp mem
    have ne := path_ne_nil_of_mem_lookup found
    simp [Binding.withoutPath, Binding.owner?, List.getLast?_cons_of_ne_nil ne]

theorem Regrouped.lookupAll_eq (regrouped : Regrouped ts ts') (name : String) :
    (lookupAll name ts).map Binding.withoutPath = (lookupAll name ts').map Binding.withoutPath := by
  simp only [lookupAll_eq_flatMap]
  induction regrouped with
  | nil => rfl
  | cons context _ _ inside rest =>
    rw [List.flatMap_cons, List.flatMap_cons, List.map_append, List.map_append, rest,
      map_lookup_node, map_lookup_node, context]
    simp only [lookupAll_eq_flatMap, inside]
  | group bare _ _ _ inside rest =>
    rw [List.flatMap_append, List.flatMap_cons, List.map_append, List.map_append, rest, inside,
      map_lookup_node, bare]
    simp only [lookupAll_eq_flatMap]
    rfl

/-! ### Leaves -/

theorem Regrouped.leaves_eq (regrouped : Regrouped ts ts') :
    ts.flatMap leaves = ts'.flatMap leaves := by
  induction regrouped with
  | nil => rfl
  | cons _ below _ inside rest =>
    rw [List.flatMap_cons, List.flatMap_cons, leaves_node, leaves_node, inside, rest]
    simp only [below.nil_iff]
  | group _ some below _ inside rest =>
    rw [List.flatMap_append, List.flatMap_cons, leaves_node, inside, rest,
      if_neg (mt below.nil_iff.mpr some)]

end Tree

/-! ### Definitions -/

theorem definitionsAll_eq_map (ts : List Tree) : definitionsAll ts = ts.map Tree.definition := by
  induction ts with
  | nil => rfl
  | cons t ts ih => simp [definitionsAll, ih]

namespace Forest

variable {f g : Forest} {policy : GroupPolicy} {ts ts' : List Tree}

/-- Both judgements are given, and are the same up to the paths of the bindings in them. -/
def SameVerdict (x y : Except ForestError (List Diagnostic)) : Prop :=
  ∃ ds es, x = .ok ds ∧ y = .ok es ∧
    ds.map Diagnostic.withoutPaths = es.map Diagnostic.withoutPaths

/-- Under every live concept both forests find the same bindings of a name, up to their paths. -/
def SameBindings (f g : Forest) : Prop :=
  ∀ x, f.contains x = true → ∀ name, ∃ bs cs, f.lookup x name = .ok bs ∧ g.lookup x name = .ok cs ∧
    bs.map Binding.withoutPath = cs.map Binding.withoutPath

theorem SameVerdict.of_ok {ds : List Diagnostic} : SameVerdict (.ok ds) (.ok ds) :=
  ⟨ds, ds, rfl, rfl, rfl⟩

theorem judgeAll_append (f : Forest) (policy : GroupPolicy) (ds es : List Definition) :
    f.judgeAll policy (ds ++ es) = do
      let first ← f.judgeAll policy ds
      return first ++ (← f.judgeAll policy es) := by
  induction ds with
  | nil =>
    rw [List.nil_append, judgeAll, ok_bind]
    cases f.judgeAll policy es <;> rfl
  | cons d ds ih =>
    rw [List.cons_append, judgeAll, judgeAll, ih]
    cases f.judge policy d with
    | error => rfl
    | ok first =>
      cases f.judgeAll policy ds with
      | error => rfl
      | ok second =>
        cases f.judgeAll policy es with
        | error => rfl
        | ok rest => simp [pure, Except.pure]

theorem SameVerdict.append {x y x' y' : Except ForestError (List Diagnostic)}
    (first : SameVerdict x y) (rest : SameVerdict x' y') :
    SameVerdict (do let ds ← x; return ds ++ (← x')) (do let ds ← y; return ds ++ (← y')) := by
  obtain ⟨ds, es, rfl, rfl, same⟩ := first
  obtain ⟨ds', es', rfl, rfl, same'⟩ := rest
  exact ⟨ds ++ ds', es ++ es', rfl, rfl, by simp [same, same']⟩

theorem checkNames_same (bindings : SameBindings f g) {owner : Handle}
    (live : f.contains owner = true) (names : List String) :
    SameVerdict (f.checkNames owner names) (g.checkNames owner names) := by
  induction names with
  | nil => exact .of_ok
  | cons name names ih =>
    obtain ⟨bs, cs, found, found', same⟩ := bindings owner live name
    obtain ⟨ds, es, rest, rest', alike⟩ := ih
    simp only [SameVerdict, checkNames, found, found', rest, rest', ok_bind]
    have length := congrArg List.length same
    simp only [List.length_map] at length
    match bs, cs, length with
    | [], [], _ => exact ⟨_, _, rfl, rfl, by simp [alike]⟩
    | [_], [_], _ => exact ⟨_, _, rfl, rfl, alike⟩
    | _ :: _ :: _, _ :: _ :: _, _ =>
      refine ⟨_, _, rfl, rfl, ?_⟩
      rw [List.map_cons, List.map_cons, alike, Diagnostic.withoutPaths, same]
      rfl

theorem checkScript_same (bindings : SameBindings f g) {s : ScriptDefinition}
    (live : f.contains s.owner = true) : SameVerdict (f.checkScript s) (g.checkScript s) := by
  unfold checkScript
  split
  · exact .of_ok
  · exact checkNames_same bindings live _

mutual

theorem judge_same (bindings : SameBindings f g) (policy : GroupPolicy) :
    (d : Definition) → (∀ o ∈ d.owners, f.contains o = true) →
      SameVerdict (f.judge policy d) (g.judge policy d)
  | .undefined _, _ => .of_ok
  | .script s, live => checkScript_same bindings (live s.owner (List.mem_singleton_self _))
  | .group h inner, live => by
    cases policy with
    | never => exact .of_ok
    | conjunctive =>
      exact judgeAll_same bindings .conjunctive inner fun o mem =>
        live o (List.mem_cons_of_mem _ mem)

/-- Definitions that belong to live concepts are judged alike where the same bindings are found. -/
theorem judgeAll_same (bindings : SameBindings f g) (policy : GroupPolicy) :
    (ds : List Definition) → (∀ o ∈ Definition.ownersOfAll ds, f.contains o = true) →
      SameVerdict (f.judgeAll policy ds) (g.judgeAll policy ds)
  | [], _ => .of_ok
  | d :: ds, live =>
    .append (judge_same bindings policy d fun o mem => live o (List.mem_append_left _ mem))
      (judgeAll_same bindings policy ds fun o mem => live o (List.mem_append_right _ mem))

end

/-! ### What is made of the definitions of its children -/

/-- Every definition in the forest, and every one in it, belongs to a live concept. -/
def DefinitionsOwned (f : Forest) : Prop :=
  ∀ h c d, f.get? h = some c → c.context.definition? = some d →
    ∀ o ∈ d.owners, f.contains o = true

theorem definitionsOwned_iff : f.DefinitionsOwned ↔
    ∀ h ∈ f.handles, ∀ d ∈ (f.get? h).bind (·.context.definition?), ∀ o ∈ d.owners,
      f.contains o = true := by
  constructor
  · intro owned h _ d mem
    obtain ⟨c, live, own⟩ := Option.bind_eq_some_iff.mp mem
    exact owned h c d live own
  · intro owned h c d live own
    exact owned h (mem_handles.mpr (contains_of_get? live)) d
      (Option.bind_eq_some_iff.mpr ⟨c, live, own⟩)

instance : Decidable f.DefinitionsOwned :=
  decidable_of_iff' _ definitionsOwned_iff

theorem definition_of_inner {h : Handle} {c : Concept} (none : c.context.definition? = none)
    (inner : ts ≠ []) : (Tree.node h c ts).definition = .group h (definitionsAll ts) := by
  rw [Tree.definition, none]
  simp [inner]

section Regrouped

variable (bindings : SameBindings f g) (owned : f.DefinitionsOwned)

include bindings owned

/-- Under a policy by which its parts matter the parts of a concept must be judged alike. -/
theorem judge_node_same {h : Handle} {c d : Concept} (live : f.get? h = some c)
    (context : d.context = c.context) (leaf : ts = [] ↔ ts' = [])
    (parts : SameVerdict (f.judgeAll .conjunctive (definitionsAll ts))
      (g.judgeAll .conjunctive (definitionsAll ts'))) :
    SameVerdict (f.judge policy (Tree.node h c ts).definition)
      (g.judge policy (Tree.node h d ts').definition) := by
  cases own : c.context.definition? with
  | some definition =>
    simp only [Tree.definition, context, own]
    exact judge_same bindings policy definition (owned h c definition live own)
  | none =>
    by_cases inner : ts = []
    · simp only [Tree.definition, context, own, inner, leaf.mp inner]
      exact .of_ok
    · rw [definition_of_inner own inner, definition_of_inner (context ▸ own) (mt leaf.mpr inner)]
      cases policy with
      | never => exact .of_ok
      | conjunctive => exact parts

theorem judgeAll_regrouped (regrouped : Tree.Regrouped ts ts') (shown : ∀ t ∈ ts, f.Shows t) :
    SameVerdict (f.judgeAll .conjunctive (definitionsAll ts))
      (g.judgeAll .conjunctive (definitionsAll ts')) := by
  induction regrouped with
  | nil => exact .of_ok
  | cons context below _ inside rest =>
    obtain ⟨top, others⟩ := List.forall_mem_cons.mp shown
    cases top with
    | node live _ shown =>
      exact .append (judge_node_same bindings owned live context below.nil_iff (inside shown))
        (rest others)
  | group bare some below _ inside rest =>
    obtain ⟨members, others⟩ := List.forall_mem_append.mp shown
    have own : _ = none := congrArg Context.definition? bare
    rw [definitionsAll_eq_map, List.map_append, judgeAll_append, ← definitionsAll_eq_map,
      ← definitionsAll_eq_map, definitionsAll, judgeAll,
      definition_of_inner own (mt below.nil_iff.mpr some)]
    exact .append (inside members) (rest others)

end Regrouped

/-! ### Content -/

/-- The leaves under a concept, from left to right. -/
def leaves (f : Forest) (h : Handle) : Except ForestError (List Handle) :=
  return (← f.tree h).leaves

/-- What a concept contains is the same in both forests: which concepts bind a name to what, in the
same order, what is wrong with its definition, and the leaves under it. -/
structure SameContent (f g : Forest) (x : Handle) : Prop where
  lookup : ∀ name, ∃ bs cs, f.lookup x name = .ok bs ∧ g.lookup x name = .ok cs ∧
    bs.map (fun b => (b.owner?, b.value)) = cs.map fun b => (b.owner?, b.value)
  check : ∀ policy, SameVerdict (f.check policy x) (g.check policy x)
  leaves : ∃ hs, f.leaves x = .ok hs ∧ g.leaves x = .ok hs

/-- Every live concept keeps its context, and what it owns is only grouped anew. -/
def Regroups (f g : Forest) : Prop :=
  ∀ t, f.Shows t → ∃ d ts, g.Shows (.node t.handle d ts) ∧ d.context = t.concept.context ∧
    Tree.Regrouped t.children ts

theorem Regroups.refl (f : Forest) : f.Regroups f := by
  intro t shows
  cases t with
  | node h c ts => exact ⟨c, ts, shows, rfl, .refl ts⟩

theorem Regroups.exists_trees (wf : f.WellFormed) (wf' : g.WellFormed) (regroups : f.Regroups g)
    {x : Handle} (live : f.contains x = true) : ∃ c d ts ts', f.Shows (.node x c ts) ∧
      f.tree x = .ok (.node x c ts) ∧ g.tree x = .ok (.node x d ts') ∧ d.context = c.context ∧
        Tree.Regrouped ts ts' := by
  obtain ⟨t, found, shows, rfl⟩ := exists_tree wf live
  cases t with
  | node h c ts =>
    obtain ⟨d, ts', shows', context, regrouped⟩ := regroups _ shows
    exact ⟨c, d, ts, ts', shows, found, shows'.tree wf', context, regrouped⟩

theorem Regroups.sameBindings (wf : f.WellFormed) (wf' : g.WellFormed) (regroups : f.Regroups g) :
    SameBindings f g := by
  intro x live name
  obtain ⟨c, d, ts, ts', -, found, found', context, regrouped⟩ := regroups.exists_trees wf wf' live
  refine ⟨_, _, by rw [Forest.lookup, found]; rfl, by rw [Forest.lookup, found']; rfl, ?_⟩
  rw [Tree.map_lookup_node, Tree.map_lookup_node, context, regrouped.lookupAll_eq]

theorem owner?_withoutPath (b : Binding) : b.withoutPath.owner? = b.owner? := by
  change b.owner?.toList.getLast? = b.owner?
  cases b.owner? <;> rfl

/-- Where what concepts own is only grouped anew, their content stays the same. -/
theorem Regroups.sameContent (wf : f.WellFormed) (wf' : g.WellFormed) (regroups : f.Regroups g)
    (owned : f.DefinitionsOwned) {x : Handle} (live : f.contains x = true) : SameContent f g x := by
  have bindings := regroups.sameBindings wf wf'
  obtain ⟨c, d, ts, ts', shows, found, found', context, regrouped⟩ :=
    regroups.exists_trees wf wf' live
  constructor
  case lookup =>
    intro name
    obtain ⟨bs, cs, left, right, same⟩ := bindings x live name
    refine ⟨bs, cs, left, right, ?_⟩
    have told := congrArg (List.map fun b => (b.owner?, b.value)) same
    simp only [List.map_map, Function.comp_def, owner?_withoutPath] at told
    exact told
  case check =>
    intro policy
    rw [Forest.check, Forest.definition, found, Forest.check, Forest.definition, found']
    cases shows with
    | node top _ shown =>
      exact judge_node_same bindings owned top context regrouped.nil_iff
        (judgeAll_regrouped bindings owned regrouped shown)
  case leaves =>
    have same : (Tree.node x d ts').leaves = (Tree.node x c ts).leaves := by
      rw [Tree.leaves_node, Tree.leaves_node, regrouped.leaves_eq]
      simp only [regrouped.nil_iff]
    refine ⟨(Tree.node x c ts).leaves, ?_, ?_⟩
    · rw [Forest.leaves, found]
      rfl
    · rw [Forest.leaves, found', ← same]
      rfl

end Forest

end ConceptForest
