import ConceptForest.Proofs.Forest.Regrouping
import ConceptForest.Proofs.Forest.Requests
import ConceptForest.Proofs.Forest.Uppermost

/-!
What a look-up finds.

A concept that binds a name hides from view whatever is bound to the name below it. So from a concept
are seen the bindings of the uppermost concepts that bind the name, in the order of a walk down, each
with the way that leads to it (`Sees`).

* `Shows.sees_lookup` — a look-up in a tree finds what is seen from its top.
* `lookup_exact` — a look-up from a live concept finds what is seen from there, in all forests that
  requests have made of the empty one.
-/

namespace ConceptForest

/-- Does the concept itself bind the name? -/
def Concept.binds (name : String) (c : Concept) : Bool :=
  (c.context.get? name).isSome

namespace Forest

variable {f : Forest} {origin d : Handle} {name : String} {t : Tree}

/-- The value that a concept itself gives to a name. -/
def ownValue? (f : Forest) (h : Handle) (name : String) : Option Value :=
  (f.get? h).bind fun c => c.context.get? name

theorem has_binds_iff : f.Has (Concept.binds name) d ↔ f.ownValue? d name ≠ none := by
  rw [Has, ownValue?]
  cases f.get? d with
  | none => simp
  | some c => simp [Concept.binds, Option.isSome_iff_ne_none]

/-- The concepts on the way down from one to another, both included: each is the parent of the
next. -/
inductive Way (f : Forest) : Handle → Handle → List Handle → Prop where
  | here {d : Handle} : Way f d d [d]
  | down {top x d : Handle} {path : List Handle} (owned : f.parent? x = some top)
    (way : Way f x d path) : Way f top d (top :: path)

/-- The binding is the one that the concept `d` gives to the name, with the way down to it. -/
structure BindsAs (f : Forest) (origin : Handle) (name : String) (d : Handle) (b : Binding) :
    Prop where
  way : f.Way origin d b.path
  name_eq : b.name = name
  value_eq : f.ownValue? d name = some b.value

/-- The bindings of a name that are seen from a concept: one of each visible concept that binds the
name, in the order of a walk down. A concept that binds the name hides what it owns. -/
def Sees (f : Forest) (origin : Handle) (name : String) (bs : List Binding) : Prop :=
  ∃ ds : List Handle, ds.Pairwise f.Precedes ∧ ds.Nodup ∧
    (∀ d, d ∈ ds ↔ f.Visible (fun a => f.ownValue? a name ≠ none) origin d ∧
      f.ownValue? d name ≠ none) ∧
    List.Forall₂ (f.BindsAs origin name) ds bs

/-- A look-up finds the bindings of the uppermost concepts that bind the name. -/
theorem Shows.bindsAs_lookup (wf : f.WellFormed) (shows : f.Shows t) :
    List.Forall₂ (f.BindsAs t.handle name) ((t.uppermost (Concept.binds name)).map Tree.handle)
      (t.lookup name) := by
  induction shows with
  | @node h c ts live children below ih =>
    have shows : f.Shows (.node h c ts) := .node live children below
    cases bound : c.context.get? name with
    | some value =>
      have stops : c.binds name = true := by simp [Concept.binds, bound]
      rw [Tree.uppermost_of_kind ts stops, Tree.lookup, bound]
      refine .cons ⟨.here, rfl, ?_⟩ .nil
      simp [Tree.handle, ownValue?, live, bound]
    | none =>
      have goes : c.binds name = false := by simp [Concept.binds, bound]
      rw [Tree.uppermost_of_not_kind ts goes, Tree.lookup, bound, Tree.lookupAll_eq_flatMap,
        List.map_flatMap, List.map_flatMap]
      apply List.rel_flatMap (R := fun s u => s = u ∧ s ∈ ts)
      · exact List.forall₂_same.mpr fun s child => ⟨rfl, child⟩
      · rintro s _ ⟨rfl, child⟩
        rw [List.forall₂_map_right_iff]
        refine (ih s child).imp ?_
        rintro d b ⟨way, name_eq, value_eq⟩
        exact ⟨.down (shows.parent?_of_mem_children wf child) way, name_eq, value_eq⟩

/-- A look-up in the tree of a concept finds what is seen from there. -/
theorem Shows.sees_lookup (wf : f.WellFormed) (shows : f.Shows t) (name : String) :
    f.Sees t.handle name (t.lookup name) := by
  have order := shows.pairwise_uppermost wf (Concept.binds name)
  have has : f.Has (Concept.binds name) = fun a => f.ownValue? a name ≠ none :=
    funext fun a => propext has_binds_iff
  refine ⟨_, order, order.imp fun precedes => precedes.ne wf, ?_, shows.bindsAs_lookup wf⟩
  intro d
  rw [shows.mem_uppermost_iff wf, has]

/-- A look-up from a live concept is granted and finds what is seen from there. -/
theorem exists_lookup (wf : f.WellFormed) (live : f.contains origin = true) (name : String) :
    ∃ bs, f.lookup origin name = .ok bs ∧ f.Sees origin name bs := by
  obtain ⟨t, found, shows, rfl⟩ := exists_tree wf live
  refine ⟨t.lookup name, ?_, shows.sees_lookup wf name⟩
  rw [Forest.lookup, found]
  rfl

/-- What a concept binds itself hides all below it. -/
theorem lookup_own (wf : f.WellFormed) {c : Concept} (live : f.get? d = some c) {value : Value}
    (bound : c.context.get? name = some value) : f.lookup d name = .ok [⟨[d], name, value⟩] := by
  obtain ⟨ts, found, -, -⟩ := exists_node wf live
  rw [Forest.lookup, found]
  simp only [ok_bind, Tree.lookup, bound]
  rfl

/-- A look-up from a live concept finds the visible bindings of the name, in any forest that requests
have made of the empty one: it finds one of each concept under the origin that binds the name, if no
concept from the origin down to its parent does, with its value and the way down to it, in the order
of a walk down. -/
theorem lookup_exact (requests : List Request) (origin : Handle) (name : String)
    (live : (({} : Forest).afterAll requests).contains origin = true) :
    let f := ({} : Forest).afterAll requests
    ∃ bs, f.lookup origin name = .ok bs ∧ f.Sees origin name bs := by
  intro f
  have wf : f.WellFormed := (evolves_afterAll wellFormed_empty requests).wellFormed
  exact exists_lookup wf live name

/-- The first statement hides what its symbol binds; in the second one only the symbol binds the
name. -/
theorem lookup_exact_statements :
    let below (parent : Handle) (kind : Kind) : Request :=
      .create { kind, parent := some parent }
    let f := ({} : Forest).afterAll [.create { kind := .root }, below 0 .statement, below 1 .symbol,
      below 0 .statement, below 3 .symbol, .bind 1 "x" (.literal "1"), .bind 2 "x" (.literal "2"),
      .bind 4 "x" (.concept 2)]
    let bs : List Binding := [⟨[0, 1], "x", .literal "1"⟩, ⟨[0, 3, 4], "x", .concept 2⟩]
    f.contains 0 = true ∧ f.lookup 0 "x" = .ok bs ∧ f.Sees 0 "x" bs := by
  intro below f bs
  have live : f.contains 0 = true := by decide +kernel
  have looked : f.lookup 0 "x" = .ok bs := by decide +kernel
  obtain ⟨bs', looked', sees⟩ := lookup_exact _ 0 "x" live
  obtain rfl : bs = bs' := Except.ok.inj (looked.symm.trans looked')
  exact ⟨live, looked, sees⟩

end Forest

end ConceptForest
