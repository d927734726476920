import ConceptForest.Proofs.Forest.Likeness

/-!
What a new text of a concept changes of what describes it.

Of its texts a concept loses only those that are rendered like the new one. So nothing that has
described a concept stops to do so, neither for the concept itself nor for those that own it; and an
expansion without the new text in it describes the same concepts as before.

* `hasText_named` — the texts of all concepts after one of them has been given a text.
* `isDescribed_mono` — an expansion goes on to describe concepts as long as these keep their
  children and the texts that are in it, by induction on the expansion.
* `addRepresentation_exact` — all about it, in all forests that can come about.
-/

namespace ConceptForest

mutual

/-- The texts in an expansion, from left to right. -/
def Expansion.leaves : Expansion → List String
  | .leaf text => [text]
  | .choice es => Expansion.leavesAll es
  | .sequence es => Expansion.leavesAll es

/-- The texts in expansions, from left to right. -/
def Expansion.leavesAll : List Expansion → List String
  | [] => []
  | e :: es => e.leaves ++ Expansion.leavesAll es

end

namespace Forest

variable {f g : Forest} {h k : Handle} {text : String} {items es : List Expansion}
  {run : List Handle} {r : Representation}

/-! ### Giving a text -/

/-- What becomes of a forest when a concept is given a representation. -/
def named (f : Forest) (h : Handle) (r : Representation) : Forest :=
  f.update h fun c => { c with representations := r :: c.representations.filter (!r.sameText ·) }

theorem addRepresentation_of_contains (live : f.contains h = true) (r : Representation) :
    f.addRepresentation h r = .ok (f.named h r) := by
  obtain ⟨c, live⟩ := contains_iff.mp live
  rw [addRepresentation, Edit.result, Edit.addRepresentation_of_get? live]
  rfl

theorem wellFormed_named (wf : f.WellFormed) (h : Handle) (r : Representation) :
    (f.named h r).WellFormed :=
  wf.update h (keepsPlace_addRepresentation r)

theorem get?_named_self {c : Concept} (live : f.get? h = some c) (r : Representation) :
    (f.named h r).get? h =
      some { c with representations := r :: c.representations.filter (!r.sameText ·) } := by
  rw [named, get?_update, if_pos rfl, live, Option.map_some]

theorem get?_named_of_ne (ne : k ≠ h) : (f.named h r).get? k = f.get? k := by
  rw [named, get?_update, if_neg ne]

/-- What is struck from the representations is rendered like the new one. -/
theorem exists_rendered_iff {rs : List Representation} :
    (∃ other ∈ r :: rs.filter (!r.sameText ·), other.rendered = text) ↔
      text = r.rendered ∨ ∃ other ∈ rs, other.rendered = text := by
  by_cases new : text = r.rendered
  · simp [new]
  · have kept : ∀ other : Representation, other.rendered = text → r.sameText other = false := by
      intro other same
      simp [Representation.sameText, same, Ne.symm new]
    simp only [List.mem_cons, List.mem_filter, Bool.not_eq_true', or_and_right, exists_or,
      exists_eq_left, new, Ne.symm new, false_or]
    exact exists_congr fun other => ⟨fun ⟨⟨mem, _⟩, same⟩ => ⟨mem, same⟩,
      fun ⟨mem, same⟩ => ⟨⟨mem, kept other same⟩, same⟩⟩

theorem hasText_named (live : f.contains h = true) :
    (f.named h r).HasText k text ↔ k = h ∧ text = r.rendered ∨ f.HasText k text := by
  obtain ⟨c, live⟩ := contains_iff.mp live
  by_cases same : k = h
  · subst same
    simp only [HasText, get?_named_self live, live, Option.some.injEq, exists_eq_left',
      exists_rendered_iff, true_and]
  · simp only [HasText, get?_named_of_ne same, same, false_and, false_or]

/-! ### What goes on to describe -/

theorem isDescribed_leaf_iff (wf : f.WellFormed) :
    f.isDescribed (.leaf text) k = true ↔ f.HasText k text := by
  rw [isDescribed_iff wf]
  constructor
  · rintro ⟨t, shows, rfl, describes⟩
    cases shows with
    | @node h c ts live =>
      obtain ⟨r, mem, same⟩ := List.any_eq_true.mp describes
      exact ⟨c, live, r, mem, eq_of_beq same⟩
  · rintro ⟨c, live, r, mem, rfl⟩
    obtain ⟨ts, -, shows, -⟩ := exists_node wf live
    exact ⟨_, shows, rfl, List.any_eq_true.mpr ⟨r, mem, beq_self_eq_true _⟩⟩

theorem isDescribed_choice_iff :
    f.isDescribed (.choice es) k = true ↔ ∃ e ∈ es, f.isDescribed e k = true := by
  simp only [isDescribed, Option.any_eq_true, Expansion.describes, Expansion.anyDescribes_eq_any,
    List.any_eq_true]
  constructor
  · rintro ⟨t, found, e, mem, describes⟩
    exact ⟨e, mem, t, found, describes⟩
  · rintro ⟨e, mem, t, found, describes⟩
    exact ⟨t, found, e, mem, describes⟩

theorem DescribesEach.mono (described : f.DescribesEach items run)
    (each : ∀ e ∈ items, ∀ k, f.isDescribed e k = true → g.isDescribed e k = true) :
    g.DescribesEach items run := by
  induction described with
  | nil => exact .nil
  | cons one _ ih =>
    obtain ⟨first, others⟩ := List.forall_mem_cons.mp each
    exact .cons (first _ one) (ih others)

mutual

/-- Where concepts keep their children and, of their texts, those in an expansion, it goes on to
describe what it has described. -/
theorem isDescribed_mono (wf : f.WellFormed) (wf' : g.WellFormed)
    (live : ∀ k, g.contains k = f.contains k) (children : ∀ k, g.childrenOf k = f.childrenOf k) :
    (e : Expansion) → (∀ text ∈ e.leaves, ∀ k, f.HasText k text → g.HasText k text) →
      ∀ k, f.isDescribed e k = true → g.isDescribed e k = true
  | .leaf text, texts, k, described => by
    rw [isDescribed_leaf_iff wf] at described
    rw [isDescribed_leaf_iff wf']
    exact texts text (List.mem_singleton_self _) k described
  | .choice es, texts, k, described => by
    obtain ⟨e, mem, described⟩ := isDescribed_choice_iff.mp described
    have each := isDescribed_mono_all wf wf' live children es texts
    exact isDescribed_choice_iff.mpr ⟨e, mem, each e mem k described⟩
  | .sequence es, texts, k, described => by
    obtain ⟨there, inside⟩ := (isDescribed_sequence_iff wf).mp described
    have each := isDescribed_mono_all wf wf' live children es texts
    refine (isDescribed_sequence_iff wf').mpr ⟨(live k).trans there, ?_⟩
    rw [children]
    exact inside.mono each

theorem isDescribed_mono_all (wf : f.WellFormed) (wf' : g.WellFormed)
    (live : ∀ k, g.contains k = f.contains k) (children : ∀ k, g.childrenOf k = f.childrenOf k) :
    (es : List Expansion) →
      (∀ text ∈ Expansion.leavesAll es, ∀ k, f.HasText k text → g.HasText k text) →
      ∀ e ∈ es, ∀ k, f.isDescribed e k = true → g.isDescribed e k = true
  | [], _ => nofun
  | e :: es, texts => by
    obtain ⟨first, others⟩ := List.forall_mem_append.mp texts
    exact List.forall_mem_cons.mpr ⟨isDescribed_mono wf wf' live children e first,
      isDescribed_mono_all wf wf' live children es others⟩

end

/-! ### All about it -/

/-- A live concept of any forest that can come about is given a representation. Its texts are those
that it had, and the new one, which is preferred; nothing else of it changes, and no other concept
does. Whatever has described a concept describes it still, and an expansion in which the new text
does not occur describes the same concepts as before. -/
theorem addRepresentation_exact (requests : List Request) {h : Handle}
    (live : (({} : Forest).afterAll requests).contains h = true) (r : Representation) :
    let f := ({} : Forest).afterAll requests
    ∃ g, f.addRepresentation h r = .ok g ∧
      (∃ c others, f.get? h = some c ∧ g.get? h = some { c with representations := r :: others }) ∧
      (∀ text, g.HasText h text ↔ text = r.rendered ∨ f.HasText h text) ∧
      (∀ k, k ≠ h → g.get? k = f.get? k) ∧
      (∀ e k, f.isDescribed e k = true → g.isDescribed e k = true) ∧
      ∀ e : Expansion, r.rendered ∉ e.leaves → ∀ k, g.isDescribed e k = f.isDescribed e k := by
  intro f
  have wf : f.WellFormed := (evolves_afterAll wellFormed_empty requests).wellFormed
  have wf' := wellFormed_named wf h r
  have same : ∀ k, (f.named h r).contains k = f.contains k :=
    fun k => contains_update f h k _
  have children : ∀ k, (f.named h r).childrenOf k = f.childrenOf k :=
    (keepsPlace_addRepresentation r).childrenOf_update h
  have texts : ∀ {k text}, (f.named h r).HasText k text ↔
      k = h ∧ text = r.rendered ∨ f.HasText k text := hasText_named live
  have goes_on : ∀ e k, f.isDescribed e k = true → (f.named h r).isDescribed e k = true :=
    fun e => isDescribed_mono wf wf' same children e fun _ _ _ has => texts.mpr (.inr has)
  obtain ⟨c, there⟩ := contains_iff.mp live
  refine ⟨f.named h r, addRepresentation_of_contains live r,
    ⟨c, _, there, get?_named_self there r⟩, ?_, fun _ => get?_named_of_ne, goes_on, ?_⟩
  · intro text
    rw [texts, and_iff_right rfl]
  · intro e absent k
    rw [Bool.eq_iff_iff]
    refine ⟨isDescribed_mono wf' wf (fun k => (same k).symm) (fun k => (children k).symm) e ?_ k,
      goes_on e k⟩
    -- a text in the expansion is not the new one, so whoever has it had it before
    intro text mem k has
    refine (texts.mp has).resolve_left ?_
    rintro ⟨-, rfl⟩
    exact absent mem

/-- A word is given a phrase as well, and the statement that it stands in is still described by its
two words. -/
theorem addRepresentation_exact_phrase :
    let word (text : String) : Request :=
      .create { kind := .symbol, parent := some 1, representations := [⟨text, .inputMorphism⟩] }
    let f := ({} : Forest).afterAll [.create { kind := .root },
      .create { kind := .statement, parent := some 0 }, word "a", word "b"]
    let r : Representation := ⟨"big b", .userSupplied⟩
    let e : Expansion := .sequence [.leaf "a", .leaf "b"]
    f.contains 3 = true ∧ r.rendered ∉ e.leaves ∧ ∃ g, f.addRepresentation 3 r = .ok g ∧
      g.HasText 3 "[[big b]]" ∧ g.HasText 3 "b" ∧ g.get? 1 = f.get? 1 ∧
        g.isDescribed e 1 = true ∧ ∀ k, g.isDescribed e k = f.isDescribed e k := by
  intro word f r e
  have live : f.contains 3 = true := by decide +kernel
  have absent : r.rendered ∉ e.leaves := by decide +kernel
  have rendered : r.rendered = "[[big b]]" := by decide +kernel
  have had : f.HasText 3 "b" := by decide +kernel
  have described : f.isDescribed e 1 = true := by decide +kernel
  obtain ⟨g, granted, -, texts, others, goes_on, same⟩ := addRepresentation_exact _ live r
  exact ⟨live, absent, g, granted, (texts _).mpr (.inl rendered.symm), (texts _).mpr (.inr had),
    others 1 (by decide), goes_on e 1 described, same e absent⟩

end Forest

end ConceptForest
