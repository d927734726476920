import ConceptForest.Proofs.Expansion.Flattening

/-!
What an expansion has in common with the concepts that it describes.

Where an expansion describes a concept, there is a token sequence that both stand for: a text that
both have, or what there is for the items and the children, one behind the other. An empty sequence
describes a concept without children and stands for nothing that this can be written as, so there
must be none in the expansion (`Filled`); in what arguments mean there never is one.

* `mem_sequences_ofTree_iff` — what the expansion of a concept stands for, one level down.
* `exists_common` — so it is for trees, by induction on the expansion.
* `exists_common_of_isDescribed` — and for the concepts of a forest.
-/

namespace ConceptForest

namespace Expansion

variable {e : Expansion} {es : List Expansion} {tokens : List String} {limit : Nat}

theorem append_mem_join {x y : List String} {xs ys : List (List String)} (first : x ∈ xs)
    (second : y ∈ ys) : x ++ y ∈ join xs ys :=
  List.mem_flatMap.mpr ⟨x, first, List.mem_map_of_mem second⟩

theorem mem_sequencesOfAny_iff : tokens ∈ sequencesOfAny es ↔ ∃ e ∈ es, tokens ∈ e.sequences := by
  induction es with
  | nil => simp [sequencesOfAny]
  | cons e es ih => rw [sequencesOfAny, List.mem_append, ih, List.exists_mem_cons_iff]

/-- A concept can be written as one of its texts, or as its children one behind the other, if it has
any. -/
theorem mem_sequences_ofTree_iff {h : Handle} {c : Concept} {ts : List Tree} :
    tokens ∈ (ofTree (.node h c ts)).sequences ↔
      (∃ r ∈ c.representations, tokens = [r.rendered]) ∨
        ts ≠ [] ∧ tokens ∈ sequencesOfEach (ofTrees ts) := by
  rw [ofTree, sequences, mem_sequencesOfAny_iff]
  simp only [List.mem_append, or_and_right, exists_or]
  apply or_congr
  · simp [sequences]
  · cases ts <;> simp [sequences]

/-- What an expansion stands for comes out of it if it is flattened as a whole. -/
theorem mem_alternatives_flatten (mem : tokens ∈ e.sequences)
    (whole : (e.flatten limit).truncated = false) : tokens ∈ (e.flatten limit).alternatives := by
  rw [alternatives_flatten, List.take_of_length_le]
  · exact mem
  · refine Nat.le_of_not_lt fun more => ?_
    rw [truncated_of_lt e more] at whole
    cases whole

/-- No sequence in the expansion is empty. -/
inductive Filled : Expansion → Prop where
  | leaf {text : String} : Filled (leaf text)
  | choice {es : List Expansion} (each : ∀ e ∈ es, Filled e) : Filled (choice es)
  | sequence {es : List Expansion} (some : es ≠ []) (each : ∀ e ∈ es, Filled e) :
    Filled (sequence es)

mutual

/-- An expansion and a tree that it describes have a token sequence in common. -/
theorem exists_common : (e : Expansion) → (t : Tree) → e.Filled → e.describes t = true →
    ∃ tokens ∈ e.sequences, tokens ∈ (ofTree t).sequences
  | leaf text, .node h c ts, _, described => by
    obtain ⟨r, mem, same⟩ := List.any_eq_true.mp described
    obtain rfl : r.rendered = text := eq_of_beq same
    exact ⟨[r.rendered], List.mem_singleton_self _,
      mem_sequences_ofTree_iff.mpr (.inl ⟨r, mem, rfl⟩)⟩
  | choice es, t, .choice each, described => exists_common_any es t each described
  | sequence es, .node h c ts, .sequence nonempty each, described => by
    obtain ⟨tokens, mem, mem'⟩ := exists_common_each es ts each described
    -- a concept without children is not expanded to a sequence, and no item would describe it
    have inner : ts ≠ [] := by
      rintro rfl
      cases es with
      | nil => exact nonempty rfl
      | cons => cases described
    exact ⟨tokens, mem, mem_sequences_ofTree_iff.mpr (.inr ⟨inner, mem'⟩)⟩

/-- So have the alternative that describes it and the tree. -/
theorem exists_common_any : (es : List Expansion) → (t : Tree) → (∀ e ∈ es, e.Filled) →
    anyDescribes es t = true → ∃ tokens ∈ sequencesOfAny es, tokens ∈ (ofTree t).sequences
  | e :: es, t, each, described => by
    obtain ⟨first, others⟩ := List.forall_mem_cons.mp each
    rw [sequencesOfAny]
    rcases (Bool.or_eq_true _ _).mp described with here | further
    · obtain ⟨tokens, mem, mem'⟩ := exists_common e t first here
      exact ⟨tokens, List.mem_append_left _ mem, mem'⟩
    · obtain ⟨tokens, mem, mem'⟩ := exists_common_any es t others further
      exact ⟨tokens, List.mem_append_right _ mem, mem'⟩

/-- What items and trees have in common, put together one behind the other. -/
theorem exists_common_each : (es : List Expansion) → (ts : List Tree) → (∀ e ∈ es, e.Filled) →
    eachDescribes es ts = true →
      ∃ tokens ∈ sequencesOfEach es, tokens ∈ sequencesOfEach (ofTrees ts)
  | [], [], _, _ => ⟨[], List.mem_singleton_self _, List.mem_singleton_self _⟩
  | e :: es, t :: ts, each, described => by
    obtain ⟨first, others⟩ := List.forall_mem_cons.mp each
    obtain ⟨here, further⟩ := (Bool.and_eq_true _ _).mp described
    obtain ⟨tokens, mem, mem'⟩ := exists_common e t first here
    obtain ⟨more, inside, inside'⟩ := exists_common_each es ts others further
    exact ⟨tokens ++ more, append_mem_join mem inside, append_mem_join mem' inside'⟩

end

mutual

/-- A concept is expanded to a sequence of its children only if it has some. -/
theorem filled_ofTree : (t : Tree) → (ofTree t).Filled
  | .node h c ts => by
    rw [ofTree]
    refine .choice (List.forall_mem_append.mpr ⟨?_, ?_⟩)
    · intro e mem
      obtain ⟨r, -, rfl⟩ := List.mem_map.mp mem
      exact .leaf
    · intro e mem
      cases ts with
      | nil => cases mem
      | cons t ts =>
        obtain rfl := List.mem_singleton.mp mem
        exact .sequence (List.cons_ne_nil _ _) (filled_ofTrees (t :: ts))

theorem filled_ofTrees : (ts : List Tree) → ∀ e ∈ ofTrees ts, e.Filled
  | [] => nofun
  | t :: ts => List.forall_mem_cons.mpr ⟨filled_ofTree t, filled_ofTrees ts⟩

end

/-- What arguments mean has no empty sequence in it, for several of them are a sequence, and none
mean nothing. -/
theorem filled_of_reference {f : Forest} {args : List Handle}
    (means : f.reference args = .ok (some e)) : e.Filled := by
  obtain ⟨ts, handles, -, rfl⟩ := Forest.exists_of_reference means
  match ts with
  | [] =>
    obtain rfl : args = [] := handles.symm
    cases means
  | [t] => exact filled_ofTree t
  | t :: u :: ts => exact .sequence (List.cons_ne_nil _ _) (filled_ofTrees (t :: u :: ts))

/-- An expansion in which no sequence is empty, as in whatever arguments mean, has a token sequence
in common with what any concept that it describes is expanded to. It comes out of both, each as far
as it is flattened as a whole. -/
theorem exists_common_of_isDescribed (f : Forest) :
    (∀ e h, e.Filled → f.isDescribed e h = true →
      ∃ e' tokens, f.expand h = .ok e' ∧ tokens ∈ e.sequences ∧ tokens ∈ e'.sequences ∧
        ∀ limit,
          ((e.flatten limit).truncated = false → tokens ∈ (e.flatten limit).alternatives) ∧
          ((e'.flatten limit).truncated = false → tokens ∈ (e'.flatten limit).alternatives)) ∧
      ∀ args e, f.reference args = .ok (some e) → e.Filled := by
  refine ⟨fun e h filled described => ?_, fun _ _ => filled_of_reference⟩
  obtain ⟨t, found, describes⟩ := (Option.any_eq_true _ _).mp described
  have tree : f.tree h = .ok t := by rw [Forest.tree, found]
  obtain ⟨tokens, mem, mem'⟩ := exists_common e t filled describes
  exact ⟨ofTree t, tokens, Forest.expand_of_tree tree, mem, mem', fun limit =>
    ⟨mem_alternatives_flatten mem, mem_alternatives_flatten mem'⟩⟩

/-- A block in second place, which no text describes: the three words are common to both. -/
theorem exists_common_of_isDescribed_block :
    let word (parent : Handle) (text : String) : Request :=
      .create { kind := .symbol, parent := some parent
                representations := [⟨text, .inputMorphism⟩] }
    let f := ({} : Forest).afterAll [.create { kind := .root }, word 0 "a",
      .create { kind := .statement, parent := some 0 }, word 2 "b", word 2 "c"]
    let e := sequence [leaf "a", choice [leaf "x", sequence [leaf "b", leaf "c"]]]
    e.Filled ∧ f.isDescribed e 0 = true ∧
      ∃ e' tokens, f.expand 0 = .ok e' ∧ tokens ∈ e.sequences ∧ tokens ∈ e'.sequences := by
  intro word f e
  have block : (sequence [leaf "b", leaf "c"]).Filled :=
    .sequence (List.cons_ne_nil _ _) (by simpa using ⟨Filled.leaf, .leaf⟩)
  have second : (choice [leaf "x", sequence [leaf "b", leaf "c"]]).Filled :=
    .choice (by simpa using ⟨Filled.leaf, block⟩)
  have filled : e.Filled :=
    .sequence (List.cons_ne_nil _ _) (by simpa using ⟨Filled.leaf, second⟩)
  have described : f.isDescribed e 0 = true := by decide +kernel
  obtain ⟨e', tokens, expanded, mem, mem', -⟩ :=
    (exists_common_of_isDescribed f).1 e 0 filled described
  exact ⟨filled, described, e', tokens, expanded, mem, mem'⟩

/-- The empty sequence describes a concept without children, which cannot be written as nothing. -/
example :
    let a : Representation := ⟨"a", .inputMorphism⟩
    let t : Tree := .node 0 ⟨0, .symbol, .assigned 0, none, [], {}, [a], [], []⟩ []
    (sequence []).describes t = true ∧
      ∀ tokens ∈ (sequence []).sequences, tokens ∉ (ofTree t).sequences := by decide

end Expansion

end ConceptForest
