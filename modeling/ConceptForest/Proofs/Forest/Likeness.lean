import ConceptForest.Proofs.Forest.Wording

/-!
When what a concept can be written as describes another concept.

So it is for concepts that are alike (`Alike`): they share a text, or they have children, as many of
each, which are alike one by one. The two sides are looked at in different ways, the one as an
expansion and the other one as it stands in the forest, but to be alike is the same from both.

* `Alike.symm`, `alike_self` — it is symmetric, and every concept is like itself.
* `Shows.isDescribed_iff_alike` — what it has to do with the expansion, by induction on the tree.
* `isDescribed_alike` — so it is in all forests that can come about.
-/

namespace ConceptForest

namespace Forest

variable {f : Forest} {a b : Handle} {t : Tree}

/-- The concept has the text, as it is rendered. -/
def HasText (f : Forest) (h : Handle) (text : String) : Prop :=
  ∃ c, f.get? h = some c ∧ ∃ r ∈ c.representations, r.rendered = text

instance (f : Forest) (h : Handle) (text : String) : Decidable (f.HasText h text) :=
  decidable_of_iff ((f.get? h).any fun c => c.representations.any (·.rendered == text))
    (by simp [HasText, Option.any_eq_true])

/-- There is a text that both concepts have. -/
def SharesText (f : Forest) (a b : Handle) : Prop :=
  ∃ text, f.HasText a text ∧ f.HasText b text

/-- The two concepts share a text, or they have the same number of children, not none, which are
alike one by one. -/
inductive Alike (f : Forest) : Handle → Handle → Prop where
  | text {a b : Handle} (shares : f.SharesText a b) : Alike f a b
  | children {a b : Handle} (some : f.childrenOf a ≠ [])
    (length_eq : (f.childrenOf a).length = (f.childrenOf b).length)
    (each : ∀ x y, (x, y) ∈ (f.childrenOf a).zip (f.childrenOf b) → Alike f x y) : Alike f a b

theorem SharesText.symm (shares : f.SharesText a b) : f.SharesText b a := by
  obtain ⟨text, has, has'⟩ := shares
  exact ⟨text, has', has⟩

/-- Which texts a live concept shares with another one. -/
theorem sharesText_iff {c : Concept} (live : f.get? a = some c) : f.SharesText a b ↔
    ∃ d, f.get? b = some d ∧
      ∃ r ∈ c.representations, ∃ other ∈ d.representations, other.rendered = r.rendered := by
  constructor
  · rintro ⟨_, ⟨c', there, r, mem, rfl⟩, d, live', other, mem', same⟩
    obtain rfl := Option.some.inj (live.symm.trans there)
    exact ⟨d, live', r, mem, other, mem', same⟩
  · rintro ⟨d, live', r, mem, other, mem', same⟩
    exact ⟨r.rendered, ⟨c, live, r, mem, rfl⟩, d, live', other, mem', same⟩

theorem Alike.symm (alike : f.Alike a b) : f.Alike b a := by
  induction alike with
  | text shares => exact .text shares.symm
  | @children a b some length_eq _ ih =>
    refine .children ?_ length_eq.symm fun x y mem => ih y x ?_
    · rwa [← List.length_pos_iff, ← length_eq, List.length_pos_iff]
    · rw [← List.zip_swap]
      exact List.mem_map.mpr ⟨(x, y), mem, rfl⟩

theorem alike_iff : f.Alike a b ↔ f.SharesText a b ∨
    f.childrenOf a ≠ [] ∧ List.Forall₂ f.Alike (f.childrenOf a) (f.childrenOf b) := by
  rw [List.forall₂_iff_zip]
  constructor
  · rintro (shares | ⟨some, length_eq, each⟩)
    · exact .inl shares
    · exact .inr ⟨some, length_eq, each _ _⟩
  · rintro (shares | ⟨some, length_eq, each⟩)
    · exact .text shares
    · exact .children some length_eq fun _ _ => each

/-- Every concept has a text, which it shares with itself. -/
theorem alike_self (wf : f.WellFormed) (live : f.contains a = true) : f.Alike a a := by
  obtain ⟨c, live⟩ := contains_iff.mp live
  obtain ⟨r, mem⟩ := List.exists_mem_of_ne_nil _ (wf.representations_ne_nil live)
  have has : f.HasText a r.rendered := ⟨c, live, r, mem, rfl⟩
  exact .text ⟨r.rendered, has, has⟩

/-- Where the children of the one concept are described by trees, it is live. -/
theorem contains_of_describesEach {items : List Expansion} (some : items ≠ [])
    (each : f.DescribesEach items (f.childrenOf b)) : f.contains b = true := by
  have inner : f.childrenOf b ≠ [] := by
    intro none
    rw [none, DescribesEach, List.forall₂_nil_right_iff] at each
    exact some each
  obtain ⟨k, mem⟩ := List.exists_mem_of_ne_nil _ inner
  exact contains_of_mem_childrenOf mem

/-- What a tree can be written as describes what is like the concept at its top. -/
theorem Shows.isDescribed_iff_alike (wf : f.WellFormed) (shows : f.Shows t) :
    f.isDescribed (.ofTree t) b = true ↔ f.Alike t.handle b := by
  induction shows generalizing b with
  | @node h c ts live children _ ih =>
    have inside : f.DescribesEach (Expansion.ofTrees ts) (f.childrenOf b) ↔
        List.Forall₂ f.Alike (ts.map Tree.handle) (f.childrenOf b) := by
      rw [DescribesEach, Expansion.ofTrees_eq_map, List.forall₂_map_left_iff,
        List.forall₂_map_left_iff, List.forall₂_iff_zip, List.forall₂_iff_zip]
      apply and_congr_right
      intro _
      refine forall₂_congr fun s k => imp_congr_right fun mem => ?_
      exact ih s (List.of_mem_zip mem).1
    -- a concept without children offers no sequence, so the relation asks for some as well
    rw [isDescribed_ofTree_iff wf, isDescribed_sequence_iff wf, alike_iff,
      ← sharesText_iff live]
    show _ ↔ f.SharesText h b ∨ f.childrenOf h ≠ [] ∧ List.Forall₂ f.Alike (f.childrenOf h) _
    rw [childrenOf_of_get? live, ← children, ← inside, ne_eq, ne_eq, List.map_eq_nil_iff]
    refine or_congr_right (and_congr_right fun some => and_iff_right_of_imp ?_)
    exact contains_of_describesEach (by simpa [Expansion.ofTrees_eq_map] using some)

/-- Of any two concepts of any forest that can come about, what the one can be written as describes
the other one exactly if the two are alike. So it does not matter which of them is written, and
every concept is described by what it can be written as. -/
theorem isDescribed_alike (requests : List Request) {a b : Handle}
    (live : (({} : Forest).afterAll requests).contains a = true)
    (live' : (({} : Forest).afterAll requests).contains b = true) :
    let f := ({} : Forest).afterAll requests
    ∃ e e', f.expand a = .ok e ∧ f.expand b = .ok e' ∧
      (f.isDescribed e b = true ↔ f.Alike a b) ∧
      f.isDescribed e b = f.isDescribed e' a ∧ f.isDescribed e a = true := by
  intro f
  have wf : f.WellFormed := (evolves_afterAll wellFormed_empty requests).wellFormed
  have written : ∀ {h}, f.contains h = true →
      ∃ e, f.expand h = .ok e ∧ ∀ k, f.isDescribed e k = true ↔ f.Alike h k := by
    intro h there
    obtain ⟨t, found, shows, rfl⟩ := exists_tree wf there
    exact ⟨.ofTree t, expand_of_tree found, fun k => shows.isDescribed_iff_alike wf⟩
  obtain ⟨e, expanded, alike⟩ := written live
  obtain ⟨e', expanded', alike'⟩ := written live'
  refine ⟨e, e', expanded, expanded', alike b, ?_, (alike a).mpr (alike_self wf live)⟩
  rw [Bool.eq_iff_iff, alike b, alike' a]
  exact ⟨Alike.symm, Alike.symm⟩

/-- Two statements of the same two words, which share no text themselves. -/
theorem isDescribed_alike_statements :
    let below (parent : Handle) (kind : Kind) (texts : List Representation) : Request :=
      .create { kind, parent := some parent, representations := texts }
    let a : Representation := ⟨"a", .inputMorphism⟩
    let b : Representation := ⟨"b", .inputMorphism⟩
    let f := ({} : Forest).afterAll [.create { kind := .root }, below 0 .statement [],
      below 1 .symbol [a], below 1 .symbol [b], below 0 .statement [], below 4 .symbol [a],
      below 4 .symbol [⟨"c", .userSupplied⟩, b]]
    f.contains 1 = true ∧ f.contains 4 = true ∧ f.Alike 1 4 ∧ ∃ e e',
      f.expand 1 = .ok e ∧ f.expand 4 = .ok e' ∧
        f.isDescribed e 4 = true ∧ f.isDescribed e' 1 = true ∧ f.isDescribed e 1 = true := by
  intro below a b f
  have live : f.contains 1 = true := by decide +kernel
  have live' : f.contains 4 = true := by decide +kernel
  have alike : f.Alike 1 4 := by
    have children : f.childrenOf 1 = [2, 3] := by decide +kernel
    have children' : f.childrenOf 4 = [5, 6] := by decide +kernel
    rw [alike_iff, children, children']
    have first : f.SharesText 2 5 := ⟨"a", by decide +kernel, by decide +kernel⟩
    have second : f.SharesText 3 6 := ⟨"b", by decide +kernel, by decide +kernel⟩
    exact .inr ⟨List.cons_ne_nil _ _, .cons (.text first) (.cons (.text second) .nil)⟩
  obtain ⟨e, e', expanded, expanded', iff, symmetric, self⟩ := isDescribed_alike _ live live'
  have described := iff.mpr alike
  exact ⟨live, live', alike, e, e', expanded, expanded', described, symmetric ▸ described, self⟩

end Forest

end ConceptForest
