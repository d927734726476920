import ConceptForest.Proofs.Forest.Parts
import ConceptForest.Proofs.Forest.Reaching

/-!
Searches that leave concepts out.

A search does not go into excluded concepts. What it finds as a whole is therefore neither excluded
nor owned by an excluded concept, as long as no root is owned by one. A part of a concept is found
at a concept of which that is true as well, but it is cut from all children of that concept, and
from all of theirs, whether or not they are excluded.

* `mem_resolve_iff`, `mem_resolveParts_iff` — what is found under roots where concepts are excluded.
* `search_outside` — of what is found, only parts have to do with an excluded concept, and then with
  one that is a child or a grandchild of the concept at which the part is found.
* `parts_cover_excluded` — a part of a concept may be an excluded child of it.
-/

namespace ConceptForest

namespace Forest

variable {f : Forest} {c h p : Handle} {t : Tree} {e : Expansion} {m : Match}
  {roots excluded : List Handle}

/-- The concept is one of the roots or owned by one. -/
def Under (f : Forest) (roots : List Handle) (h : Handle) : Prop :=
  ∃ root ∈ roots, h = root ∨ f.Owns root h

/-- The concept is neither excluded nor owned by an excluded one. -/
def Outside (f : Forest) (excluded : List Handle) (h : Handle) : Prop :=
  ∀ x ∈ excluded, h ≠ x ∧ ¬ f.Owns x h

/-- The concept is a child or a grandchild of another one. -/
def CloseBelow (f : Forest) (c h : Handle) : Prop :=
  f.parent? h = some c ∨ ∃ s, f.parent? s = some c ∧ f.parent? h = some s

/-- The match has to do with the concept: it lists it, or has it as one of the children that belong
to it of a concept that it lists. -/
inductive Concerns (f : Forest) (m : Match) (h : Handle) : Prop where
  | listed (mem : h ∈ m.concepts)
  | covered {k : Handle} {start stop : Nat}
    (part : (k, Extent.span start stop) ∈ m.concepts.zip m.extents)
    (child : h ∈ ((f.childrenOf k).drop start).take (stop - start))

/-! ### What is reached -/

/-- From a root that no excluded concept owns, those concepts below it are reached that are outside
of the excluded ones. -/
theorem reachedFrom_iff_outside (wf : f.WellFormed) {root : Handle}
    (apart : ∀ x ∈ excluded, ¬ f.Owns x root) :
    f.ReachedFrom excluded root h ↔ (h = root ∨ f.Owns root h) ∧ f.Outside excluded h := by
  constructor
  · intro reached
    refine ⟨reached.below, fun x out => not_or.mp fun above => ?_⟩
    -- what is above the concept is above the root, or on the way down from it
    rcases owns_comparable wf (above.imp_left Eq.symm) (reached.below.imp_left Eq.symm) with
      rfl | up | down
    · exact reached.root_not_mem out
    · exact apart x out up
    · exact reached.kept x (.inr down) above out
  · rintro ⟨below, outside⟩
    exact ⟨below, fun k _ above out => not_or.mpr (outside k out) above⟩

theorem Shows.exists_reachable_iff (wf : f.WellFormed) (shows : f.Shows t)
    (apart : ∀ x ∈ excluded, ¬ f.Owns x t.handle) :
    (∃ s ∈ t.reachable excluded, s.handle = h) ↔
      (h = t.handle ∨ f.Owns t.handle h) ∧ f.Outside excluded h := by
  rw [← reachedFrom_iff_outside wf apart, ← mem_reached_iff wf shows.contains, shows.reached wf,
    List.mem_map]

section Reached

variable (wf : f.WellFormed) (apart : ∀ x ∈ excluded, ∀ root ∈ roots, ¬ f.Owns x root)

include wf apart

/-- Under roots that no excluded concept owns, those concepts are reached that are outside of the
excluded ones. -/
theorem exists_reachableAll_iff {trees : List Tree}
    (searched : f.searched excluded roots = .ok trees) :
    (∃ s ∈ Tree.reachableAll excluded trees, s.handle = h) ↔
      f.Under roots h ∧ f.Outside excluded h := by
  have top : ∀ {root t}, root ∈ roots → f.tree root = .ok t →
      ((∃ s ∈ t.reachable excluded, s.handle = h) ↔
        (h = root ∨ f.Owns root h) ∧ f.Outside excluded h) := by
    intro root t mem tree
    obtain ⟨shows, rfl⟩ := shows_of_tree tree
    exact shows.exists_reachable_iff wf fun x out => apart x out _ mem
  rw [Tree.reachableAll_eq_flatMap]
  constructor
  · rintro ⟨s, mem, same⟩
    obtain ⟨t, tree, inside⟩ := List.mem_flatMap.mp mem
    obtain ⟨root, mem, tree⟩ := mem_searched searched tree
    obtain ⟨under, outside⟩ := (top mem tree).mp ⟨s, inside, same⟩
    exact ⟨⟨root, mem, under⟩, outside⟩
  · rintro ⟨⟨root, mem, under⟩, outside⟩
    have kept : root ∉ excluded := by
      intro out
      rcases under with rfl | owns
      · exact (outside _ out).1 rfl
      · exact (outside _ out).2 owns
    obtain ⟨t, inside, tree⟩ := exists_of_searched searched mem kept
    obtain ⟨s, reached, same⟩ := (top mem tree).mpr ⟨under, outside⟩
    exact ⟨s, List.mem_flatMap.mpr ⟨t, inside, reached⟩, same⟩

/-- Those concepts are found that are under the roots, outside of the excluded concepts, and
described. -/
theorem mem_resolve_iff {hs : List Handle} (found : f.resolve roots e excluded = .ok hs) :
    h ∈ hs ↔ f.Under roots h ∧ f.Outside excluded h ∧ f.isDescribed e h = true := by
  obtain ⟨trees, searched, found⟩ := bind_eq_ok_iff.mp found
  obtain rfl := Except.ok.inj found
  rw [List.mem_eraseDups, List.mem_map, ← and_assoc, ← exists_reachableAll_iff wf apart searched]
  constructor
  · rintro ⟨s, chosen, rfl⟩
    obtain ⟨reached, described⟩ := List.mem_filter.mp chosen
    obtain ⟨shows, -⟩ := shows_of_mem_reachableAll wf searched reached
    exact ⟨⟨s, reached, rfl⟩, (shows.isDescribed wf e).trans described⟩
  · rintro ⟨⟨s, reached, rfl⟩, described⟩
    obtain ⟨shows, -⟩ := shows_of_mem_reachableAll wf searched reached
    exact ⟨s, List.mem_filter.mpr ⟨reached, (shows.isDescribed wf e).symm.trans described⟩, rfl⟩

/-- What there is to be found at concepts that are under the roots and outside of the excluded ones
is found. -/
theorem mem_resolveParts_iff {ms : List Match} (found : f.resolveParts roots e excluded = .ok ms) :
    m ∈ ms ↔ ∃ c, f.Under roots c ∧ f.Outside excluded c ∧ f.FoundAt e c m := by
  obtain ⟨trees, searched, found⟩ := bind_eq_ok_iff.mp found
  obtain rfl := Except.ok.inj found
  rw [List.mem_eraseDups, List.mem_flatMap]
  simp only [← and_assoc, ← exists_reachableAll_iff wf apart searched]
  constructor
  · rintro ⟨s, reached, here⟩
    obtain ⟨shows, -⟩ := shows_of_mem_reachableAll wf searched reached
    exact ⟨s.handle, ⟨s, reached, rfl⟩, (mem_matchesHere_iff wf shows).mp here⟩
  · rintro ⟨c, ⟨s, reached, rfl⟩, here⟩
    obtain ⟨shows, -⟩ := shows_of_mem_reachableAll wf searched reached
    exact ⟨s, reached, (mem_matchesHere_iff wf shows).mpr here⟩

end Reached

/-! ### What a match has to do with excluded concepts -/

/-- A child of a concept that is outside is outside as well, unless it is excluded itself. -/
theorem Outside.of_parent? (outside : f.Outside excluded p) (owned : f.parent? h = some p)
    (kept : h ∉ excluded) : f.Outside excluded h := by
  intro x out
  refine ⟨fun same => kept (same ▸ out), fun owns => ?_⟩
  rcases owns.up owned with rfl | owns
  · exact (outside _ out).1 rfl
  · exact (outside x out).2 owns

/-- What is found at a concept is about the concept and its children. -/
theorem FoundAt.eq_or_parent? (wf : f.WellFormed) (found : f.FoundAt e c m)
    (mem : h ∈ m.concepts) : h = c ∨ f.parent? h = some c := by
  cases found with
  | whole _ => exact .inl (List.mem_singleton.mp mem)
  | window _ _ _ _ _ => exact .inl (List.mem_singleton.mp mem)
  | spanning _ spans =>
    rw [spans.concepts] at mem
    exact .inr (wf.mem_childrenOf.mp (List.mem_filter.mp mem).1)

/-- What is found at a concept has to do with the concept, its children and its grandchildren. -/
theorem FoundAt.eq_or_closeBelow (wf : f.WellFormed) (found : f.FoundAt e c m)
    (concerns : f.Concerns m h) : h = c ∨ f.CloseBelow c h := by
  cases concerns with
  | listed mem => exact (found.eq_or_parent? wf mem).imp_right .inl
  | @covered k start stop part child =>
    have owned := wf.mem_childrenOf.mp (List.mem_of_mem_drop (List.mem_of_mem_take child))
    rcases found.eq_or_parent? wf (List.of_mem_zip part).1 with rfl | above
    · exact .inr (.inl owned)
    · exact .inr (.inr ⟨k, above, owned⟩)

/-- A concept that is found as a whole is the one at which it is found. -/
theorem FoundAt.eq_of_whole (found : f.FoundAt e c (.whole h)) : h = c := by
  cases found with
  | whole _ => rfl
  | spanning _ spans => exact absurd spans.several (by simp [Match.whole])

theorem Outside.of_concerns (wf : f.WellFormed) (outside : f.Outside excluded c)
    (found : f.FoundAt e c m) (none : ∀ x ∈ excluded, ¬ f.CloseBelow c x)
    (concerns : f.Concerns m h) : f.Outside excluded h := by
  have child : ∀ {s}, f.parent? s = some c → f.Outside excluded s := fun owned =>
    outside.of_parent? owned fun out => none _ out (.inl owned)
  rcases found.eq_or_closeBelow wf concerns with rfl | owned | ⟨s, above, owned⟩
  · exact outside
  · exact child owned
  · exact (child above).of_parent? owned fun out => none _ out (.inr ⟨s, above, owned⟩)

/-- A search in a forest that requests have made of the empty one, under roots that no excluded
concept owns. What it finds as a whole is outside of the excluded concepts. A part of a concept is
found at a concept that is outside of them, and lists none that an excluded concept owns; if no
child or grandchild of that concept is excluded, all that the part has to do with is outside. -/
theorem search_outside (requests : List Request) (roots excluded : List Handle) (e : Expansion)
    (apart : ∀ x ∈ excluded, ∀ root ∈ roots, ¬ (({} : Forest).afterAll requests).Owns x root) :
    let f := ({} : Forest).afterAll requests
    (∀ hs, f.resolve roots e excluded = .ok hs →
      ∀ h, h ∈ hs ↔ f.Under roots h ∧ f.Outside excluded h ∧ f.isDescribed e h = true) ∧
    ∀ ms, f.resolveParts roots e excluded = .ok ms →
      (∀ m, m ∈ ms ↔ ∃ c, f.Under roots c ∧ f.Outside excluded c ∧ f.FoundAt e c m) ∧
      ∀ m ∈ ms, ∃ c, f.Outside excluded c ∧ f.FoundAt e c m ∧
        (∀ h, m = .whole h → h = c) ∧
        (∀ h ∈ m.concepts, ∀ x ∈ excluded, ¬ f.Owns x h) ∧
        ((∀ x ∈ excluded, ¬ f.CloseBelow c x) → ∀ h, f.Concerns m h → f.Outside excluded h) := by
  intro f
  have wf : f.WellFormed := (evolves_afterAll wellFormed_empty requests).wellFormed
  refine ⟨fun hs found h => mem_resolve_iff wf apart found, fun ms found => ?_⟩
  have exact : ∀ m, m ∈ ms ↔ ∃ c, f.Under roots c ∧ f.Outside excluded c ∧ f.FoundAt e c m :=
    fun m => mem_resolveParts_iff wf apart found
  refine ⟨exact, fun m mem => ?_⟩
  obtain ⟨c, -, outside, found⟩ := (exact m).mp mem
  refine ⟨c, outside, found, ?_, ?_, fun none h => outside.of_concerns wf found none⟩
  · rintro h rfl
    exact found.eq_of_whole
  · intro h listed x out owns
    rcases found.eq_or_parent? wf listed with rfl | owned
    · exact (outside x out).2 owns
    · rcases owns.up owned with rfl | owns
      · exact (outside _ out).1 rfl
      · exact (outside x out).2 owns

/-- The second statement is excluded. The search under the root does not go into it, and finds the
last symbol of the first one, as a concept and as a part of its statement. -/
theorem search_outside_statement :
    let symbol (text : String) (parent : Handle) : Request := .create
      { kind := .symbol, parent := some parent, representations := [⟨text, .inputMorphism⟩] }
    let f := ({} : Forest).afterAll [.create { kind := .root },
      .create { kind := .statement, parent := some 0 }, symbol "a" 1, symbol "b" 1,
      .create { kind := .statement, parent := some 0 }, symbol "b" 4]
    let e : Expansion := .choice [.leaf "b", .sequence [.leaf "b"]]
    (∃ hs, f.resolve [0] e [4] = .ok hs ∧ 3 ∈ hs ∧
      ∀ h, h ∈ hs ↔ f.Under [0] h ∧ f.Outside [4] h ∧ f.isDescribed e h = true) ∧
    ∃ ms, f.resolveParts [0] e [4] = .ok ms ∧ ⟨[1], [.span 1 2]⟩ ∈ ms ∧
      ∀ m ∈ ms, ∃ c, f.Outside [4] c ∧ f.FoundAt e c m ∧ (∀ h, m = .whole h → h = c) ∧
        (∀ h ∈ m.concepts, ∀ x ∈ [4], ¬ f.Owns x h) ∧
        ((∀ x ∈ [4], ¬ f.CloseBelow c x) → ∀ h, f.Concerns m h → f.Outside [4] h) := by
  intro symbol f e
  have root : f.parent? 0 = none := by decide +kernel
  have apart : ∀ x ∈ [4], ∀ r ∈ [0], ¬ f.Owns x r := by
    intro x _ r mem owns
    obtain rfl := List.mem_singleton.mp mem
    obtain ⟨p, owned⟩ := owns.exists_parent
    cases root.symm.trans owned
  have wholes : (f.resolve [0] e [4]).toOption = some [3] := by decide +kernel
  have parts : (f.resolveParts [0] e [4]).toOption =
      some [⟨[1], [.span 1 2]⟩, .whole 3] := by decide +kernel
  obtain ⟨exact, outside⟩ := search_outside _ [0] [4] e apart
  exact ⟨⟨_, eq_ok_of_toOption wholes, List.mem_cons_self, exact _ (eq_ok_of_toOption wholes)⟩,
    _, eq_ok_of_toOption parts, List.mem_cons_self, (outside _ (eq_ok_of_toOption parts)).2⟩

/-- The second of two symbols is excluded; what is found is the part of the root that has it. -/
theorem parts_cover_excluded :
    let symbol (text : String) : Request := .create
      { kind := .symbol, parent := some 0, representations := [⟨text, .inputMorphism⟩] }
    let f := ({} : Forest).afterAll [.create { kind := .root }, symbol "a", symbol "b"]
    ∃ m, f.resolveParts [0] (.sequence [.leaf "b"]) [2] = .ok [m] ∧ f.Concerns m 2 ∧
      ¬ f.Outside [2] 2 := by
  intro symbol f
  have found : (f.resolveParts [0] (.sequence [.leaf "b"]) [2]).toOption =
      some [⟨[0], [.span 1 2]⟩] := by decide +kernel
  refine ⟨_, eq_ok_of_toOption found, ?_, fun outside => (outside 2 List.mem_cons_self).1 rfl⟩
  have child : 2 ∈ ((f.childrenOf 0).drop 1).take (2 - 1) := by decide +kernel
  exact .covered (by decide : (0, Extent.span 1 2) ∈ [(0, Extent.span 1 2)]) child

end Forest

end ConceptForest
