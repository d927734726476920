import ConceptForest.Proofs.Session.Tidy

/-!
What is built in a session, and how a command comes and goes.

* `AtRest.grown` — a forest at rest is still at rest when something has been built that stays.
* `AtRest.called` — once a command has been built and taken out of its owner's children, the forest
  is tidy: the command goes with what it owns, and everything else is as it was before.
* `sheds_called` — so the forest before is that one without what was made of the command.
* `Tidy.sheds_released`, `Tidy.atRest_released` — when all that goes has been released, nothing else
  has changed, and the forest is at rest.
-/

namespace ConceptForest

open Grammar (Symbol)

namespace Forest

variable {f g : Forest} {h k p root top current : Handle} {c d : Concept} {going : Handle → Prop}

/-! ### What stays when it has been built -/

theorem Grows.lasts (grows : f.Grows current g) : f.Lasts g := by
  intro h c live
  obtain ⟨d, live, -, same⟩ := grows.get?_of_get? live
  have kind : d.unplaced.kind = c.unplaced.kind := by rw [same]
  have identifier : d.unplaced.identifier = c.unplaced.identifier := by rw [same]
  exact ⟨d, live, kind, identifier⟩

theorem AtRest.grown (rest : f.AtRest root) (grows : f.Grows current g) : g.AtRest root := by
  obtain ⟨r, live_root⟩ := contains_iff.mp rest.stays_root.1
  have root_none : r.parent = none := (parent?_of_get? live_root).symm.trans rest.parent?_root
  obtain ⟨r', live_root', same, -⟩ := grows.get?_of_get? live_root
  apply AtRest.of_root grows.wellFormed (contains_of_get? live_root')
  · rw [parent?_of_get? live_root', same, root_none]
  · intro h live none
    obtain ⟨d, live⟩ := contains_iff.mp live
    rw [parent?_of_get? live] at none
    rcases grows.get?_cases live with ⟨c, was, same, -⟩ | ⟨-, -, q, owner, -⟩
    · apply rest.eq_root h ⟨contains_of_get? was, id⟩
      rw [parent?_of_get? was, ← same, none]
    · rw [none] at owner
      cases owner
  · intro h d live
    rcases grows.get?_cases live with ⟨c, was, -, same⟩ | ⟨-, plain, -⟩
    · apply ((rest.orderly h c was id).of_unplaced same).mono
      rintro k ⟨live, -⟩
      exact ⟨grows.toExtends.contains live, id⟩
    · exact .of_plain plain

/-! ### Forests without what goes -/

/-- The second forest is the first one without the concepts that go. -/
structure Sheds (f g : Forest) (going : Handle → Prop) : Prop where
  get?_gone : ∀ k, going k → g.get? k = none
  get?_kept : ∀ k, ¬ going k → g.get? k = f.get? k

/-- There is one way for a forest to be without what goes. -/
theorem Sheds.get?_eq {e : Forest} (one : f.Sheds e going) (other : f.Sheds g going) (k : Handle) :
    g.get? k = e.get? k := by
  by_cases goes : going k
  · rw [one.get?_gone k goes, other.get?_gone k goes]
  · rw [one.get?_kept k goes, other.get?_kept k goes]

/-! ### Commands that have been built -/

/-- The concepts that were made of a command, and all that were made with it. -/
def Made (f g : Forest) (h : Handle) : Prop :=
  f.next ≤ h ∧ h < g.next

theorem made_detached (h : Handle) : f.Made (g.detached h) = f.Made g := by
  funext k
  rw [Made, Made, next_detached]

/-- What a forest is once a concept has been taken out of its parent's children. -/
theorem get?_detached (owned : f.parent? h = some p) (ne : p ≠ h) (k : Handle) :
    (f.detached h).get? k =
      if k = h then (f.get? h).map fun c => { c with parent := none }
      else if k = p then
        (f.get? p).map fun c => { c with children := c.children.filter (· != h) }
      else f.get? k := by
  unfold detached
  rw [owned]
  show ((f.update p _).update h _).get? k = _
  rw [get?_update, get?_update]
  by_cases same : k = h
  · subst same
    rw [if_pos rfl, if_neg (Ne.symm ne), if_pos rfl]
  · rw [if_neg same, if_neg same]
    split
    · next above => rw [above]
    · rfl

section Called

variable {name : String} {args : List Symbol}

/-- The concept that a command was built as stands under the current one. -/
theorem get?_command (live : f.contains current = true)
    (built : (f.created (Build.commandConcept current name args f.next)).Grows f.next g) :
    ∃ c, g.get? f.next = some c ∧ c.parent = some current ∧ c.associations = [] ∧
      c.associatedBy = [] := by
  obtain ⟨new, -, top⟩ := built.get?_parent
  rw [get?_created rfl rfl live, if_pos rfl] at top
  exact ⟨_, top, rfl, rfl, rfl⟩

/-- A command that has been built and taken out of its owner's children has left no trace in the
concepts that were there before. -/
theorem get?_called_of_lt (wf : f.WellFormed) (live : f.contains current = true)
    (built : (f.created (Build.commandConcept current name args f.next)).Grows f.next g)
    (old : k < f.next) : (g.detached f.next).get? k = f.get? k := by
  have ne : current ≠ f.next := Nat.ne_of_lt (lt_next_of_contains live)
  obtain ⟨c, top, owned, -⟩ := get?_command live built
  have before : g.get? k =
      if k = current then
        (f.get? current).map fun c => { c with children := c.children ++ [f.next] }
      else f.get? k := by
    rw [built.get?_old k (next_created f _ ▸ Nat.lt_succ_of_lt old) (Nat.ne_of_lt old),
      get?_created rfl rfl live, if_neg (Nat.ne_of_lt old)]
  rw [get?_detached ((parent?_of_get? top).trans owned) ne, if_neg (Nat.ne_of_lt old)]
  split
  · next same =>
    subst same
    rw [before, if_pos rfl]
    obtain ⟨d, live⟩ := contains_iff.mp live
    have others : ∀ x ∈ d.children, (x != f.next) = true := by
      intro x mem
      rw [← childrenOf_of_get? live] at mem
      have owned := wf.mem_childrenOf.mp mem
      exact bne_iff_ne.mpr (Nat.ne_of_lt (lt_next_of_contains (contains_of_parent? owned)))
    have kept : (d.children ++ [f.next]).filter (· != f.next) = d.children := by
      rw [List.filter_append, List.filter_eq_self.mpr others]
      simp
    simp only [live, Option.map_some, kept]
  · next other => rw [before, if_neg other]

/-- What was made of a command is the command itself, which has no owner, or something plain below
it. -/
theorem get?_called_of_ge (live : f.contains current = true)
    (built : (f.created (Build.commandConcept current name args f.next)).Grows f.next g)
    (new : k ≥ f.next) (found : (g.detached f.next).get? k = some d) :
    d.associations = [] ∧ d.associatedBy = [] ∧
      ((k = f.next ∧ d.parent = none) ∨ ∃ q, d.parent = some q ∧ q ≥ f.next) := by
  have old : current < f.next := lt_next_of_contains live
  obtain ⟨c, top, owned, none, none'⟩ := get?_command live built
  rw [get?_detached ((parent?_of_get? top).trans owned) (Nat.ne_of_lt old)] at found
  split at found
  · next same =>
    rw [top] at found
    obtain rfl := Option.some.inj found
    exact ⟨none, none', .inl ⟨same, rfl⟩⟩
  · next other =>
    rw [if_neg (Nat.ne_of_lt (Nat.lt_of_lt_of_le old new)).symm] at found
    have late : k ≥ (f.created (Build.commandConcept current name args f.next)).next := by
      rw [next_created]
      exact Nat.lt_of_le_of_ne new (Ne.symm other)
    obtain ⟨plain, q, parent, above⟩ := built.fresh late found
    refine ⟨plain.associations_eq, plain.associatedBy_eq, .inr ⟨q, parent, ?_⟩⟩
    rcases above with rfl | above
    · exact Nat.le_refl _
    · exact Nat.le_trans (next_created f _ ▸ Nat.le_succ _) above

theorem not_made_of_lt (old : k < f.next) : ¬ f.Made g k := by
  rintro ⟨new, -⟩
  exact Nat.lt_irrefl _ (Nat.lt_of_lt_of_le old new)

/-- What is there of a command and has not been made of it was there before. -/
theorem lt_next_of_not_made (found : (g.detached f.next).get? k = some d) (stay : ¬ f.Made g k) :
    k < f.next := by
  apply Nat.lt_of_not_le
  intro new
  apply stay
  have within := lt_next_of_get? found
  rw [next_detached] at within
  exact ⟨new, within⟩

/-- A forest is what it becomes when a command has been built and taken out of its owner's children,
without what was made of the command. -/
theorem sheds_called (wf : f.WellFormed) (live : f.contains current = true)
    (built : (f.created (Build.commandConcept current name args f.next)).Grows f.next g) :
    (g.detached f.next).Sheds f (f.Made g) where
  get?_gone _ made := get?_eq_none_of_next_le made.1
  get?_kept k stay := by
    rcases Nat.lt_or_ge k f.next with old | new
    · exact (get?_called_of_lt wf live built old).symm
    · have beyond : g.next ≤ k := Nat.le_of_not_lt fun within => stay ⟨new, within⟩
      rw [get?_eq_none_of_next_le new, get?_eq_none_of_next_le (next_detached g _ ▸ beyond)]

/-- What was made of a command is below what was made of it, but for the command itself, and what
was there before is below what was there before. -/
theorem made_iff_of_parent? (wf : f.WellFormed) (live : f.contains current = true)
    (built : (f.created (Build.commandConcept current name args f.next)).Grows f.next g)
    (owned : (g.detached f.next).parent? k = some p) : f.Made g p ↔ f.Made g k := by
  have wf' := built.wellFormed.detached f.next
  obtain ⟨d, found⟩ := contains_iff.mp (contains_of_parent? owned)
  have below := lt_next_of_get? found
  have above := lt_next_of_contains (wf'.contains_parent owned)
  rw [next_detached] at below above
  rcases Nat.lt_or_ge k f.next with old | new
  · have owned' : f.parent? k = some p := by
      rw [parent?, ← get?_called_of_lt wf live built old]
      exact owned
    have old' := lt_next_of_contains (wf.contains_parent owned')
    exact iff_of_false (not_made_of_lt old') (not_made_of_lt old)
  · rw [parent?_of_get? found] at owned
    obtain ⟨-, -, ⟨-, none⟩ | ⟨q, owner, late⟩⟩ := get?_called_of_ge live built new found
    · rw [none] at owned
      cases owned
    · obtain rfl := Option.some.inj (owner.symm.trans owned)
      exact iff_of_true ⟨late, above⟩ ⟨new, below⟩

/-- Once a command has been built and taken out of its owner's children it goes with all that was
made of it, and the rest of the forest does not refer to it. -/
theorem AtRest.called (rest : f.AtRest root) (live : f.contains current = true)
    (built : (f.created (Build.commandConcept current name args f.next)).Grows f.next g) :
    (g.detached f.next).Tidy root f.next (f.Made g) := by
  have wf := rest.wellFormed
  have old_eq : ∀ k, k < f.next → (g.detached f.next).get? k = f.get? k := by
    intro k old
    exact get?_called_of_lt wf live built old
  have stays : ∀ k, f.Stays (fun _ => False) k → (g.detached f.next).Stays (f.Made g) k := by
    rintro k ⟨live, -⟩
    have old := lt_next_of_contains live
    constructor
    · rw [contains, old_eq k old]
      exact live
    · exact not_made_of_lt old
  constructor
  case wellFormed => exact built.wellFormed.detached f.next
  case stays_root => exact stays root rest.stays_root
  case parent?_root =>
    rw [parent?, old_eq root (lt_next_of_contains rest.stays_root.1)]
    exact rest.parent?_root
  case eq_root =>
    rintro k ⟨live, stay⟩ none
    obtain ⟨d, found⟩ := contains_iff.mp live
    have old := old_eq k (lt_next_of_not_made found stay)
    apply rest.eq_root k ⟨contains_of_get? (old.symm.trans found), id⟩
    rw [parent?, ← old]
    exact none
  case contains_top =>
    obtain ⟨c, top, -⟩ := get?_command live built
    rw [contains_detached, contains_of_get? top]
  case parent?_top => rw [parent?_detached, if_pos rfl]
  case eq_top =>
    intro k there goes none
    obtain ⟨d, found⟩ := contains_iff.mp there
    rw [parent?_of_get? found] at none
    obtain ⟨-, -, ⟨same, -⟩ | ⟨q, owner, -⟩⟩ := get?_called_of_ge live built goes.1 found
    · exact same
    · rw [none] at owner
      cases owner
  case lt_next =>
    rintro k ⟨-, within⟩
    rw [next_detached]
    exact within
  case going_iff =>
    intro p k owned
    exact made_iff_of_parent? wf live built owned
  case orderly =>
    intro k d found stay
    rw [old_eq k (lt_next_of_not_made found stay)] at found
    exact (rest.orderly k d found id).mono stays
  case idle =>
    intro k d found goes
    obtain ⟨associations, associatedBy, -⟩ := get?_called_of_ge live built goes.1 found
    exact ⟨associations, associatedBy⟩

end Called

/-! ### Commands that go -/

/-- Concepts without associations leave none to be struck. -/
theorem foldl_strike_of_idle (doomed : List Handle) {cs : List Concept}
    (idle : ∀ c ∈ cs, c.associations = [] ∧ c.associatedBy = []) :
    cs.foldl (strike doomed) f = f := by
  induction cs with
  | nil => rfl
  | cons c cs ih =>
    obtain ⟨associations, associatedBy⟩ := idle c List.mem_cons_self
    have first : strike doomed f c = f := by simp [strike, associations, associatedBy]
    rw [List.foldl_cons, first]
    apply ih
    intro d mem
    exact idle d (List.mem_cons_of_mem _ mem)

theorem released_of_idle {doomed : List Handle}
    (idle : ∀ k ∈ doomed, ∀ c, f.get? k = some c → c.associations = [] ∧ c.associatedBy = []) :
    f.released doomed = f.without doomed := by
  apply foldl_strike_of_idle
  intro c mem
  obtain ⟨k, mem, live⟩ := mem_takeOut mem
  exact idle k mem c live

section Whole

variable {doomed : List Handle}

/-- What is released with the command is all that goes. -/
theorem Tidy.mem_doomed_iff (tidy : f.Tidy root top going) (top_goes : going top)
    (whole : ∀ k, k ∈ doomed ↔ k = top ∨ f.Owns top k) :
    k ∈ doomed ↔ f.contains k = true ∧ going k := by
  rw [whole]
  constructor
  · rintro (rfl | owns)
    · exact ⟨tidy.contains_top, top_goes⟩
    · exact ⟨owns.contains, (tidy.going_iff_of_owns owns).mp top_goes⟩
  · rintro ⟨live, goes⟩
    exact tidy.owns_top_of_going live goes

/-- When all that goes has been released the others are as they were. -/
theorem Tidy.get?_released (tidy : f.Tidy root top going) (top_goes : going top)
    (whole : ∀ k, k ∈ doomed ↔ k = top ∨ f.Owns top k) (k : Handle) :
    (f.released doomed).get? k = if k ∈ doomed then none else f.get? k := by
  rw [released_of_idle, get?_without]
  intro x mem c live
  exact tidy.idle x c live ((tidy.mem_doomed_iff top_goes whole).mp mem).2

/-- When all that goes has been released the forest is what it was without it. -/
theorem Tidy.sheds_released (tidy : f.Tidy root top going) (top_goes : going top)
    (whole : ∀ k, k ∈ doomed ↔ k = top ∨ f.Owns top k) : f.Sheds (f.released doomed) going where
  get?_gone k goes := by
    rw [tidy.get?_released top_goes whole]
    split
    · rfl
    · next kept =>
      rw [Option.eq_none_iff_forall_not_mem]
      intro c there
      exact kept ((tidy.mem_doomed_iff top_goes whole).mpr ⟨contains_of_get? there, goes⟩)
  get?_kept k stay := by
    rw [tidy.get?_released top_goes whole, if_neg]
    intro mem
    exact stay ((tidy.mem_doomed_iff top_goes whole).mp mem).2

/-- When all that goes has been released the forest is at rest. -/
theorem Tidy.atRest_released (tidy : f.Tidy root top going) (top_goes : going top)
    (whole : ∀ k, k ∈ doomed ↔ k = top ∨ f.Owns top k) : (f.released doomed).AtRest root := by
  have sheds := tidy.sheds_released top_goes whole
  have found : ∀ k c, (f.released doomed).get? k = some c → f.get? k = some c ∧ ¬ going k := by
    intro k c live
    have stay : ¬ going k := by
      intro bad
      cases (sheds.get?_gone k bad).symm.trans live
    exact ⟨(sheds.get?_kept k stay).symm.trans live, stay⟩
  have kept : ∀ k, f.Stays going k → (f.released doomed).get? k = f.get? k := by
    rintro k ⟨-, stay⟩
    exact sheds.get?_kept k stay
  have root_kept := kept root tidy.stays_root
  apply AtRest.of_root (tidy.wellFormed.released tidy.parent?_top whole)
  · rw [contains, root_kept]
    exact tidy.stays_root.1
  · rw [parent?, root_kept]
    exact tidy.parent?_root
  · intro k live none
    obtain ⟨c, there⟩ := contains_iff.mp live
    obtain ⟨was, stay⟩ := found k c there
    rw [parent?_of_get? there, ← parent?_of_get? was] at none
    exact tidy.eq_root k ⟨contains_of_get? was, stay⟩ none
  · intro k c live
    obtain ⟨was, stay⟩ := found k c live
    apply (tidy.orderly k c was stay).mono
    intro x stays
    refine ⟨?_, id⟩
    rw [contains, kept x stays]
    exact stays.1

end Whole

end Forest

end ConceptForest
