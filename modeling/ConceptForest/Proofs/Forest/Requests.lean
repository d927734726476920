import ConceptForest.Proofs.Forest.Building

/-!
Forests as requests make them.

Whatever is asked of a forest, and whether it is granted or refused, the forest stays well-formed
and no handle comes to life again.

* `evolves_after` — the step: what one request leaves of a well-formed forest.
* `evolves_afterAll` — the run: what any requests leave, one after the other.
* `sound_afterAll` — what is true of a forest that any requests have made of the empty one.
-/

namespace ConceptForest

open Grammar (Expression Program)
open Script (Registry)

/-- What can be asked of a forest. -/
inductive Request where
  | create (spec : NewConcept)
  | insertAt (parent child : Handle) (index : Nat)
  | unlink (h : Handle)
  | release (h : Handle)
  | bind (h : Handle) (name : String) (value : Value)
  | bindDefinition (h : Handle) (definition : Definition)
  | takeDefinition (h : Handle)
  | addRepresentation (h : Handle) (r : Representation)
  | associate (source target : Handle) (kind : AssociationKind)
  | dissociate (source target : Handle) (kind : AssociationKind)
  | lift (m : Match)
  | buildOne (registry : Registry) (parent : Handle) (e : Expression)
  | build (registry : Registry) (parent : Handle) (program : Program)
  | buildText (registry : Registry) (parent : Handle) (text : String)

/-- The forest that a request leaves. -/
def Request.after : Request → Forest → Forest
  | create spec => leftBy (Edit.create spec)
  | insertAt parent child index => leftBy (Edit.insertAt parent child index)
  | unlink h => leftBy (Edit.unlink h)
  | release h => leftBy (Edit.release h)
  | bind h name value => leftBy (Edit.bind h name value)
  | bindDefinition h definition => leftBy (Edit.bindDefinition h definition)
  | takeDefinition h => leftBy (Edit.takeDefinition h)
  | addRepresentation h r => leftBy (Edit.addRepresentation h r)
  | associate source target kind => leftBy (Edit.associate source target kind)
  | dissociate source target kind => leftBy (Edit.dissociate source target kind)
  | lift m => leftBy (Edit.lift m)
  | buildOne registry parent e => leftBy (Edit.buildOne registry parent e)
  | build registry parent program => leftBy (Edit.build registry parent program)
  | buildText registry parent text => leftBy (Edit.buildText registry parent text)

namespace Forest

variable {f g : Forest} {h p : Handle}

/-- The forest that requests leave, one after the other. -/
def afterAll (f : Forest) (requests : List Request) : Forest :=
  requests.foldl (fun f request => request.after f) f

/-! ### One request -/

/-- An edit that is refused without anything done, or granted with a sound effect, leaves a sound
forest. -/
theorem evolves_leftBy {ε α : Type} {edit : Edit ε α} (wf : f.WellFormed)
    (cases : (∃ e, edit f = .error e f) ∨ ∃ a g, edit f = .ok a g ∧ f.Evolves g) :
    f.Evolves (leftBy edit f) := by
  rcases cases with ⟨e, refused⟩ | ⟨a, g, granted, evolves⟩
  · rw [leftBy_of_error refused]
    exact .refl wf
  · rwa [leftBy_of_ok granted]

theorem evolves_change {α : Type} (wf : f.WellFormed) (h : Handle) {change : Concept → Concept}
    (keeps : KeepsPlace change) (answer : Concept → α) :
    f.Evolves (leftBy (Edit.change h change >>= fun c => pure (answer c)) f) := by
  apply evolves_leftBy wf
  rcases Edit.answer_cases f h change answer with refused | ⟨c, -, granted⟩
  · exact .inl refused
  · exact .inr ⟨answer c, _, granted, (extends_update wf h keeps).evolves⟩

/-- What one request leaves of a well-formed forest. -/
theorem evolves_after (wf : f.WellFormed) (request : Request) : f.Evolves (request.after f) := by
  cases request with
  | create spec =>
    apply evolves_leftBy wf
    rcases Edit.create_cases wf spec with refused | ⟨admits, granted⟩
    · exact .inl refused
    · exact .inr ⟨_, _, granted, (extends_created wf admits).evolves⟩
  | insertAt parent child index =>
    apply evolves_leftBy wf
    rcases Edit.insertAt_cases wf parent child index with refused | ⟨accepts, granted⟩
    · exact .inl refused
    · have wf' := wf.attached_of_accepts accepts
      exact .inr ⟨_, _, granted, ((rewired_attached _ _ _ _).toExtends wf').evolves⟩
  | unlink h =>
    apply evolves_leftBy wf
    rcases Edit.unlink_cases f h with refused | ⟨-, granted⟩
    · exact .inl refused
    · exact .inr ⟨_, _, granted, ((rewired_detached f h).toExtends (wf.detached h)).evolves⟩
  | release h =>
    apply evolves_leftBy wf
    rcases Edit.release_cases wf h with refused | ⟨-, root, doomed, whole, granted⟩
    · exact .inl refused
    · exact .inr ⟨_, _, granted, evolves_released wf root whole⟩
  | bind h name value => exact evolves_change wf h (keepsPlace_context _) _
  | bindDefinition h d => exact evolves_change wf h (keepsPlace_context _) _
  | takeDefinition h => exact evolves_change wf h (keepsPlace_context _) _
  | addRepresentation h r => exact evolves_change wf h (keepsPlace_addRepresentation r) _
  | associate source target kind =>
    apply evolves_leftBy wf
    rcases Edit.associate_cases f source target kind with refused | ⟨-, -, granted⟩
    · exact .inl refused
    · exact .inr ⟨_, _, granted, ((kept_associated _ _ _ _).toExtends wf).evolves⟩
  | dissociate source target kind =>
    apply evolves_leftBy wf
    rcases Edit.dissociate_cases f source target kind with refused | ⟨told, granted⟩
    · exact .inl refused
    · exact .inr ⟨_, _, granted, ((kept_dissociated _ _ _ _).toExtends wf).evolves⟩
  | lift m =>
    apply evolves_leftBy wf
    rcases Edit.lift_cases wf m with
      refused | ⟨h, -, -, granted⟩ | ⟨members, owner, place, moved, gathers, -, -, granted⟩
    · exact .inl refused
    · exact .inr ⟨_, _, granted, .refl wf⟩
    · have gathered := extends_gathered wf gathers
      have pieced := (kept_pieced _ moved).toExtends gathered.wellFormed
      exact .inr ⟨_, _, granted, (gathered.trans pieced).evolves⟩
  | buildOne registry parent e =>
    apply evolves_leftBy wf
    rcases Edit.buildOne_cases wf registry parent e with refused | ⟨live, g, granted, built⟩
    · exact .inl refused
    · exact .inr ⟨_, g, granted, (built.toExtends wf live).evolves⟩
  | build registry parent program =>
    apply evolves_leftBy wf
    rcases Edit.build_cases wf registry parent program with refused | ⟨hs, g, granted, more⟩
    · exact .inl refused
    · exact .inr ⟨hs, g, granted, more.evolves⟩
  | buildText registry parent text =>
    apply evolves_leftBy wf
    rcases Edit.buildText_cases wf registry parent text with refused | ⟨hs, g, granted, more⟩
    · exact .inl refused
    · exact .inr ⟨hs, g, granted, more.evolves⟩

/-! ### Any requests -/

/-- What any requests leave of a well-formed forest, one after the other. -/
theorem evolves_afterAll (wf : f.WellFormed) (requests : List Request) :
    f.Evolves (f.afterAll requests) := by
  induction requests generalizing f with
  | nil => exact .refl wf
  | cons request requests ih =>
    have first := evolves_after wf request
    exact first.trans (ih first.wellFormed)

/-! ### What is promised of every forest -/

/-- The owner so many steps up. -/
def climb (f : Forest) : Nat → Handle → Option Handle
  | 0, h => some h
  | n + 1, h => (f.parent? h).bind (climb f n)

/-- A walk to the owners that is shorter than it could be has come to the end of the way up. -/
theorem climb_eq_none {n : Nat} (short : (f.owners n h).length < n) : f.climb n h = none := by
  induction n generalizing h with
  | zero => simp at short
  | succ n ih =>
    cases owned : f.parent? h with
    | none => simp [climb, owned]
    | some p =>
      rw [owners_succ n owned] at short
      rw [climb, owned, Option.bind_some]
      exact ih (by simpa using short)

/-- What can be relied on in a forest, whatever has been asked of it before and will be asked of it
later. -/
structure Sound (f : Forest) : Prop where
  /-- Every live concept sits in the slot of its own handle. -/
  handle_eq : ∀ h c, f.get? h = some c → c.handle = h
  /-- A concept is a child of another one exactly if that is its parent. -/
  mem_childrenOf : ∀ p h, h ∈ f.childrenOf p ↔ f.parent? h = some p
  /-- No list of children repeats a concept. -/
  nodup_childrenOf : ∀ p, (f.childrenOf p).Nodup
  /-- Both ends of every edge are live. -/
  contains_ends : ∀ p h, f.parent? h = some p → f.contains p = true ∧ f.contains h = true
  /-- Following parents comes to an end, after no more steps than there are handles. -/
  climb_eq_none : ∀ h, f.contains h = true → ∃ n, n ≤ f.next ∧ f.climb n h = none
  /-- Every live concept has a representation. -/
  representations_ne_nil : ∀ h c, f.get? h = some c → c.representations ≠ []
  /-- The live concepts are counted right, each once. -/
  size_eq : f.size = f.handles.length
  nodup_handles : f.handles.Nodup
  mem_handles : ∀ h, h ∈ f.handles ↔ f.contains h = true
  /-- Handles are given out in rising order, and none of a released concept comes to life again. -/
  later : ∀ requests, f.next ≤ (f.afterAll requests).next ∧
    ∀ h, h < f.next → f.contains h = false → (f.afterAll requests).contains h = false
  /-- A concept is never inserted behind the end of the children that it comes among. -/
  insertAt_within : ∀ parent child index g, Edit.insertAt parent child index f = .ok () g →
    index ≤ ((f.detached child).childrenOf parent).length ∧
      (g.childrenOf parent)[index]? = some child
  /-- The others are counted without a child only where there is one. -/
  length_pos : ∀ p h, f.parent? h = some p → 0 < (f.childrenOf p).length
  /-- No more concepts are released than are live. -/
  length_takeOut_le : ∀ h doomed, f.doomed h = .ok doomed → (f.takeOut doomed).2.length ≤ f.live

/-- As many concepts as are released have been live. -/
theorem length_takeOut_le (wf : f.WellFormed) (hs : List Handle) :
    (f.takeOut hs).2.length ≤ f.live := by
  rw [wf.live_eq, ← length_takeOut f hs]
  exact Nat.le_add_right _ _

/-- A concept that has been moved stands where it was put. -/
theorem getElem?_childrenOf_insertAt (wf : f.WellFormed) {parent child : Handle} {index : Nat}
    (granted : Edit.insertAt parent child index f = .ok () g) :
    index ≤ ((f.detached child).childrenOf parent).length ∧
      (g.childrenOf parent)[index]? = some child := by
  rcases Edit.insertAt_cases wf parent child index with ⟨e, refused⟩ | ⟨accepts, done⟩
  · rw [refused] at granted
    cases granted
  · rw [done] at granted
    obtain ⟨⟩ := granted
    have within := accepts.within
    rw [childrenOf_detached wf, childrenOf_attached wf accepts.contains_parent, if_pos rfl]
    exact ⟨within, by simp [Edit.withChild, List.getElem?_insertIdx_self, Nat.not_lt.mpr within]⟩

theorem WellFormed.sound (wf : f.WellFormed) : f.Sound where
  handle_eq _ _ := wf.handle_eq
  mem_childrenOf _ _ := wf.mem_childrenOf
  nodup_childrenOf := wf.nodup_childrenOf
  contains_ends _ _ owned := ⟨wf.contains_parent owned, contains_of_parent? owned⟩
  climb_eq_none h live := ⟨f.next, Nat.le_refl _, climb_eq_none (length_owners_lt wf live _)⟩
  representations_ne_nil _ _ := wf.representations_ne_nil
  size_eq := wf.live_eq
  nodup_handles := nodup_handles f
  mem_handles _ := mem_handles
  later requests := by
    have evolves := evolves_afterAll wf requests
    refine ⟨evolves.next_le, ?_⟩
    intro h old dead
    rw [Bool.eq_false_iff]
    intro live
    rw [evolves.contains_of_contains h old live] at dead
    cases dead
  insertAt_within _ _ _ _ := getElem?_childrenOf_insertAt wf
  length_pos _ _ owned := List.length_pos_of_mem (wf.mem_childrenOf.mpr owned)
  length_takeOut_le _ doomed _ := length_takeOut_le wf doomed

/-- Any requests, granted or refused, make a sound forest of the empty one. -/
theorem sound_afterAll (requests : List Request) : (({} : Forest).afterAll requests).Sound :=
  (evolves_afterAll wellFormed_empty requests).wellFormed.sound

end Forest

end ConceptForest
