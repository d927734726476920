import ConceptForest.Proofs.Forest.Labels
import ConceptForest.Proofs.Forest.Layout
import ConceptForest.Proofs.Forest.Parts
import ConceptForest.Session.Reference

/-!
What was typed, built a second time.

What is built of the same symbols twice differs in nothing but the handles. So whatever the first of
the two describes is described by the second one as well (`Forest.Rewords`), unless it has a text
that names a concept of the first one by its handle.

* `rewords_symbol`, `rewords_symbols` — so it is for what is built of symbols, by induction on them.
* `rewords_reference` — and for what arguments mean.
-/

namespace ConceptForest

open Grammar (Symbol Snippet)
open Script (Registry)

/-! ### How a concept can be written -/

namespace Expansion

variable {h : Handle} {c : Concept} {ts : List Tree} {items : List Expansion}

theorem ofTrees_eq_map (ts : List Tree) : ofTrees ts = ts.map ofTree := by
  induction ts with
  | nil => rfl
  | cons t ts ih => rw [ofTrees, ih, List.map_cons]

/-- A concept describes what has one of its texts, and what has children that its own children
describe one by one. -/
theorem describes_ofTree_iff {t : Tree} : (ofTree (.node h c ts)).describes t = true ↔
    (∃ r ∈ c.representations, ∃ other ∈ t.concept.representations, other.rendered = r.rendered) ∨
      ts ≠ [] ∧ eachDescribes (ofTrees ts) t.children = true := by
  rw [ofTree, describes, anyDescribes_eq_any, List.any_append, Bool.or_eq_true]
  apply or_congr
  · simp [describes]
  · cases ts <;> simp [describes]

/-- A concept offers nothing but its children, if it has any. -/
theorem offers_ofTree_iff :
    Offers items (ofTree (.node h c ts)) ↔ ts ≠ [] ∧ items = ofTrees ts := by
  rw [ofTree]
  constructor
  · intro offers
    cases offers with
    | choice alternative offers =>
      rcases List.mem_append.mp alternative with text | inside
      · obtain ⟨r, -, rfl⟩ := List.mem_map.mp text
        cases offers
      · cases ts with
        | nil => cases inside
        | cons t ts =>
          obtain rfl := List.mem_singleton.mp inside
          cases offers
          exact ⟨List.cons_ne_nil _ _, rfl⟩
  · rintro ⟨some, rfl⟩
    refine .choice (List.mem_append_right _ ?_) .sequence
    simp [some]

/-- What is meant by things that can be written in the given ways, one or several. -/
def ofArgs : List Expansion → Expansion
  | [e] => e
  | es => .sequence es

end Expansion

namespace Forest

variable {f g g' : Forest} {h k first first' parent parent' : Handle} {e e' : Expansion}
  {items items' : List Expansion} {c d : Concept} {ts us : List Tree} {run : List Handle}

theorem isDescribed_iff (wf : f.WellFormed) : f.isDescribed e h = true ↔
    ∃ t, f.Shows t ∧ t.handle = h ∧ e.describes t = true := by
  constructor
  · intro described
    rw [isDescribed] at described
    cases found : f.tree? h with
    | none =>
      rw [found] at described
      cases described
    | some t =>
      rw [found] at described
      obtain ⟨shows, same⟩ := shows_of_treeWithin found
      exact ⟨t, shows, same, described⟩
  · rintro ⟨t, shows, rfl, describes⟩
    rwa [shows.isDescribed wf]

theorem isDescribed_sequence_iff (wf : f.WellFormed) : f.isDescribed (.sequence items) h = true ↔
    f.contains h = true ∧ f.DescribesEach items (f.childrenOf h) := by
  have inside : ∀ {t}, f.Shows t → (f.DescribesEach items (f.childrenOf t.handle) ↔
      (Expansion.sequence items).describes t = true) := by
    intro t shows
    rw [← shows.map_handle_children]
    exact describesEach_iff wf fun s => shows.of_mem_children
  constructor
  · intro described
    obtain ⟨t, shows, rfl, describes⟩ := (isDescribed_iff wf).mp described
    exact ⟨shows.contains, (inside shows).mpr describes⟩
  · rintro ⟨live, each⟩
    obtain ⟨t, -, shows, rfl⟩ := exists_tree wf live
    exact (isDescribed_iff wf).mpr ⟨t, shows, rfl, (inside shows).mp each⟩

/-- A concept describes what it shares a text with, and what has children that its own children
describe one by one. -/
theorem isDescribed_ofTree_iff (wf : f.WellFormed) :
    f.isDescribed (.ofTree (.node h c ts)) k = true ↔
      (∃ d, f.get? k = some d ∧
        ∃ r ∈ c.representations, ∃ other ∈ d.representations, other.rendered = r.rendered) ∨
      ts ≠ [] ∧ f.isDescribed (.sequence (Expansion.ofTrees ts)) k = true := by
  simp only [isDescribed_iff wf, Expansion.describes_ofTree_iff]
  constructor
  · rintro ⟨t, shows, rfl, shared | ⟨some, inside⟩⟩
    · cases shows with
      | @node k d us live => exact .inl ⟨d, live, shared⟩
    · exact .inr ⟨some, t, shows, rfl, inside⟩
  · rintro (⟨d, live, shared⟩ | ⟨some, t, shows, same, inside⟩)
    · obtain ⟨us, -, shows, -⟩ := exists_node wf live
      exact ⟨_, shows, rfl, .inl shared⟩
    · exact ⟨t, shows, same, .inr ⟨some, inside⟩⟩

/-! ### Saying the same of a forest -/

/-- Whatever of the forest the one expansion describes, the other one describes as well. -/
def Entails (f : Forest) (e e' : Expansion) : Prop :=
  ∀ h, f.isDescribed e h = true → f.isDescribed e' h = true

theorem DescribesEach.of_entails (described : f.DescribesEach items run)
    (each : List.Forall₂ f.Entails items items') : f.DescribesEach items' run := by
  induction described generalizing items' with
  | nil =>
    cases each
    exact .nil
  | cons one _ ih =>
    cases each with
    | cons entails rest => exact .cons (entails _ one) (ih rest)

theorem entails_sequence (wf : f.WellFormed) (each : List.Forall₂ f.Entails items items') :
    f.Entails (.sequence items) (.sequence items') := by
  intro h described
  obtain ⟨live, inside⟩ := (isDescribed_sequence_iff wf).mp described
  exact (isDescribed_sequence_iff wf).mpr ⟨live, inside.of_entails each⟩

/-- Whatever of the forest the one expansion describes the other one describes as well, as a whole
and item by item. -/
structure Rewords (f : Forest) (e e' : Expansion) : Prop where
  entails : f.Entails e e'
  exists_offers : ∀ {items}, e.Offers items →
    ∃ items', e'.Offers items' ∧ List.Forall₂ f.Entails items items'

/-- No concept of the forest has a text that names the handle. -/
def Unnamed (f : Forest) (n : Handle) : Prop :=
  f.Every fun c => ∀ r ∈ c.representations, ¬ NamesConcept r.raw n

/-- A concept that is built anew is described by the texts that it was described by, but for those
that name its handle. -/
theorem rewords_node (wf : f.WellFormed) (unnamed : f.Unnamed h) {known : List Representation}
    (texts : c.representations = known ++ identityRepresentations c.kind (.assigned h))
    (texts' : ∀ r ∈ known, r ∈ d.representations)
    (inside : List.Forall₂ f.Rewords (Expansion.ofTrees ts) (Expansion.ofTrees us)) :
    f.Rewords (.ofTree (.node h c ts)) (.ofTree (.node k d us)) := by
  have each : List.Forall₂ f.Entails (Expansion.ofTrees ts) (Expansion.ofTrees us) :=
    inside.imp fun _ _ rewords => rewords.entails
  have some : ts ≠ [] → us ≠ [] := by
    rintro some rfl
    rw [Expansion.ofTrees_eq_map, Expansion.ofTrees_eq_map, List.map_nil,
      List.forall₂_nil_right_iff, List.map_eq_nil_iff] at inside
    exact some inside
  constructor
  · intro x described
    rw [isDescribed_ofTree_iff wf] at described ⊢
    rcases described with ⟨b, live, r, mem, other, there, alike⟩ | ⟨any, inner⟩
    · rw [texts, List.mem_append] at mem
      rcases mem with mem | own
      · exact .inl ⟨b, live, r, texts' r mem, other, there, alike⟩
      · have same : r.raw = other.raw := (renderToken_injective alike).symm
        exact absurd ⟨_, r, own, same⟩ (unnamed x b live other there)
    · exact .inr ⟨some any, entails_sequence wf each x inner⟩
  · intro items offers
    obtain ⟨any, rfl⟩ := Expansion.offers_ofTree_iff.mp offers
    exact ⟨_, Expansion.offers_ofTree_iff.mpr ⟨some any, rfl⟩, each⟩

theorem rewords_ofArgs (wf : f.WellFormed) {es es' : List Expansion}
    (each : List.Forall₂ f.Rewords es es') : f.Rewords (.ofArgs es) (.ofArgs es') := by
  have entails := each.imp fun _ _ rewords => rewords.entails
  have row : f.Rewords (.sequence es) (.sequence es') := by
    refine ⟨entails_sequence wf entails, ?_⟩
    rintro items ⟨⟩
    exact ⟨es', .sequence, entails⟩
  cases each with
  | nil => exact row
  | cons first others =>
    cases others with
    | nil => exact first
    | cons => exact row

/-! ### What is built twice -/

/-- The slots from the first one on hold what they are said to hold. -/
def Holds (f : Forest) : Handle → List (Option Concept) → Prop
  | _, [] => True
  | first, slot :: slots => f.get? first = slot ∧ f.Holds (first + 1) slots

theorem holds_append {slots slots' : List (Option Concept)} : f.Holds first (slots ++ slots') ↔
    f.Holds first slots ∧ f.Holds (first + slots.length) slots' := by
  induction slots generalizing first with
  | nil => simp [Holds]
  | cons slot slots ih =>
    rw [List.cons_append, Holds, Holds, ih, List.length_cons, and_assoc, Nat.add_assoc,
      Nat.add_comm 1]

theorem holds_of_get? {slots : List (Option Concept)}
    (each : ∀ i : Nat, i < slots.length → f.get? (first + i) = slots[i]?.join) :
    f.Holds first slots := by
  induction slots generalizing first with
  | nil => trivial
  | cons slot slots ih =>
    refine ⟨each 0 (Nat.succ_pos _), ih fun i within => ?_⟩
    rw [Nat.add_assoc, Nat.add_comm 1]
    exact each (i + 1) (Nat.succ_lt_succ within)

section Built

open Build (Resolves slotsOfSymbol slotsOfSymbols startsFrom)

variable {registry : Registry}

mutual

/-- What a symbol describes as it is built first it describes as it is built again. -/
theorem rewords_symbol (wf : f.WellFormed) {parent parent' first first' : Handle} {t u : Tree}
    (symbol : Symbol) (resolves : Resolves registry symbol.snippets) (shows : g.Shows t)
    (shows' : g'.Shows u) (start : t.handle = first) (start' : u.handle = first')
    (holds : g.Holds first (slotsOfSymbol registry parent first symbol))
    (holds' : g'.Holds first' (slotsOfSymbol registry parent' first' symbol))
    (unnamed : ∀ n, first ≤ n → n < first + symbol.size → f.Unnamed n) :
    f.Rewords (.ofTree t) (.ofTree u) := by
  have own : f.Unnamed first :=
    unnamed _ (Nat.le_refl _) (Nat.lt_add_of_pos_right symbol.size_pos)
  cases shows with
  | @node h c ts live children below =>
    cases shows' with
    | @node k d us live' children' below' =>
      obtain rfl : h = first := start
      obtain rfl : k = first' := start'
      match symbol with
      | .token text =>
        obtain rfl := Option.some.inj (live.symm.trans holds.1)
        obtain rfl := Option.some.inj (live'.symm.trans holds'.1)
        obtain rfl : ts = [] := List.map_eq_nil_iff.mp children
        obtain rfl : us = [] := List.map_eq_nil_iff.mp children'
        exact rewords_node wf own rfl (fun r mem => List.mem_append_left _ mem) .nil
      | .block symbols =>
        obtain rfl := Option.some.inj (live.symm.trans holds.1)
        obtain rfl := Option.some.inj (live'.symm.trans holds'.1)
        refine rewords_node wf own rfl (fun r mem => List.mem_append_left _ mem) ?_
        apply rewords_symbols wf symbols resolves below below' children children' holds.2 holds'.2
        intro n late within
        apply unnamed n (Nat.le_of_succ_le late)
        rwa [Symbol.size, ← Nat.add_assoc]
      | .snippet s =>
        obtain ⟨a, found⟩ := resolves s List.mem_cons_self
        rw [slotsOfSymbol, found] at holds holds'
        obtain rfl := Option.some.inj (live.symm.trans holds.1)
        obtain rfl := Option.some.inj (live'.symm.trans holds'.1)
        obtain rfl : ts = [] := List.map_eq_nil_iff.mp children
        obtain rfl : us = [] := List.map_eq_nil_iff.mp children'
        exact rewords_node wf own rfl (fun r mem => List.mem_append_left _ mem) .nil

theorem rewords_symbols (wf : f.WellFormed) {parent parent' first first' : Handle}
    {ts us : List Tree} (symbols : List Symbol)
    (resolves : Resolves registry (Grammar.snippetsOfSymbols symbols))
    (shown : ∀ t ∈ ts, g.Shows t) (shown' : ∀ u ∈ us, g'.Shows u)
    (handles : ts.map Tree.handle = startsFrom first (symbols.map Symbol.size))
    (handles' : us.map Tree.handle = startsFrom first' (symbols.map Symbol.size))
    (holds : g.Holds first (slotsOfSymbols registry parent first symbols))
    (holds' : g'.Holds first' (slotsOfSymbols registry parent' first' symbols))
    (unnamed : ∀ n, first ≤ n → n < first + Grammar.sizeAll symbols → f.Unnamed n) :
    List.Forall₂ f.Rewords (Expansion.ofTrees ts) (Expansion.ofTrees us) := by
  match symbols, ts, us with
  | [], [], [] => exact .nil
  | symbol :: rest, t :: ts, u :: us =>
    obtain ⟨resolves, others⟩ := Build.resolves_append.mp resolves
    obtain ⟨shows, shown⟩ := List.forall_mem_cons.mp shown
    obtain ⟨shows', shown'⟩ := List.forall_mem_cons.mp shown'
    obtain ⟨start, handles⟩ := List.cons.inj handles
    obtain ⟨start', handles'⟩ := List.cons.inj handles'
    rw [slotsOfSymbols, holds_append, Build.length_slotsOfSymbol] at holds holds'
    rw [Grammar.sizeAll] at unnamed
    refine .cons ?_ ?_
    · apply rewords_symbol wf symbol resolves shows shows' start start' holds.1 holds'.1
      intro n late within
      apply unnamed n late
      exact Nat.lt_of_lt_of_le within (Nat.add_le_add_left (Nat.le_add_right _ _) first)
    · apply rewords_symbols wf rest others shown shown' handles handles' holds.2 holds'.2
      intro n late within
      apply unnamed n (Nat.le_trans (Nat.le_add_right _ _) late)
      rwa [← Nat.add_assoc]

end

theorem expand_of_tree {t : Tree} (found : g.tree h = .ok t) : g.expand h = .ok (.ofTree t) :=
  bind_eq_ok_iff.mpr ⟨t, found, rfl⟩

/-- Arguments that mean something are written as the trees of their concepts are. -/
theorem exists_of_reference {hs : List Handle} (found : g.reference hs = .ok (some e)) :
    ∃ ts, ts.map Tree.handle = hs ∧ (∀ t ∈ ts, g.Shows t) ∧ e = .ofArgs (Expansion.ofTrees ts) := by
  have one : ∀ {h e}, g.expand h = .ok e → ∃ t, t.handle = h ∧ g.Shows t ∧ e = .ofTree t := by
    intro h e expanded
    obtain ⟨t, tree, ⟨⟩⟩ := bind_eq_ok_iff.mp expanded
    obtain ⟨shows, same⟩ := shows_of_tree tree
    exact ⟨t, same, shows, rfl⟩
  have all : ∀ {hs es}, hs.mapM g.expand = .ok es →
      ∃ ts, ts.map Tree.handle = hs ∧ (∀ t ∈ ts, g.Shows t) ∧ es = Expansion.ofTrees ts := by
    intro hs es expanded
    induction hs generalizing es with
    | nil =>
      obtain ⟨⟩ : Except.ok [] = Except.ok es := expanded
      exact ⟨[], rfl, nofun, rfl⟩
    | cons h hs ih =>
      rw [List.mapM_cons] at expanded
      obtain ⟨e, first, expanded⟩ := bind_eq_ok_iff.mp expanded
      obtain ⟨rest, others, ⟨⟩⟩ := bind_eq_ok_iff.mp expanded
      obtain ⟨t, rfl, shows, rfl⟩ := one first
      obtain ⟨ts, rfl, shown, rfl⟩ := ih others
      exact ⟨t :: ts, rfl, List.forall_mem_cons.mpr ⟨shows, shown⟩, rfl⟩
  rcases hs with _ | ⟨h, _ | ⟨k, more⟩⟩
  · cases found
  · obtain ⟨e, expanded, ⟨⟩⟩ := bind_eq_ok_iff.mp found
    obtain ⟨t, rfl, shows, rfl⟩ := one expanded
    exact ⟨[t], rfl, List.forall_mem_singleton.mpr shows, rfl⟩
  · obtain ⟨es, expanded, ⟨⟩⟩ := bind_eq_ok_iff.mp found
    obtain ⟨_ | ⟨t, _ | ⟨u, ts⟩⟩, handles, shown, rfl⟩ := all expanded
    · cases handles
    · cases handles
    · exact ⟨t :: u :: ts, handles, shown, rfl⟩

/-- Arguments go on to mean what they meant when they were built first. -/
theorem rewords_reference (wf : f.WellFormed) {symbols : List Symbol}
    (resolves : Resolves registry (Grammar.snippetsOfSymbols symbols))
    (holds : g.Holds first (slotsOfSymbols registry parent first symbols))
    (holds' : g'.Holds first' (slotsOfSymbols registry parent' first' symbols))
    (unnamed : ∀ n, first ≤ n → n < first + Grammar.sizeAll symbols → f.Unnamed n)
    (means : g.reference (startsFrom first (symbols.map Symbol.size)) = .ok (some e))
    (means' : g'.reference (startsFrom first' (symbols.map Symbol.size)) = .ok (some e')) :
    f.Rewords e e' := by
  obtain ⟨ts, handles, shown, rfl⟩ := exists_of_reference means
  obtain ⟨us, handles', shown', rfl⟩ := exists_of_reference means'
  exact rewords_ofArgs wf
    (rewords_symbols wf symbols resolves shown shown' handles handles' holds holds' unnamed)

end Built

end Forest

end ConceptForest
