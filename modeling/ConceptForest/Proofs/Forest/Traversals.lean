import ConceptForest.Proofs.Forest.Preorder
import ConceptForest.Proofs.Forest.Requests

/-!
Ways through a forest: down from a concept to all that it owns, and up to all its owners.

A walk down keeps a stack of the concepts that it still has to look at (`Walks`). It needs no bound
on its length: in a well-formed forest it comes to an end, and what it has visited then is what a
recursion along the tree lists.

* `Walks.append`, `Walks.eq` — walks one after the other, and the one end of a walk.
* `Shows.walks` — what a walk visits that passes nothing over.
* `ListsBelow`, `ListsAbove` — all that is true of a list of what a concept owns, and of its owners.
* `traversals_agree` — both lists are found for every live concept, and tell the same about who owns
  whom.
-/

namespace ConceptForest

namespace Forest

variable {f : Forest} {a d h p : Handle} {c : Concept} {t : Tree}

/-! ### Walks with a stack -/

/-- A walk down that has to look at the concepts on a stack, the first of them next, and has visited
some concepts already, comes to an end with the last ones visited. A concept may be passed over,
which may depend on those visited before; any other concept is visited, and its children come on top
of the rest of the stack. -/
inductive Walks (f : Forest) (passed : List Handle → Handle → Prop) :
    List Handle → List Handle → List Handle → Prop where
  | done {visited : List Handle} : Walks f passed [] visited visited
  | pass {h : Handle} {stack visited last : List Handle} (skipped : passed visited h)
    (rest : Walks f passed stack visited last) : Walks f passed (h :: stack) visited last
  | visit {h : Handle} {c : Concept} {stack visited last : List Handle} (entered : ¬ passed visited h)
    (live : f.get? h = some c) (rest : Walks f passed (c.children ++ stack) (visited ++ [h]) last) :
    Walks f passed (h :: stack) visited last

section Walks

variable {passed : List Handle → Handle → Prop} {stack others visited between last last' : List Handle}

/-- What is on top of a stack is walked through, with all that comes of it, before the rest. -/
theorem Walks.append (first : f.Walks passed stack visited between)
    (second : f.Walks passed others between last) :
    f.Walks passed (stack ++ others) visited last := by
  induction first with
  | done => exact second
  | pass skipped _ ih => exact .pass skipped (ih second)
  | visit entered live _ ih =>
    have rest := ih second
    rw [List.append_assoc] at rest
    exact .visit entered live rest

/-- A walk comes to one end only. -/
theorem Walks.eq (first : f.Walks passed stack visited last)
    (second : f.Walks passed stack visited last') : last' = last := by
  induction first with
  | done =>
    cases second
    rfl
  | pass skipped _ ih =>
    cases second with
    | pass _ rest => exact ih rest
    | visit entered _ _ => exact absurd skipped entered
  | visit entered live _ ih =>
    cases second with
    | pass skipped _ => exact absurd skipped entered
    | visit _ live' rest =>
      obtain rfl := Option.some.inj (live.symm.trans live')
      exact ih rest

/-- A walk through a row of concepts goes through one after the other. -/
theorem walks_row {listed : Tree → List Handle} {ts : List Tree}
    (each : ∀ t ∈ ts, ∀ visited, f.Walks passed [t.handle] visited (visited ++ listed t))
    (visited : List Handle) :
    f.Walks passed (ts.map Tree.handle) visited (visited ++ ts.flatMap listed) := by
  induction ts generalizing visited with
  | nil => simpa using Walks.done
  | cons t ts ih =>
    obtain ⟨first, others⟩ := List.forall_mem_cons.mp each
    rw [List.flatMap_cons, ← List.append_assoc]
    exact (first visited).append (ih others _)

/-- A walk from a concept that passes nothing over visits all concepts in its tree, each before
those it owns. -/
theorem Shows.walks (shows : f.Shows t) (visited : List Handle) :
    f.Walks (fun _ _ => False) [t.handle] visited (visited ++ t.handles) := by
  induction shows generalizing visited with
  | @node h c ts live children _ ih =>
    have inside := walks_row ih (visited ++ [h])
    rw [children, List.append_assoc] at inside
    refine .visit id live ?_
    rw [List.append_nil, Tree.handles_node]
    exact inside

end Walks

/-! ### The way down -/

/-- The list is of the concept and all it owns, in the order of a walk down. -/
structure ListsBelow (f : Forest) (h : Handle) (below : List Handle) : Prop where
  /-- The concept itself comes first, and then what is below each of its children in turn. -/
  rows : ∃ rows, List.Forall₂ (fun k row => f.descendants k = .ok row) (f.childrenOf h) rows ∧
    below = h :: rows.flatten
  mem_iff : ∀ k, k ∈ below ↔ k = h ∨ f.Owns h k
  nodup : below.Nodup
  pairwise : below.Pairwise f.Precedes
  /-- A walk with a stack ends, and only with this list. -/
  walks_iff : ∀ last, f.Walks (fun _ _ => False) [h] [] last ↔ last = below

theorem Shows.listsBelow (wf : f.WellFormed) (shows : f.Shows t) :
    f.ListsBelow t.handle t.handles where
  rows := by
    cases shows with
    | @node h c ts live children below =>
      refine ⟨ts.map Tree.handles, ?_, ?_⟩
      · rw [Tree.handle, childrenOf_of_get? live, ← children, List.forall₂_map_left_iff,
          List.forall₂_map_right_iff, List.forall₂_same]
        exact fun s child => (below s child).descendants wf
      · rw [Tree.handles_node, List.flatMap_def]
        rfl
  mem_iff k := shows.mem_handles_iff wf
  nodup := (shows.pairwise_precedes wf).imp fun precedes => precedes.ne wf
  pairwise := shows.pairwise_precedes wf
  walks_iff last := by
    have walks : f.Walks (fun _ _ => False) [t.handle] [] t.handles := shows.walks []
    constructor
    · exact fun other => walks.eq other
    · rintro rfl
      exact walks

theorem ListsBelow.contains {below : List Handle} (lists : f.ListsBelow h below)
    (live : f.contains h = true) : ∀ k ∈ below, f.contains k = true := by
  intro k mem
  rcases (lists.mem_iff k).mp mem with rfl | owns
  · exact live
  · exact owns.contains

/-- The concepts below a live one are listed. -/
theorem exists_listsBelow (wf : f.WellFormed) (live : f.contains h = true) :
    ∃ below, f.descendants h = .ok below ∧ f.ListsBelow h below := by
  obtain ⟨t, -, shows, rfl⟩ := exists_tree wf live
  exact ⟨t.handles, shows.descendants wf, shows.listsBelow wf⟩

/-! ### The way up -/

/-- The list is of the owners of a concept, from the outermost one to the parent. -/
structure ListsAbove (f : Forest) (h : Handle) (above : List Handle) : Prop where
  /-- Each concept is the parent of the next one, and the last one the parent of the concept. -/
  isChain : (above ++ [h]).IsChain fun p k => f.parent? k = some p
  /-- Nothing owns the first one. -/
  outermost : ∀ k ∈ (above ++ [h]).head?, f.parent? k = none
  nodup : (above ++ [h]).Nodup

theorem listsAbove_chain (wf : f.WellFormed) (h : Handle) : f.ListsAbove h (f.chain h) where
  isChain := by
    show (f.lineage h).IsChain _
    induction h using wf.wellFounded.induction with
    | _ h ih =>
      cases owned : f.parent? h with
      | none => simp [lineage, chain_of_root owned]
      | some p =>
        rw [lineage_of_parent? wf owned, List.isChain_append]
        refine ⟨ih p owned, .singleton h, ?_⟩
        simp [lineage, owned]
  outermost := by
    show ∀ k ∈ (f.lineage h).head?, _
    induction h using wf.wellFounded.induction with
    | _ h ih =>
      cases owned : f.parent? h with
      | none => simp [lineage, chain_of_root owned, owned]
      | some p =>
        have first : (f.lineage h).head? = (f.lineage p).head? := by
          rw [lineage_of_parent? wf owned, List.head?_append_of_ne_nil]
          exact List.ne_nil_of_mem (mem_lineage_self f p)
        rw [first]
        exact ih p owned
  nodup := nodup_lineage wf h

theorem ancestors_of_contains (live : f.contains h = true) : f.ancestors h = .ok (f.chain h) := by
  obtain ⟨c, live⟩ := contains_iff.mp live
  rw [ancestors, node_of_get? live]
  rfl

/-! ### Both ways -/

/-- In any forest that can come about, the way down from a live concept and the way up from a live
concept come to an end. What they list tells the same about who owns whom as the test of ownership
does. -/
theorem traversals_agree (requests : List Request) {a d : Handle}
    (live : (({} : Forest).afterAll requests).contains a = true)
    (there : (({} : Forest).afterAll requests).contains d = true) :
    let f := ({} : Forest).afterAll requests
    ∃ below above, f.descendants a = .ok below ∧ f.ListsBelow a below ∧
      f.ancestors d = .ok above ∧ f.ListsAbove d above ∧
      (f.isAncestor a d = true ↔ a ∈ above) ∧ (a ∈ above ↔ d ∈ below ∧ d ≠ a) := by
  intro f
  have wf : f.WellFormed := (evolves_afterAll wellFormed_empty requests).wellFormed
  obtain ⟨below, found, lists⟩ := exists_listsBelow wf live
  refine ⟨below, f.chain d, found, lists, ancestors_of_contains there, listsAbove_chain wf d, ?_, ?_⟩
  · rw [isAncestor_iff wf, mem_chain_iff wf]
  · rw [mem_chain_iff wf, lists.mem_iff]
    constructor
    · intro owns
      refine ⟨.inr owns, ?_⟩
      rintro rfl
      exact wf.not_owns_self _ owns
    · rintro ⟨same | owns, ne⟩
      · exact absurd same ne
      · exact owns

/-- Two statements under a root, the second of them moved in front of the first. -/
theorem traversals_agree_moved :
    let f := ({} : Forest).afterAll [.create { kind := .root },
      .create { kind := .statement, parent := some 0 },
      .create { kind := .symbol, parent := some 1 },
      .create { kind := .statement, parent := some 0 },
      .create { kind := .symbol, parent := some 3 }, .insertAt 0 3 0]
    f.contains 0 = true ∧ f.contains 2 = true ∧
      f.descendants 0 = .ok [0, 3, 4, 1, 2] ∧ f.ListsBelow 0 [0, 3, 4, 1, 2] ∧
      f.ancestors 2 = .ok [0, 1] ∧ f.ListsAbove 2 [0, 1] ∧ f.isAncestor 0 2 = true := by
  intro f
  have live : f.contains 0 = true := by decide +kernel
  have there : f.contains 2 = true := by decide +kernel
  have below : f.descendants 0 = .ok [0, 3, 4, 1, 2] := eq_ok_of_toOption (by decide +kernel)
  have above : f.ancestors 2 = .ok [0, 1] := eq_ok_of_toOption (by decide +kernel)
  obtain ⟨_, _, down, listsBelow, up, listsAbove, test, -⟩ := traversals_agree _ live there
  obtain ⟨⟩ := down.symm.trans below
  obtain ⟨⟩ := up.symm.trans above
  exact ⟨live, there, below, listsBelow, above, listsAbove, test.mpr (by decide)⟩

end Forest

end ConceptForest
