import ConceptForest.Proofs.Forest.Ownership

/-!
The way down to a concept.

The lineage of a concept are all its owners, the outermost first, and the concept itself at the end.
In a well-formed forest lineages tell all about ownership: a concept is another one or owns it
exactly if its lineage is the start of the other lineage (`lineage_prefix_iff`), and every start of
a lineage is the lineage of its last concept (`eq_lineage_of_prefix`). Of two owners of a concept
one owns the other (`owns_comparable`).
-/

namespace ConceptForest

namespace Forest

variable {f : Forest} {a h p : Handle}

/-- All owners of a concept, the outermost first, and the concept itself. -/
def lineage (f : Forest) (h : Handle) : List Handle :=
  f.chain h ++ [h]

/-- A walk to the owners that has come to its end does not go on if it may be longer. -/
theorem owners_succ_of_short {n : Nat} (short : (f.owners n h).length < n) :
    f.owners (n + 1) h = f.owners n h := by
  induction n generalizing h with
  | zero => simp at short
  | succ n ih =>
    cases owned : f.parent? h with
    | none => simp [owners, owned]
    | some p =>
      rw [owners_succ n owned] at short
      rw [owners_succ (n + 1) owned, owners_succ n owned, ih (by simpa using short)]

theorem chain_of_root (root : f.parent? h = none) : f.chain h = [] := by
  unfold chain
  cases f.next <;> simp [owners, root]

/-- The owners of a concept are its parent and the owners of that. -/
theorem chain_eq_lineage (wf : f.WellFormed) (owned : f.parent? h = some p) :
    f.chain h = f.lineage p := by
  have live := contains_of_parent? owned
  obtain ⟨n, eq⟩ := Nat.exists_eq_add_one_of_ne_zero (Nat.ne_zero_of_lt (lt_next_of_contains live))
  have short : (f.owners n p).length < n := by
    have all := length_owners_lt wf live (n + 1)
    rw [owners_succ n owned, eq] at all
    simpa using all
  rw [chain, lineage, chain, eq, owners_succ n owned, owners_succ_of_short short, List.reverse_cons]

theorem lineage_of_parent? (wf : f.WellFormed) (owned : f.parent? h = some p) :
    f.lineage h = f.lineage p ++ [h] := by
  rw [lineage, chain_eq_lineage wf owned]

theorem mem_lineage_self (f : Forest) (h : Handle) : h ∈ f.lineage h := by
  simp [lineage]

theorem mem_lineage_iff (wf : f.WellFormed) : a ∈ f.lineage h ↔ a = h ∨ f.Owns a h := by
  rw [lineage, List.mem_append, mem_chain_iff wf, List.mem_singleton, or_comm]

theorem nodup_lineage (wf : f.WellFormed) (h : Handle) : (f.lineage h).Nodup := by
  have walk := List.nodup_reverse.mpr (nodup_owners wf f.next h)
  rwa [List.reverse_cons] at walk

/-- The way down to an owner is the start of the way down to what it owns. -/
theorem lineage_prefix_chain (wf : f.WellFormed) (owns : f.Owns a h) :
    f.lineage a <+: f.chain h := by
  induction owns with
  | single owned => rw [chain_eq_lineage wf owned]
  | tail _ owned ih =>
    rw [chain_eq_lineage wf owned]
    exact ih.trans (List.prefix_append _ _)

theorem lineage_prefix_iff (wf : f.WellFormed) :
    f.lineage a <+: f.lineage h ↔ a = h ∨ f.Owns a h := by
  constructor
  · intro start
    exact (mem_lineage_iff wf).mp (start.subset (mem_lineage_self f a))
  · rintro (rfl | owns)
    · exact List.prefix_rfl
    · exact (lineage_prefix_chain wf owns).trans (List.prefix_append _ _)

/-- Of two concepts that both are a third one or own it, one is the other or owns it. -/
theorem owns_comparable (wf : f.WellFormed) {b : Handle} (first : a = h ∨ f.Owns a h)
    (second : b = h ∨ f.Owns b h) : a = b ∨ f.Owns a b ∨ f.Owns b a := by
  have start := (lineage_prefix_iff wf).mpr first
  have start' := (lineage_prefix_iff wf).mpr second
  rcases List.prefix_or_prefix_of_prefix start start' with shorter | shorter
  · exact ((lineage_prefix_iff wf).mp shorter).imp_right .inl
  · exact ((lineage_prefix_iff wf).mp shorter).imp Eq.symm .inr

theorem not_owns_of_mem_childrenOf (wf : f.WellFormed) {b : Handle} (mem : a ∈ f.childrenOf p)
    (mem' : b ∈ f.childrenOf p) : ¬ f.Owns a b := by
  intro owns
  have below := owns_of_parent? (wf.mem_childrenOf.mp mem)
  rcases owns.up (wf.mem_childrenOf.mp mem') with rfl | above
  · exact wf.not_owns_self a below
  · exact wf.not_owns_self a (above.trans below)

/-- Two children of one concept own nothing in common. -/
theorem eq_of_mem_childrenOf (wf : f.WellFormed) {b : Handle} (mem : a ∈ f.childrenOf p)
    (mem' : b ∈ f.childrenOf p) (first : a = h ∨ f.Owns a h) (second : b = h ∨ f.Owns b h) :
    a = b := by
  rcases owns_comparable wf first second with same | owns | owns
  · exact same
  · exact absurd owns (not_owns_of_mem_childrenOf wf mem mem')
  · exact absurd owns (not_owns_of_mem_childrenOf wf mem' mem)

/-- Of two starts of a list without repetition that end alike neither is longer. -/
theorem eq_of_prefix_of_concat {x : Handle} {xs ys whole : List Handle} (nodup : whole.Nodup)
    (first : xs ++ [x] <+: whole) (second : ys ++ [x] <+: whole) : xs = ys := by
  have apart : ∀ {zs : List Handle}, zs ++ [x] <+: whole → x ∉ zs := by
    intro zs start mem
    have once := nodup.sublist start.sublist
    exact (List.nodup_append.mp once).2.2 x mem x (by simp) rfl
  rcases List.prefix_or_prefix_of_prefix first second with shorter | shorter
  · rcases List.prefix_concat_iff.mp shorter with same | inside
    · simpa using same
    · exact absurd (inside.subset (by simp)) (apart second)
  · rcases List.prefix_concat_iff.mp shorter with same | inside
    · simpa using same.symm
    · exact absurd (inside.subset (by simp)) (apart first)

/-- Every start of the way down to a concept is the way down to another one. -/
theorem eq_lineage_of_prefix (wf : f.WellFormed) {start : List Handle}
    (prefixes : start <+: f.lineage h) (last : start.getLast? = some a) : start = f.lineage a := by
  obtain ⟨before, rfl⟩ := List.getLast?_eq_some_iff.mp last
  have above : a = h ∨ f.Owns a h := (mem_lineage_iff wf).mp (prefixes.subset (by simp))
  have same := eq_of_prefix_of_concat (nodup_lineage wf h) prefixes
    ((lineage_prefix_iff wf).mpr above)
  rw [same, lineage]

end Forest

end ConceptForest
