import ConceptForest.Proofs.Forest.Wording

/-!
Flattening within a limit.

* `alternatives_flatten` — what comes of it are the first of the sequences that an expansion stands
  for, as many as the limit: of a product no more is needed than that many of each factor
  (`take_join_take`).
* `truncated_of_lt`, `lt_of_truncated` — that there are more is told whenever there are, and
  otherwise only where a choice is empty. What is expanded from a concept has no empty choice
  (`productive_of_expand`).
* `flatten_exact` — all about it.
-/

namespace ConceptForest

namespace Expansion

variable {limit : Nat} {before : List (List String)} {e : Expansion} {es : List Expansion}

/-! ### Products -/

@[simp] theorem join_nil_right (xs : List (List String)) : join xs [] = [] := by
  simp [join, List.flatMap_eq_nil_iff]

@[simp] theorem join_nil (ys : List (List String)) : join [] ys = [] := rfl

theorem join_cons (x : List String) (xs ys : List (List String)) :
    join (x :: xs) ys = ys.map (x ++ ·) ++ join xs ys :=
  List.flatMap_cons

theorem join_append (xs ys zs : List (List String)) : join (xs ++ ys) zs = join xs zs ++ join ys zs :=
  List.flatMap_append

@[simp] theorem join_single_nil (xs : List (List String)) : join xs [[]] = xs := by
  simp [join]

@[simp] theorem single_nil_join (ys : List (List String)) : join [[]] ys = ys := by
  simp [join]

theorem length_join (xs ys : List (List String)) : (join xs ys).length = xs.length * ys.length := by
  simp [join]

theorem join_assoc (xs ys zs : List (List String)) : join (join xs ys) zs = join xs (join ys zs) := by
  simp [join, List.flatMap_assoc, List.flatMap_map, List.map_flatMap, Function.comp_def]

/-- The first sequences of a product come from as many of the second factor. -/
theorem take_join_take_right (n : Nat) (xs ys : List (List String)) :
    (join xs (ys.take n)).take n = (join xs ys).take n := by
  cases xs with
  | nil => rfl
  | cons x xs =>
    rcases Nat.le_total ys.length n with few | many
    · rw [List.take_of_length_le few]
    · have enough : n ≤ (ys.map (x ++ ·)).length := by simpa using many
      have enough' : n ≤ ((ys.take n).map (x ++ ·)).length := by simpa using many
      rw [join_cons, join_cons, List.take_append_of_le_length enough,
        List.take_append_of_le_length enough', List.map_take, List.take_take, Nat.min_self]

/-- The first sequences of a product come from as many of the first factor. -/
theorem take_join_take_left (n : Nat) (xs ys : List (List String)) :
    (join (xs.take n) ys).take n = (join xs ys).take n := by
  rcases Nat.le_total xs.length n with few | many
  · rw [List.take_of_length_le few]
  · cases ys with
    | nil => simp
    | cons y ys =>
      have enough : n ≤ (join (xs.take n) (y :: ys)).length := by
        rw [length_join, List.length_take_of_le many]
        exact Nat.le_mul_of_pos_right n (Nat.succ_pos _)
      rw [← List.take_append_of_le_length enough, ← join_append, List.take_append_drop]

theorem alternatives_joinWithin (ys : List (List String)) (limit : Nat) (xs : List (List String)) :
    (joinWithin ys limit xs).alternatives = (join xs ys).take limit := by
  induction xs generalizing limit with
  | nil => simp [joinWithin]
  | cons x xs ih =>
    rw [joinWithin, join_cons, List.take_append, List.length_map]
    split
    · next few =>
      dsimp only
      rw [List.take_of_length_le (by simpa using few), ih]
    · next many =>
      rw [Nat.sub_eq_zero_of_le (Nat.le_of_not_le many), List.take_zero, List.append_nil,
        List.map_take]

theorem truncated_joinWithin (ys : List (List String)) (limit : Nat) (xs : List (List String)) :
    (joinWithin ys limit xs).truncated = true ↔ limit < (join xs ys).length := by
  induction xs generalizing limit with
  | nil => simp [joinWithin]
  | cons x xs ih =>
    rw [joinWithin, join_cons, List.length_append, List.length_map]
    split
    · next few =>
      rw [ih]
      omega
    · next many => simp only [true_iff]; omega

/-! ### The first sequences -/

mutual

/-- Within a limit come the first sequences that an expansion stands for. -/
theorem alternatives_flatten (limit : Nat) :
    (e : Expansion) → (e.flatten limit).alternatives = e.sequences.take limit
  | leaf text => by
    rw [flatten, sequences]
    split
    · next zero => simp [zero]
    · next room => simp [List.take_of_length_le, Nat.one_le_iff_ne_zero.mpr room]
  | choice es => by
    rw [flatten, sequences]
    split
    · next zero => simp [zero]
    · exact alternatives_flattenAny limit es
  | sequence es => by
    rw [flatten, sequences]
    split
    · next zero => simp [zero]
    · next room =>
      rw [alternatives_flattenEach limit [[]] es (Nat.one_le_iff_ne_zero.mpr room),
        single_nil_join]

theorem alternatives_flattenAny (limit : Nat) :
    (es : List Expansion) → (flattenAny limit es).alternatives = (sequencesOfAny es).take limit
  | [] => by simp [flattenAny, sequencesOfAny]
  | e :: es => by
    rw [flattenAny, sequencesOfAny]
    split
    · next zero => simp [zero]
    · dsimp only
      rw [alternatives_flattenAny, alternatives_flatten limit e, List.length_take, List.take_append]
      congr 2
      omega

/-- What was there before is continued in all ways, as far as the limit goes. -/
theorem alternatives_flattenEach (limit : Nat) (before : List (List String)) :
    (es : List Expansion) → before.length ≤ limit →
      (flattenEach limit before es).alternatives = (join before (sequencesOfEach es)).take limit
  | [], few => by
    rw [flattenEach, sequencesOfEach, join_single_nil, List.take_of_length_le few]
  | e :: es, _ => by
    rw [flattenEach, sequencesOfEach, alternatives_flatten limit e, alternatives_joinWithin,
      take_join_take_right, alternatives_flattenEach limit _ es (List.length_take_le _ _),
      take_join_take_left, join_assoc]

end

/-! ### Telling that there are more -/

mutual

/-- If there are more sequences than the limit allows, that is told. -/
theorem truncated_of_lt {limit : Nat} :
    (e : Expansion) → limit < e.sequences.length → (e.flatten limit).truncated = true
  | leaf text, more => by
    rw [sequences, List.length_singleton, Nat.lt_one_iff] at more
    rw [flatten, if_pos more]
  | choice es, more => by
    rw [flatten]
    split
    · rfl
    · exact truncated_flattenAny_of_lt es more
  | sequence es, more => by
    rw [flatten]
    split
    · rfl
    · next room =>
      refine truncated_flattenEach_of_lt es (Nat.one_le_iff_ne_zero.mpr room) ?_
      rwa [single_nil_join]

theorem truncated_flattenAny_of_lt {limit : Nat} :
    (es : List Expansion) → limit < (sequencesOfAny es).length →
      (flattenAny limit es).truncated = true
  | [], more => by simp [sequencesOfAny] at more
  | e :: es, more => by
    rw [sequencesOfAny, List.length_append] at more
    rw [flattenAny]
    split
    · rfl
    · rw [Bool.or_eq_true]
      rcases Nat.lt_or_ge limit e.sequences.length with here | fits
      · exact .inl (truncated_of_lt e here)
      · right
        apply truncated_flattenAny_of_lt es
        rw [alternatives_flatten, List.take_of_length_le fits]
        omega

theorem truncated_flattenEach_of_lt {limit : Nat} {before : List (List String)} :
    (es : List Expansion) → before.length ≤ limit →
      limit < (join before (sequencesOfEach es)).length →
      (flattenEach limit before es).truncated = true
  | [], few, more => by
    rw [sequencesOfEach, join_single_nil] at more
    omega
  | e :: es, _, more => by
    rw [flattenEach, Bool.or_eq_true, Bool.or_eq_true, truncated_joinWithin, alternatives_joinWithin,
      alternatives_flatten]
    rcases Nat.lt_or_ge limit e.sequences.length with here | fits
    · exact .inl (.inl (truncated_of_lt e here))
    · rw [List.take_of_length_le fits]
      rcases Nat.lt_or_ge limit (join before e.sequences).length with joined | fits'
      · exact .inl (.inr joined)
      · right
        rw [List.take_of_length_le fits']
        apply truncated_flattenEach_of_lt es fits'
        rwa [join_assoc, ← sequencesOfEach]

end

/-- No choice in the expansion is empty. -/
inductive Productive : Expansion → Prop where
  | leaf {text : String} : Productive (leaf text)
  | choice {es : List Expansion} (some : es ≠ []) (each : ∀ e ∈ es, Productive e) :
    Productive (choice es)
  | sequence {es : List Expansion} (each : ∀ e ∈ es, Productive e) : Productive (sequence es)

theorem length_sequencesOfEach_pos (each : ∀ e ∈ es, 0 < e.sequences.length) :
    0 < (sequencesOfEach es).length := by
  induction es with
  | nil => simp [sequencesOfEach]
  | cons e es ih =>
    obtain ⟨first, others⟩ := List.forall_mem_cons.mp each
    rw [sequencesOfEach, length_join]
    exact Nat.mul_pos first (ih others)

/-- An expansion without an empty choice stands for something. -/
theorem Productive.length_pos (productive : e.Productive) : 0 < e.sequences.length := by
  induction productive with
  | leaf => simp [sequences]
  | @choice es some _ ih =>
    obtain ⟨e, es, rfl⟩ := List.exists_cons_of_ne_nil some
    rw [sequences, sequencesOfAny, List.length_append]
    exact Nat.add_pos_left (ih e List.mem_cons_self) _
  | sequence _ ih =>
    rw [sequences]
    exact length_sequencesOfEach_pos ih

/-- Where every choice offers something, each alternative adds to what there is. -/
theorem lt_of_truncated_flattenAny (each : ∀ e ∈ es, 0 < e.sequences.length)
    (told : ∀ e ∈ es, ∀ limit, (e.flatten limit).truncated = true → limit < e.sequences.length)
    (truncated : (flattenAny limit es).truncated = true) : limit < (sequencesOfAny es).length := by
  induction es generalizing limit with
  | nil => simp [flattenAny] at truncated
  | cons e es ih =>
    obtain ⟨first, others⟩ := List.forall_mem_cons.mp each
    obtain ⟨here, further⟩ := List.forall_mem_cons.mp told
    rw [sequencesOfAny, List.length_append]
    rw [flattenAny] at truncated
    split at truncated
    · omega
    · rcases (Bool.or_eq_true _ _).mp truncated with cut | cut
      · have := here limit cut
        omega
      · have := ih others further cut
        rw [alternatives_flatten, List.length_take] at this
        omega

/-- Where every choice offers something, no item makes less of what there is. -/
theorem lt_of_truncated_flattenEach (each : ∀ e ∈ es, 0 < e.sequences.length)
    (told : ∀ e ∈ es, ∀ limit, (e.flatten limit).truncated = true → limit < e.sequences.length)
    (some : 0 < before.length) (room : 0 < limit)
    (truncated : (flattenEach limit before es).truncated = true) :
    limit < (join before (sequencesOfEach es)).length := by
  induction es generalizing before with
  | nil => simp [flattenEach] at truncated
  | cons e es ih =>
    obtain ⟨first, others⟩ := List.forall_mem_cons.mp each
    obtain ⟨here, further⟩ := List.forall_mem_cons.mp told
    have rest := length_sequencesOfEach_pos others
    rw [sequencesOfEach, ← join_assoc, length_join, length_join]
    rw [flattenEach, Bool.or_eq_true, Bool.or_eq_true, truncated_joinWithin, alternatives_joinWithin,
      alternatives_flatten, take_join_take_right, length_join] at truncated
    have more : before.length * e.sequences.length ≤
        before.length * e.sequences.length * (sequencesOfEach es).length :=
      Nat.le_mul_of_pos_right _ rest
    rcases truncated with (cut | cut) | cut
    · calc limit < e.sequences.length := here limit cut
        _ ≤ before.length * e.sequences.length := Nat.le_mul_of_pos_left _ some
        _ ≤ _ := more
    · calc limit < before.length * (e.sequences.take limit).length := cut
        _ ≤ before.length * e.sequences.length := Nat.mul_le_mul_left _ (List.length_take_le' _ _)
        _ ≤ _ := more
    · have some' : 0 < ((join before e.sequences).take limit).length := by
        rw [List.length_take, length_join]
        exact Nat.lt_min.mpr ⟨room, Nat.mul_pos some first⟩
      calc limit < (join ((join before e.sequences).take limit) (sequencesOfEach es)).length :=
            ih others further some' cut
        _ ≤ before.length * e.sequences.length * (sequencesOfEach es).length := by
            rw [length_join, ← length_join before]
            exact Nat.mul_le_mul_right _ (List.length_take_le' _ _)

/-- Where every choice offers something, that there are more sequences is told only if there are. -/
theorem lt_of_truncated (productive : e.Productive) (truncated : (e.flatten limit).truncated = true) :
    limit < e.sequences.length := by
  induction productive generalizing limit with
  | leaf =>
    rw [flatten] at truncated
    split at truncated
    · next zero => simp [sequences, zero]
    · cases truncated
  | @choice es some each ih =>
    have pos := (Productive.choice some each).length_pos
    rw [flatten] at truncated
    split at truncated
    · next zero => rwa [zero]
    · exact lt_of_truncated_flattenAny (fun e mem => (each e mem).length_pos)
        (fun e mem _ cut => ih e mem cut) truncated
  | @sequence es each ih =>
    have pos := (Productive.sequence each).length_pos
    rw [flatten] at truncated
    split at truncated
    · next zero => rwa [zero]
    · next room =>
      have more : limit < (join [[]] (sequencesOfEach es)).length :=
        lt_of_truncated_flattenEach (fun e mem => (each e mem).length_pos)
          (fun e mem _ cut => ih e mem cut) Nat.one_pos (Nat.pos_of_ne_zero room) truncated
      rwa [single_nil_join] at more

/-- In what a concept is expanded to no choice is empty, for every concept has a representation. -/
theorem productive_of_shows {f : Forest} {t : Tree} (wf : f.WellFormed) (shows : f.Shows t) :
    (ofTree t).Productive := by
  induction shows with
  | @node h c ts live _ _ ih =>
    rw [ofTree, ofTrees_eq_map]
    refine .choice (by simp [wf.representations_ne_nil live]) ?_
    rw [List.forall_mem_append]
    constructor
    · intro e mem
      obtain ⟨r, -, rfl⟩ := List.mem_map.mp mem
      exact .leaf
    · intro e mem
      split at mem
      · cases mem
      · rw [List.mem_singleton.mp mem]
        refine .sequence fun e mem => ?_
        obtain ⟨t, child, rfl⟩ := List.mem_map.mp mem
        exact ih t child

theorem productive_of_expand {f : Forest} {h : Handle} (wf : f.WellFormed)
    (expanded : f.expand h = .ok e) : e.Productive := by
  obtain ⟨t, found, same⟩ := bind_eq_ok_iff.mp expanded
  obtain rfl := Except.ok.inj same
  exact productive_of_shows wf (Forest.shows_of_tree found).1

/-- All about flattening within a limit. It gives the first sequences that the expansion stands for,
as many as the limit; all of them if it does not tell that there are more; and where no choice is
empty, as in what any concept is expanded to, it tells that exactly if there are more. -/
theorem flatten_exact (limit : Nat) (e : Expansion) :
    (e.flatten limit).alternatives = e.sequences.take limit ∧
    ((e.flatten limit).truncated = false → (e.flatten limit).alternatives = e.sequences) ∧
    (e.Productive → ((e.flatten limit).truncated = true ↔ limit < e.sequences.length)) ∧
    ∀ requests h, (({} : Forest).afterAll requests).expand h = .ok e → e.Productive := by
  refine ⟨alternatives_flatten limit e, ?_, ?_, ?_⟩
  · intro whole
    rw [alternatives_flatten, List.take_of_length_le]
    refine Nat.le_of_not_lt fun more => ?_
    rw [truncated_of_lt e more] at whole
    cases whole
  · intro productive
    exact ⟨lt_of_truncated productive, truncated_of_lt e⟩
  · intro requests h expanded
    have wf := (Forest.evolves_afterAll Forest.wellFormed_empty requests).wellFormed
    exact productive_of_expand wf expanded

/-- Two choices between three words stand for nine sequences. -/
theorem flatten_exact_product :
    let e := sequence [choice [leaf "a", leaf "b", leaf "c"], choice [leaf "x", leaf "y", leaf "z"]]
    e.Productive ∧ (e.flatten 9).truncated = false ∧ (e.flatten 9).alternatives = e.sequences ∧
      (e.flatten 4).alternatives = [["a", "x"], ["a", "y"], ["a", "z"], ["b", "x"]] ∧
        ((e.flatten 4).truncated = true ↔ 4 < e.sequences.length) := by
  intro e
  have words : ∀ a b c, (choice [leaf a, leaf b, leaf c]).Productive := by
    intro a b c
    refine .choice (List.cons_ne_nil _ _) ?_
    simpa using ⟨Productive.leaf, .leaf, .leaf⟩
  have productive : e.Productive := .sequence (by simpa using ⟨words _ _ _, words _ _ _⟩)
  have whole : (e.flatten 9).truncated = false := by decide
  obtain ⟨first, -, more, -⟩ := flatten_exact 4 e
  exact ⟨productive, whole, (flatten_exact 9 e).2.1 whole, first, more productive⟩

end Expansion

end ConceptForest
