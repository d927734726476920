import ConceptForest.Forest.Edit

/-!
Steps of an edit.

How one step of a program that works in place is run, whether it is granted or refused, and when the
checks that come before the steps are passed. What each of the steps keeps true of the state, all of
them keep true (`Keeps`), whether or not one is refused half-way.
-/

namespace ConceptForest

variable {ε δ σ α β : Type} {s t : σ} {a : α} {e : ε}

theorem ask_of_ok (question : σ → Except ε α) (granted : question s = .ok a) :
    ask question s = .ok a s := by
  simp [ask, granted]

theorem ask_of_error (question : σ → Except ε α) (refused : question s = .error e) :
    ask question s = .error e s := by
  simp [ask, refused]

theorem ask_eq_ok_iff {question : σ → Except ε α} :
    ask question s = .ok a t ↔ question s = .ok a ∧ t = s := by
  constructor
  · intro granted
    cases answer : question s with
    | ok b =>
      obtain ⟨⟩ := (ask_of_ok question answer).symm.trans granted
      exact ⟨rfl, rfl⟩
    | error e => cases (ask_of_error question answer).symm.trans granted
  · rintro ⟨granted, rfl⟩
    exact ask_of_ok question granted

/-- The state that steps leave, granted or refused. -/
def leftBy (steps : EStateM ε σ α) (s : σ) : σ :=
  match steps s with
  | .ok _ t => t
  | .error _ t => t

theorem leftBy_of_ok {x : EStateM ε σ α} (granted : x s = .ok a t) : leftBy x s = t := by
  simp [leftBy, granted]

theorem leftBy_of_error {x : EStateM ε σ α} (refused : x s = .error e t) : leftBy x s = t := by
  simp [leftBy, refused]

/-- After a step that is granted comes the rest. -/
theorem bind_of_ok {x : EStateM ε σ α} {rest : α → EStateM ε σ β} (granted : x s = .ok a t) :
    (x >>= rest) s = rest a t := by
  show EStateM.bind x rest s = _
  simp [EStateM.bind, granted]

/-- After a step that is refused comes nothing. -/
theorem bind_of_error {x : EStateM ε σ α} {rest : α → EStateM ε σ β} (refused : x s = .error e t) :
    (x >>= rest) s = .error e t := by
  show EStateM.bind x rest s = _
  simp [EStateM.bind, refused]

/-- A step and the rest are granted only if each of them is. -/
theorem exists_of_bind_eq_ok {x : EStateM ε σ α} {rest : α → EStateM ε σ β} {b : β} {u : σ}
    (granted : (x >>= rest) s = .ok b u) : ∃ a t, x s = .ok a t ∧ rest a t = .ok b u := by
  cases first : x s with
  | ok a t => exact ⟨a, t, rfl, (bind_of_ok first).symm.trans granted⟩
  | error e t => cases (bind_of_error first).symm.trans granted

theorem map_of_ok {x : EStateM ε σ α} {g : α → β} (granted : x s = .ok a t) :
    (g <$> x) s = .ok (g a) t := by
  show EStateM.map g x s = _
  simp [EStateM.map, granted]

theorem run_get (s : σ) : (get : EStateM ε σ σ) s = .ok s s := rfl

theorem adaptExcept_of_ok {x : EStateM ε σ α} {told : ε → δ} (granted : x s = .ok a t) :
    x.adaptExcept told s = .ok a t := by
  simp [EStateM.adaptExcept, granted]

theorem adaptExcept_of_error {x : EStateM ε σ α} {told : ε → δ} (refused : x s = .error e t) :
    x.adaptExcept told s = .error (told e) t := by
  simp [EStateM.adaptExcept, refused]

@[simp] theorem ok_bind {rest : α → Except ε β} : (Except.ok a >>= rest) = rest a := rfl

@[simp] theorem error_bind {rest : α → Except ε β} : (Except.error e >>= rest) = .error e := rfl

theorem bind_eq_ok_iff {x : Except ε α} {rest : α → Except ε β} {b : β} :
    (x >>= rest) = .ok b ↔ ∃ a, x = .ok a ∧ rest a = .ok b := by
  cases x <;> simp

/-- What comes of one step after the other comes of one of them. -/
theorem exists_of_mem_mapM {read : α → Except ε β} {xs : List α} {ys : List β}
    (all : xs.mapM read = .ok ys) {y : β} (mem : y ∈ ys) : ∃ x ∈ xs, read x = .ok y := by
  induction xs generalizing ys with
  | nil =>
    obtain ⟨⟩ := all
    cases mem
  | cons x xs ih =>
    rw [List.mapM_cons] at all
    obtain ⟨first, one, all⟩ := bind_eq_ok_iff.mp all
    obtain ⟨rest, others, all⟩ := bind_eq_ok_iff.mp all
    obtain ⟨⟩ := all
    rcases List.mem_cons.mp mem with rfl | mem
    · exact ⟨x, List.mem_cons_self, one⟩
    · obtain ⟨x', inside, read⟩ := ih others mem
      exact ⟨x', List.mem_cons_of_mem _ inside, read⟩

/-- If there is a result of each, there are results of all. -/
theorem exists_mapM {m : Type → Type} [Monad m] [LawfulMonad m] {α β : Type} {find : α → m β}
    {xs : List α} (each : ∀ x ∈ xs, ∃ y, find x = pure y) : ∃ ys, xs.mapM find = pure ys := by
  induction xs with
  | nil => exact ⟨[], rfl⟩
  | cons x xs ih =>
    obtain ⟨y, first⟩ := each x List.mem_cons_self
    obtain ⟨ys, others⟩ := ih fun z mem => each z (List.mem_cons_of_mem _ mem)
    exact ⟨y :: ys, by simp [first, others]⟩

theorem exists_error_of_isNone {x : Except ε α} (nothing : x.toOption.isNone = true) :
    ∃ e, x = .error e := by
  cases x with
  | error e => exact ⟨e, rfl⟩
  | ok a => cases nothing

theorem eq_ok_of_toOption {x : Except ε α} (something : x.toOption = some a) : x = .ok a := by
  cases x with
  | error e => cases something
  | ok b => exact congrArg _ (Option.some.inj something)

/-- What an error is told as does not matter where there is none. -/
theorem mapError_eq_ok_iff {x : Except ε α} {told : ε → δ} :
    x.mapError told = .ok a ↔ x = .ok a := by
  cases x with
  | ok b =>
    constructor
    · rintro ⟨⟩
      rfl
    · rintro ⟨⟩
      rfl
  | error e =>
    constructor
    · rintro ⟨⟩
    · rintro ⟨⟩

theorem check_bind_eq_ok_iff {check : Except ε Unit} {rest : Except ε β} {b : β} :
    (check >>= fun _ => rest) = .ok b ↔ check = .ok () ∧ rest = .ok b := by
  cases check <;> simp

theorem grant_eq_ok_iff {condition : Prop} [Decidable condition] {b : α} :
    (if condition then .ok a else .error e : Except ε α) = .ok b ↔ condition ∧ a = b := by
  split
  · next holds => simp [holds]
  · next fails => simp [fails]

theorem refuse_eq_ok_iff {condition : Prop} [Decidable condition] :
    (if condition then throw e else pure () : Except ε Unit) = .ok () ↔ ¬ condition := by
  split
  · next holds => simp [holds]
  · next fails => simp [fails, pure, Except.pure]

/-- A check in front of the rest, as steps are written one after the other. -/
theorem refuse_else_eq_ok_iff {condition : Prop} [Decidable condition] {following : α → Except ε β}
    {rest : Except ε β} {b : β} :
    (if condition then throw e >>= following else rest) = .ok b ↔ ¬ condition ∧ rest = .ok b := by
  split
  · next holds => simp [holds, throw, throwThe, MonadExceptOf.throw]
  · next fails => simp [fails]

/-! ### What steps keep -/

/-- The steps leave a state with the property wherever they find one, granted or refused. -/
def Keeps (property : σ → Prop) (steps : EStateM ε σ α) : Prop :=
  ∀ s, property s → property (leftBy steps s)

namespace Keeps

variable {property : σ → Prop} {x : EStateM ε σ α}

theorem pure : Keeps property (pure a : EStateM ε σ α) :=
  fun _ holds => holds

theorem throw : Keeps property (throw e : EStateM ε σ α) :=
  fun _ holds => holds

theorem get : Keeps property (get : EStateM ε σ σ) :=
  fun _ holds => holds

theorem ask {question : σ → Except ε α} : Keeps property (ask question) := by
  intro s holds
  cases answer : question s with
  | ok a => rwa [leftBy_of_ok (ask_of_ok _ answer)]
  | error e => rwa [leftBy_of_error (ask_of_error _ answer)]

theorem modify {change : σ → σ} (keeps : ∀ s, property s → property (change s)) :
    Keeps property (modify change : EStateM ε σ Unit) :=
  keeps

theorem bind {rest : α → EStateM ε σ β} (first : Keeps property x)
    (further : ∀ a, Keeps property (rest a)) : Keeps property (x >>= rest) := by
  intro s holds
  have left := first s holds
  cases ran : x s with
  | ok a t =>
    rw [leftBy_of_ok ran] at left
    rw [leftBy, bind_of_ok ran]
    exact further a t left
  | error e t =>
    rw [leftBy_of_error ran] at left
    rwa [leftBy_of_error (bind_of_error ran)]

theorem map {f : α → β} (keeps : Keeps property x) : Keeps property (f <$> x) := by
  rw [map_eq_pure_bind]
  exact keeps.bind fun _ => pure

theorem adaptExcept {told : ε → δ} (keeps : Keeps property x) :
    Keeps property (x.adaptExcept told) := by
  intro s holds
  have left := keeps s holds
  cases ran : x s with
  | ok a t =>
    rw [leftBy_of_ok ran] at left
    rwa [leftBy_of_ok (adaptExcept_of_ok ran)]
  | error e t =>
    rw [leftBy_of_error ran] at left
    rwa [leftBy_of_error (adaptExcept_of_error ran)]

theorem forM {each : β → EStateM ε σ PUnit} (keeps : ∀ b, Keeps property (each b)) (bs : List β) :
    Keeps property (bs.forM each) := by
  induction bs with
  | nil => exact pure
  | cons b bs ih => exact (keeps b).bind fun _ => ih

theorem forM_option {each : β → EStateM ε σ PUnit} (keeps : ∀ b, Keeps property (each b))
    (b? : Option β) : Keeps property (b?.forM each) := by
  cases b? with
  | none => exact pure
  | some b => exact keeps b

end Keeps

end ConceptForest
