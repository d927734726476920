import ConceptForest.Proofs.Steps
import ConceptForest.Script.Reader

/-!
What readers hand back.

`Yields` says of all results of a reader, whatever it reads, that they are good in some sense; of
the tokens that are left, and of the readers that fail, it says nothing. It follows a rule of the
grammar step by step, and there is one lemma for every way to put readers together.
-/

namespace ConceptForest.Script

open Reader

variable {α β ι : Type} {r : Reader α} {good : α → Prop} {fine : β → Prop}

/-- Everything that the reader hands back is good. -/
def Yields (r : Reader α) (good : α → Prop) : Prop :=
  ∀ tokens a rest, r tokens = .ok (a, rest) → good a

namespace Yields

/-! ### One after the other -/

theorem pure {a : α} (holds : good a) : Yields (pure a) good := by
  rintro tokens _ rest ⟨⟩
  exact holds

theorem bind {rest : α → Reader β} (first : Yields r good)
    (further : ∀ a, good a → Yields (rest a) fine) : Yields (r >>= rest) fine := by
  intro tokens b left read
  obtain ⟨⟨a, between⟩, one, read⟩ := bind_eq_ok_iff.mp read
  exact further a (first tokens a between one) between b left read

theorem anything : Yields r fun _ => True :=
  fun _ _ _ _ => trivial

/-- What comes first says nothing about the result. -/
theorem behind {rest : α → Reader β} (further : ∀ a, Yields (rest a) fine) :
    Yields (r >>= rest) fine :=
  anything.bind fun a _ => further a

/-- What stands behind a branching is shared by its branches. -/
theorem join {jump : α → Reader β} {branches : (α → Reader β) → Reader β} (good : α → Prop)
    (before : ∀ next, (∀ a, good a → Yields (next a) fine) → Yields (branches next) fine)
    (further : ∀ a, good a → Yields (jump a) fine) :
    Yields (have next := jump; branches next) fine :=
  before jump further

/-! ### Branches -/

theorem either {condition : Prop} [Decidable condition] {r r' : Reader α} (yields : Yields r good)
    (yields' : Yields r' good) : Yields (if condition then r else r') good := by
  split
  · exact yields
  · exact yields'

/-- One rule or the other, depending on what is read. -/
theorem choose {question : Reader Bool} {r r' : Reader α} (yields : Yields r good)
    (yields' : Yields r' good) :
    Yields (question >>= fun answer => if answer = true then r else r') good :=
  behind fun _ => either yields yields'

/-- A branch that reads nothing. -/
theorem nothing {next : List α → Reader β}
    (further : ∀ as, (∀ a ∈ as, good a) → Yields (next as) fine) :
    Yields (Pure.pure [] >>= next) fine :=
  bind (pure nofun) further

/-- A branch that reads one thing. -/
theorem single {next : List α → Reader β} (yields : Yields r good)
    (further : ∀ as, (∀ a ∈ as, good a) → Yields (next as) fine) :
    Yields (r >>= fun a => Pure.pure [a] >>= next) fine :=
  yields.bind fun _ holds => bind (pure (List.forall_mem_singleton.mpr holds)) further

/-! ### Failures -/

theorem throw {e : SyntaxError} : Yields (throw e : Reader α) good := by
  rintro tokens a rest ⟨⟩

theorem fail {fault : Fault} : Yields (Reader.fail fault : Reader α) good :=
  behind fun _ => throw

theorem unexpected : Yields (Reader.unexpected : Reader α) good :=
  behind fun _ => fail

theorem lift {x : Except SyntaxError α} (holds : ∀ a, x = .ok a → good a) :
    Yields (monadLift x : Reader α) good := by
  intro tokens a rest read
  obtain ⟨b, same, read⟩ := bind_eq_ok_iff.mp read
  obtain ⟨⟩ := read
  exact holds a same

/-! ### Repetition -/

/-- A round of a repetition that finds something. -/
theorem found {a : α} (holds : good a) :
    Yields (Pure.pure (some a)) fun found => ∀ a ∈ found, good a :=
  pure fun _ mem => Option.some.inj mem ▸ holds

theorem many {round : Reader (Option α)} (yields : Yields round fun found => ∀ a ∈ found, good a) :
    Yields (many round) fun as => ∀ a ∈ as, good a := by
  intro tokens
  induction size : tokens.length using Nat.strongRecOn generalizing tokens with
  | ind n ih =>
    intro as rest read
    rw [Reader.many] at read
    split at read
    · cases read
    · obtain ⟨⟩ := read
      intro _ mem
      cases mem
    · next a between one =>
      have first := yields tokens (some a) between one a rfl
      split at read
      · next shorter =>
        split at read
        · cases read
        · next others left more =>
          obtain ⟨⟩ := read
          exact List.forall_mem_cons.mpr ⟨first, ih _ (size ▸ shorter) between rfl others _ more⟩
      · obtain ⟨⟩ := read
        simpa using first

theorem manyWhile {more : Reader Bool} (yields : Yields r good) :
    Yields (manyWhile more r) fun as => ∀ a ∈ as, good a :=
  many (choose (yields.bind fun _ holds => found holds) (pure nofun))

theorem oneAndMore {more : Reader Bool} (yields : Yields r good) :
    Yields (oneAndMore more r) fun as => ∀ a ∈ as, good a :=
  yields.bind fun _ first => yields.manyWhile.bind fun _ others =>
    pure (List.forall_mem_cons.mpr ⟨first, others⟩)

theorem commaSeparated {stop : Reader Bool} (yields : Yields r good) :
    Yields (commaSeparated stop r) fun as => ∀ a ∈ as, good a :=
  yields.oneAndMore

theorem mapM {each : α → Reader β} {as : List α} (yields : ∀ a ∈ as, Yields (each a) fine) :
    Yields (as.mapM each) fun bs => ∀ b ∈ bs, fine b := by
  induction as with
  | nil => exact pure nofun
  | cons a as ih =>
    obtain ⟨first, others⟩ := List.forall_mem_cons.mp yields
    rw [List.mapM_cons]
    exact first.bind fun b one => (ih others).bind fun bs more =>
      pure (List.forall_mem_cons.mpr ⟨one, more⟩)

/-- What rules make of the results of rules, they make of their own. -/
theorem recursive {rules : (ι → Reader α) → ι → Reader α}
    (step : ∀ again, (∀ rule, Yields (again rule) good) → ∀ rule, Yields (rules again rule) good)
    (rule : ι) : Yields (recursive rules rule) good := by
  intro tokens
  induction size : tokens.length using Nat.strongRecOn generalizing rule tokens with
  | ind n ih =>
    intro a rest read
    rw [Reader.recursive] at read
    refine step _ (fun again => ?_) rule tokens a rest read
    intro tokens' a rest read
    dsimp only at read
    split at read
    · next shorter => exact ih _ (size ▸ shorter) again tokens' rfl a rest read
    · cases read

end Yields

end ConceptForest.Script
