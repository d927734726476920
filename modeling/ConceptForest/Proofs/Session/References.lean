import ConceptForest.Proofs.Forest.Searching
import ConceptForest.Proofs.Session.Tidy
import ConceptForest.Session.Reference

/-!
What references mean, and how their refusals are told.

* `Fails` — what is asked is refused with a prompt that tells of a failure.
-/

namespace ConceptForest

/-! ### Refusals -/

/-- Whatever is refused is told as a failure. -/
def Fails {α : Type} (r : Except Prompt α) : Prop :=
  ∀ p, r = .error p → p.kind.isFailure = true

section Fails

variable {α β : Type}

theorem fails_ok (a : α) : Fails (.ok a) := by
  rintro _ ⟨⟩

theorem fails_error {p : Prompt} (failure : p.kind.isFailure = true) :
    Fails (.error p : Except Prompt α) := by
  rintro _ ⟨⟩
  exact failure

theorem Fails.bind {r : Except Prompt α} {rest : α → Except Prompt β} (first : Fails r)
    (others : ∀ a, Fails (rest a)) : Fails (r >>= rest) := by
  cases r with
  | error e => exact fails_error (first e rfl)
  | ok a => exact others a

/-- What a forest refuses is told as a failure. -/
theorem fails_orPrompt (r : Except ForestError α) : Fails (orPrompt r) := by
  cases r with
  | error e => exact fails_error rfl
  | ok a => exact fails_ok a

theorem orPrompt_eq_ok_iff {r : Except ForestError α} {a : α} :
    orPrompt r = .ok a ↔ r = .ok a := by
  rw [orPrompt, mapError_eq_ok_iff]

end Fails

/-! ### What a session finds -/

namespace Session

variable {s : Session} {root top : Handle} {going : Handle → Prop} {call : Invocation}

/-- The session is in a tidy forest, at a concept that stays, and looks for references under the
root. -/
structure Tidy (s : Session) (root top : Handle) (going : Handle → Prop) : Prop where
  forest : s.forest.Tidy root top going
  stays_current : s.forest.Stays going s.current
  topLevel_eq : s.topLevel = [root]

/-- The session between commands: nothing goes. -/
abbrev AtRest (s : Session) (root : Handle) : Prop :=
  s.Tidy root root fun _ => False

theorem Tidy.stays_of_meant (tidy : s.Tidy root top going) {e : Expansion} {hs : List Handle}
    (found : s.meant call e = .ok hs) {h : Handle} (mem : h ∈ hs) : s.forest.Stays going h := by
  obtain ⟨-, -, -, -, r, inside, below⟩ :=
    Forest.exists_of_mem_resolve tidy.forest.wellFormed found mem
  rw [tidy.topLevel_eq, List.mem_singleton] at inside
  exact tidy.forest.stays_of_owns_root (inside ▸ below)

theorem fails_theOne (s : Session) (call : Invocation) (role : String) :
    Fails (s.theOne call role) := by
  apply (fails_orPrompt _).bind
  intro e?
  cases e? with
  | none => exact fails_error rfl
  | some e =>
    apply (fails_orPrompt _).bind
    intro found
    match found with
    | [h] => exact fails_ok h
    | [] => exact fails_error rfl
    | _ :: _ :: _ => exact fails_error rfl

/-- The arguments mean one concept if what they say describes that one and no other. -/
theorem theOne_eq_ok_iff {role : String} {h : Handle} :
    s.theOne call role = .ok h ↔
      ∃ e, s.forest.reference call.args = .ok (some e) ∧ s.meant call e = .ok [h] := by
  simp only [theOne, bind_eq_ok_iff, orPrompt_eq_ok_iff]
  constructor
  · rintro ⟨e?, reference, found⟩
    cases e? with
    | none => cases found
    | some e =>
      obtain ⟨hs, meant, found⟩ := bind_eq_ok_iff.mp found
      match hs with
      | [k] =>
        obtain rfl := Except.ok.inj found
        exact ⟨e, reference, orPrompt_eq_ok_iff.mp meant⟩
      | [] => cases found
      | _ :: _ :: _ => cases found
  · rintro ⟨e, reference, meant⟩
    exact ⟨some e, reference, bind_eq_ok_iff.mpr ⟨[h], orPrompt_eq_ok_iff.mpr meant, rfl⟩⟩

/-- The one concept that the arguments mean stays. -/
theorem Tidy.stays_of_theOne (tidy : s.Tidy root top going) {role : String} {h : Handle}
    (found : s.theOne call role = .ok h) : s.forest.Stays going h := by
  obtain ⟨e, -, meant⟩ := theOne_eq_ok_iff.mp found
  exact tidy.stays_of_meant meant List.mem_cons_self

end Session

end ConceptForest
