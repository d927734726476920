import ConceptForest.Script.Analyzer
import Mathlib.Data.List.Nodup

/-!
What a registry answers, told by the calls that made it.

The registry keeps its default as a language beside a list from which a registration takes the old
analyzer of the language and puts the new one behind. `Registry.answers` says that none of that
shows: which analyzer a tag gets, and which one a snippet without a tag gets, depends only on which
calls there were and in which order.
-/

namespace ConceptForest.Script

/-- A call that may change a registry. -/
inductive RegistryCall where
  | register (analyzer : Analyzer)
  | setDefault (language : String)
  deriving DecidableEq, Repr

namespace Registry

/-- The registry after a call; one that is refused changes nothing. -/
def applied (registry : Registry) : RegistryCall → Registry
  | .register analyzer => registry.register analyzer
  | .setDefault language => (registry.setDefault? language).getD registry

/-- The registry behind a history of calls, the latest call first. -/
def reached : List RegistryCall → Registry
  | [] => {}
  | call :: past => (reached past).applied call

/-! ### Histories -/

/-- The analyzers of a history, the latest first. -/
def registered (calls : List RegistryCall) : List Analyzer :=
  calls.filterMap fun
    | .register analyzer => some analyzer
    | .setDefault _ => none

/-- The analyzer most recently registered under a tag. -/
def latest (calls : List RegistryCall) (tag : String) : Option Analyzer :=
  (registered calls).find? (·.language == tag)

/-- The language of the first analyzer of all. -/
def firstLanguage (calls : List RegistryCall) : Option String :=
  (registered calls).getLast?.map Analyzer.language

/-- The language last accepted as the default. -/
def lastAccepted : List RegistryCall → Option String
  | [] => none
  | .register _ :: past => lastAccepted past
  | .setDefault language :: past =>
    if ((reached past).setDefault? language).isSome then some language else lastAccepted past

variable {registry : Registry} {analyzer : Analyzer} {language tag : String}
  {calls past : List RegistryCall}

theorem registered_register :
    registered (.register analyzer :: past) = analyzer :: registered past :=
  rfl

theorem registered_setDefault : registered (.setDefault language :: past) = registered past :=
  rfl

theorem firstLanguage_register :
    firstLanguage (.register analyzer :: past) =
      (firstLanguage past).or (some analyzer.language) := by
  rw [firstLanguage, registered_register, firstLanguage]
  cases registered past with
  | nil => rfl
  | cons first others => simp [List.getLast?_cons]

/-! ### One call -/

theorem languages_register :
    (registry.register analyzer).languages =
      registry.languages.filter (· != analyzer.language) ++ [analyzer.language] := by
  simp [languages, register, List.filter_map, Function.comp_def]

theorem languages_setDefault :
    (registry.applied (.setDefault language)).languages = registry.languages := by
  rw [applied, setDefault?]
  split <;> rfl

theorem find?_register :
    (registry.register analyzer).analyzers.find? (·.language == tag) =
      if analyzer.language = tag then some analyzer
      else registry.analyzers.find? (·.language == tag) := by
  rw [register, List.find?_append, List.find?_filter]
  by_cases same : analyzer.language = tag
  · have gone : (registry.analyzers.find? fun other =>
        decide ((other.language != analyzer.language) = true ∧ (other.language == tag) = true)) =
          none := by
      simp [List.find?_eq_none, same]
    rw [gone, Option.none_or, List.find?_singleton, if_pos (beq_iff_eq.mpr same), if_pos same]
  · have kept : (fun other : Analyzer =>
        decide ((other.language != analyzer.language) = true ∧ (other.language == tag) = true)) =
          (·.language == tag) := by
      funext other
      by_cases here : other.language = tag
      · simp [here, Ne.symm same]
      · simp [here]
    rw [kept, List.find?_singleton, if_neg (by simpa using same), Option.or_none, if_neg same]

theorem analyzers_setDefault :
    (registry.applied (.setDefault language)).analyzers = registry.analyzers := by
  rw [applied, setDefault?]
  split <;> rfl

theorem isSome_setDefault?_iff :
    (registry.setDefault? language).isSome = true ↔ language ∈ registry.languages := by
  rw [setDefault?]
  split <;> simp_all

theorem resolve_untagged (registry : Registry) {untagged : Option String}
    (none : untagged ∈ [none, some ""]) :
    registry.resolve untagged =
      registry.default?.bind fun language => registry.analyzers.find? (·.language == language) := by
  rcases List.mem_pair.mp none with rfl | rfl <;> rfl

theorem resolve_tagged (registry : Registry) (some : tag ≠ "") :
    registry.resolve (.some tag) = registry.analyzers.find? (·.language == tag) := by
  rw [resolve, Option.bind_eq_bind, Option.bind_some]
  exact some

/-! ### Every history -/

theorem nodup_languages (calls : List RegistryCall) : (reached calls).languages.Nodup := by
  induction calls with
  | nil => exact List.nodup_nil
  | cons call past ih =>
    cases call with
    | register analyzer =>
      rw [reached, applied, languages_register]
      refine (ih.filter _).append (List.nodup_singleton _) ?_
      simp [List.disjoint_singleton]
    | setDefault language => rw [reached, languages_setDefault]; exact ih

theorem find?_reached (calls : List RegistryCall) (tag : String) :
    (reached calls).analyzers.find? (·.language == tag) = latest calls tag := by
  induction calls with
  | nil => rfl
  | cons call past ih =>
    cases call with
    | register analyzer =>
      rw [reached, applied, find?_register, ih]
      by_cases same : analyzer.language = tag <;>
        simp [latest, registered_register, same]
    | setDefault language => rw [reached, analyzers_setDefault, ih, latest, latest, registered_setDefault]

theorem default?_reached (calls : List RegistryCall) :
    (reached calls).default? = (lastAccepted calls).or (firstLanguage calls) := by
  induction calls with
  | nil => rfl
  | cons call past ih =>
    cases call with
    | register analyzer =>
      rw [reached, applied, register, ih, lastAccepted, firstLanguage_register, Option.or_assoc]
    | setDefault language =>
      rw [reached, applied, lastAccepted]
      cases accepted : (reached past).setDefault? language with
      | none => exact ih
      | some next =>
        rw [setDefault?] at accepted
        split at accepted
        · cases accepted
          rfl
        · cases accepted

/-- The default is one of the languages. -/
theorem mem_languages_of_default? (calls : List RegistryCall) :
    ∀ language ∈ (reached calls).default?, language ∈ (reached calls).languages := by
  induction calls with
  | nil => nofun
  | cons call past ih =>
    cases call with
    | register analyzer =>
      intro language default
      rw [reached, applied, languages_register, List.mem_append, List.mem_singleton, List.mem_filter]
      by_cases new : language = analyzer.language
      · exact .inr new
      · refine .inl ⟨ih language ?_, by simpa using new⟩
        rw [reached, applied, register] at default
        cases old : (reached past).default? with
        | none => rw [old] at default; exact absurd (Option.some.inj default).symm new
        | some first => rw [old] at default; exact default
    | setDefault other =>
      intro language default
      rw [reached, languages_setDefault]
      rw [reached, applied, setDefault?] at default
      split at default
      · next listed =>
        cases default
        exact List.contains_iff_mem.mp listed
      · exact ih language default

/-- There is a default as soon as there is an analyzer. -/
theorem isSome_default?_iff (calls : List RegistryCall) :
    (reached calls).default?.isSome = true ↔ (reached calls).analyzers ≠ [] := by
  constructor
  · intro default
    obtain ⟨language, default⟩ := Option.isSome_iff_exists.mp default
    exact List.map_eq_nil_iff.not.mp (List.ne_nil_of_mem (mem_languages_of_default? calls _ default))
  · intro some
    obtain ⟨analyzer, others, same⟩ := List.exists_cons_of_ne_nil some
    have found : latest calls analyzer.language = .some analyzer := by
      rw [← find?_reached, same, List.find?_cons_of_pos (by simp)]
    have called : registered calls ≠ [] := List.ne_nil_of_mem (List.mem_of_find?_eq_some found)
    rw [default?_reached, firstLanguage, List.getLast?_eq_some_getLast called]
    cases lastAccepted calls <;> rfl

/-- A call for a default is accepted exactly when some analyzer was registered for the language. -/
theorem isSome_setDefault?_reached_iff :
    ((reached calls).setDefault? language).isSome = true ↔
      ∃ analyzer ∈ registered calls, analyzer.language = language := by
  rw [isSome_setDefault?_iff]
  have found := find?_reached calls language
  rw [latest] at found
  have listed : (∃ analyzer ∈ (reached calls).analyzers, (analyzer.language == language) = true) ↔
      ∃ analyzer ∈ registered calls, (analyzer.language == language) = true := by
    rw [← List.find?_isSome, found, List.find?_isSome]
  simpa [languages] using listed

/-- What a registry lists, has as its default and answers, after every history of calls. -/
theorem answers (calls : List RegistryCall) :
    (reached calls).languages.Nodup ∧
    ((reached calls).default?.isSome = true ↔ (reached calls).analyzers ≠ []) ∧
    (∀ language ∈ (reached calls).default?, language ∈ (reached calls).languages) ∧
    (∀ tag, tag ≠ "" → (reached calls).resolve (some tag) = latest calls tag) ∧
    ∀ untagged ∈ [none, some ""],
      (reached calls).resolve untagged =
        ((lastAccepted calls).or (firstLanguage calls)).bind (latest calls) ∧
      ((reached calls).analyzers ≠ [] → ((reached calls).resolve untagged).isSome = true) := by
  refine ⟨nodup_languages calls, isSome_default?_iff calls, mem_languages_of_default? calls,
    fun tag some => ?_, fun untagged none => ?_⟩
  · rw [resolve_tagged _ some, find?_reached]
  · rw [resolve_untagged _ none, ← default?_reached]
    refine ⟨congrArg _ (funext (find?_reached calls)), fun some => ?_⟩
    obtain ⟨language, default⟩ := Option.isSome_iff_exists.mp ((isSome_default?_iff calls).mpr some)
    obtain ⟨analyzer, here, same⟩ := List.mem_map.mp (mem_languages_of_default? calls _ default)
    rw [default, Option.bind_some, List.find?_isSome]
    exact ⟨analyzer, here, beq_iff_eq.mpr same⟩

/-- The default survives that its analyzer is registered anew, and a call that is refused. -/
theorem answers_registered_anew :
    "a" ≠ "" ∧ none ∈ [none, some ""] ∧
    (reached [.setDefault "c", .register ⟨"b", true⟩, .setDefault "b", .register ⟨"a", false⟩,
      .register ⟨"b", false⟩]).resolve none = some ⟨"b", true⟩ ∧
    (reached [.setDefault "c", .register ⟨"b", true⟩, .setDefault "b", .register ⟨"a", false⟩,
      .register ⟨"b", false⟩]).resolve (some "a") = some ⟨"a", false⟩ := by
  obtain ⟨-, -, -, tagged, untagged⟩ := answers [.setDefault "c", .register ⟨"b", true⟩,
    .setDefault "b", .register ⟨"a", false⟩, .register ⟨"b", false⟩]
  refine ⟨by decide, by decide, ?_, ?_⟩
  · rw [(untagged none (by decide)).1]
    decide
  · rw [tagged "a" (by decide)]
    decide

end Registry

end ConceptForest.Script
