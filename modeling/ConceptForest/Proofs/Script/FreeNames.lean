import ConceptForest.Proofs.Forest.Searching
import ConceptForest.Proofs.Script.Statements
import ConceptForest.Script.Analyzer

/-!
What an analyzer reports.

The names that are reported are told by the scopes of the snippet alone, and no false alarm is among
them. All names that are read and bound nowhere should be among them as well. Some are missed: a
name that a function declares nonlocal counts as bound by a scope around it, whether there is one
that binds it or not. When that happens is told exactly.

* `freeNames_genuine` — what is reported is read, is no keyword, and is bound nowhere on the way
  outward.
* `freeNames_complete` — the condition of the defect: what is read and bound nowhere is reported
  exactly if some read of it is not left outward by such a declaration.
* `freeNames_incomplete` — a snippet in which a name is missed.
-/

namespace ConceptForest.Script

variable {analyzer : Analyzer} {source name : String} {names : List String}

/-- An accepted snippet is one that can be parsed, and the names reported are the free ones, or
those of them that mean nothing without a binding. -/
theorem freeNames_eq_ok_iff : analyzer.freeNames source = .ok names ↔
    ∃ statements, Stmt.parse source = .ok statements ∧
      (if analyzer.ignoreBuiltins then (freeNames (outlineAll statements)).filter
        (!builtins.contains ·) else freeNames (outlineAll statements)) = names := by
  unfold Analyzer.freeNames
  rw [bind_eq_ok_iff]
  exact exists_congr fun statements => and_congr Iff.rfl ⟨Except.ok.inj, congrArg _⟩

theorem nodup_freeNames (items : List Item) : (freeNames items).Nodup :=
  nodup_eraseDups _

/-- A free name is read. -/
theorem readIn_of_mem_freeNames {module : List Item} (free : name ∈ freeNames module) :
    ReadIn module name := by
  obtain ⟨-, frames, items, scope, read, -⟩ := mem_freeNames_iff.mp free
  exact ⟨frames, items, scope, read⟩

/-- Nothing that is reported is a false alarm: no name is reported twice, none is a keyword, and
each is bound neither by the module nor anywhere between some read of it and the module, or a scope
that declares it global. -/
theorem freeNames_genuine {analyzer : Analyzer} {source : String} {names : List String}
    (accepted : analyzer.freeNames source = .ok names) :
    names.Nodup ∧ (∀ name ∈ names, isKeyword name = false) ∧
      ∃ statements, Stmt.parse source = .ok statements ∧ ∀ name ∈ names,
        ¬ BoundInModule (outlineAll statements) name ∧
          ∃ frames items, ScopeOf (outlineAll statements) frames items ∧ .read name ∈ items ∧
            ReachesModule name (visibleFrames frames) := by
  obtain ⟨statements, parsed, reported⟩ := freeNames_eq_ok_iff.mp accepted
  have among : names.Sublist (freeNames (outlineAll statements)) := by
    rw [← reported]
    split
    · exact List.filter_sublist
    · exact List.Sublist.refl _
  refine ⟨(nodup_freeNames _).sublist among, fun name mem => ?_, statements, parsed,
    fun name mem => mem_freeNames_iff.mp (among.subset mem)⟩
  exact keywordFree_of_parse parsed name
    (readIn_iff.mp (readIn_of_mem_freeNames (among.subset mem)))

/-- A function in a class does not see what the body of the class binds, and a name that means
something without any binding is left out. -/
theorem freeNames_genuine_method :
    (⟨pythonTag, true⟩ : Analyzer).freeNames
        "class A:\n    n = 1\n    def f():\n        return n + m + len(n)\n" = .ok ["n", "m"] ∧
      ["n", "m"].Nodup ∧ ∀ name ∈ ["n", "m"], isKeyword name = false := by
  have accepted : (⟨pythonTag, true⟩ : Analyzer).freeNames
      "class A:\n    n = 1\n    def f():\n        return n + m + len(n)\n" = .ok ["n", "m"] :=
    eq_ok_of_toOption (by decide +kernel)
  obtain ⟨nodup, noKeyword, -⟩ := freeNames_genuine accepted
  exact ⟨accepted, nodup, noKeyword⟩

/-- When a name that no scope binds is reported. It should be whenever it is read, but it is missed
where each of its reads is left outward, by a function that declares the name nonlocal, to a scope
that is not there. -/
theorem freeNames_complete {analyzer : Analyzer} {source : String} {names : List String}
    (everything : analyzer.ignoreBuiltins = false)
    (accepted : analyzer.freeNames source = .ok names) :
    ∃ statements, Stmt.parse source = .ok statements ∧
      ∀ name, ¬ BoundSomewhere (outlineAll statements) name →
        (name ∈ names ↔ ∃ frames items, ScopeOf (outlineAll statements) frames items ∧
          .read name ∈ items ∧ ¬ LeftOutward name (visibleFrames frames)) := by
  obtain ⟨statements, parsed, reported⟩ := freeNames_eq_ok_iff.mp accepted
  rw [everything] at reported
  refine ⟨statements, parsed, fun name unbound => ?_⟩
  obtain ⟨notInModule, inNoScope⟩ := not_or.mp unbound
  -- nothing on the way outward binds the name, as nothing binds it at all
  have reaches : ∀ {frames items}, ScopeOf (outlineAll statements) frames items →
      (ReachesModule name (visibleFrames frames) ↔ ¬ LeftOutward name (visibleFrames frames)) := by
    intro frames items scope
    refine reachesModule_iff fun frame mem bound => inNoScope ?_
    obtain ⟨outer, inner, scope⟩ := scope.exists_of_mem (mem_of_mem_visibleFrames mem)
    exact ⟨frame, outer, inner, scope, bound⟩
  rw [← reported]
  refine mem_freeNames_iff.trans ⟨?_, ?_⟩
  · rintro ⟨-, frames, items, scope, read, way⟩
    exact ⟨frames, items, scope, read, (reaches scope).mp way⟩
  · rintro ⟨frames, items, scope, read, way⟩
    exact ⟨notInModule, frames, items, scope, read, (reaches scope).mpr way⟩

/-- A read in a function of a name that is bound nowhere. -/
theorem freeNames_complete_function : ∃ statements,
    Stmt.parse "def f(n):\n    return n + x\n" = .ok statements ∧
      ¬ BoundSomewhere (outlineAll statements) "x" ∧
      ∃ frames items, ScopeOf (outlineAll statements) frames items ∧ .read "x" ∈ items ∧
        ¬ LeftOutward "x" (visibleFrames frames) := by
  have accepted : (⟨pythonTag, false⟩ : Analyzer).freeNames "def f(n):\n    return n + x\n" =
      .ok ["x"] := eq_ok_of_toOption (by decide +kernel)
  have unbound : ∀ statements, Stmt.parse "def f(n):\n    return n + x\n" = .ok statements →
      ¬ BoundSomewhere (outlineAll statements) "x" := by
    intro statements parsed
    have computed : (Stmt.parse "def f(n):\n    return n + x\n").toOption.all
        (fun statements => !BoundSomewhere (outlineAll statements) "x") = true := by
      decide +kernel
    simpa [parsed, Except.toOption] using computed
  obtain ⟨statements, parsed, complete⟩ := freeNames_complete rfl accepted
  have nowhere := unbound statements parsed
  exact ⟨statements, parsed, nowhere, (complete "x" nowhere).mp (List.mem_singleton_self "x")⟩

/-- A name that is read and bound nowhere is missed: the function leaves it to a scope further out,
and there is none. A name declared global is reported there, since what the module binds is looked
up. -/
theorem freeNames_incomplete : ∃ statements names,
    Stmt.parse "def f():\n    nonlocal x\n    return x\n" = .ok statements ∧
      (⟨pythonTag, false⟩ : Analyzer).freeNames "def f():\n    nonlocal x\n    return x\n" =
        .ok names ∧
      ReadIn (outlineAll statements) "x" ∧ ¬ BoundSomewhere (outlineAll statements) "x" ∧
      "x" ∉ names := by
  have accepted : (⟨pythonTag, false⟩ : Analyzer).freeNames
      "def f():\n    nonlocal x\n    return x\n" = .ok [] := eq_ok_of_toOption (by decide +kernel)
  have computed : (Stmt.parse "def f():\n    nonlocal x\n    return x\n").toOption.all
      (fun statements => ReadIn (outlineAll statements) "x" ∧
        ¬ BoundSomewhere (outlineAll statements) "x") = true := by
    decide +kernel
  obtain ⟨statements, parsed, -⟩ := freeNames_eq_ok_iff.mp accepted
  have holds : ReadIn (outlineAll statements) "x" ∧
      ¬ BoundSomewhere (outlineAll statements) "x" := by
    simpa [parsed, Except.toOption] using computed
  exact ⟨statements, [], parsed, accepted, holds.1, holds.2, List.not_mem_nil⟩

end ConceptForest.Script
