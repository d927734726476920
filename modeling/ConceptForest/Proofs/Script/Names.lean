import ConceptForest.Proofs.Script.Scopes
import ConceptForest.Script.Reader
import ConceptForest.Script.Stmt

/-!
No keyword is read as a name.

Items are free of keywords if no name that is read in them, or in a scope inside of them, is one.
An expression is, if reading it and writing to it are, and a statement if what it does to names is.
For each kind of expression and statement there is a lemma that carries this from its parts to the
whole, so nobody who builds one has to look at outlines.
-/

namespace ConceptForest.Script

variable {module items others : List Item} {kind : ScopeKind} {name : String} {e e' : Expr}
  {es : List Expr} {parameters : List String}

/-! ### Items -/

mutual

/-- The names that an item reads, also in the scopes inside of it. -/
def Item.readNames : Item → List String
  | .read name => [name]
  | .scope _ items => readNamesAll items
  | _ => []

/-- The names that items read, also in the scopes inside of them. -/
def readNamesAll : List Item → List String
  | [] => []
  | item :: items => item.readNames ++ readNamesAll items

end

theorem mem_readNamesAll_iff : name ∈ readNamesAll items ↔ .read name ∈ items ∨
    ∃ kind inner, .scope kind inner ∈ items ∧ name ∈ readNamesAll inner := by
  induction items with
  | nil => simp [readNamesAll]
  | cons item items ih =>
    rw [readNamesAll, List.mem_append, ih]
    cases item with
    | read text =>
      simp only [Item.readNames, List.mem_cons, Item.read.injEq, reduceCtorEq, false_or]
      grind
    | scope kind inner =>
      simp only [Item.readNames, List.mem_cons, Item.scope.injEq, reduceCtorEq, false_or]
      grind
    | _ => simp [Item.readNames]

/-- A name is read in some scope of a module if the walk through its items meets it. -/
theorem readIn_iff : ReadIn module name ↔ name ∈ readNamesAll module :=
  (exists_scope_iff (fun _ items => name ∈ readNamesAll items) [] module
    fun _ _ => mem_readNamesAll_iff).symm

instance : Decidable (ReadIn module name) :=
  decidable_of_iff _ readIn_iff.symm

/-- No name that is read in the items, or in a scope inside of them, is a keyword. -/
def KeywordFree (items : List Item) : Prop :=
  ∀ name ∈ readNamesAll items, isKeyword name = false

@[simp] theorem keywordFree_nil : KeywordFree [] :=
  nofun

theorem keywordFree_cons {item : Item} : KeywordFree (item :: items) ↔
    (∀ name ∈ item.readNames, isKeyword name = false) ∧ KeywordFree items :=
  List.forall_mem_append

@[simp] theorem keywordFree_read :
    KeywordFree (.read name :: items) ↔ isKeyword name = false ∧ KeywordFree items := by
  simp [keywordFree_cons, Item.readNames]

@[simp] theorem keywordFree_scope {inner : List Item} :
    KeywordFree (.scope kind inner :: items) ↔ KeywordFree inner ∧ KeywordFree items :=
  keywordFree_cons

theorem keywordFree_cons_of_silent {item : Item} (silent : item.readNames = []) :
    KeywordFree (item :: items) ↔ KeywordFree items := by
  simp [keywordFree_cons, silent]

@[simp] theorem keywordFree_bind : KeywordFree (.bind name :: items) ↔ KeywordFree items :=
  keywordFree_cons_of_silent rfl

@[simp] theorem keywordFree_bindOutward :
    KeywordFree (.bindOutward name :: items) ↔ KeywordFree items :=
  keywordFree_cons_of_silent rfl

@[simp] theorem keywordFree_declareGlobal :
    KeywordFree (.declareGlobal name :: items) ↔ KeywordFree items :=
  keywordFree_cons_of_silent rfl

@[simp] theorem keywordFree_declareNonlocal :
    KeywordFree (.declareNonlocal name :: items) ↔ KeywordFree items :=
  keywordFree_cons_of_silent rfl

@[simp] theorem keywordFree_append :
    KeywordFree (items ++ others) ↔ KeywordFree items ∧ KeywordFree others := by
  induction items with
  | nil => simp
  | cons item items ih =>
    rw [List.cons_append, keywordFree_cons, keywordFree_cons, ih, and_assoc]

/-- Binding names reads none. -/
@[simp] theorem keywordFree_binds : KeywordFree (parameters.map .bind) := by
  induction parameters with
  | nil => exact keywordFree_nil
  | cons name parameters ih => exact keywordFree_bind.mpr ih

/-! ### Expressions -/

/-- Neither reading the expression nor writing to it reads a keyword. -/
structure Expr.Plain (e : Expr) : Prop where
  reading : KeywordFree e.reading
  writing : KeywordFree e.writing

theorem keywordFree_readingAll (plain : ∀ e ∈ es, e.Plain) : KeywordFree (readingAll es) := by
  induction es with
  | nil => exact keywordFree_nil
  | cons e es ih =>
    obtain ⟨first, others⟩ := List.forall_mem_cons.mp plain
    exact keywordFree_append.mpr ⟨first.reading, ih others⟩

theorem keywordFree_writingAll (plain : ∀ e ∈ es, e.Plain) : KeywordFree (writingAll es) := by
  induction es with
  | nil => exact keywordFree_nil
  | cons e es ih =>
    obtain ⟨first, others⟩ := List.forall_mem_cons.mp plain
    exact keywordFree_append.mpr ⟨first.writing, ih others⟩

namespace Expr.Plain

theorem ofName (noKeyword : isKeyword name = false) : (Expr.name name).Plain where
  reading := keywordFree_read.mpr ⟨noKeyword, keywordFree_nil⟩
  writing := keywordFree_bind.mpr keywordFree_nil

theorem operation (plain : ∀ e ∈ es, e.Plain) : (Expr.operation es).Plain where
  reading := keywordFree_readingAll plain
  writing := keywordFree_nil

theorem tuple (plain : ∀ e ∈ es, e.Plain) : (Expr.tuple es).Plain where
  reading := keywordFree_readingAll plain
  writing := keywordFree_writingAll plain

theorem list (plain : ∀ e ∈ es, e.Plain) : (Expr.list es).Plain where
  reading := keywordFree_readingAll plain
  writing := keywordFree_writingAll plain

theorem starred (plain : e.Plain) : (Expr.starred e).Plain where
  reading := plain.reading
  writing := plain.writing

theorem member (plain : e.Plain) : (Expr.member e).Plain where
  reading := plain.reading
  writing := plain.reading

theorem subscript (plain : e.Plain) (index : ∀ e ∈ es, e.Plain) : (Expr.subscript e es).Plain where
  reading := keywordFree_append.mpr ⟨plain.reading, keywordFree_readingAll index⟩
  writing := keywordFree_append.mpr ⟨plain.reading, keywordFree_readingAll index⟩

theorem lambda (defaults : ∀ e ∈ es, e.Plain) (body : e.Plain) :
    (Expr.lambda parameters es e).Plain where
  reading := by simp [Expr.reading, keywordFree_readingAll defaults, body.reading]
  writing := keywordFree_nil

theorem named (value : e.Plain) : (Expr.named name e).Plain where
  reading := by simp [Expr.reading, value.reading]
  writing := keywordFree_nil

/-- An operation of one operand is that operand. -/
theorem combine (plain : ∀ e ∈ es, e.Plain) : (Expr.combine es).Plain := by
  unfold Expr.combine
  split
  · next only => exact plain only (List.mem_singleton_self only)
  · exact operation plain

end Expr.Plain

/-- No part of the clause reads a keyword. -/
inductive Generator.Plain : Generator → Prop where
  | clause {target source : Expr} {conditions : List Expr} (target_plain : target.Plain)
    (source_plain : source.Plain) (conditions_plain : ∀ e ∈ conditions, e.Plain) :
    Plain (.clause target source conditions)

theorem keywordFree_passingAll {clauses : List Generator} (plain : ∀ g ∈ clauses, g.Plain) :
    KeywordFree (passingAll clauses) := by
  induction clauses with
  | nil => exact keywordFree_nil
  | cons g clauses ih =>
    obtain ⟨⟨target, source, conditions⟩, others⟩ := List.forall_mem_cons.mp plain
    simp [passingAll, target.writing, source.reading, keywordFree_readingAll conditions, ih others]

theorem Expr.Plain.comprehension {first : Generator} {clauses : List Generator}
    (elements : ∀ e ∈ es, e.Plain) (opening : first.Plain) (others : ∀ g ∈ clauses, g.Plain) :
    (Expr.comprehension es first clauses).Plain := by
  obtain ⟨target, source, conditions⟩ := opening
  refine ⟨?_, keywordFree_nil⟩
  simp [Expr.reading, target.writing, source.reading, keywordFree_readingAll conditions,
    keywordFree_passingAll others, keywordFree_readingAll elements]

/-! ### Statements -/

/-- What the statement does to names reads no keyword. -/
def Stmt.Plain (s : Stmt) : Prop :=
  KeywordFree s.outline

theorem keywordFree_outlineAll {statements : List Stmt} (plain : ∀ s ∈ statements, s.Plain) :
    KeywordFree (outlineAll statements) := by
  induction statements with
  | nil => exact keywordFree_nil
  | cons s statements ih =>
    obtain ⟨first, others⟩ := List.forall_mem_cons.mp plain
    exact keywordFree_append.mpr ⟨first, ih others⟩

namespace Stmt.Plain

theorem read (plain : e.Plain) : (Stmt.read e).Plain :=
  plain.reading

theorem assign (plain : e.Plain) : (Stmt.assign e).Plain :=
  plain.writing

/-- An augmented name is read as well. -/
theorem augment (plain : e.Plain) : (Stmt.augment e).Plain := by
  cases e with
  | name text =>
    have read := plain.reading
    simp only [Expr.reading, keywordFree_read] at read
    exact keywordFree_read.mpr ⟨read.1, keywordFree_bind.mpr keywordFree_nil⟩
  | _ => exact plain.writing

theorem bind : (Stmt.bind name).Plain :=
  keywordFree_bind.mpr keywordFree_nil

theorem declareGlobal : (Stmt.declareGlobal name).Plain :=
  keywordFree_declareGlobal.mpr keywordFree_nil

theorem declareNonlocal : (Stmt.declareNonlocal name).Plain :=
  keywordFree_declareNonlocal.mpr keywordFree_nil

theorem scope {body : List Stmt} (plain : ∀ s ∈ body, s.Plain) :
    (Stmt.scope kind parameters body).Plain := by
  simp [Stmt.Plain, Stmt.outline, keywordFree_outlineAll plain]

end Stmt.Plain

end ConceptForest.Script
