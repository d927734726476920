import ConceptForest.Proofs.Script.Scanning

/-!
How much the tokens of a snippet weigh.

An expression can be made higher by an opening bracket, by a dot and by a star, without another
nesting level. These characters are counted as marks, and tokens weigh `reach` for each of theirs,
enough for all that a rule can build behind one. The marks in the replacement fields of a string
are marks of the string as well (`marks_replacementFields`), so all the tokens of a snippet weigh
no more than its own characters (`weight_le_of_tokens`).
-/

namespace ConceptForest.Script

open ConceptForest.Text

variable {c : Char} {cs ds : List Char} {t : Token} {ts us : List Token} {layout : Layout}
  {p : Position} {depth : Nat}

/-- The levels of operations that a rule can build on top of its operands. -/
def reach : Nat := 20

/-- Does the character let an expression grow? -/
def isMark (c : Char) : Bool :=
  c == '(' || c == '[' || c == '\x7b' || c == '.' || c == '*'

/-- The number of characters that let an expression grow. -/
def marks (cs : List Char) : Nat :=
  cs.countP isMark

/-- The marks of a lexeme, those of replacement fields included. -/
def Lexeme.marks : Lexeme → Nat
  | .op text => Script.marks text.toList
  | .string fields => Script.marks (fields.flatMap String.toList)
  | _ => 0

/-- How much tokens weigh. -/
def weight : List Token → Nat
  | [] => 0
  | t :: ts => reach * t.lexeme.marks + weight ts

@[simp] theorem weight_nil : weight [] = 0 := rfl

@[simp] theorem weight_cons : weight (t :: ts) = reach * t.lexeme.marks + weight ts := rfl

@[simp] theorem weight_append : weight (ts ++ us) = weight ts + weight us := by
  induction ts with
  | nil => simp
  | cons t ts ih => rw [List.cons_append, weight_cons, weight_cons, ih, Nat.add_assoc]

theorem weight_eq_zero (light : ∀ t ∈ ts, t.lexeme.marks = 0) : weight ts = 0 := by
  induction ts with
  | nil => rfl
  | cons t ts ih =>
    obtain ⟨first, others⟩ := List.forall_mem_cons.mp light
    rw [weight_cons, first, ih others, Nat.mul_zero]

theorem marks_append : marks (cs ++ ds) = marks cs + marks ds :=
  List.countP_append

theorem marks_le_cons : marks cs ≤ marks (c :: cs) :=
  (List.sublist_cons_self c cs).countP_le

/-! ### Replacement fields -/

theorem marks_trim_le (cs : List Char) : marks (trim cs) ≤ marks cs := by
  have front : (trimStart cs).Sublist cs := List.dropWhile_sublist _
  have back : (trim cs).Sublist (trimStart cs) := by
    have reversed := List.dropWhile_sublist isBlank (l := (trimStart cs).reverse)
    simpa [trim, trimEnd] using reversed.reverse
  exact (back.trans front).countP_le

theorem marks_replacementFields (cs : List Char) :
    marks (replacementFields cs).flatten ≤ marks cs := by
  fun_induction replacementFields cs with
  | case1 => exact Nat.le_refl 0
  | case2 cs ih => exact ih.trans (marks_le_cons.trans marks_le_cons)
  | case3 cs _ expression format source ih ih' =>
    have own : marks (if source.isEmpty then [] else [source]).flatten ≤ marks expression.1 := by
      split
      · exact Nat.zero_le _
      · simpa using marks_trim_le expression.1
    have parts : marks cs = marks expression.1 + (marks format.1 + marks format.2) := by
      rw [← marks_append, fieldFormat_append, ← marks_append, fieldExpression_append]
    have behind : marks (format.2.drop 1) ≤ marks format.2 :=
      (List.drop_sublist 1 format.2).countP_le
    have longer : marks cs ≤ marks ('\x7b' :: cs) := marks_le_cons
    rw [List.flatten_append, List.flatten_append, marks_append, marks_append]
    omega
  | case4 c cs _ _ ih => exact ih.trans marks_le_cons

/-! ### Tokens -/

theorem marks_le_of_scanString {lead rest : List Char} {quote : Char} {s : Scan}
    (read : scanString lead quote rest = .ok s) : s.lexeme.marks ≤ marks s.source := by
  unfold scanString at read
  dsimp only at read
  split at read
  · cases read
  · next body _ _ =>
    obtain ⟨⟩ := read
    have fields : marks ((if lead.any fun c => c == 'f' || c == 'F' then
        (replacementFields body).map String.ofList else []).flatMap String.toList) ≤ marks body := by
      split
      · simpa [List.flatMap_def, Function.comp_def] using marks_replacementFields body
      · exact Nat.zero_le _
    refine fields.trans ?_
    rw [marks_append, marks_append]
    omega

theorem marks_le_of_scan {s : Scan} (read : scan depth c cs = .ok s) :
    s.lexeme.marks ≤ marks s.source := by
  cases Scanned.of_scan read with
  | string _ _ _ read => exact marks_le_of_scanString read
  | number | name => exact Nat.zero_le _
  | operator => exact Nat.le_refl _
  | mark => simp [Lexeme.marks, Char.toString]

theorem weight_endLine : weight (layout.endLine p) = 0 := by
  rw [Layout.endLine]
  split <;> rfl

theorem weight_dedents (indents : List Nat) :
    weight (indents.map fun _ => (⟨.dedent, p⟩ : Token)) = 0 := by
  refine weight_eq_zero fun t here => ?_
  obtain ⟨-, -, rfl⟩ := List.mem_map.mp here
  rfl

theorem weight_lineTokens {indents indents' : List Nat} {width : Nat} {rest : List Char}
    (fits : lineTokens indents width p rest = .ok (ts, indents')) : weight ts = 0 := by
  cases Fronted.of_lineTokens fits with
  | empty | deeper => rfl
  | closing => exact weight_dedents _

/-! ### The tokens of a snippet -/

theorem marks_behind_lineStart {width : Nat} {source rest rest' : List Char}
    (start : lineStart false 0 rest = (width, source, rest')) :
    marks rest' ≤ marks ('\n' :: rest) := by
  have whole := lineStart_append false 0 rest
  rw [start] at whole
  rw [← whole, ← List.cons_append, marks_append]
  exact Nat.le_add_left ..

theorem Scans.weight_le (scans : Scans layout p cs ts) : weight ts ≤ reach * marks cs := by
  induction scans with
  | done closed =>
    rw [weight_append, weight_append, weight_endLine, weight_dedents]
    exact Nat.zero_le _
  | wrapped _ _ ih => exact ih.trans (Nat.mul_le_mul_left _ marks_le_cons)
  | line _ start _ fits _ ih =>
    rw [weight_append, weight_append, weight_endLine, weight_lineTokens fits, Nat.zero_add]
    exact ih.trans (Nat.mul_le_mul_left _ (marks_behind_lineStart start))
  | gap _ gap _ ih =>
    rw [← (gap?_append gap).2, marks_append]
    exact ih.trans (Nat.mul_le_mul_left _ (Nat.le_add_left ..))
  | token _ _ scanned _ ih =>
    have own := Nat.mul_le_mul_left reach (marks_le_of_scan scanned)
    rw [← (scan_append scanned).2, marks_append, marks_append, weight_cons]
    dsimp only
    rw [Nat.mul_add, Nat.mul_add]
    omega

theorem weight_le_of_tokens {source : String} (lexed : tokens source = .ok ts) :
    weight ts ≤ reach * marks source.toList :=
  (tokens_eq_ok_iff.mp lexed).weight_le

end ConceptForest.Script
