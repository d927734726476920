import ConceptForest.Grammar.FencedBody
import Mathlib.Data.List.Basic
import Mathlib.Data.List.TakeWhile
import Mathlib.Tactic.Common

/-!
What the dedenting of a fenced body cuts away, and what it does not depend on.

* Only blanks are cut: every step from the raw text to the body keeps the other characters in their
  order (`solid_bodyLines`, `solid_dedentLine`), so the body has them all (`solid_normalize`).
* A body that stands on lines of its own does not depend on how deep it stands: moving all lines to
  the right moves the shared indentation along (`commonIndentation_shift`), and what is cut from
  every line grows with it (`dedentLine_shift`), so the body stays (`normalize_shift`).
-/

namespace ConceptForest.Grammar.FencedBody

open ConceptForest.Text

variable {c : Char} {cs line raw : List Char} {ls : List (List Char)} {n m : Nat}

/-- The characters of a text that are not blank. -/
def solid (cs : List Char) : List Char :=
  cs.filter (!isBlank ·)

/-- A line moved to the right. -/
def shift (n : Nat) (line : List Char) : List Char :=
  List.replicate n ' ' ++ line

/-! ### Lines and the text made of them -/

theorem unlines_singleton : unlines [line] = line := by
  simp [unlines]

theorem unlines_cons (more : ls ≠ []) : unlines (line :: ls) = line ++ '\n' :: unlines ls := by
  obtain ⟨next, ls, rfl⟩ := List.exists_cons_of_ne_nil more
  simp [unlines]

theorem lines_cons (cs : List Char) (inside : c ≠ '\n') :
    ∃ first rest, lines cs = first :: rest ∧ lines (c :: cs) = (c :: first) :: rest := by
  induction cs generalizing c with
  | nil => exact ⟨[], [], rfl, by rw [lines.eq_def]; split <;> simp_all [lines]⟩
  | cons d cs ih =>
    obtain ⟨first, rest, same⟩ : ∃ first rest, lines (d :: cs) = first :: rest := by
      by_cases breaks : d = '\n'
      · exact ⟨[], lines cs, by rw [breaks, lines]⟩
      · obtain ⟨first, rest, -, same⟩ := ih breaks
        exact ⟨_, _, same⟩
    refine ⟨first, rest, same, ?_⟩
    rw [lines, same]
    exact fun same => inside same

theorem lines_ne_nil : lines cs ≠ [] := by
  cases cs with
  | nil => exact List.cons_ne_nil _ _
  | cons c cs =>
    by_cases breaks : c = '\n'
    · rw [breaks, lines]
      exact List.cons_ne_nil _ _
    · obtain ⟨first, rest, -, same⟩ := lines_cons cs breaks
      rw [same]
      exact List.cons_ne_nil _ _

theorem unlines_lines (cs : List Char) : unlines (lines cs) = cs := by
  induction cs with
  | nil => rfl
  | cons c cs ih =>
    by_cases breaks : c = '\n'
    · rw [breaks, lines, unlines_cons lines_ne_nil, ih, List.nil_append]
    · obtain ⟨first, rest, same, longer⟩ := lines_cons cs breaks
      rw [same] at ih
      rw [longer]
      cases rest with
      | nil => rw [unlines_singleton] at ih ⊢; rw [ih]
      | cons next rest => rw [unlines_cons (by simp)] at ih ⊢; rw [List.cons_append, ih]

theorem lines_singleton (whole : '\n' ∉ line) : lines line = [line] := by
  induction line with
  | nil => rfl
  | cons c line ih =>
    obtain ⟨inside, whole⟩ := List.ne_and_not_mem_of_not_mem_cons whole
    obtain ⟨first, rest, same, longer⟩ := lines_cons line inside.symm
    rw [ih whole] at same
    cases same
    exact longer

theorem lines_append (whole : '\n' ∉ line) : lines (line ++ '\n' :: cs) = line :: lines cs := by
  induction line with
  | nil => rw [List.nil_append, lines]
  | cons c line ih =>
    obtain ⟨inside, whole⟩ := List.ne_and_not_mem_of_not_mem_cons whole
    obtain ⟨first, rest, same, longer⟩ := lines_cons (line ++ '\n' :: cs) inside.symm
    rw [ih whole] at same
    cases same
    exact longer

theorem lines_unlines (some : ls ≠ []) (whole : ∀ line ∈ ls, '\n' ∉ line) :
    lines (unlines ls) = ls := by
  induction ls with
  | nil => exact absurd rfl some
  | cons line ls ih =>
    obtain ⟨alone, others⟩ := List.forall_mem_cons.mp whole
    by_cases more : ls = []
    · rw [more, unlines_singleton, lines_singleton alone]
    · rw [unlines_cons more, lines_append alone, ih more others]

/-! ### Blanks -/

theorem solid_append : solid (cs ++ line) = solid cs ++ solid line :=
  List.filter_append ..

theorem solid_eq_nil_iff : solid cs = [] ↔ ∀ c ∈ cs, isBlank c = true := by
  simp [solid, List.filter_eq_nil_iff]

theorem solid_eq_nil_of_isBlankLine (blank : isBlankLine line = true) : solid line = [] :=
  solid_eq_nil_iff.mpr (List.all_eq_true.mp blank)

theorem solid_unlines : solid (unlines ls) = ls.flatMap solid := by
  induction ls with
  | nil => rfl
  | cons line ls ih =>
    by_cases more : ls = []
    · simp [more, unlines_singleton]
    · have gap : solid ('\n' :: unlines ls) = solid (unlines ls) := rfl
      rw [unlines_cons more, solid_append, gap, ih, List.flatMap_cons]

theorem solid_trimStart : solid (trimStart cs) = solid cs := by
  conv_rhs => rw [← List.takeWhile_append_dropWhile (p := isBlank) (l := cs), solid_append]
  rw [solid_eq_nil_iff.mpr fun _ => List.mem_takeWhile_imp, List.nil_append, trimStart]

theorem isBlankLine_shift : isBlankLine (shift n line) = isBlankLine line := by
  rw [isBlankLine, shift, List.all_append, List.all_replicate]
  cases n <;> rfl

theorem trimStart_shift : trimStart (shift n line) = trimStart line := by
  rw [trimStart, shift, List.dropWhile_append_of_pos fun _ here => ?_]
  · rfl
  · rw [List.eq_of_mem_replicate here]
    rfl

/-! ### The lines of a body -/

theorem exists_bodyLines (ls : List (List Char)) :
    ∃ behind, ls = (ls.reverse.dropWhile isBlankLine).reverse ++ behind ∧
      ∀ line ∈ behind, isBlankLine line = true := by
  refine ⟨(ls.reverse.takeWhile isBlankLine).reverse, ?_, fun line here => ?_⟩
  · rw [← List.reverse_append, List.takeWhile_append_dropWhile, List.reverse_reverse]
  · exact List.mem_takeWhile_imp (List.mem_reverse.mp here)

theorem flatMap_solid_dropWhile (ls : List (List Char)) :
    (ls.reverse.dropWhile isBlankLine).reverse.flatMap solid = ls.flatMap solid := by
  obtain ⟨behind, same, blank⟩ := exists_bodyLines ls
  conv_rhs => rw [same, List.flatMap_append]
  rw [List.flatMap_eq_nil_iff.mpr fun line here => solid_eq_nil_of_isBlankLine (blank line here),
    List.append_nil]

/-- Choosing the lines of a body skips nothing that is not blank. -/
theorem solid_bodyLines (raw : List Char) : (bodyLines raw).flatMap solid = solid raw := by
  conv_rhs => rw [← unlines_lines raw, solid_unlines]
  rw [bodyLines, flatMap_solid_dropWhile]
  cases lines raw with
  | nil => rfl
  | cons first rest =>
    dsimp only
    split
    · next blank =>
      rw [List.flatMap_cons, solid_eq_nil_of_isBlankLine blank, List.nil_append]
    · rw [List.flatMap_cons, List.flatMap_cons, solid_trimStart]

/-! ### The shared indentation -/

theorem byteWidth_append : byteWidth (cs ++ line) = byteWidth cs + byteWidth line := by
  induction cs with
  | nil => exact (Nat.zero_add _).symm
  | cons c cs ih =>
    show c.utf8Size + byteWidth (cs ++ line) = c.utf8Size + byteWidth cs + byteWidth line
    omega

theorem indentation_shift : indentation (shift n line) = n + indentation line := by
  have width : byteWidth (List.replicate n ' ') = n := by
    induction n with
    | zero => rfl
    | succ n ih =>
      show 1 + byteWidth (List.replicate n ' ') = n + 1
      omega
  have blanks : (shift n line).takeWhile isBlank =
      List.replicate n ' ' ++ line.takeWhile isBlank := by
    refine List.takeWhile_append_of_pos fun _ here => ?_
    rw [List.eq_of_mem_replicate here]
    rfl
  rw [indentation, blanks, byteWidth_append, width, indentation]

theorem foldl_min_le (ns : List Nat) : ns.foldl min n ≤ n ∧ ∀ m ∈ ns, ns.foldl min n ≤ m := by
  induction ns generalizing n with
  | nil => exact ⟨Nat.le_refl n, nofun⟩
  | cons next ns ih =>
    obtain ⟨least, others⟩ := ih (n := min n next)
    rw [List.foldl_cons]
    exact ⟨least.trans (Nat.min_le_left ..),
      List.forall_mem_cons.mpr ⟨least.trans (Nat.min_le_right ..), others⟩⟩

theorem foldl_min_add (ns : List Nat) :
    (ns.map (n + ·)).foldl min (n + m) = n + ns.foldl min m := by
  induction ns generalizing m with
  | nil => rfl
  | cons next ns ih =>
    rw [List.map_cons, List.foldl_cons, List.foldl_cons, Nat.add_min_add_left, ih]

/-- No line with something on it has less indentation than what all lines share. -/
theorem commonIndentation_le (here : line ∈ ls) (filled : isBlankLine line = false) :
    commonIndentation ls ≤ indentation line := by
  have asked : indentation line ∈ (ls.filter fun line => !isBlankLine line).map indentation :=
    List.mem_map_of_mem (List.mem_filter.mpr ⟨here, by rw [filled]; rfl⟩)
  rw [commonIndentation]
  cases same : (ls.filter fun line => !isBlankLine line).map indentation with
  | nil => rw [same] at asked; cases asked
  | cons n ns =>
    rw [same] at asked
    obtain ⟨least, others⟩ := foldl_min_le (n := n) ns
    exact List.forall_mem_cons.mpr ⟨least, others⟩ _ asked

/-- The shared indentation moves along with the lines, where there is one. -/
theorem commonIndentation_shift (here : line ∈ ls) (filled : isBlankLine line = false) :
    commonIndentation (ls.map (shift n)) = n + commonIndentation ls := by
  have asked : ((ls.map (shift n)).filter fun line => !isBlankLine line).map indentation =
      ((ls.filter fun line => !isBlankLine line).map indentation).map (n + ·) := by
    simp [List.filter_map, Function.comp_def, isBlankLine_shift, indentation_shift]
  rw [commonIndentation, commonIndentation, asked]
  cases same : (ls.filter fun line => !isBlankLine line).map indentation with
  | nil =>
    have none := List.filter_eq_nil_iff.mp (List.map_eq_nil_iff.mp same) line here
    rw [filled] at none
    exact absurd rfl none
  | cons m ns => exact foldl_min_add ns

/-! ### What is cut from a line -/

theorem exists_of_dropBytes? (cut : dropBytes? n cs = some line) :
    ∃ before, cs = before ++ line ∧ byteWidth before = n := by
  induction cs generalizing n with
  | nil =>
    cases n with
    | zero => exact ⟨[], by simpa [dropBytes?] using cut, rfl⟩
    | succ n => cases cut
  | cons c cs ih =>
    cases n with
    | zero => exact ⟨[], by simpa [dropBytes?] using cut, rfl⟩
    | succ n =>
      rw [dropBytes?] at cut
      split at cut
      · next fits =>
        obtain ⟨before, same, width⟩ := ih cut
        refine ⟨c :: before, by rw [same, List.cons_append], ?_⟩
        show c.utf8Size + byteWidth before = n + 1
        omega
      · cases cut

/-- What is no wider than the indentation of a line is blank. -/
theorem solid_eq_nil_of_byteWidth_le (narrow : byteWidth cs ≤ indentation (cs ++ line)) :
    solid cs = [] := by
  induction cs with
  | nil => rfl
  | cons c cs ih =>
    have wide := c.utf8Size_pos
    have width : byteWidth (c :: cs) = c.utf8Size + byteWidth cs := rfl
    cases blank : isBlank c with
    | false =>
      have none : indentation (c :: cs ++ line) = 0 := by
        rw [indentation, List.cons_append, List.takeWhile_cons, blank]
        rfl
      omega
    | true =>
      have some : indentation (c :: cs ++ line) = c.utf8Size + indentation (cs ++ line) := by
        rw [indentation, List.cons_append, List.takeWhile_cons, blank]
        rfl
      rw [solid, List.filter_cons_of_neg (by simp [blank])]
      exact ih (by omega)

/-- What is cut from a line is blank, however the cut falls. -/
theorem solid_dedentLine (narrow : isBlankLine line = false → n ≤ indentation line) :
    solid (dedentLine n line) = solid line := by
  rw [dedentLine]
  cases cut : dropBytes? n line with
  | none => exact solid_trimStart
  | some rest =>
    obtain ⟨before, rfl, width⟩ := exists_of_dropBytes? cut
    have blank : solid before = [] := by
      cases whole : isBlankLine (before ++ rest) with
      | false => exact solid_eq_nil_of_byteWidth_le (width ▸ narrow whole)
      | true =>
        have none := solid_eq_nil_of_isBlankLine whole
        rw [solid_append] at none
        exact (List.append_eq_nil_iff.mp none).1
    rw [solid_append, blank, List.nil_append, Option.getD_some]

theorem dedentLine_shift : dedentLine (n + m) (shift n line) = dedentLine m line := by
  have cut : dropBytes? (n + m) (shift n line) = dropBytes? m line := by
    induction n with
    | zero => rw [Nat.zero_add]; rfl
    | succ n ih =>
      have space : shift (n + 1) line = ' ' :: shift n line := rfl
      have one : ' '.utf8Size = 1 := rfl
      rw [space, show n + 1 + m = n + m + 1 by omega, dropBytes?, one, if_pos (by omega),
        Nat.add_sub_cancel, ih]
  rw [dedentLine, dedentLine, cut, trimStart_shift]

/-! ### Bodies -/

theorem bodyLines_newline (some : ls ≠ []) (whole : ∀ line ∈ ls, '\n' ∉ line) :
    bodyLines ('\n' :: unlines ls) = (ls.reverse.dropWhile isBlankLine).reverse := by
  rw [bodyLines, lines, lines_unlines some whole]
  rfl

/-- The last line of a body is not blank. -/
theorem exists_filled_of_mem (here : line ∈ (ls.reverse.dropWhile isBlankLine).reverse) :
    ∃ last ∈ (ls.reverse.dropWhile isBlankLine).reverse, isBlankLine last = false := by
  have some : ls.reverse.dropWhile isBlankLine ≠ [] :=
    List.ne_nil_of_mem (List.mem_reverse.mp here)
  exact ⟨_, List.mem_reverse.mpr (List.head_mem some), List.head_dropWhile_not _ some⟩

/-- Only blanks are cut from a body, and how deep its lines stand under the fence does not
matter. -/
theorem normalize_faithful :
    (∀ raw, (normalize raw).filter (!isBlank ·) = raw.filter (!isBlank ·)) ∧
    ∀ ls n, (∀ line ∈ ls, '\n' ∉ line) →
      normalize ('\n' :: unlines (ls.map (List.replicate n ' ' ++ ·))) =
        normalize ('\n' :: unlines ls) := by
  refine ⟨fun raw => ?_, fun ls n whole => ?_⟩
  · show solid (normalize raw) = solid raw
    rw [normalize, solid_unlines, List.flatMap_map, ← solid_bodyLines raw]
    exact List.flatMap_congr fun line here => solid_dedentLine (commonIndentation_le here)
  · show normalize ('\n' :: unlines (ls.map (shift n))) = normalize ('\n' :: unlines ls)
    by_cases some : ls = []
    · rw [some, List.map_nil]
    have moved : ∀ line ∈ ls.map (shift n), '\n' ∉ line := by
      simpa [shift, List.mem_replicate] using whole
    have body : bodyLines ('\n' :: unlines (ls.map (shift n))) =
        (bodyLines ('\n' :: unlines ls)).map (shift n) := by
      rw [bodyLines_newline (by simpa using some) moved, bodyLines_newline some whole,
        ← List.map_reverse, List.dropWhile_map, ← List.map_reverse]
      simp [Function.comp_def, isBlankLine_shift]
    rw [normalize, normalize, body, List.map_map]
    refine congrArg unlines (List.map_congr_left fun line here => ?_)
    -- a line of the body gives one that is not blank, so there is a shared indentation to move
    rw [bodyLines_newline some whole] at here ⊢
    obtain ⟨last, here, filled⟩ := exists_filled_of_mem here
    rw [Function.comp_apply, commonIndentation_shift here filled, dedentLine_shift]

/-- A block whose second line starts with a wide blank, which counts for three. -/
theorem normalize_faithful_block :
    (∀ line ∈ ["if a:".toList, "\u2003b".toList, [], " c".toList], '\n' ∉ line) ∧
    normalize ('\n' :: unlines (["if a:".toList, "\u2003b".toList, [], " c".toList].map
        (List.replicate 2 ' ' ++ ·))) =
      normalize ('\n' :: unlines ["if a:".toList, "\u2003b".toList, [], " c".toList]) :=
  have whole : ∀ line ∈ ["if a:".toList, "\u2003b".toList, [], " c".toList], '\n' ∉ line := by
    decide
  ⟨whole, normalize_faithful.2 _ 2 whole⟩

example : normalize "\n  if a:\n\n      b\n \u2003\n".toList = "if a:\n\n    b".toList := by decide

end ConceptForest.Grammar.FencedBody
