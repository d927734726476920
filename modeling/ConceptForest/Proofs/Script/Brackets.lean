import ConceptForest.Proofs.Script.BlankLines
import ConceptForest.Proofs.Script.TokenLayout

/-!
The brackets of a plain text.

In a text without strings, comments and backslashes every bracket is a token of its own. How many
brackets are open can be told from the characters, and what is scanned to its end is balanced.

* `depthAfter_scan` — a token opens and closes what its characters do.
* `Scans.balanced` — the brackets of a text that is accepted.
-/

namespace ConceptForest.Script

open ConceptForest.Text

variable {c d : Char} {cs ds rest : List Char} {depth : Nat} {s : Scan} {layout : Layout}
  {p : Position} {ts : List Token} {opened : Int}

/-! ### Counting brackets -/

/-- What the character adds to the number of open brackets. -/
def bracketStep (c : Char) : Int :=
  if c == '(' || c == '[' || c == '\x7b' then 1
  else if c == ')' || c == ']' || c == '\x7d' then -1
  else 0

/-- The opening brackets of a text less the closing ones. -/
def netBrackets : List Char → Int
  | [] => 0
  | c :: cs => bracketStep c + netBrackets cs

/-- Does a line break stand outside of all brackets? So many of them are open in front. -/
def breaksLine (opened : Int) : List Char → Bool
  | [] => false
  | c :: cs => (c == '\n' && opened ≤ 0) || breaksLine (opened + bracketStep c) cs

theorem netBrackets_append : netBrackets (cs ++ ds) = netBrackets cs + netBrackets ds := by
  induction cs with
  | nil => simp [netBrackets]
  | cons c cs ih => rw [List.cons_append, netBrackets, netBrackets, ih, Int.add_assoc]

theorem netBrackets_eq_zero (none : ∀ c ∈ cs, bracketStep c = 0) : netBrackets cs = 0 := by
  induction cs with
  | nil => rfl
  | cons c cs ih =>
    obtain ⟨first, others⟩ := List.forall_mem_cons.mp none
    rw [netBrackets, first, ih others]
    rfl

theorem breaksLine_append : breaksLine opened (cs ++ ds) =
    (breaksLine opened cs || breaksLine (opened + netBrackets cs) ds) := by
  induction cs generalizing opened with
  | nil => simp [breaksLine, netBrackets]
  | cons c cs ih =>
    rw [List.cons_append, breaksLine, breaksLine, ih, netBrackets, Bool.or_assoc, Int.add_assoc]

/-! ### Blanks -/

/-- The codes of the blank characters. -/
def blankCodes : List Nat :=
  [9, 10, 11, 12, 13, 0x20, 0x85, 0xa0, 0x1680, 0x2000, 0x2001, 0x2002, 0x2003, 0x2004, 0x2005,
    0x2006, 0x2007, 0x2008, 0x2009, 0x200a, 0x2028, 0x2029, 0x202f, 0x205f, 0x3000]

/-- What holds of every blank. -/
theorem of_isBlank (fits : Char → Bool) (all : blankCodes.all (fits <| Char.ofNat ·) = true)
    (blank : isBlank c = true) : fits c = true := by
  have code : c.toNat ∈ blankCodes := by
    simp only [isBlank, Bool.or_eq_true, Bool.and_eq_true, decide_eq_true_eq, beq_iff_eq] at blank
    simp only [blankCodes, List.mem_cons, List.not_mem_nil, or_false]
    omega
  have holds := List.all_eq_true.mp all _ code
  rwa [Char.ofNat_toNat] at holds

/-- No name has a blank in it. The ranges are searched as a list, which is decided in one pass. -/
theorem not_isNamePart_of_isBlank (blank : isBlank c = true) : isNamePart c = false := by
  have all : blankCodes.all (fun n => !isNamePart (Char.ofNat n)) = true := by
    simp only [isNamePart, isAlphanumeric, isLetter, isNumeral, inRanges, ← Array.any_toList]
    decide +kernel
  simpa using of_isBlank (!isNamePart ·) all blank

theorem separator_of_isBlank (blank : isBlank c = true) : Separator c := by
  have name := not_isNamePart_of_isBlank blank
  have fits := of_isBlank (fun c => c != '\'' && c != '"' && !isNumberPart c &&
    c != '+' && c != '-' && longOperators.all fun op => !op.toList.contains c) (by decide) blank
  simp only [Bool.and_eq_true, bne_iff_ne, Bool.not_eq_true'] at fits
  obtain ⟨⟨⟨⟨⟨single, double⟩, number⟩, plus⟩, minus⟩, operators⟩ := fits
  refine ⟨⟨single, double⟩, name, number, ⟨plus, minus⟩, fun op long => ?_⟩
  simpa using List.all_eq_true.mp operators op long

theorem bracketStep_of_isBlank (blank : isBlank c = true) : bracketStep c = 0 := by
  simpa using of_isBlank (bracketStep · == 0) (by decide) blank

theorem isBlank_of_isLineBlank (blank : isLineBlank c = true) : isBlank c = true := by
  simp only [isLineBlank, Bool.or_eq_true, beq_iff_eq] at blank
  rcases blank with ((rfl | rfl) | rfl) | rfl <;> rfl

theorem trimStart_eq (cs : List Char) :
    ∃ back, trimStart cs = trim cs ++ back ∧ ∀ c ∈ back, isBlank c = true := by
  refine ⟨((trimStart cs).reverse.takeWhile isBlank).reverse, ?_, fun c here => ?_⟩
  · rw [trim, trimEnd, ← List.reverse_append, List.takeWhile_append_dropWhile, List.reverse_reverse]
  · exact List.mem_takeWhile_imp (List.mem_reverse.mp here)

/-- A text is what is left of it when it is trimmed, between blanks. -/
theorem trim_parts (cs : List Char) : ∃ front back, front ++ (trim cs ++ back) = cs ∧
    (∀ c ∈ front, isBlank c = true) ∧ ∀ c ∈ back, isBlank c = true := by
  obtain ⟨back, rest, blank⟩ := trimStart_eq cs
  refine ⟨cs.takeWhile isBlank, back, ?_, fun c here => List.mem_takeWhile_imp here, blank⟩
  rw [← rest]
  exact List.takeWhile_append_dropWhile

/-- A trimmed text does not begin with a blank. -/
theorem isBlank_of_trim (begun : c ∈ (trim cs).head?) : isBlank c = false := by
  obtain ⟨back, whole, -⟩ := trimStart_eq cs
  have first : (cs.dropWhile isBlank).head? = some c := by
    rw [show cs.dropWhile isBlank = trim cs ++ back from whole, List.head?_append, begun]
    rfl
  have content := List.head?_dropWhile_not isBlank cs
  rw [first] at content
  simpa using content

theorem netBrackets_trim (cs : List Char) : netBrackets (trim cs) = netBrackets cs := by
  obtain ⟨front, back, whole, blank, blank'⟩ := trim_parts cs
  have front : netBrackets front = 0 :=
    netBrackets_eq_zero fun c here => bracketStep_of_isBlank (blank c here)
  have back : netBrackets back = 0 :=
    netBrackets_eq_zero fun c here => bracketStep_of_isBlank (blank' c here)
  conv => rhs; rw [← whole, netBrackets_append, netBrackets_append, front, back]
  simp

/-! ### The tokens of a plain text -/

/-- In a plain text nothing stands in front of a token. -/
theorem source_append_rest (read : scan depth c cs = .ok s) (plain : ∀ d ∈ c :: cs, Plain d) :
    s.source ++ s.rest = c :: cs := by
  cases Scanned.of_scan read with
  | @string lead rest quote _ quoted _ written =>
    obtain ⟨single, double, -⟩ := plain quote (by rw [← written]; simp)
    exact absurd quoted (not_or_intro single double)
  | number written => exact written
  | name written => exact written
  | operator _ written => exact written
  | mark => rfl

/-- Where no bracket fits, what fits is no bracket. -/
theorem bracketStep_of_all (fits : Char → Bool)
    (others : ['(', '[', '\x7b', ')', ']', '\x7d'].all (!fits ·) = true) (here : fits c = true) :
    bracketStep c = 0 := by
  have apart : ∀ d ∈ ['(', '[', '\x7b', ')', ']', '\x7d'], c ≠ d := by
    rintro d mem rfl
    have other := List.all_eq_true.mp others c mem
    simp [here] at other
  simp only [List.forall_mem_cons] at apart
  simp [bracketStep, apart]

theorem netBrackets_source (read : scan depth c cs = .ok s) (plain : ∀ d ∈ c :: cs, Plain d) :
    netBrackets s.source =
      (if s.lexeme.isOpening then 1 else 0) - (if s.lexeme.isClosing then 1 else 0) := by
  cases Scanned.of_scan read with
  | @string lead rest quote _ quoted _ written =>
    obtain ⟨single, double, -⟩ := plain quote (by rw [← written]; simp)
    exact absurd quoted (not_or_intro single double)
  | number _ parts =>
    refine netBrackets_eq_zero fun c here =>
      bracketStep_of_all (fun c => isNumberPart c || c == '+' || c == '-') (by decide) ?_
    simpa [or_assoc] using parts c here
  | name _ parts =>
    exact netBrackets_eq_zero fun c here => bracketStep_of_all isNamePart (by decide) (parts c here)
  | @operator op _ long =>
    have neutral : longOperators.all (fun op => !(Lexeme.op op).isOpening &&
        !(Lexeme.op op).isClosing && op.toList.all (bracketStep · == 0)) = true := by decide
    have neutral := List.all_eq_true.mp neutral op long
    simp only [Bool.and_eq_true, Bool.not_eq_true', List.all_eq_true, beq_iff_eq] at neutral
    rw [netBrackets_eq_zero neutral.2, neutral.1.1, neutral.1.2]
    rfl
  | mark short =>
    have counted : shortOperators.all (fun c => netBrackets [c] ==
        (if (Lexeme.op c.toString).isOpening then 1 else 0) -
          (if (Lexeme.op c.toString).isClosing then 1 else 0)) = true := by decide
    exact beq_iff_eq.mp (List.all_eq_true.mp counted c short)

/-- A token opens and closes what its characters do. -/
theorem depthAfter_scan (read : scan depth c cs = .ok s) (plain : ∀ d ∈ c :: cs, Plain d) :
    (s.lexeme.depthAfter depth : Int) = depth + netBrackets s.source := by
  have balance := Lexeme.depthAfter_balance (isContent_of_scan read).2
  rw [netBrackets_source read plain]
  split at balance <;> split at balance <;> simp_all
  all_goals omega

/-! ### Whole texts -/

theorem isBlank_of_lineStart (width : Nat) (plain : ∀ c ∈ cs, Plain c) :
    ∀ c ∈ (lineStart false width cs).2.1, isBlank c = true := by
  induction cs generalizing width with
  | nil => exact List.forall_mem_nil _
  | cons c cs ih =>
    obtain ⟨⟨-, -, -, noComment⟩, plain⟩ := List.forall_mem_cons.mp plain
    rw [lineStart]
    split
    · next breaks =>
      exact List.forall_mem_cons.mpr ⟨beq_iff_eq.mp breaks ▸ rfl, ih 0 plain⟩
    · rw [if_neg (by simpa using noComment)]
      split
      · next blank => exact List.forall_mem_cons.mpr ⟨isBlank_of_isLineBlank blank, ih _ plain⟩
      · exact List.forall_mem_nil _

/-- A text that is scanned to its end closes what it opens, and what has been open in front. -/
theorem Scans.balanced (scans : Scans layout p cs ts) (plain : ∀ c ∈ cs, Plain c) :
    layout.depth + netBrackets cs = 0 := by
  induction scans with
  | done closed => simp [closed, netBrackets]
  | wrapped _ _ ih =>
    have further := ih fun c here => plain c (List.mem_cons_of_mem _ here)
    simpa [netBrackets, bracketStep] using further
  | @line _ _ _ rest source rest' _ _ _ _ _ start _ _ _ ih =>
    have plain : ∀ c ∈ rest, Plain c := fun c here => plain c (List.mem_cons_of_mem _ here)
    have whole := lineStart_append false 0 rest
    have blank := isBlank_of_lineStart 0 plain
    rw [start] at whole blank
    have passed : netBrackets source = 0 :=
      netBrackets_eq_zero fun c here => bracketStep_of_isBlank (blank c here)
    have further := ih fun c here => plain c (whole ▸ List.mem_append_right _ here)
    rw [netBrackets, ← whole, netBrackets_append, passed]
    simpa [bracketStep] using further
  | @gap _ _ c rest source rest' _ _ gap _ ih =>
    obtain ⟨⟨-, -, slash, noComment⟩, plain⟩ := List.forall_mem_cons.mp plain
    rw [gap?_cons slash noComment] at gap
    split at gap
    · next blank =>
      obtain ⟨⟩ := gap
      rw [netBrackets, bracketStep_of_isBlank (isBlank_of_isLineBlank blank)]
      simpa using ih plain
    · cases gap
  | @token layout _ c rest s _ _ _ scanned _ ih =>
    have whole := source_append_rest scanned plain
    have further := ih fun d here => plain d (whole ▸ List.mem_append_right _ here)
    have step := depthAfter_scan scanned plain
    rw [← whole, netBrackets_append]
    dsimp only at further
    omega

end ConceptForest.Script
