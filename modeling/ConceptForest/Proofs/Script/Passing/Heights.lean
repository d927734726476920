import ConceptForest.Proofs.Script.Alone
import ConceptForest.Proofs.Script.Extending
import ConceptForest.Proofs.Script.Passing.Statements

/-!
How high the expressions of a snippet are.

The nesting levels bound what brackets, signs and functions without a name put on top of each other.
They do not count a clause of a comprehension, a member or an exponent, each of which makes an
expression higher on the same level. All of these are written with a mark, so the marks of the
snippet have to be counted as well.

* `Stmt.height_le_of_parse` — the height is bounded by the nesting levels and the marks.
* `height_unbounded` — without the marks there is no bound.
-/

namespace ConceptForest.Script

open ConceptForest.Text Reader

/-! ### Members of members -/

variable {level : Level} {p : Position} {n : Nat} {e : Expr} {us : List Token}

/-- So many members, one of the other. -/
def members : Nat → List Char
  | 0 => []
  | n + 1 => '.' :: 'x' :: members n

/-- What the members and the end of a snippet are read as. -/
def memberLexemes : Nat → List Lexeme
  | 0 => [.newline, .endOfInput]
  | n + 1 => .op "." :: .name "x" :: memberLexemes n

theorem scan_member (n : Nat) : scan 0 'x' (members n) = .ok ⟨[], .name "x", ['x'], members n⟩ := by
  cases n with
  | zero => rfl
  | succ n => rfl

theorem scans_members (n : Nat) (p : Position) :
    ∃ ts, Scans ⟨[], 0, true⟩ p (members n) ts ∧ ts.map Token.lexeme = memberLexemes n := by
  induction n generalizing p with
  | zero => exact ⟨_, .done rfl, rfl⟩
  | succ n ih =>
    obtain ⟨ts, further, same⟩ := ih ((p.after ['.']).after ['x'])
    refine ⟨_, .token (by decide) rfl rfl (.token (by decide) rfl (scan_member n) further), ?_⟩
    simp [memberLexemes, same]

theorem tokens_members (n : Nat) : ∃ ts, tokens (String.ofList ('x' :: members n)) = .ok ts ∧
    ts.map Token.lexeme = .name "x" :: memberLexemes n := by
  obtain ⟨ts, further, same⟩ := scans_members n ⟨1, 2⟩
  have line : Scans {} ⟨1, 1⟩ ('x' :: members n) (⟨.name "x", ⟨1, 1⟩⟩ :: ts) :=
    .token (by decide) rfl (scan_member n) further
  have flush : lineTokens [] 0 ⟨1, 1⟩ ('x' :: members n) = .ok ([], []) := rfl
  have scans : Scans {} ⟨0, 0⟩ ('\n' :: 'x' :: members n)
      (Layout.endLine {} ⟨0, 0⟩ ++ [] ++ ⟨.name "x", ⟨1, 1⟩⟩ :: ts) :=
    .line rfl rfl rfl flush line
  refine ⟨⟨.name "x", ⟨1, 1⟩⟩ :: ts, tokens_eq_ok_iff.mpr ?_, ?_⟩
  · rwa [String.toList_ofList]
  · exact congrArg (.name "x" :: ·) same

/-- All the members are read behind one operand. -/
theorem many_trailer?_members (written : us.map Token.lexeme = memberLexemes n) :
    ∃ rest, many (trailer? level) us = .ok (List.replicate n .member, rest) ∧
      rest.map Token.lexeme = memberLexemes 0 := by
  induction n generalizing us with
  | zero =>
    have declined : trailer? level us = .ok (none, us) := by
      obtain ⟨p, us, rfl, -⟩ := cons_of_lexemes written
      rfl
    exact ⟨us, many_of_none declined, written⟩
  | succ n ih =>
    obtain ⟨p, _, rfl, name⟩ := cons_of_lexemes written
    obtain ⟨p', us, rfl, others⟩ := cons_of_lexemes name
    obtain ⟨rest, read, last⟩ := ih others
    refine ⟨rest, ?_, last⟩
    have one : trailer? level (⟨.op ".", p⟩ :: ⟨.name "x", p'⟩ :: us) = .ok (some .member, us) := rfl
    rw [many, one]
    dsimp only
    rw [if_pos (by simp), read]
    rfl

/-- The expression that so many members make. -/
def memberOf (e : Expr) (n : Nat) : Expr :=
  (List.replicate n Trailer.member).foldl Trailer.apply e

theorem memberOf_succ : memberOf e (n + 1) = memberOf (.member e) n :=
  rfl

theorem height_memberOf : (memberOf e n).height = e.height + n := by
  induction n generalizing e with
  | zero => rfl
  | succ n ih =>
    rw [memberOf_succ, ih, Expr.height]
    omega

theorem isReadable_memberOf : (memberOf e n).isReadable = e.isReadable := by
  induction n generalizing e with
  | zero => rfl
  | succ n ih =>
    rw [memberOf_succ, ih, Expr.isReadable]

theorem parse_members (n : Nat) :
    Stmt.parse (String.ofList ('x' :: members n)) = .ok [.read (memberOf (.name "x") n)] := by
  obtain ⟨_, lexed, written⟩ := tokens_members n
  obtain ⟨p, ts, rfl, behind⟩ := cons_of_lexemes written
  obtain ⟨rest, read, last⟩ :
      ∃ rest, many (trailer? (.over (nested 99))) ts = .ok (List.replicate n .member, rest) ∧
        rest.map Token.lexeme = memberLexemes 0 := many_trailer?_members behind
  have ended : headLexeme rest = .newline := by
    obtain ⟨q, rest, rfl, -⟩ := cons_of_lexemes last
    rfl
  have atom : (Level.over (nested 99)).atom (⟨.name "x", p⟩ :: ts) = .ok (.name "x", ts) :=
    plainAtom_name (by decide)
  have operand : primary (.over (nested 99)) (⟨.name "x", p⟩ :: ts) =
      .ok (memberOf (.name "x") n, rest) := by
    rw [primary, run_bind_of_ok atom, run_bind_of_ok read]
    rfl
  have test : (Suite.withRoom maxNesting).level.test (⟨.name "x", p⟩ :: ts) =
      .ok (memberOf (.name "x") n, rest) :=
    conditional_alone (by rw [ended]; rfl) rfl operand
  rw [parse_alone lexed rfl test last, isReadable_memberOf]
  rfl

/-! ### The bound -/

/-- An expression of a snippet is higher than the nesting levels allow only by what the opening
brackets, dots and stars of the snippet add. -/
theorem Stmt.height_le_of_parse {source : String} {statements : List Stmt}
    (accepted : Stmt.parse source = .ok statements) :
    ∀ e ∈ exprsAll statements, e.height ≤ moduleReach + reach * marks source.toList := by
  obtain ⟨ts, lexed, accepted⟩ := bind_eq_ok_iff.mp accepted
  obtain ⟨⟨parts, rest⟩, read, same⟩ := bind_eq_ok_iff.mp accepted
  obtain ⟨⟩ := same
  have reads : Reads Anywhere (many moduleItem?) _ := module_fits
  obtain ⟨passed, rfl, -, high⟩ := reads ts parts rest trivial read
  have heavy := weight_le_of_tokens lexed
  rw [weight_append] at heavy
  exact heightAll_le_iff.mp (high.trans (Nat.add_le_add_left (Nat.le_of_add_right_le heavy) _))

/-- A comprehension, a power, a member and a call. -/
theorem Stmt.height_le_of_parse_call : ∃ statements,
    Stmt.parse "y = f(a.b ** c for a in [x])\n" = .ok statements ∧
      ∀ e ∈ exprsAll statements,
        e.height ≤ moduleReach + reach * marks "y = f(a.b ** c for a in [x])\n".toList := by
  have accepted : (Stmt.parse "y = f(a.b ** c for a in [x])\n").toOption.isSome = true := by
    decide +kernel
  obtain ⟨statements, some⟩ := Option.isSome_iff_exists.mp accepted
  exact ⟨statements, eq_ok_of_toOption some, height_le_of_parse (eq_ok_of_toOption some)⟩

/-- Whatever the bound, there is a snippet with a higher expression. -/
theorem height_unbounded : ¬ ∃ bound, ∀ source statements, Stmt.parse source = .ok statements →
    ∀ e ∈ exprsAll statements, e.height ≤ bound := by
  rintro ⟨bound, bounded⟩
  have read : memberOf (.name "x") bound ∈ exprsAll [.read (memberOf (.name "x") bound)] := by
    simp [exprsAll, Stmt.exprs]
  have high := bounded _ _ (parse_members bound) _ read
  rw [height_memberOf, Expr.height] at high
  omega

end ConceptForest.Script
