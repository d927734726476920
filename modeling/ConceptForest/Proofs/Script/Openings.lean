import ConceptForest.Proofs.Steps
import ConceptForest.Script.Expr.Parser

/-!
Where an expression can begin.

Readers that only look at the token at the front answer without reading it. `Declines` says that
such a question is answered with no, and `Refuses` that a reader fails, wherever a given lexeme is at
the front. From the one to the other it goes through the rules for expressions, down to the atom.

* `startsExpression_eq` — the question whether an expression can begin is one about the lexeme.
* `nested_refuses` — where it is answered with no, no rule for expressions reads anything.
* `opensExpression_of_testList` — so whatever is read as an expression begins with such a lexeme.
-/

namespace ConceptForest.Script

open Reader

variable {α β : Type} {r : Reader α} {ts rest : List Token} {l : Lexeme} {a : α} {e : SyntaxError}

/-! ### Looking at the front -/

theorem run_bind_of_ok {further : α → Reader β} (read : r ts = .ok (a, rest)) :
    (r >>= further) ts = further a rest := by
  show (r ts >>= fun read => further read.1 read.2) = _
  rw [read]
  rfl

theorem run_bind_of_error {further : α → Reader β} (failed : r ts = .error e) :
    (r >>= further) ts = .error e := by
  show (r ts >>= fun read => further read.1 read.2) = _
  rw [failed]
  rfl

/-- Is the lexeme one of the operators? -/
def Lexeme.isAmong (ops : List String) : Lexeme → Bool
  | .op text => ops.contains text
  | _ => false

/-- Can an expression begin with the lexeme? -/
def Lexeme.opensExpression : Lexeme → Bool
  | .name text =>
    !isKeyword text || ["None", "True", "False", "lambda", "not", "await"].contains text
  | .number | .string _ => true
  | .op text => ["(", "[", "\x7b", "-", "+", "~", "*", "..."].contains text
  | _ => false

theorem isOneOf_eq (ops : List String) (ts : List Token) :
    isOneOf ops ts = .ok ((headLexeme ts).isAmong ops, ts) := by
  unfold isOneOf
  rw [run_bind_of_ok (rfl : peek ts = .ok (headLexeme ts, ts))]
  cases headLexeme ts <;> rfl

/-- The keyword that the lexeme is; the empty text if it is none. -/
def Lexeme.keyword : Lexeme → String
  | .name text => if isKeyword text then text else ""
  | _ => ""

theorem keyword_eq (ts : List Token) : keyword ts = .ok ((headLexeme ts).keyword, ts) := by
  unfold keyword
  rw [run_bind_of_ok (rfl : peek ts = .ok (headLexeme ts, ts))]
  cases headLexeme ts <;> rfl

theorem startsExpression_eq (ts : List Token) :
    startsExpression ts = .ok ((headLexeme ts).opensExpression, ts) := by
  unfold startsExpression
  rw [run_bind_of_ok (rfl : peek ts = .ok (headLexeme ts, ts))]
  cases headLexeme ts <;> rfl

/-! ### Questions that are answered with no -/

/-- Where the lexeme is at the front, the question is answered with no, and nothing is read. -/
def Declines (question : Reader Bool) (l : Lexeme) : Prop :=
  ∀ ts, headLexeme ts = l → question ts = .ok (false, ts)

namespace Declines

variable {op word : String} {ops : List String} {question : Reader Bool}

theorem isOp (other : l ≠ .op op) : Declines (isOp op) l := by
  rintro ts rfl
  show Except.ok (headLexeme ts == .op op, ts) = _
  rw [beq_eq_false_iff_ne.mpr other]

theorem isWord (other : l ≠ .name word) : Declines (isWord word) l := by
  rintro ts rfl
  show Except.ok (headLexeme ts == .name word, ts) = _
  rw [beq_eq_false_iff_ne.mpr other]

theorem isOneOf (other : l.isAmong ops = false) : Declines (isOneOf ops) l := by
  rintro ts rfl
  rw [isOneOf_eq, other]

theorem eatIf (declines : Declines question l) : Declines (eatIf question) l := by
  intro ts head
  rw [Reader.eatIf, run_bind_of_ok (declines ts head)]
  rfl

theorem eatOp (other : l ≠ .op op) : Declines (eatOp op) l :=
  (isOp other).eatIf

theorem eatWord (other : l ≠ .name word) : Declines (eatWord word) l :=
  (isWord other).eatIf

theorem run_choose {question : Reader Bool} (declines : Declines question l) {yes no : Reader α}
    (head : headLexeme ts = l) :
    (question >>= fun answer => if answer = true then yes else no) ts = no ts :=
  run_bind_of_ok (declines ts head)

end Declines

/-! ### Readers that fail -/

/-- Where the lexeme is at the front, the reader fails. -/
def Refuses (r : Reader α) (l : Lexeme) : Prop :=
  ∀ ts, headLexeme ts = l → ∃ e, r ts = .error e

namespace Refuses

variable {question : Reader Bool} {yes no : Reader α}

theorem fail (fault : Fault) : Refuses (Reader.fail fault : Reader α) l :=
  fun _ _ => ⟨_, rfl⟩

theorem unexpected : Refuses (Reader.unexpected : Reader α) l :=
  fun _ _ => ⟨_, rfl⟩

/-- What fails first fails. -/
theorem bind {further : α → Reader β} (refuses : Refuses r l) : Refuses (r >>= further) l := by
  intro ts head
  obtain ⟨e, failed⟩ := refuses ts head
  exact ⟨e, run_bind_of_error failed⟩

theorem choose (declines : Declines question l) (refuses : Refuses no l) :
    Refuses (question >>= fun answer => if answer = true then yes else no) l := by
  intro ts head
  rw [declines.run_choose head]
  exact refuses ts head

/-- What is done depends on the lexeme. -/
theorem peek {further : Lexeme → Reader α} (refuses : Refuses (further l) l) :
    Refuses (peek >>= further) l := by
  rintro ts rfl
  exact refuses ts rfl

/-- A look at the token behind changes nothing. -/
theorem peekSecond {further : Lexeme → Reader α} (refuses : ∀ second, Refuses (further second) l) :
    Refuses (peekSecond >>= further) l :=
  fun ts head => refuses _ ts head

theorem position {further : Text.Position → Reader α} (refuses : ∀ p, Refuses (further p) l) :
    Refuses (position >>= further) l :=
  fun ts head => refuses _ ts head

end Refuses

/-! ### The rules for expressions -/

/-- The rules that open a nesting level fail where the lexeme is at the front. -/
structure Nested.Refuses (rules : Nested) (l : Lexeme) : Prop where
  test : Script.Refuses rules.test l
  atom : Script.Refuses rules.atom l

variable {level : Level} {rules : Nested} {plain item : Reader Expr}

/-- Is the lexeme a sign or a word that an operand may have in front? -/
def Lexeme.precedesOperand : Lexeme → Bool
  | .name text => ["lambda", "not", "await"].contains text
  | .op text => ["-", "+", "~", "*"].contains text
  | _ => false

theorem precedesOperand_of_closed (closed : l.opensExpression = false) :
    l.precedesOperand = false := by
  refine Bool.eq_false_iff.mpr fun precedes => ?_
  cases l with
  | name text =>
    have opening : ∀ word ∈ ["lambda", "not", "await"],
        (Lexeme.name word).opensExpression = true := by decide
    cases closed.symm.trans (opening text (List.contains_iff_mem.mp precedes))
  | op text =>
    have opening : ∀ op ∈ ["-", "+", "~", "*"], (Lexeme.op op).opensExpression = true := by decide
    cases closed.symm.trans (opening text (List.contains_iff_mem.mp precedes))
  | _ => cases precedes

theorem ne_of_precedesOperand {l' : Lexeme} (bare : l.precedesOperand = false)
    (precedes : l'.precedesOperand = true) : l ≠ l' := by
  rintro rfl
  cases bare.symm.trans precedes

theorem isAmong_signs (bare : l.precedesOperand = false) : l.isAmong ["-", "+", "~"] = false := by
  cases l with
  | op text =>
    have signs : ∀ op ∈ ["-", "+", "~"], (Lexeme.op op).precedesOperand = true := by decide
    refine Bool.eq_false_iff.mpr fun among => ?_
    cases bare.symm.trans (signs text (List.contains_iff_mem.mp among))
  | _ => rfl

theorem namedTest_refuses (closed : l.opensExpression = false) (refuses : Refuses level.test l) :
    Refuses (namedTest level) l := by
  refine .peek ?_
  cases l with
  | name text =>
    have keyword : isKeyword text = true := by
      simp only [Lexeme.opensExpression, Bool.or_eq_false_iff, Bool.not_eq_false'] at closed
      exact closed.1
    refine .peekSecond fun second => ?_
    simpa [keyword] using refuses
  | _ => exact refuses

theorem starOr_refuses (bare : l.precedesOperand = false) (refuses : Refuses plain l) :
    Refuses (starOr level plain) l :=
  .choose (.eatOp (ne_of_precedesOperand bare (by decide))) refuses

theorem factor_refuses (bare : l.precedesOperand = false) (refuses : Refuses level.atom l) :
    Refuses (factor level) l := by
  have primary : Refuses (primary level) l := refuses.bind
  have awaited : Refuses (awaited level) l :=
    .choose (.eatWord (ne_of_precedesOperand bare (by decide))) primary
  exact .choose (.eatIf (.isOneOf (isAmong_signs bare))) awaited.bind

theorem operands_refuse {more : Reader Bool} (refuses : Refuses item l) :
    Refuses (do return Expr.combine (← oneAndMore more item)) l :=
  Refuses.bind (Refuses.bind refuses)

theorem arithmetic_refuses (bare : l.precedesOperand = false) (refuses : Refuses level.atom l) :
    Refuses (arithmetic level) l := by
  unfold arithmetic
  induction binaryOperators with
  | nil => exact factor_refuses bare refuses
  | cons ops others ih => exact operands_refuse ih

theorem disjunction_refuses (bare : l.precedesOperand = false) (refuses : Refuses level.atom l) :
    Refuses (disjunction level) l :=
  operands_refuse <| operands_refuse <|
    .choose (.eatWord (ne_of_precedesOperand bare (by decide))) <|
    operands_refuse (arithmetic_refuses bare refuses)

theorem conditional_refuses (bare : l.precedesOperand = false) (refuses : Refuses level.atom l) :
    Refuses (conditional level) l :=
  .choose (.isWord (ne_of_precedesOperand bare (by decide)))
    (disjunction_refuses bare refuses).bind

theorem testList_refuses (bare : l.precedesOperand = false) (refuses : Refuses level.test l) :
    Refuses (testList level) l :=
  (starOr_refuses bare refuses).bind

theorem plainAtom_refuses (closed : l.opensExpression = false) : Refuses (plainAtom level) l := by
  refine .position fun p => .peek ?_
  cases l with
  | name text =>
    simp only [Lexeme.opensExpression, Bool.or_eq_false_iff, Bool.not_eq_false'] at closed
    obtain ⟨keyword, other⟩ := closed
    have literal : ["None", "True", "False"].contains text = false := by
      refine Bool.eq_false_iff.mpr fun among => ?_
      have opening : ∀ word ∈ ["None", "True", "False"],
          ["None", "True", "False", "lambda", "not", "await"].contains word = true := by decide
      rw [opening text (List.contains_iff_mem.mp among)] at other
      cases other
    simp only [literal, keyword, Bool.false_eq_true, if_false, if_true]
    exact .unexpected
  | op text =>
    split
    · next same => obtain ⟨⟩ := same; cases closed
    · next same => obtain ⟨⟩ := same; cases closed
    · next same => obtain ⟨⟩ := same; cases closed
    · next same => obtain ⟨⟩ := same; cases closed
    · next other => cases other
    · next other => cases other
    · next other => cases other
    · exact .unexpected
  | number => cases closed
  | string => cases closed
  | _ => exact .unexpected

/-- Where no expression can begin, the rules that open a nesting level read nothing. -/
theorem nested_refuses (n : Nat) (closed : l.opensExpression = false) : (nested n).Refuses l := by
  induction n with
  | zero => exact ⟨.fail _, .fail _⟩
  | succ n ih =>
    exact ⟨conditional_refuses (precedesOperand_of_closed closed) ih.atom, plainAtom_refuses closed⟩

/-- What is read as expressions begins as an expression can. -/
theorem opensExpression_of_testList {n : Nat} {e : Expr}
    (read : testList (.over (nested n)) ts = .ok (e, rest)) :
    (headLexeme ts).opensExpression = true := by
  refine (Bool.not_eq_false _).mp fun closed => ?_
  have refuses : Refuses (testList (.over (nested n))) (headLexeme ts) :=
    testList_refuses (precedesOperand_of_closed closed) (nested_refuses n closed).test
  obtain ⟨e', failed⟩ := refuses ts rfl
  cases read.symm.trans failed

end ConceptForest.Script
