import ConceptForest.Proofs.Script.Alone
import ConceptForest.Proofs.Script.Enclosing
import ConceptForest.Proofs.Script.Parallel.Expressions
import ConceptForest.Proofs.Script.Passing.Expressions

/-!
Expressions between commas, and the same in parentheses.

Where a list of expressions ends at the end of a line, the same tokens with a closing parenthesis
behind them are read alike: no rule for expressions goes on with either. And what is read up to a
closing parenthesis is what stands behind an opening one, as long as no name is bound on the fly.

* `parallel_closing` — the end of a line and a closing parenthesis.
* `parenthesized_of_testList` — an expression in parentheses.
-/

namespace ConceptForest.Script

open Reader

variable {ts us rest : List Token} {level : Level} {n : Nat} {e : Expr} {es : List Expr}
  {op : String}

/-! ### The end of a line and a closing parenthesis -/

/-- The lists show the same line, and behind it the one ends where the other goes on with a closing
parenthesis. -/
def Closing : Pairing := fun ts us =>
  ∃ line : List Lexeme, (∀ l ∈ line, l.isContent = true) ∧
    ts.map Token.lexeme = line ++ [.newline, .endOfInput] ∧
    us.map Token.lexeme = line ++ [.op ")", .newline, .endOfInput]

theorem headLexeme_of_lexemes {l : Lexeme} {ls : List Lexeme}
    (written : ts.map Token.lexeme = l :: ls) : headLexeme ts = l := by
  obtain ⟨p, us, rfl, -⟩ := cons_of_lexemes written
  rfl

/-- Either the line is at its end, or the same lexeme is at the front of both lists. -/
theorem Closing.step (paired : Closing ts us) :
    headLexeme ts = .newline ∧ us.map Token.lexeme = [.op ")", .newline, .endOfInput] ∨
      (headLexeme ts).isContent = true ∧ headLexeme us = headLexeme ts ∧
        Closing (ts.drop 1) (us.drop 1) := by
  obtain ⟨line, content, written, written'⟩ := paired
  cases line with
  | nil => exact .inl ⟨headLexeme_of_lexemes written, written'⟩
  | cons l line =>
    obtain ⟨first, others⟩ := List.forall_mem_cons.mp content
    obtain ⟨p, ts, rfl, further⟩ := cons_of_lexemes written
    obtain ⟨q, us, rfl, further'⟩ := cons_of_lexemes written'
    exact .inr ⟨first, rfl, line, others, further, further'⟩

theorem Closing.length (paired : Closing ts us) : us.length = ts.length + 1 := by
  obtain ⟨line, -, written, written'⟩ := paired
  have length := congrArg List.length written
  have length' := congrArg List.length written'
  simp only [List.length_map, List.length_append, List.length_cons, List.length_nil] at length length'
  omega

theorem parallel_closing : Parallel False Closing where
  head paired := by
    rcases paired.step with ⟨line, written⟩ | ⟨-, same, -⟩
    · exact .inr ⟨id, line, headLexeme_of_lexemes written⟩
    · exact .inl same
  drop paired content := by
    rcases paired.step with ⟨line, -⟩ | ⟨-, -, further⟩
    · rw [line] at content
      cases content
    · exact further
  shorter paired further := by
    have length := paired.length
    have length' := further.length
    omega

/-! ### Without bindings on the fly -/

/-- No name is bound on the fly. -/
def Bindless (us : List Token) : Prop := ∀ t ∈ us, t.lexeme ≠ .op ":="

theorem Bindless.drop (bindless : Bindless us) : Bindless (us.drop 1) :=
  fun t here => bindless t (List.mem_of_mem_drop here)

theorem Bindless.head (bindless : Bindless us) : headLexeme us ≠ .op ":=" := by
  cases us with
  | nil => nofun
  | cons t us => exact bindless t List.mem_cons_self

theorem eatOp_of_head (here : headLexeme us = .op op) : eatOp op us = .ok (true, us.drop 1) := by
  have asked : isOp op us = .ok (true, us) := by
    show Except.ok (headLexeme us == .op op, us) = _
    rw [here, beq_self_eq_true]
  rw [eatOp, eatIf, run_bind_of_ok asked]
  rfl

theorem namedTest_eq (bindless : Bindless us) : namedTest level us = level.test us := by
  rw [namedTest, run_bind_of_ok (rfl : peek us = .ok (headLexeme us, us))]
  cases headLexeme us with
  | name text =>
    have second : peekSecond us = .ok (headLexeme (us.drop 1), us) := rfl
    have other : (headLexeme (us.drop 1) == .op ":=") = false :=
      beq_eq_false_iff_ne.mpr bindless.drop.head
    dsimp only
    rw [run_bind_of_ok second, other, Bool.and_false]
    rfl
  | _ => rfl

theorem item_eq (bindless : Bindless us) :
    starOr level (namedTest level) us = starOr level level.test us := by
  by_cases star : headLexeme us = .op "*"
  · rw [starOr, starOr, run_bind_of_ok (eatOp_of_head star), run_bind_of_ok (eatOp_of_head star)]
    rfl
  · rw [starOr, starOr, (Declines.eatOp star).run_choose rfl, (Declines.eatOp star).run_choose rfl,
      namedTest_eq bindless]

/-! ### Expressions in parentheses -/

theorem atGenerator_declines {l : Lexeme} (sync : l ≠ .name "for") (async : l ≠ .name "async") :
    Declines atGenerator l := by
  intro us head
  rw [atGenerator, (Declines.isWord sync).run_choose head, (Declines.isWord async).run_choose head]
  rfl

/-- What is read is the front of the tokens, so no name is bound on the fly behind it either. -/
theorem Bindless.behind (sound : level.Fits n) (bindless : Bindless us)
    (read : starOr level level.test us = .ok (e, rest)) : Bindless rest := by
  have reads : Reads Anywhere (starOr level level.test) (Fits (n + 1)) :=
    starOr_fits sound (Nat.le_refl _) (sound.test.mono fun _ _ fits => fits.up (Nat.le_succ n))
  obtain ⟨passed, rfl, -⟩ := reads us e rest trivial read
  exact fun t here => bindless t (List.mem_append_right _ here)

/-- A comma is passed over, if there is one, and then a question is asked. -/
abbrev commaThen (asked : Reader Bool) : Reader Bool := do
  if ← eatOp "," then asked else return false

theorem commaThen_declines {asked : Reader Bool} {l : Lexeme} (other : l ≠ .op ",") :
    Declines (commaThen asked) l :=
  fun _ head => (Declines.eatOp other).run_choose head

/-- The items behind a first one are the same in parentheses: they stop where no item follows a
comma, and that is where the parenthesis is closed. -/
theorem items_closed (sound : level.Fits n) (bindless : Bindless us)
    (closed : headLexeme rest = .op ")")
    (read : manyWhile (commaThen startsExpression) (starOr level level.test) us = .ok (es, rest)) :
    manyWhile (commaThen do return !(← isOp ")")) (starOr level (namedTest level)) us =
      .ok (es, rest) := by
  induction size : us.length using Nat.strongRecOn generalizing us es with
  | ind length ih =>
    by_cases comma : headLexeme us = .op ","
    · have asked : commaThen startsExpression us =
          .ok ((headLexeme (us.drop 1)).opensExpression, us.drop 1) :=
        (run_bind_of_ok (eatOp_of_head comma)).trans (startsExpression_eq _)
      have asked' : commaThen (do return !(← isOp ")")) us =
          .ok (!(headLexeme (us.drop 1) == .op ")"), us.drop 1) :=
        run_bind_of_ok (eatOp_of_head comma)
      cases opens : (headLexeme (us.drop 1)).opensExpression with
      | false =>
        rw [opens] at asked
        obtain ⟨⟩ := (manyWhile_of_no asked).symm.trans read
        rw [closed] at asked'
        exact manyWhile_of_no asked'
      | true =>
        have other : (headLexeme (us.drop 1) == .op ")") = false := by
          refine beq_eq_false_iff_ne.mpr fun same => ?_
          rw [same] at opens
          cases opens
        rw [opens] at asked
        rw [other] at asked'
        obtain ⟨a, middle, others, rfl, item, further⟩ := cases_manyWhile asked read
        have item' := (item_eq bindless.drop).trans item
        rcases further with ⟨shorter, further⟩ | ⟨rfl, rfl⟩
        · have behind := ih middle.length (size ▸ shorter) (bindless.drop.behind sound item)
            further rfl
          exact manyWhile_of_yes asked' item' behind (.inl shorter)
        · have stop : manyWhile (commaThen do return !(← isOp ")"))
              (starOr level (namedTest level)) middle = .ok ([], middle) :=
            manyWhile_of_declines (commaThen_declines (by rw [closed]; decide))
          exact manyWhile_of_yes asked' item' stop (.inr ⟨rfl, rfl⟩)
    · have stop : manyWhile (commaThen startsExpression) (starOr level level.test) us =
          .ok ([], us) := manyWhile_of_declines (commaThen_declines comma)
      obtain ⟨⟩ := stop.symm.trans read
      exact manyWhile_of_declines (commaThen_declines comma)

/-- What is read up to a closing parenthesis is read behind an opening one. -/
theorem parenthesized_of_testList (sound : level.Fits n) (bindless : Bindless us)
    (opens : (headLexeme us).opensExpression = true) (closed : headLexeme rest = .op ")")
    (read : testList level us = .ok (e, rest)) :
    parenthesized level us = .ok (e, rest.drop 1) := by
  have notClosed : headLexeme us ≠ .op ")" := by
    rintro same
    rw [same] at opens
    cases opens
  have noYield : headLexeme us ≠ .name "yield" := by
    rintro same
    rw [same] at opens
    cases opens
  have close : expectOp ")" rest = .ok ((), rest.drop 1) := by
    rw [expectOp, run_bind_of_ok (eatOp_of_head closed)]
    rfl
  obtain ⟨⟨first, middle⟩, item, read⟩ := bind_eq_ok_iff.mp read
  rw [parenthesized, (Declines.eatOp notClosed).run_choose rfl,
    (Declines.isWord noYield).run_choose rfl, run_bind_of_ok ((item_eq bindless).trans item)]
  by_cases comma : headLexeme middle = .op ","
  · have here : isOp "," middle = .ok (true, middle) := by
      show Except.ok (headLexeme middle == .op ",", middle) = _
      rw [comma, beq_self_eq_true]
    dsimp only at read
    rw [run_bind_of_ok here, if_pos rfl] at read
    obtain ⟨⟨others, left⟩, items, found⟩ := bind_eq_ok_iff.mp read
    obtain ⟨⟩ := found
    have tail : sequenceTail level first ")" middle = .ok (first :: others, rest.drop 1) := by
      rw [sequenceTail, run_bind_of_ok (items_closed sound (bindless.behind sound item) closed items),
        run_bind_of_ok close]
      rfl
    rw [(atGenerator_declines (by rw [comma]; nofun) (by rw [comma]; nofun)).run_choose rfl,
      run_bind_of_ok here, if_pos rfl, run_bind_of_ok tail]
    rfl
  · dsimp only at read
    rw [(Declines.isOp comma).run_choose rfl] at read
    obtain ⟨⟩ := read
    rw [(atGenerator_declines (by rw [closed]; nofun) (by rw [closed]; nofun)).run_choose rfl,
      (Declines.isOp comma).run_choose rfl, run_bind_of_ok close]
    rfl

/-- The atom that a parenthesis opens. -/
theorem plainAtom_parenthesis {p : Text.Position} :
    plainAtom level (⟨.op "(", p⟩ :: us) = parenthesized level us :=
  rfl

end ConceptForest.Script
