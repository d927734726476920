import ConceptForest.Proofs.Grammar.Places
import ConceptForest.Proofs.Grammar.Yields

/-!
Two texts with a separator between them.

A text that is accepted leaves no bracket open (`depthBehind_of_spellsProgram`), and no token reaches
over the separator behind it (`Lexeme.WrittenAs.append_separator`). So the tokens of both texts are
those of the joined one (`tokens_join`), which is the program of the first and then that of the
second (`parse_join`).
-/

namespace ConceptForest.Grammar

open ConceptForest.Text (Position)

/-- The character separates expressions wherever no bracket is open. -/
def IsSeparator (mark : Char) : Prop :=
  mark = '\n' ∨ mark = ';'

variable {mark : Char} {cs more rest source last last' : List Char} {atStart : Bool}
  {depth room : Nat} {os os' : List Occurrence} {t sep : Token} {ts us : List Token}
  {symbols : List Symbol} {e : Expression} {es es' : List Expression}

/-! ### No token reaches over a separator -/

theorem isGap_separator (separates : IsSeparator mark) : isGap 0 mark = false := by
  rcases separates with rfl | rfl <;> rfl

theorem endsWord_separator (separates : IsSeparator mark) (more : List Char) :
    endsWord (mark :: more) = true := by
  rcases separates with rfl | rfl <;> rfl

theorem isNameChar_separator (separates : IsSeparator mark) : isNameChar mark = false := by
  rcases separates with rfl | rfl <;> rfl

/-- A fence does not reach over a separator. -/
theorem fence_before_separator (separates : IsSeparator mark) :
    fenceMark <+: cs ++ mark :: more ↔ fenceMark <+: cs := by
  have unlike : mark ∉ fenceMark := by rcases separates with rfl | rfl <;> decide
  constructor
  · intro here
    rcases List.prefix_or_prefix_of_prefix here (List.prefix_append cs (mark :: more)) with
      within | beyond
    · exact within
    · -- a fence that is longer than the text in front of the separator has the separator in it
      obtain ⟨behind, same⟩ := beyond
      rw [← same, List.prefix_append_right_inj] at here
      cases behind with
      | nil => exact ⟨[], by simpa using same.symm⟩
      | cons c behind =>
        obtain ⟨rfl, -⟩ := List.cons_prefix_cons.mp here
        exact absurd (same ▸ List.mem_append_right cs List.mem_cons_self) unlike
  · intro here
    exact here.trans (List.prefix_append cs _)

theorem endsWord_before_separator (separates : IsSeparator mark) {c : Char} :
    endsWord (c :: (cs ++ mark :: more)) = endsWord (c :: cs) := by
  rw [Bool.eq_iff_iff, ← not_iff_not, Bool.not_eq_true, Bool.not_eq_true, endsWord_cons,
    endsWord_cons, ← List.cons_append, fence_before_separator separates]

/-- Nothing is introduced behind a separator that is not introduced without it. -/
theorem introduced_before_separator (separates : IsSeparator mark) (some : cs ≠ []) :
    Introduced (cs ++ mark :: more) ↔ Introduced cs := by
  obtain ⟨c, cs, rfl⟩ := List.exists_cons_of_ne_nil some
  cases cs with
  | nil =>
    have unlike : (mark.isAlpha || mark == '_') = false := by
      rcases separates with rfl | rfl <;> rfl
    constructor
    · rintro ⟨d, others, same, initial⟩
      obtain ⟨-, behind⟩ := List.cons.inj same
      obtain ⟨rfl, -⟩ := List.cons.inj behind
      cases unlike.symm.trans initial
    · rintro ⟨d, others, same, -⟩
      cases (List.cons.inj same).2
  | cons d others => simp [Introduced]

theorem head?_before_separator {p : Char → Prop} (separates : p mark)
    (whole : ∀ c ∈ cs.head?, p c) : ∀ c ∈ (cs ++ mark :: more).head?, p c := by
  cases cs with
  | nil => simpa using separates
  | cons c cs => exact whole

/-- What is written at the end of a text is written there in front of a separator, too. -/
theorem Lexeme.WrittenAs.append_separator {lexeme : Lexeme}
    (written : lexeme.WrittenAs atStart source rest) (separates : IsSeparator mark)
    (more : List Char) : lexeme.WrittenAs atStart source (rest ++ mark :: more) := by
  cases written with
  | separator either => exact .separator either
  | openBlock single =>
    refine .openBlock (head?_before_separator ?_ single)
    rcases separates with rfl | rfl <;> decide
  | closeBlock => exact .closeBlock
  | phrase closed => exact .phrase closed
  | quotation escaped closed => exact .quotation escaped closed
  | snippet tagged whole closed => exact .snippet tagged whole closed
  | command start introduced named whole =>
    refine .command start ?_ named
      (head?_before_separator (isNameChar_separator separates) whole)
    rw [← List.append_assoc, introduced_before_separator separates (by simp)]
    exact introduced
  | word some unbroken whole other =>
    refine .word some ?_ ?_ ?_
    · intro before after same nonempty
      obtain ⟨c, after, rfl⟩ := List.exists_cons_of_ne_nil nonempty
      rw [List.cons_append, ← List.append_assoc, endsWord_before_separator separates]
      exact unbroken before (c :: after) same nonempty
    · cases rest with
      | nil => exact endsWord_separator separates more
      | cons c rest => exact (endsWord_before_separator separates).trans whole
    · intro start
      rw [← List.append_assoc, introduced_before_separator separates (by simp [some])]
      exact other start

theorem Cuts.append_separator (cuts : Cuts rest depth atStart os) (separates : IsSeparator mark)
    (more : List Char) : Cuts (rest ++ mark :: more) depth atStart os := by
  induction cuts with
  | nil => exact .nil
  | cons gap visible written _ ih =>
    refine .cons gap visible ?_ ih
    rw [← List.append_assoc]
    exact written.append_separator separates more

/-- What is left of one text is cut up by another row of tokens. -/
theorem Cuts.append (cuts : Cuts (textOf os' ++ rest) depth atStart os)
    (others : Cuts rest (depthBehind depth os) (startsBehind atStart os) os') :
    Cuts rest depth atStart (os ++ os') := by
  generalize left : textOf os' ++ rest = behind at cuts
  induction cuts with
  | nil => exact others
  | cons gap visible written _ ih =>
    refine .cons gap visible ?_ (ih others)
    rw [List.append_eq, textOf_append, List.append_assoc, left]
    exact written

/-! ### What is accepted leaves no bracket open -/

/-- The number of brackets that are open behind tokens. -/
def depthBehindTokens (depth : Nat) (ts : List Token) : Nat :=
  (ts.map Token.lexeme).foldl Lexeme.depthAfter depth

theorem depthBehindTokens_append :
    depthBehindTokens depth (ts ++ us) = depthBehindTokens (depthBehindTokens depth ts) us := by
  simp [depthBehindTokens]

theorem depthBehindTokens_cons :
    depthBehindTokens depth (t :: ts) = depthBehindTokens (t.lexeme.depthAfter depth) ts := rfl

theorem depthBehindTokens_tokensOf {before : List Char} :
    depthBehindTokens depth (tokensOf before os) = depthBehind depth os := by
  rw [depthBehindTokens, depthBehind, map_lexeme_tokensOf]

theorem depthAfter_of_symbol? {s : Symbol} (alone : t.symbol? = some s) :
    t.lexeme.depthAfter depth = depth := by
  obtain ⟨lexeme, p⟩ := t
  cases lexeme <;> first | rfl | cases alone

theorem depthAfter_of_isEnd (ends : t.isEnd = true) : t.lexeme.depthAfter depth = depth := by
  rcases isEnd_iff.mp ends with ⟨mark, separates⟩ | ends
  · rw [separates]
    rfl
  · rw [ends]
    rfl

theorem depthBehind_of_spellsSymbols (spelled : SpellsSymbols room ts symbols) :
    depthBehindTokens depth ts = depth := by
  induction spelled generalizing depth with
  | nil => rfl
  | single alone _ ih => rw [depthBehindTokens_cons, depthAfter_of_symbol? alone, ih]
  | block opens closes _ _ _ inside more =>
    rw [List.cons_append, depthBehindTokens_cons, depthBehindTokens_append, inside,
      depthBehindTokens_cons, opens, closes]
    exact more

theorem depthBehind_of_spellsExpression (spelled : SpellsExpression ts e) :
    depthBehindTokens depth ts = depth := by
  cases spelled with
  | command calls spelled =>
    rw [depthBehindTokens_cons, calls]
    exact depthBehind_of_spellsSymbols spelled
  | snippet alone =>
    rw [depthBehindTokens_cons, alone]
    rfl
  | statement _ _ spelled => exact depthBehind_of_spellsSymbols spelled

/-- Every bracket of a program is closed in it. -/
theorem depthBehind_of_spellsProgram (spelled : SpellsProgram ts es) :
    depthBehindTokens depth ts = depth := by
  induction spelled with
  | finish ends => exact depthAfter_of_isEnd (isEnd_iff.mpr (.inr ends))
  | separator separates _ ih =>
    rw [depthBehindTokens_cons, depthAfter_of_isEnd (isEnd_iff.mpr (.inl ⟨_, separates⟩)), ih]
  | expression first _ _ ih =>
    rw [depthBehindTokens_append, depthBehind_of_spellsExpression first, ih]

/-! ### Joining -/

/-- A program goes on behind a separator that stands in place of its end of input. -/
theorem SpellsProgram.join (spelled : SpellsProgram (ts ++ [t]) es) (ends : t.lexeme = .endOfInput)
    (separates : sep.lexeme = .separator mark) (others : SpellsProgram us es') :
    SpellsProgram (ts ++ sep :: us) (es ++ es') := by
  generalize whole : ts ++ [t] = all at spelled
  induction spelled generalizing ts with
  | finish _ =>
    obtain ⟨rfl, -⟩ := List.append_eq_singleton_iff.mp whole |>.resolve_right (by simp)
    exact .separator separates others
  | separator separates' _ ih =>
    cases ts with
    | nil =>
      obtain ⟨rfl, -⟩ := List.cons.inj whole
      cases ends.symm.trans separates'
    | cons first ts =>
      obtain ⟨rfl, rest⟩ := List.cons.inj whole
      exact .separator separates' (ih rest)
  | @expression run rest last e es first ends' _ ih =>
    rcases List.eq_nil_or_concat rest with rfl | ⟨inner, u, rfl⟩
    · obtain ⟨rfl, same⟩ := List.append_inj' whole rfl
      have separated : sep.isEnd = true := isEnd_iff.mpr (.inl ⟨_, separates⟩)
      have end_only : [] ++ [t] = [last] := same
      exact .expression first separated (ih end_only)
    · have cut : ts ++ [t] = (run ++ last :: inner) ++ [u] := by simpa using whole
      obtain ⟨rfl, same⟩ := List.append_inj' cut rfl
      obtain ⟨rfl, -⟩ := List.cons.inj same
      rw [List.append_assoc, List.cons_append]
      have shorter : (last :: inner) ++ [t] = last :: inner.concat t := by simp
      exact .expression first ends' (ih shorter)

/-- The text of two texts that are cut up, with a separator between them. -/
theorem textOf_join :
    textOf (os ++ ⟨last, [mark], .separator mark⟩ :: os') =
      textOf os ++ last ++ mark :: textOf os' := by
  rw [textOf_append, textOf_cons]
  simp

/-- Two texts with a separator between them are cut up where each of them is, if the first of them
leaves no bracket open. -/
theorem Cuts.join (cuts : Cuts last 0 true os) (ended : IsGap 0 last)
    (closed : depthBehind 0 os = 0) (separates : IsSeparator mark)
    (others : Cuts last' 0 true os') :
    Cuts last' 0 true (os ++ ⟨last, [mark], .separator mark⟩ :: os') := by
  have before := cuts.append_separator separates (textOf os' ++ last')
  refine Cuts.append ?_ ?_
  · rwa [textOf_cons, List.append_assoc, List.append_assoc]
  · rw [closed]
    refine .cons ended ?_ (.separator separates) others
    rintro _ ⟨⟩
    exact isGap_separator separates

/-- The tokens of two texts with a separator between them are those of the first text, the separator
in place of its end of input, and those of the second text, which stands behind it. -/
theorem tokens_join {a b : String} {p : Position} (separates : IsSeparator mark)
    (first : tokens a = .ok (ts ++ [⟨.endOfInput, p⟩])) (closed : depthBehindTokens 0 ts = 0)
    (second : tokens b = .ok us) :
    tokens (a ++ mark.toString ++ b) = .ok (ts ++ ⟨.separator mark, p⟩ ::
      us.map (Token.relocate (placeBehind (a.toList ++ [mark])).shift)) := by
  obtain ⟨os, last, cut, cuts, ended, same⟩ := tokens_eq_ok_iff.mp first
  obtain ⟨os', last', cut', cuts', ended', rfl⟩ := tokens_eq_ok_iff.mp second
  obtain ⟨rfl, place⟩ := List.append_inj' same rfl
  obtain ⟨⟩ := place
  rw [depthBehindTokens_tokensOf] at closed
  have ended : IsGap 0 last := closed ▸ ended
  have joined := cuts.join ended closed separates cuts'
  have whole : (a ++ mark.toString ++ b).toList =
      textOf (os ++ ⟨last, [mark], .separator mark⟩ :: os') ++ last' := by
    rw [textOf_join, String.toList_append, String.toList_append, cut, cut']
    simp
  have depth : depthBehind 0 (os ++ ⟨last, [mark], .separator mark⟩ :: os') =
      depthBehind 0 os' := by
    rw [depthBehind_append, closed]
    rfl
  have behind : tokensOf (textOf os) (⟨last, [mark], .separator mark⟩ :: os') =
      ⟨.separator mark, placeBehind a.toList⟩ ::
        (tokensOf [] os').map (Token.relocate (placeBehind (a.toList ++ [mark])).shift) := by
    rw [← tokensOf_shift, List.append_nil, cut]
    rfl
  have finish : placeBehind (a ++ mark.toString ++ b).toList =
      (placeBehind (a.toList ++ [mark])).shift (placeBehind b.toList) := by
    rw [← placeBehind_shift, String.toList_append, String.toList_append]
    simp
  rw [tokens_of_ended whole joined (depth ▸ ended'), finish, tokensOf_append, List.nil_append,
    behind]
  simp [Token.relocate]

/-- Two texts that are accepted are accepted with a separator between them, too. The joined text is
the program of the first and then that of the second, with the places of the second counted on from
behind the separator. -/
theorem parse_join {a b : String} (separates : IsSeparator mark)
    (first : Program.parse a = .ok ⟨es⟩) (second : Program.parse b = .ok ⟨es'⟩) :
    Program.parse (a ++ mark.toString ++ b) =
      .ok ⟨es ++ es'.map (Expression.relocate (placeBehind (a.toList ++ [mark])).shift)⟩ := by
  obtain ⟨ts, lexed, -⟩ := bind_eq_ok_iff.mp first
  obtain ⟨us, lexed', -⟩ := bind_eq_ok_iff.mp second
  have spelled := (parse_eq_ok_iff lexed).mp first
  have spelled' := (parse_eq_ok_iff lexed').mp second
  obtain ⟨os, last, -, -, -, rfl⟩ := tokens_eq_ok_iff.mp lexed
  have closed : depthBehindTokens 0 (tokensOf [] os) = 0 := by
    have whole := @depthBehind_of_spellsProgram 0 _ _ spelled
    rwa [depthBehindTokens_append] at whole
  have joined := tokens_join separates lexed closed lexed'
  exact (parse_eq_ok_iff joined).mpr (spelled.join rfl rfl spelled'.relocate)

end ConceptForest.Grammar
