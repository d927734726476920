import ConceptForest.Proofs.Grammar.Sources
import ConceptForest.Proofs.Steps
import Mathlib.Data.List.Induction

/-!
How a text is cut up into tokens.

A text is made of gaps and of the source forms of tokens, one behind the other (`Cuts`), and the
place of a token is told by the line breaks in front of it and by the characters since the last of
them (`placeBehind`).

* `exists_cuts` — every text can be cut up, to its end or to an enclosure that nothing closes.
* `tokensFrom_textOf` — the reading follows the cutting, and goes on behind it.
* `tokens_exact` — so a text has the tokens that cut it up, or there is something unclosed in it.
-/

namespace ConceptForest.Grammar

open ConceptForest.Text

/-- A token where it occurs in a text: the gap in front of it, and what it is written as. -/
structure Occurrence where
  gap : List Char
  source : List Char
  lexeme : Lexeme

/-- The text that occurrences make up. -/
def textOf (os : List Occurrence) : List Char :=
  os.flatMap fun o => o.gap ++ o.source

/-- The number of brackets that are open behind occurrences. -/
def depthBehind (depth : Nat) (os : List Occurrence) : Nat :=
  (os.map Occurrence.lexeme).foldl Lexeme.depthAfter depth

/-- Does an expression begin behind occurrences? -/
def startsBehind (atStart : Bool) (os : List Occurrence) : Bool :=
  os.foldl (fun _ o => o.lexeme.endsExpression) atStart

/-- All of it is gap, while so many brackets are open. -/
def IsGap (depth : Nat) (gap : List Char) : Prop :=
  ∀ c ∈ gap, isGap depth c = true

/-- The occurrences cut up a text, up to what is left of it: in front of each token is all that is
gap, and the token is what is written there. -/
inductive Cuts (rest : List Char) : Nat → Bool → List Occurrence → Prop where
  | nil {depth : Nat} {atStart : Bool} : Cuts rest depth atStart []
  | cons {depth : Nat} {atStart : Bool} {o : Occurrence} {os : List Occurrence}
    (gap : IsGap depth o.gap) (visible : ∀ c ∈ o.source.head?, isGap depth c = false)
    (written : o.lexeme.WrittenAs atStart o.source (textOf os ++ rest))
    (more : Cuts rest (o.lexeme.depthAfter depth) o.lexeme.endsExpression os) :
    Cuts rest depth atStart (o :: os)

/-- The place behind some text: a line further for each line break in it, and a column further for
each character since the last of these. -/
def placeBehind (before : List Char) : Position where
  line := 1 + before.count '\n'
  column := 1 + (before.reverse.takeWhile (· != '\n')).length

/-- The tokens of occurrences, each at the place behind all in front of it. -/
def tokensOf (before : List Char) : List Occurrence → List Token
  | [] => []
  | o :: os =>
    ⟨o.lexeme, placeBehind (before ++ o.gap)⟩ :: tokensOf (before ++ o.gap ++ o.source) os

variable {depth : Nat} {atStart : Bool} {before cs gap rest last : List Char} {c : Char}
  {o : Occurrence} {os : List Occurrence} {p : Position} {ts : List Token} {e : GrammarError}

theorem textOf_cons : textOf (o :: os) = o.gap ++ o.source ++ textOf os := rfl

theorem placeBehind_append : (placeBehind before).after cs = placeBehind (before ++ cs) := by
  induction cs using List.reverseRecOn with
  | nil => simp
  | append_singleton cs c ih =>
    rw [Position.after_append, ih, ← List.append_assoc]
    by_cases line : c = '\n'
    · simp [Position.advance, placeBehind, line, Nat.add_comm, Nat.add_assoc]
    · simp [Position.advance, placeBehind, line, Nat.add_comm, Nat.add_assoc]

theorem Lexeme.WrittenAs.source_ne_nil {lexeme : Lexeme} {source : List Char}
    (written : lexeme.WrittenAs atStart source rest) : source ≠ [] := by
  cases written with
  | word some => exact some
  | snippet => simp [fenceMark]
  | _ => simp

theorem Lexeme.WrittenAs.ne_endOfInput {lexeme : Lexeme} {source : List Char}
    (written : lexeme.WrittenAs atStart source rest) : lexeme ≠ .endOfInput := by
  cases written <;> nofun

theorem isBlank_of_isGap (inGap : isGap depth c = true) : isBlank c = true := by
  simp only [isGap, Bool.and_eq_true] at inGap
  exact inGap.1

/-- A character that is no gap is no blank, but perhaps a line break. -/
theorem eq_of_isGap_eq_false (visible : isGap depth c = false) (blank : isBlank c = true) :
    c = '\n' := by
  simp only [isGap, blank, Bool.true_and, Bool.not_eq_false', Bool.and_eq_true] at visible
  exact beq_iff_eq.mp visible.1

/-! ### One token behind another -/

/-- A gap goes up to the first character that can be seen. -/
theorem span_gap (cs : List Char) (whole : IsGap depth gap) (visible : isGap depth c = false) :
    (gap ++ c :: cs).takeWhile (isGap depth) = gap ∧
      (gap ++ c :: cs).dropWhile (isGap depth) = c :: cs :=
  span_append whole (by simpa using visible)

theorem tokensFrom_gap (whole : IsGap depth gap) :
    tokensFrom depth atStart p gap = .ok [⟨.endOfInput, p.after gap⟩] := by
  have front : gap.takeWhile (isGap depth) = gap := List.takeWhile_eq_self_iff.mpr whole
  have back : gap.dropWhile (isGap depth) = [] := List.dropWhile_eq_nil_iff.mpr whole
  rw [tokensFrom]
  split
  · rw [front]
  · next here => cases back.symm.trans here

theorem tokensFrom_scan (whole : IsGap depth gap) (visible : isGap depth c = false) {s : Scan}
    (read : scan atStart c cs = .ok s) :
    tokensFrom depth atStart p (gap ++ c :: cs) = (do
      let tokens ← tokensFrom (s.lexeme.depthAfter depth) s.lexeme.endsExpression
        ((p.after gap).after s.source) s.rest
      return ⟨s.lexeme, p.after gap⟩ :: tokens) := by
  obtain ⟨front, back⟩ := span_gap cs whole visible
  rw [tokensFrom]
  split
  · next here => cases back.symm.trans here
  · next here =>
    obtain ⟨rfl, rfl⟩ := List.cons.inj (back.symm.trans here)
    split
    · next refused => cases read.symm.trans refused
    · next read' =>
      obtain rfl := Except.ok.inj (read.symm.trans read')
      rw [front]

theorem tokensFrom_error (whole : IsGap depth gap) (visible : isGap depth c = false)
    {enclosure : Enclosure} (refused : scan atStart c cs = .error enclosure) :
    tokensFrom depth atStart p (gap ++ c :: cs) =
      .error (.unterminated enclosure (p.after gap)) := by
  obtain ⟨front, back⟩ := span_gap cs whole visible
  rw [tokensFrom]
  split
  · next here => cases back.symm.trans here
  · next here =>
    obtain ⟨rfl, rfl⟩ := List.cons.inj (back.symm.trans here)
    split
    · next refused' =>
      obtain rfl := Except.error.inj (refused.symm.trans refused')
      rw [front]
    · next read => cases refused.symm.trans read

/-- A text is all gap, or there is a character to be seen behind its gap. -/
theorem gap_cases (depth : Nat) (cs : List Char) :
    IsGap depth cs ∨
      ∃ gap c rest, cs = gap ++ c :: rest ∧ IsGap depth gap ∧ isGap depth c = false := by
  obtain ⟨inside, outside⟩ := mem_span (isGap depth) cs
  cases here : cs.dropWhile (isGap depth) with
  | nil => exact .inl (List.dropWhile_eq_nil_iff.mp here)
  | cons c rest =>
    refine .inr ⟨cs.takeWhile (isGap depth), c, rest, ?_, inside, outside c ?_⟩
    · rw [← here, List.takeWhile_append_dropWhile]
    · rw [here]
      rfl

/-! ### Cutting up a text -/

/-- Behind what has been cut up, the reading goes on. -/
theorem tokensFrom_textOf (cuts : Cuts rest depth atStart os) :
    tokensFrom depth atStart (placeBehind before) (textOf os ++ rest) = (do
      let tokens ← tokensFrom (depthBehind depth os) (startsBehind atStart os)
        (placeBehind (before ++ textOf os)) rest
      return tokensOf before os ++ tokens) := by
  induction cuts generalizing before with
  | nil =>
    simp only [textOf, List.flatMap_nil, List.append_nil, List.nil_append, tokensOf]
    exact (bind_pure _).symm
  | @cons depth atStart o os gap visible written more ih =>
    obtain ⟨c, source, nonempty⟩ := List.exists_cons_of_ne_nil written.source_ne_nil
    have first : isGap depth c = false := visible c (by simp [nonempty])
    have scanned : scan atStart c (source ++ (textOf os ++ rest)) = .ok _ :=
      scan_of_writtenAs written (by rw [nonempty]; rfl)
    have whole : textOf (o :: os) ++ rest = o.gap ++ c :: (source ++ (textOf os ++ rest)) := by
      rw [textOf_cons, nonempty]
      simp
    rw [whole, tokensFrom_scan gap first scanned, placeBehind_append, placeBehind_append, ih]
    simp only [bind_assoc, pure_bind, tokensOf, textOf_cons, List.append_assoc, List.cons_append]
    rfl

/-- A text that is cut up to its end has the tokens that cut it up. -/
theorem tokensFrom_of_ended (cuts : Cuts last depth atStart os)
    (ended : IsGap (depthBehind depth os) last) :
    tokensFrom depth atStart (placeBehind before) (textOf os ++ last) =
      .ok (tokensOf before os ++ [⟨.endOfInput, placeBehind (before ++ (textOf os ++ last))⟩]) := by
  rw [tokensFrom_textOf cuts, tokensFrom_gap ended, placeBehind_append, List.append_assoc]
  rfl

theorem isGap_of_unclosed {enclosure : Enclosure} (unclosed : Unclosed enclosure (c :: cs)) :
    isGap depth c = false := by
  generalize opens : c :: cs = text at unclosed
  cases unclosed with
  | phrase | quotation | snippet =>
    rw [(List.cons.inj opens).1]
    rfl

/-- A text in which an enclosure opens that nothing closes has no tokens. -/
theorem tokensFrom_of_unclosed {opening : List Char} {enclosure : Enclosure}
    (cuts : Cuts (gap ++ opening) depth atStart os) (whole : IsGap (depthBehind depth os) gap)
    (unclosed : Unclosed enclosure opening) :
    tokensFrom depth atStart (placeBehind before) (textOf os ++ (gap ++ opening)) =
      .error (.unterminated enclosure (placeBehind (before ++ textOf os ++ gap))) := by
  obtain ⟨c, inner, rfl⟩ : ∃ c inner, opening = c :: inner := by
    cases unclosed with
    | phrase | quotation | snippet => exact ⟨_, _, rfl⟩
  rw [tokensFrom_textOf cuts, tokensFrom_error whole (isGap_of_unclosed unclosed)
    (scan_eq_error_iff.mpr unclosed), placeBehind_append]
  rfl

/-- Every text can be cut up, to its end or to an enclosure that opens and that nothing closes. -/
theorem exists_cuts (depth : Nat) (atStart : Bool) (cs : List Char) :
    ∃ os rest, cs = textOf os ++ rest ∧ Cuts rest depth atStart os ∧
      (IsGap (depthBehind depth os) rest ∨ ∃ gap opening enclosure, rest = gap ++ opening ∧
        IsGap (depthBehind depth os) gap ∧ Unclosed enclosure opening) := by
  induction size : cs.length using Nat.strongRecOn generalizing depth atStart cs with
  | ind n ih =>
    rcases gap_cases depth cs with whole | ⟨gap, c, rest, rfl, whole, visible⟩
    · exact ⟨[], cs, rfl, .nil, .inl whole⟩
    · cases scanned : scan atStart c rest with
      | error enclosure =>
        exact ⟨[], _, rfl, .nil, .inr ⟨gap, _, enclosure, rfl, whole, scan_eq_error_iff.mp scanned⟩⟩
      | ok s =>
        obtain ⟨written, same⟩ := (scan_eq_ok_iff (eq_of_isGap_eq_false visible)).mp scanned
        have shorter := scan_rest_length_lt scanned
        rw [List.length_append] at size
        obtain ⟨os, last, behind, cuts, stops⟩ := ih s.rest.length (by omega)
          (s.lexeme.depthAfter depth) s.lexeme.endsExpression s.rest rfl
        have first : ∀ d ∈ s.source.head?, isGap depth d = false := by
          obtain ⟨d, source, nonempty⟩ := List.exists_cons_of_ne_nil written.source_ne_nil
          rw [nonempty] at same ⊢
          obtain ⟨rfl, -⟩ := List.cons.inj same
          simpa using visible
        refine ⟨⟨gap, s.source, s.lexeme⟩ :: os, last, ?_, .cons whole first ?_ cuts, stops⟩
        · rw [textOf_cons, ← same, behind]
          simp
        · rwa [← behind]

/-! ### Whole texts -/

theorem tokens_of_ended {input : String} (cut : input.toList = textOf os ++ last)
    (cuts : Cuts last 0 true os) (ended : IsGap (depthBehind 0 os) last) :
    tokens input = .ok (tokensOf [] os ++ [⟨.endOfInput, placeBehind input.toList⟩]) := by
  rw [cut]
  exact (congrArg (tokensFrom 0 true (placeBehind [])) cut).trans (tokensFrom_of_ended cuts ended)

theorem tokens_of_unclosed {input : String} {opening : List Char} {enclosure : Enclosure}
    (cut : input.toList = textOf os ++ (gap ++ opening)) (cuts : Cuts (gap ++ opening) 0 true os)
    (whole : IsGap (depthBehind 0 os) gap) (unclosed : Unclosed enclosure opening) :
    tokens input = .error (.unterminated enclosure (placeBehind (textOf os ++ gap))) :=
  (congrArg (tokensFrom 0 true (placeBehind [])) cut).trans
    (tokensFrom_of_unclosed cuts whole unclosed)

theorem Cuts.of_mem (cuts : Cuts rest depth atStart os) :
    ∀ o ∈ os, (∀ c ∈ o.gap, isBlank c = true) ∧ o.source ≠ [] ∧ o.lexeme ≠ .endOfInput := by
  induction cuts with
  | nil => nofun
  | cons gap _ written _ ih =>
    refine List.forall_mem_cons.mpr ⟨⟨?_, written.source_ne_nil, written.ne_endOfInput⟩, ih⟩
    intro c mem
    exact isBlank_of_isGap (gap c mem)

/-- A text has tokens exactly if it can be cut up to its end. -/
theorem tokens_eq_ok_iff {input : String} :
    tokens input = .ok ts ↔ ∃ os last, input.toList = textOf os ++ last ∧ Cuts last 0 true os ∧
      IsGap (depthBehind 0 os) last ∧
        ts = tokensOf [] os ++ [⟨.endOfInput, placeBehind input.toList⟩] := by
  constructor
  · intro read
    obtain ⟨os, rest, cut, cuts, ended | ⟨gap, opening, enclosure, rfl, whole, unclosed⟩⟩ :=
      exists_cuts 0 true input.toList
    · obtain rfl := Except.ok.inj (read.symm.trans (tokens_of_ended cut cuts ended))
      exact ⟨os, rest, cut, cuts, ended, rfl⟩
    · cases read.symm.trans (tokens_of_unclosed cut cuts whole unclosed)
  · rintro ⟨os, last, cut, cuts, ended, rfl⟩
    exact tokens_of_ended cut cuts ended

/-- It has none exactly if the cutting comes to an enclosure that opens and that nothing closes. -/
theorem tokens_eq_error_iff {input : String} :
    tokens input = .error e ↔ ∃ os gap opening enclosure,
      input.toList = textOf os ++ (gap ++ opening) ∧ Cuts (gap ++ opening) 0 true os ∧
        IsGap (depthBehind 0 os) gap ∧ Unclosed enclosure opening ∧
          e = .unterminated enclosure (placeBehind (textOf os ++ gap)) := by
  constructor
  · intro refused
    obtain ⟨os, rest, cut, cuts, ended | ⟨gap, opening, enclosure, rfl, whole, unclosed⟩⟩ :=
      exists_cuts 0 true input.toList
    · cases refused.symm.trans (tokens_of_ended cut cuts ended)
    · have refused' := tokens_of_unclosed cut cuts whole unclosed
      obtain rfl := Except.error.inj (refused.symm.trans refused')
      exact ⟨os, gap, opening, enclosure, cut, cuts, whole, unclosed, rfl⟩
  · rintro ⟨os, gap, opening, enclosure, cut, cuts, whole, unclosed, rfl⟩
    exact tokens_of_unclosed cut cuts whole unclosed

/-- All about the tokens of a text.

There are none exactly if the cutting comes to an enclosure that opens and that nothing closes, and
then this is the error, at the opening mark. Otherwise the text is made of blanks and of the source
forms of its tokens; each token is at the place where its source form begins, and the end of input
comes last and only there. Nothing else can go wrong: where a word is read there is one. -/
theorem tokens_exact (input : String) :
    (∀ e, tokens input = .error e ↔ ∃ os gap opening enclosure,
      input.toList = textOf os ++ (gap ++ opening) ∧ Cuts (gap ++ opening) 0 true os ∧
        IsGap (depthBehind 0 os) gap ∧ Unclosed enclosure opening ∧
          e = .unterminated enclosure (placeBehind (textOf os ++ gap))) ∧
      (∀ ts, tokens input = .ok ts ↔ ∃ os last,
        input.toList = textOf os ++ last ∧ Cuts last 0 true os ∧ IsGap (depthBehind 0 os) last ∧
          ts = tokensOf [] os ++ [⟨.endOfInput, placeBehind input.toList⟩]) ∧
      (∀ os rest, Cuts rest 0 true os → ∀ o ∈ os,
        (∀ c ∈ o.gap, isBlank c = true) ∧ o.source ≠ [] ∧ o.lexeme ≠ .endOfInput) ∧
      ∀ atStart c cs s word, (isBlank c = true → c = '\n') → scan atStart c cs = .ok s →
        s.lexeme = .word word → wordSpan (c :: cs) = (word.toList, s.rest) ∧ word.toList ≠ [] :=
  ⟨fun _ => tokens_eq_error_iff, fun _ => tokens_eq_ok_iff, fun _ _ cuts => cuts.of_mem,
    fun _ _ _ _ _ visible read is => wordSpan_of_scan visible read is⟩

/-- The phrase opens behind a line break; without its closing mark there are no tokens. -/
theorem tokens_exact_phrase :
    (∃ os gap opening enclosure, "a\n [[b".toList = textOf os ++ (gap ++ opening) ∧
      Unclosed enclosure opening ∧ enclosure = .phrase ∧
        placeBehind (textOf os ++ gap) = ⟨2, 2⟩) ∧
      (∃ os last, "a\n [[b]]".toList = textOf os ++ last ∧ (∀ o ∈ os, o.source ≠ []) ∧
        tokensOf [] os = [⟨.word "a", ⟨1, 1⟩⟩, ⟨.separator '\n', ⟨1, 2⟩⟩, ⟨.phrase "b", ⟨2, 2⟩⟩]) ∧
        wordSpan "a\n".toList = (['a'], ['\n']) := by
  have refused : tokens "a\n [[b" = .error (.unterminated .phrase ⟨2, 2⟩) := by
    with_unfolding_all rfl
  have read : tokens "a\n [[b]]" = .ok ([⟨.word "a", ⟨1, 1⟩⟩, ⟨.separator '\n', ⟨1, 2⟩⟩,
      ⟨.phrase "b", ⟨2, 2⟩⟩] ++ [⟨.endOfInput, ⟨2, 7⟩⟩]) := by with_unfolding_all rfl
  obtain ⟨of_error, -, -, of_word⟩ := tokens_exact "a\n [[b"
  obtain ⟨-, of_ok, of_mem, -⟩ := tokens_exact "a\n [[b]]"
  refine ⟨?_, ?_, (of_word true 'a' ['\n'] ⟨.word "a", ['a'], ['\n']⟩ "a" nofun rfl rfl).1⟩
  · obtain ⟨os, gap, opening, enclosure, cut, -, -, unclosed, same⟩ := (of_error _).mp refused
    obtain ⟨same, place⟩ := GrammarError.unterminated.inj same
    exact ⟨os, gap, opening, enclosure, cut, unclosed, same.symm, place.symm⟩
  · obtain ⟨os, last, cut, cuts, -, same⟩ := (of_ok _).mp read
    obtain ⟨same, -⟩ := List.append_inj' same rfl
    exact ⟨os, last, cut, fun o mem => (of_mem os last cuts o mem).2.1, same.symm⟩

end ConceptForest.Grammar
