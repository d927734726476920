import ConceptForest.Concept.Representation
import ConceptForest.Grammar.Program.Parser
import ConceptForest.Proofs.Grammar.Places
import Mathlib

/-!
Typing a rendered text again.

A text is rendered as it is, or as a phrase if it has blanks. Typed behind a command, it is read as
one word or one phrase with that text (`Retypes`) exactly if nothing in it ends a word, or nothing
in it closes the phrase and no blanks are trimmed off (`ReadsBack`).

* `retypes_exact` — which texts those are; the texts of words are among them.
* `not_retypes_bracket` — a phrase can have a text that is not.
-/

namespace ConceptForest.Grammar

open ConceptForest.Text

/-- Typed behind a command, the rendered text is read as a single word or phrase with that text. -/
def Retypes (text : String) : Prop :=
  ∃ ts lexeme, tokens (":c " ++ renderToken text) = .ok ts ∧
    ts.map Token.lexeme = [.command "c", lexeme, .endOfInput] ∧
      (lexeme = .word text ∨ lexeme = .phrase text)

/-- With blanks in the text, there are none on its two sides, and no two closing brackets stand in a
row when one more is put behind it; without blanks, it is not empty and has none of the marks that
end a word. -/
def ReadsBack (text : List Char) : Prop :=
  if text.any isBlank then trim text = text ∧ ¬ [']', ']'] <:+: text ++ [']']
  else text ≠ [] ∧ (∀ c ∈ text, c ≠ '[' ∧ c ≠ ']' ∧ c ≠ ';' ∧ c ≠ '"') ∧ ¬ fenceMark <:+: text

instance (text : List Char) : Decidable (ReadsBack text) := by
  unfold ReadsBack
  infer_instance

variable {depth : Nat} {atStart : Bool} {p : Position} {c : Char}
  {cs gap text rest body : List Char} {lexeme : Lexeme} {ts : List Token}

/-! ### What ends a text -/

/-- A phrase is closed behind its text if the brackets do not stand in it, nor begin with its last
character. -/
theorem closedBy_brackets_iff : ClosedBy [']', ']'] body ↔ ¬ [']', ']'] <:+: body ++ [']'] := by
  have split : body ++ [']', ']'] = body ++ [']'] ++ [']'] := by simp
  constructor
  · rintro closed ⟨before, after, same⟩
    have nothing := closed before (after ++ [']']) (by rw [split, ← same]; simp)
    simp at nothing
  · intro none before after same
    by_contra some
    obtain ⟨others, last, rfl⟩ := List.eq_nil_or_concat after |>.resolve_left some
    refine none ⟨before, others, ?_⟩
    rw [split, List.concat_eq_append, ← List.append_assoc] at same
    exact (List.append_inj' same rfl).1.symm

/-- Where no word ends, there is no blank, none of the marks that end one, and no fence. -/
theorem readsBack_of_unbroken (some : text ≠ []) (unbroken : Unbroken text rest) :
    ReadsBack text := by
  have each : ∀ before c after, text = before ++ c :: after →
      endsWord (c :: (after ++ rest)) = false := fun before c after same =>
    unbroken before (c :: after) same (List.cons_ne_nil _ _)
  have plain : text.any isBlank = false := by
    rw [List.any_eq_false]
    intro c mem
    obtain ⟨before, after, same⟩ := List.append_of_mem mem
    simp [(endsWord_cons.mp (each before c after same)).1]
  rw [ReadsBack, if_neg (by simp [plain])]
  refine ⟨some, ?_, ?_⟩
  · intro c mem
    obtain ⟨before, after, same⟩ := List.append_of_mem mem
    obtain ⟨-, opening, closing, semicolon, quote, -⟩ := endsWord_cons.mp (each before c after same)
    exact ⟨opening, closing, semicolon, quote⟩
  · rintro ⟨before, after, same⟩
    have here : text = before ++ '`' :: (['`', '`'] ++ after) := by
      rw [← same]
      simp [fenceMark]
    obtain ⟨-, -, -, -, -, fence⟩ := endsWord_cons.mp (each before '`' _ here)
    exact fence ⟨after ++ rest, by simp [fenceMark]⟩

/-- A text without any of that is a word up to its end. -/
theorem unbroken_of_readsBack (plain : text.any isBlank = false) (reads : ReadsBack text) :
    Unbroken text [] := by
  rw [ReadsBack, if_neg (by simp [plain])] at reads
  obtain ⟨-, marks, fence⟩ := reads
  rintro before after rfl some
  obtain ⟨c, after, rfl⟩ := List.exists_cons_of_ne_nil some
  have mem : c ∈ before ++ c :: after := by simp
  obtain ⟨opening, closing, semicolon, quote⟩ := marks c mem
  rw [List.append_nil]
  refine endsWord_cons.mpr ⟨?_, opening, closing, semicolon, quote, ?_⟩
  · simpa using List.any_eq_false.mp plain c mem
  · intro here
    exact fence (here.isInfix.trans (List.suffix_append before _).isInfix)

/-! ### One lexeme and the end -/

/-- Only a gap has no tokens in front of the end. -/
theorem isGap_of_tokensFrom (read : tokensFrom depth atStart p cs = .ok ts)
    (ended : ts.map Token.lexeme = [.endOfInput]) : IsGap depth cs := by
  rcases gap_cases depth cs with whole | ⟨gap, c, rest, rfl, whole, visible⟩
  · exact whole
  · cases scanned : scan atStart c rest with
    | error enclosure => cases (tokensFrom_error whole visible scanned).symm.trans read
    | ok s =>
      rw [tokensFrom_scan whole visible scanned] at read
      obtain ⟨others, -, read⟩ := bind_eq_ok_iff.mp read
      obtain ⟨⟩ := read
      have written := writtenAs_of_scan (eq_of_isGap_eq_false visible) scanned
      exact absurd (List.cons.inj ended).1 written.ne_endOfInput

/-- A text is read as one lexeme if the scan behind its gap reads that lexeme and leaves a gap. -/
theorem exists_tokensFrom_iff (whole : IsGap depth gap) (visible : isGap depth c = false) :
    (∃ ts, tokensFrom depth atStart p (gap ++ c :: cs) = .ok ts ∧
      ts.map Token.lexeme = [lexeme, .endOfInput]) ↔
      ∃ source rest, lexeme.WrittenAs atStart source rest ∧ source ++ rest = c :: cs ∧
        IsGap (lexeme.depthAfter depth) rest := by
  constructor
  · rintro ⟨ts, read, same⟩
    cases scanned : scan atStart c cs with
    | error enclosure => cases (tokensFrom_error whole visible scanned).symm.trans read
    | ok s =>
      rw [tokensFrom_scan whole visible scanned] at read
      obtain ⟨others, behind, read⟩ := bind_eq_ok_iff.mp read
      obtain ⟨⟩ := read
      obtain ⟨rfl, ended⟩ := List.cons.inj same
      obtain ⟨written, cut⟩ := (scan_eq_ok_iff (eq_of_isGap_eq_false visible)).mp scanned
      exact ⟨s.source, s.rest, written, cut, isGap_of_tokensFrom behind ended⟩
  · rintro ⟨source, rest, written, cut, ended⟩
    have scanned := scan_of_writtenAs written cut
    have read : tokensFrom depth atStart p (gap ++ c :: cs) =
        .ok [⟨lexeme, p.after gap⟩, ⟨.endOfInput, ((p.after gap).after source).after rest⟩] := by
      rw [tokensFrom_scan whole visible scanned, tokensFrom_gap ended]
      rfl
    exact ⟨_, read, rfl⟩

/-! ### Behind a command -/

/-- What stands behind a command and a blank is read behind its token. -/
theorem exists_tokens_iff {typed : String} :
    (∃ ts, tokens (":c " ++ typed) = .ok ts ∧
      ts.map Token.lexeme = [.command "c", lexeme, .endOfInput]) ↔
      ∃ ts, tokensFrom 0 false ⟨1, 3⟩ ([' '] ++ typed.toList) = .ok ts ∧
        ts.map Token.lexeme = [lexeme, .endOfInput] := by
  have read : tokens (":c " ++ typed) = (do
      let ts ← tokensFrom 0 false ⟨1, 3⟩ ([' '] ++ typed.toList)
      return ⟨.command "c", ⟨1, 1⟩⟩ :: ts) := by
    have first : tokens (":c " ++ typed) =
        tokensFrom 0 true .start ([] ++ ':' :: 'c' :: ' ' :: typed.toList) := by
      rw [tokens, String.toList_append]
      rfl
    have scanned : scan true ':' ('c' :: ' ' :: typed.toList) =
        .ok ⟨.command "c", [':', 'c'], ' ' :: typed.toList⟩ := rfl
    have none : IsGap 0 [] := fun c mem => absurd mem List.not_mem_nil
    rw [first, tokensFrom_scan none rfl scanned]
    rfl
  rw [read]
  constructor
  · rintro ⟨ts, read, same⟩
    obtain ⟨others, behind, read⟩ := bind_eq_ok_iff.mp read
    obtain ⟨⟩ := read
    exact ⟨others, behind, (List.cons.inj same).2⟩
  · rintro ⟨ts, behind, same⟩
    refine ⟨⟨.command "c", ⟨1, 1⟩⟩ :: ts, ?_, congrArg (Lexeme.command "c" :: ·) same⟩
    rw [behind]
    rfl

/-! ### Rendered texts -/

theorem retypes_iff_exists {text : String} :
    Retypes text ↔ ∃ lexeme, (lexeme = .word text ∨ lexeme = .phrase text) ∧
      ∃ ts, tokensFrom 0 false ⟨1, 3⟩ ([' '] ++ (renderToken text).toList) = .ok ts ∧
        ts.map Token.lexeme = [lexeme, .endOfInput] := by
  simp only [← exists_tokens_iff]
  constructor
  · rintro ⟨ts, lexeme, read, same, either⟩
    exact ⟨lexeme, either, ts, read, same⟩
  · rintro ⟨lexeme, either, ts, read, same⟩
    exact ⟨ts, lexeme, read, same, either⟩

theorem isGap_space : IsGap 0 [' '] :=
  fun _ mem => List.mem_singleton.mp mem ▸ rfl

theorem length_trim_le (cs : List Char) : (trim cs).length ≤ cs.length := by
  unfold trim trimEnd trimStart
  rw [List.length_reverse]
  exact ((List.dropWhile_suffix _).length_le.trans_eq List.length_reverse).trans
    (List.dropWhile_suffix _).length_le

/-- A text with blanks is read as a phrase, and comes back if the phrase is not closed before its
end and nothing is trimmed off. -/
theorem retypes_of_blank {text : String} (blank : text.toList.any isBlank = true) :
    Retypes text ↔ ReadsBack text.toList := by
  have rendered : (renderToken text).toList = '[' :: '[' :: (text.toList ++ [']', ']']) := by
    simp [renderToken, blank, String.toList_append]
  rw [retypes_iff_exists, rendered, ReadsBack, if_pos blank, ← closedBy_brackets_iff]
  simp only [exists_tokensFrom_iff isGap_space (rfl : isGap 0 '[' = false)]
  constructor
  · rintro ⟨lexeme, either, source, rest, written, cut, ended⟩
    cases written with
    | separator _ => simp at either
    | openBlock _ => simp at either
    | closeBlock => simp at either
    | quotation _ _ => simp at either
    | snippet _ _ _ => simp at either
    | command start _ _ _ => cases start
    | @word w _ some unbroken _ _ =>
      obtain ⟨d, w, rfl⟩ := List.exists_cons_of_ne_nil some
      obtain ⟨rfl, -⟩ := List.cons.inj cut
      exact absurd (unbroken_cons.mp unbroken).1 (by simp [endsWord])
    | @phrase body _ closed =>
      have same : body ++ ([']', ']'] ++ rest) = text.toList ++ [']', ']'] := by
        simpa using cut
      -- behind the closing brackets there is no bracket any more
      have nothing : rest = [] := by
        by_contra some
        have last : rest.getLast? = Option.some ']' := by
          rw [← List.getLast?_append_of_ne_nil [']', ']'] some,
            ← List.getLast?_append_of_ne_nil body (by simp), same]
          simp
        cases ended _ (List.mem_of_getLast? last)
      subst nothing
      obtain ⟨rfl, -⟩ := List.append_inj' same rfl
      have trimmed : String.ofList (trim text.toList) = text := by simpa using either
      have trimmed := congrArg String.toList trimmed
      rw [String.toList_ofList] at trimmed
      exact ⟨trimmed, closed⟩
  · rintro ⟨trimmed, closed⟩
    refine ⟨.phrase text, .inr rfl, '[' :: '[' :: text.toList ++ [']', ']'], [], ?_, by simp,
      List.forall_mem_nil _⟩
    have written : Lexeme.WrittenAs false _ _ [] := .phrase closed
    rwa [trimmed, String.ofList_toList] at written

/-- A text without blanks is read as a word, and comes back if no word ends in it. -/
theorem retypes_of_plain {text : String} (plain : text.toList.any isBlank = false) :
    Retypes text ↔ ReadsBack text.toList := by
  have rendered : (renderToken text).toList = text.toList := by simp [renderToken, plain]
  rw [retypes_iff_exists, rendered]
  cases chars : text.toList with
  | nil =>
    have nothing : ¬ ReadsBack [] := by simp [ReadsBack]
    refine iff_of_false ?_ nothing
    rintro ⟨lexeme, -, ts, read, same⟩
    rw [List.append_nil, tokensFrom_gap isGap_space] at read
    obtain ⟨⟩ := read
    cases same
  | cons c cs =>
    rw [chars] at plain
    have seen : ∀ d ∈ c :: cs, isBlank d = false := fun d mem => by
      simpa using List.any_eq_false.mp plain d mem
    have visible : isGap 0 c = false := by simp [isGap, seen c List.mem_cons_self]
    simp only [exists_tokensFrom_iff isGap_space visible]
    constructor
    · rintro ⟨lexeme, either, source, rest, written, cut, ended⟩
      have nothing : rest = [] := by
        by_contra some
        have mem : rest.head some ∈ c :: cs := cut ▸ List.mem_append_right _ (List.head_mem some)
        have gap := isBlank_of_isGap (ended _ (List.head_mem some))
        exact absurd gap (by simp [seen _ mem])
      subst nothing
      rw [List.append_nil] at cut
      cases written with
      | separator _ => simp at either
      | openBlock _ => simp at either
      | closeBlock => simp at either
      | quotation _ _ => simp at either
      | snippet _ _ _ => simp at either
      | command start _ _ _ => cases start
      | word some unbroken _ _ => exact cut ▸ readsBack_of_unbroken some unbroken
      | @phrase body _ _ =>
        -- a phrase is longer than its text
        have same : String.ofList (trim body) = text := by simpa using either
        have same := congrArg String.toList same
        rw [String.toList_ofList, chars, ← cut] at same
        have shorter := length_trim_le body
        rw [same] at shorter
        simp at shorter
        omega
    · intro reads
      have unbroken := unbroken_of_readsBack plain reads
      refine ⟨.word text, .inl rfl, c :: cs, [], ?_, List.append_nil _,
        List.forall_mem_nil _⟩
      have written : Lexeme.WrittenAs false _ (c :: cs) [] :=
        .word (List.cons_ne_nil c cs) unbroken rfl fun first => absurd first Bool.false_ne_true
      rwa [← chars, String.ofList_toList, chars] at written

theorem retypes_iff {text : String} : Retypes text ↔ ReadsBack text.toList := by
  cases blank : text.toList.any isBlank with
  | true => exact retypes_of_blank blank
  | false => exact retypes_of_plain blank

/-! ### Texts of words -/

theorem Cuts.writtenAs_of_mem {os : List Occurrence} (cuts : Cuts rest depth atStart os) :
    ∀ o ∈ os, ∃ atStart rest, o.lexeme.WrittenAs atStart o.source rest := by
  induction cuts with
  | nil => nofun
  | cons _ _ written _ ih => exact List.forall_mem_cons.mpr ⟨⟨_, _, written⟩, ih⟩

theorem Lexeme.WrittenAs.readsBack {text : String} {source : List Char}
    (written : (Lexeme.word text).WrittenAs atStart source rest) : ReadsBack text.toList := by
  cases written with
  | word some unbroken _ _ =>
    rw [String.toList_ofList]
    exact readsBack_of_unbroken some unbroken

/-- The text of a word reads back, wherever the word stands. -/
theorem readsBack_of_mem {input text : String} (read : tokens input = .ok ts) {t : Token}
    (mem : t ∈ ts) (word : t.lexeme = .word text) : ReadsBack text.toList := by
  obtain ⟨os, last, -, cuts, -, rfl⟩ := tokens_eq_ok_iff.mp read
  rcases List.mem_append.mp mem with mem | mem
  · have listed := List.mem_map_of_mem (f := Token.lexeme) mem
    rw [map_lexeme_tokensOf] at listed
    obtain ⟨o, inside, same⟩ := List.mem_map.mp listed
    obtain ⟨start, behind, written⟩ := cuts.writtenAs_of_mem o inside
    rw [same, word] at written
    exact written.readsBack
  · obtain rfl := List.mem_singleton.mp mem
    cases word

/-- All about typing a rendered text again: when it comes back as the one argument that it is
rendered as, and that it does if it is the text of any word that was ever read. -/
theorem retypes_exact (text : String) :
    (Retypes text ↔ ReadsBack text.toList) ∧
      ∀ input ts, tokens input = .ok ts → ∀ t ∈ ts, t.lexeme = .word text → Retypes text :=
  ⟨retypes_iff, fun _ _ read _ mem word => retypes_iff.mpr (readsBack_of_mem read mem word)⟩

/-- A phrase with a single bracket in it comes back, and so does a word with fewer than three
backquotes in a row. -/
theorem retypes_exact_backquotes :
    Retypes "a ] b" ∧ ∃ ts, tokens "x [[a]] b``:" = .ok ts ∧ Retypes "b``:" := by
  refine ⟨(retypes_exact _).1.mpr (by decide +kernel), _, by with_unfolding_all rfl, ?_⟩
  exact (retypes_exact _).2 "x [[a]] b``:" _ (by with_unfolding_all rfl)
    ⟨.word "b``:", ⟨1, 9⟩⟩ (by decide) rfl

/-- The text of this phrase ends with a bracket, which closes the phrase too early when the text is
typed again. -/
theorem not_retypes_bracket :
    Program.parse "[[a ] ]]" = .ok ⟨[.statement [.token "a ]"]]⟩ ∧ ¬ Retypes "a ]" := by
  refine ⟨by with_unfolding_all rfl, ?_⟩
  rintro ⟨ts, lexeme, read, same, -⟩
  have read' : tokens (":c " ++ renderToken "a ]") = .ok [⟨.command "c", ⟨1, 1⟩⟩,
      ⟨.phrase "a", ⟨1, 4⟩⟩, ⟨.closeBlock, ⟨1, 10⟩⟩, ⟨.endOfInput, ⟨1, 11⟩⟩] := by
    with_unfolding_all rfl
  obtain rfl := Except.ok.inj (read'.symm.trans read)
  cases same

end ConceptForest.Grammar
