import ConceptForest.Grammar.Token.Lexer
import Mathlib.Data.List.Basic
import Mathlib.Data.List.TakeWhile

/-!
How tokens are written.

The source form of a lexeme (`Lexeme.WrittenAs`) is told apart from the scan that reads it: which
marks stand around a text, which of them is the closing one, and how far a word or a name goes. What
comes behind a lexeme belongs to its source form, as words and names go on as long as they can.

* `scan_eq_ok_iff` — a scan reads the source form of a lexeme, and every source form.
* `scan_eq_error_iff` — it is refused exactly where an enclosure opens that nothing closes
  (`Unclosed`).
-/

namespace ConceptForest.Grammar

open ConceptForest.Text

variable {mark cs body rest source text : List Char} {c : Char} {atStart : Bool}

/-! ### Marks -/

/-- The mark stands behind the text and nowhere before. -/
def ClosedBy (mark body : List Char) : Prop :=
  ∀ before after, body ++ mark = before ++ mark ++ after → after = []

theorem closedBy_nil : ClosedBy mark [] := by
  intro before after same
  have sizes := congrArg List.length same
  simp only [List.nil_append, List.length_append] at sizes
  exact List.length_eq_zero_iff.mp (by omega)

theorem closedBy_cons :
    ClosedBy mark (c :: body) ↔ ¬ mark <+: c :: (body ++ mark) ∧ ClosedBy mark body := by
  constructor
  · intro closed
    constructor
    · rintro ⟨after, same⟩
      obtain rfl := closed [] after same.symm
      have sizes := congrArg List.length same
      simp only [List.length_append, List.length_cons, List.length_nil] at sizes
      omega
    · intro before after same
      exact closed (c :: before) after (congrArg (c :: ·) same)
  · rintro ⟨later, closed⟩ before after same
    cases before with
    | nil => exact absurd ⟨after, same.symm⟩ later
    | cons d before => exact closed before after (List.cons.inj same).2

theorem isPrefixOf?_eq_none_iff : mark.isPrefixOf? cs = none ↔ ¬ mark <+: cs := by
  rw [Option.eq_none_iff_forall_ne_some]
  simp only [ne_eq, List.isPrefixOf?_eq_some_iff_append_eq]
  exact not_exists.symm

/-- A text is cut at the first place where the mark stands. -/
theorem breakOn_eq_some_iff (marked : mark ≠ []) :
    breakOn mark cs = some (body, rest) ↔ cs = body ++ mark ++ rest ∧ ClosedBy mark body := by
  constructor
  · intro cut
    refine ⟨(append_of_breakOn cut).symm, ?_⟩
    induction cs generalizing body with
    | nil => cases cut
    | cons c cs ih =>
      rw [breakOn] at cut
      split at cut
      · obtain ⟨⟩ := cut
        exact closedBy_nil
      · next other =>
        obtain ⟨⟨b, r⟩, cut, same⟩ := Option.map_eq_some_iff.mp cut
        obtain ⟨⟩ := same
        refine closedBy_cons.mpr ⟨?_, ih cut⟩
        intro here
        apply isPrefixOf?_eq_none_iff.mp other
        rw [← append_of_breakOn cut]
        exact here.trans (List.prefix_append (c :: (b ++ mark)) rest)
  · rintro ⟨rfl, closed⟩
    induction body with
    | nil =>
      obtain ⟨m, others, rfl⟩ := List.exists_cons_of_ne_nil marked
      have here : (m :: others).isPrefixOf? (m :: (others ++ rest)) = some rest := by simp
      simp only [List.nil_append, List.cons_append, breakOn, here]
    | cons c body ih =>
      obtain ⟨later, closed⟩ := closedBy_cons.mp closed
      have other : mark.isPrefixOf? (c :: (body ++ mark ++ rest)) = none := by
        rw [isPrefixOf?_eq_none_iff]
        intro here
        apply later
        exact List.prefix_of_prefix_length_le here (List.prefix_append (c :: (body ++ mark)) rest)
          (by simp only [List.length_cons, List.length_append]; omega)
      simp only [List.cons_append, breakOn, other, ih closed, Option.map_some]

theorem breakOn_eq_none_iff (marked : mark ≠ []) : breakOn mark cs = none ↔ ¬ mark <:+: cs := by
  induction cs with
  | nil => simpa [breakOn] using marked
  | cons c cs ih =>
    rw [breakOn, List.infix_cons_iff, not_or, ← isPrefixOf?_eq_none_iff, ← ih]
    cases mark.isPrefixOf? (c :: cs) <;> simp

/-! ### Quotations -/

/-- Every quotation mark stands right behind a backslash. -/
def Escaped (body : List Char) : Prop :=
  ∀ before after, body = before ++ '"' :: after → ['\\'] <:+ before

/-- The text without the backslashes in front of quotation marks. -/
def unescaped : List Char → List Char
  | '\\' :: '"' :: cs => '"' :: unescaped cs
  | c :: cs => c :: unescaped cs
  | [] => []

theorem escaped_nil : Escaped [] := by
  intro before after same
  simp at same

theorem not_escaped_mark : ¬ Escaped ('"' :: cs) := by
  intro escaped
  simpa using escaped [] cs rfl

theorem escaped_escape : Escaped ('\\' :: '"' :: cs) ↔ Escaped cs := by
  constructor
  · rintro escaped before after rfl
    simpa [List.suffix_cons_iff] using escaped ('\\' :: '"' :: before) after rfl
  · intro escaped before after same
    match before with
    | [] => cases same
    | [d] =>
      obtain ⟨rfl, -⟩ := List.cons.inj same
      exact List.suffix_rfl
    | d :: d' :: before =>
      have behind := escaped before after (List.cons.inj (List.cons.inj same).2).2
      exact behind.trans (List.suffix_append [d, d'] before)

/-- A character does not escape what follows if it is no backslash or no quotation mark follows. -/
theorem escaped_cons (plain : c ≠ '"') (other : ∀ others, c = '\\' → cs = '"' :: others → False) :
    Escaped (c :: cs) ↔ Escaped cs := by
  constructor
  · rintro escaped before after rfl
    rcases List.suffix_cons_iff.mp (escaped (c :: before) after rfl) with same | behind
    · obtain ⟨rfl, rfl⟩ := List.cons.inj same
      exact (other after rfl rfl).elim
    · exact behind
  · intro escaped before after same
    cases before with
    | nil => exact absurd (List.cons.inj same).1 plain
    | cons d before =>
      exact (escaped before after (List.cons.inj same).2).trans (List.suffix_cons d before)

/-- A quotation goes up to the first quotation mark without a backslash in front of it. -/
theorem quotationBody_eq_some_iff :
    quotationBody cs = some (text, source, rest) ↔
      ∃ body, source = body ++ ['"'] ∧ cs = source ++ rest ∧ Escaped body ∧
        ¬ ['\\'] <:+ body ∧ text = unescaped body := by
  constructor
  · intro read
    fun_induction quotationBody cs generalizing text source with
    | case1 => cases read
    | case2 cs =>
      obtain ⟨⟩ := read
      exact ⟨[], rfl, rfl, escaped_nil, by simp, rfl⟩
    | case3 cs ih =>
      obtain ⟨⟨t, s, r⟩, read, same⟩ := Option.map_eq_some_iff.mp read
      obtain ⟨⟩ := same
      obtain ⟨body, rfl, rfl, escaped, last, rfl⟩ := ih read
      refine ⟨'\\' :: '"' :: body, rfl, rfl, escaped_escape.mpr escaped, ?_, rfl⟩
      simpa [List.suffix_cons_iff] using last
    | case4 c cs plain other ih =>
      obtain ⟨⟨t, s, r⟩, read, same⟩ := Option.map_eq_some_iff.mp read
      obtain ⟨⟩ := same
      obtain ⟨body, rfl, rfl, escaped, last, rfl⟩ := ih read
      have inside : ∀ others, c = '\\' → body = '"' :: others → False := by
        rintro others escapes rfl
        exact other _ escapes rfl
      refine ⟨c :: body, rfl, rfl, (escaped_cons plain inside).mpr escaped, ?_,
        (unescaped.eq_2 c body inside).symm⟩
      intro ends
      rcases List.suffix_cons_iff.mp ends with same | ends
      · obtain ⟨rfl, rfl⟩ := List.cons.inj same
        exact other _ rfl rfl
      · exact last ends
  · rintro ⟨body, rfl, rfl, escaped, last, rfl⟩
    fun_induction unescaped body with
    | case1 cs ih =>
      simp only [List.suffix_cons_iff, not_or] at last
      have read := ih (escaped_escape.mp escaped) last.2.2
      simp only [List.cons_append, quotationBody, read, Option.map_some]
    | case2 c cs other ih =>
      have plain : c ≠ '"' := by
        rintro rfl
        exact not_escaped_mark escaped
      rw [List.suffix_cons_iff, not_or] at last
      have read := ih ((escaped_cons plain other).mp escaped) last.2
      have outside : ∀ others, c = '\\' → cs ++ ['"'] ++ rest = '"' :: others → False := by
        rintro others rfl same
        cases cs with
        | nil => exact last.1 rfl
        | cons d cs =>
          obtain ⟨rfl, -⟩ := List.cons.inj same
          exact other cs rfl rfl
      rw [List.cons_append, List.cons_append, quotationBody.eq_4 c _ plain outside, read]
      rfl
    | case3 => rfl

/-- Where every quotation mark is escaped, nothing closes a quotation. -/
theorem quotationBody_eq_none_iff : quotationBody cs = none ↔ Escaped cs := by
  fun_induction quotationBody cs with
  | case1 => simp [escaped_nil]
  | case2 cs => simp [not_escaped_mark]
  | case3 cs ih => rw [Option.map_eq_none_iff, ih, escaped_escape]
  | case4 c cs plain other ih => rw [Option.map_eq_none_iff, ih, escaped_cons plain other]

/-! ### Words and names -/

theorem mem_span (p : Char → Bool) (cs : List Char) :
    (∀ c ∈ cs.takeWhile p, p c = true) ∧ ∀ c ∈ (cs.dropWhile p).head?, p c = false := by
  constructor
  · intro c mem
    exact List.mem_takeWhile_imp mem
  · intro c head
    have behind := List.head?_dropWhile_not p cs
    rw [head] at behind
    exact behind

theorem span_append {p : Char → Bool} (inside : ∀ c ∈ text, p c = true)
    (outside : ∀ c ∈ rest.head?, p c = false) :
    (text ++ rest).takeWhile p = text ∧ (text ++ rest).dropWhile p = rest := by
  rw [List.takeWhile_append_of_pos inside, List.dropWhile_append_of_pos inside]
  cases rest with
  | nil => simp
  | cons d rest => simp [outside d rfl]

/-- No word ends inside the text, when this stands behind it. -/
def Unbroken (text rest : List Char) : Prop :=
  ∀ before after, text = before ++ after → after ≠ [] → endsWord (after ++ rest) = false

theorem unbroken_cons :
    Unbroken (c :: text) rest ↔ endsWord (c :: (text ++ rest)) = false ∧ Unbroken text rest := by
  constructor
  · intro unbroken
    refine ⟨unbroken [] (c :: text) rfl (List.cons_ne_nil _ _), ?_⟩
    intro before after same some
    exact unbroken (c :: before) after (congrArg (c :: ·) same) some
  · rintro ⟨here, unbroken⟩ before after same some
    cases before with
    | nil =>
      obtain rfl : c :: text = after := same
      exact here
    | cons d before => exact unbroken before after (List.cons.inj same).2 some

/-- A word goes on until one ends. -/
theorem wordSpan_eq_iff :
    wordSpan cs = (text, rest) ↔ cs = text ++ rest ∧ Unbroken text rest ∧ endsWord rest = true := by
  constructor
  · intro read
    fun_induction wordSpan cs generalizing text rest with
    | case1 =>
      obtain ⟨⟩ := read
      exact ⟨rfl, by simp [Unbroken], rfl⟩
    | case2 c cs ends =>
      obtain ⟨⟩ := read
      exact ⟨rfl, by simp [Unbroken], ends⟩
    | case3 c cs goes_on t r split ih =>
      obtain ⟨⟩ := read
      obtain ⟨rfl, unbroken, ends⟩ := ih split
      exact ⟨rfl, unbroken_cons.mpr ⟨by simpa using goes_on, unbroken⟩, ends⟩
  · rintro ⟨rfl, unbroken, ends⟩
    induction text with
    | nil =>
      cases rest with
      | nil => rfl
      | cons c rest => simp [wordSpan, ends]
    | cons c text ih =>
      obtain ⟨here, unbroken⟩ := unbroken_cons.mp unbroken
      simp [wordSpan, here, ih unbroken]

/-! ### Source forms -/

/-- A command is introduced here: by a colon in front of a letter or an underscore. -/
def Introduced (cs : List Char) : Prop :=
  ∃ d others, cs = ':' :: d :: others ∧ (d.isAlpha || d == '_') = true

/-- The lexeme is written as `source` in front of `rest`; `atStart` says that an expression begins
there. Nothing is written as the end of input. -/
inductive Lexeme.WrittenAs (atStart : Bool) : Lexeme → List Char → List Char → Prop where
  | separator {mark : Char} {rest : List Char} (either : mark = '\n' ∨ mark = ';') :
    WrittenAs atStart (.separator mark) [mark] rest
  | openBlock {rest : List Char} (single : ∀ c ∈ rest.head?, c ≠ '[') :
    WrittenAs atStart .openBlock ['['] rest
  | closeBlock {rest : List Char} : WrittenAs atStart .closeBlock [']'] rest
  | phrase {body rest : List Char} (closed : ClosedBy [']', ']'] body) :
    WrittenAs atStart (.phrase (String.ofList (trim body))) ('[' :: '[' :: body ++ [']', ']']) rest
  | quotation {body rest : List Char} (escaped : Escaped body) (closed : ¬ ['\\'] <:+ body) :
    WrittenAs atStart (.quotation (String.ofList (unescaped body))) ('"' :: body ++ ['"']) rest
  | snippet {tag body rest : List Char} (tagged : ∀ c ∈ tag, isTagChar c = true)
    (whole : ∀ c ∈ body.head?, isTagChar c = false) (closed : ClosedBy fenceMark body) :
    WrittenAs atStart
      (.snippet (if tag.isEmpty then none else some (String.ofList tag))
        (String.ofList (FencedBody.normalize body)))
      (fenceMark ++ tag ++ body ++ fenceMark) rest
  | command {name rest : List Char} (start : atStart = true)
    (introduced : Introduced (':' :: name ++ rest)) (named : ∀ c ∈ name, isNameChar c = true)
    (whole : ∀ c ∈ rest.head?, isNameChar c = false) :
    WrittenAs atStart (.command (String.ofList name)) (':' :: name) rest
  | word {text rest : List Char} (some : text ≠ []) (unbroken : Unbroken text rest)
    (whole : endsWord rest = true) (other : atStart = true → ¬ Introduced (text ++ rest)) :
    WrittenAs atStart (.word (String.ofList text)) text rest

/-- An enclosure opens here, and its closing mark is missing. -/
inductive Unclosed : Enclosure → List Char → Prop where
  | phrase {inner : List Char} (missing : ¬ [']', ']'] <:+: inner) :
    Unclosed .phrase ('[' :: '[' :: inner)
  | quotation {inner : List Char} (missing : Escaped inner) : Unclosed .quotation ('"' :: inner)
  | snippet {inner : List Char} (missing : ¬ fenceMark <:+: inner) :
    Unclosed .snippet (fenceMark ++ inner)

theorem introduced_iff :
    (c == ':' && atStart && cs.head?.any fun d => d.isAlpha || d == '_') = true ↔
      atStart = true ∧ Introduced (c :: cs) := by
  cases cs with
  | nil => simp [Introduced]
  | cons d cs =>
    simp only [Introduced, Bool.and_eq_true, beq_iff_eq, List.head?_cons, Option.any_some,
      List.cons.injEq]
    constructor
    · rintro ⟨⟨rfl, start⟩, initial⟩
      exact ⟨start, d, cs, ⟨rfl, rfl, rfl⟩, initial⟩
    · rintro ⟨start, _, _, ⟨rfl, rfl, rfl⟩, initial⟩
      exact ⟨⟨rfl, start⟩, initial⟩

/-- No fence begins inside of a tag. -/
theorem infix_fenceMark_dropWhile :
    fenceMark <:+: cs.dropWhile isTagChar ↔ fenceMark <:+: cs := by
  induction cs with
  | nil => rfl
  | cons c cs ih =>
    cases tagged : isTagChar c with
    | false => simp [tagged]
    | true =>
      rw [List.dropWhile_cons_of_pos tagged, ih, List.infix_cons_iff]
      refine (or_iff_right fun here => ?_).symm
      obtain ⟨rfl, -⟩ := List.cons_prefix_cons.mp here
      cases tagged

theorem endsWord_cons :
    endsWord (c :: cs) = false ↔ isBlank c = false ∧ c ≠ '[' ∧ c ≠ ']' ∧ c ≠ ';' ∧ c ≠ '"' ∧
      ¬ fenceMark <+: c :: cs := by
  simp [endsWord, and_assoc, ← List.isPrefixOf_iff_prefix]

theorem fenceMark_ne_nil : fenceMark ≠ [] := by simp [fenceMark]

/-- What a scan reads is the source form of the lexeme. -/
theorem writtenAs_of_scan {s : Scan} (visible : isBlank c = true → c = '\n')
    (read : scan atStart c cs = .ok s) : s.lexeme.WrittenAs atStart s.source s.rest := by
  unfold scan at read
  split at read
  · cases read; exact .separator (.inl rfl)
  · cases read; exact .separator (.inr rfl)
  · split at read
    · split at read
      · next cut =>
        cases read
        exact .phrase ((breakOn_eq_some_iff (by simp)).mp cut).2
      · cases read
    · next single =>
      cases read
      refine .openBlock ?_
      rintro d head rfl
      obtain ⟨others, rfl⟩ := List.head?_eq_some_iff.mp head
      exact single others rfl
  · cases read; exact .closeBlock
  · split at read
    · next quoted =>
      cases read
      obtain ⟨body, rfl, -, escaped, closed, rfl⟩ := quotationBody_eq_some_iff.mp quoted
      exact .quotation escaped closed
    · cases read
  · next line semicolon opening closing mark =>
    split at read
    · next inner fenced =>
      split at read
      · next body rest cut =>
        cases read
        obtain ⟨same, closed⟩ := (breakOn_eq_some_iff fenceMark_ne_nil).mp cut
        obtain ⟨tagged, whole⟩ := mem_span isTagChar inner
        refine .snippet tagged ?_ closed
        intro d head
        apply whole d
        rw [same, List.append_assoc, List.head?_append, head, Option.some_or]
        rfl
      · cases read
    · next plain =>
      have unfenced := isPrefixOf?_eq_none_iff.mp plain
      split at read
      · next named =>
        cases read
        obtain ⟨start, introduced⟩ := introduced_iff.mp named
        have colon : c = ':' := by
          obtain ⟨d, others, same, -⟩ := introduced
          exact (List.cons.inj same).1
        subst colon
        obtain ⟨named, whole⟩ := mem_span isNameChar cs
        refine .command start ?_ named whole
        rwa [List.cons_append, List.takeWhile_append_dropWhile]
      · next other =>
        cases read
        obtain ⟨same, unbroken, ends⟩ := wordSpan_eq_iff.mp (rfl : wordSpan cs = (_, _))
        have blank : isBlank c = false := by
          rw [Bool.eq_false_iff]
          exact fun blank => line (visible blank)
        have here : endsWord (c :: cs) = false :=
          endsWord_cons.mpr ⟨blank, opening, closing, semicolon, mark, unfenced⟩
        refine .word (List.cons_ne_nil _ _) (unbroken_cons.mpr ⟨by rwa [← same], unbroken⟩) ends ?_
        intro start introduced
        rw [List.cons_append, ← same] at introduced
        exact other (introduced_iff.mpr ⟨start, introduced⟩)

/-- A source form is read whole. -/
theorem scan_of_writtenAs {lexeme : Lexeme} (written : lexeme.WrittenAs atStart source rest)
    (same : source ++ rest = c :: cs) : scan atStart c cs = .ok ⟨lexeme, source, rest⟩ := by
  cases written with
  | separator either =>
    obtain ⟨rfl, rfl⟩ := List.cons.inj same
    rcases either with rfl | rfl <;> rfl
  | openBlock single =>
    obtain ⟨rfl, rfl⟩ := List.cons.inj same
    apply scan.eq_4
    rintro inner same
    exact single '[' (congrArg List.head? same) rfl
  | closeBlock =>
    obtain ⟨rfl, rfl⟩ := List.cons.inj same
    rfl
  | @phrase body _ closed =>
    obtain ⟨rfl, rfl⟩ := List.cons.inj same
    have cut : breakOn [']', ']'] (body ++ [']', ']'] ++ rest) = some (body, rest) :=
      (breakOn_eq_some_iff (by simp)).mpr ⟨rfl, closed⟩
    show scan atStart '[' ('[' :: (body ++ [']', ']'] ++ rest)) = _
    rw [scan.eq_3, cut]
  | @quotation body _ escaped closed =>
    obtain ⟨rfl, rfl⟩ := List.cons.inj same
    have read : quotationBody (body ++ ['"'] ++ rest) = some _ :=
      quotationBody_eq_some_iff.mpr ⟨body, rfl, rfl, escaped, closed, rfl⟩
    show scan atStart '"' (body ++ ['"'] ++ rest) = _
    rw [scan.eq_6, read]
    rfl
  | @snippet tag body _ tagged whole closed =>
    have inner : fenceMark.isPrefixOf? (c :: cs) = some (tag ++ (body ++ fenceMark ++ rest)) := by
      rw [List.isPrefixOf?_eq_some_iff_append_eq, ← same]
      simp
    have behind : ∀ d ∈ (body ++ fenceMark ++ rest).head?, isTagChar d = false := by
      cases body with
      | nil => simp [fenceMark, isTagChar, isNameChar]
      | cons d body => exact whole
    obtain ⟨front, back⟩ := span_append tagged behind
    have cut : breakOn fenceMark (body ++ fenceMark ++ rest) = some (body, rest) :=
      (breakOn_eq_some_iff fenceMark_ne_nil).mpr ⟨rfl, closed⟩
    obtain rfl : '`' = c := (List.cons.inj same).1
    rw [scan.eq_7 _ _ _ (by decide) (by decide) (by decide) (by decide) (by decide), inner]
    simp only [front, back, cut]
  | @command name _ start introduced named whole =>
    have colon := introduced_iff.mpr ⟨start, introduced⟩
    obtain ⟨front, back⟩ := span_append named whole
    obtain ⟨rfl, rfl⟩ := List.cons.inj same
    have plain : fenceMark.isPrefixOf? (':' :: (name ++ rest)) = none := rfl
    show scan atStart ':' (name ++ rest) = _
    rw [scan.eq_7 _ _ _ (by decide) (by decide) (by decide) (by decide) (by decide), plain]
    simp only [front, back]
    exact if_pos colon
  | word some unbroken whole other =>
    obtain ⟨d, text, rfl⟩ := List.exists_cons_of_ne_nil some
    obtain ⟨rfl, rfl⟩ := List.cons.inj same
    obtain ⟨here, unbroken⟩ := unbroken_cons.mp unbroken
    obtain ⟨blank, opening, closing, semicolon, mark, unfenced⟩ := endsWord_cons.mp here
    have line : d ≠ '\n' := by
      rintro rfl
      cases blank
    have plain : fenceMark.isPrefixOf? (d :: (text ++ rest)) = none :=
      isPrefixOf?_eq_none_iff.mpr unfenced
    have word : wordSpan (text ++ rest) = (text, rest) :=
      wordSpan_eq_iff.mpr ⟨rfl, unbroken, whole⟩
    show scan atStart d (text ++ rest) = _
    rw [scan.eq_7 _ _ _ line semicolon opening closing mark, plain, word]
    apply if_neg
    intro colon
    obtain ⟨start, introduced⟩ := introduced_iff.mp colon
    exact other start introduced

/-- A scan reads the source form of a lexeme, and every source form. -/
theorem scan_eq_ok_iff {s : Scan} (visible : isBlank c = true → c = '\n') :
    scan atStart c cs = .ok s ↔
      s.lexeme.WrittenAs atStart s.source s.rest ∧ s.source ++ s.rest = c :: cs :=
  ⟨fun read => ⟨writtenAs_of_scan visible read, scan_append read⟩,
    fun ⟨written, same⟩ => scan_of_writtenAs written same⟩

/-- Where nothing else begins a word does: it is what goes on from its first character, and is never
empty. -/
theorem wordSpan_of_scan {s : Scan} {word : String} (visible : isBlank c = true → c = '\n')
    (read : scan atStart c cs = .ok s) (is : s.lexeme = .word word) :
    wordSpan (c :: cs) = (word.toList, s.rest) ∧ word.toList ≠ [] := by
  obtain ⟨written, same⟩ := (scan_eq_ok_iff visible).mp read
  rw [is] at written
  generalize spelled : s.source = source at written same
  cases written with
  | word some unbroken whole other =>
    rw [String.toList_ofList]
    exact ⟨wordSpan_eq_iff.mpr ⟨same.symm, unbroken, whole⟩, some⟩

/-- A scan is refused where an enclosure opens that nothing closes, and only there. -/
theorem scan_eq_error_iff {enclosure : Enclosure} :
    scan atStart c cs = .error enclosure ↔ Unclosed enclosure (c :: cs) := by
  constructor
  · intro refused
    unfold scan at refused
    split at refused
    · cases refused
    · cases refused
    · split at refused
      · split at refused
        · cases refused
        · next missing =>
          cases refused
          exact .phrase ((breakOn_eq_none_iff (by simp)).mp missing)
      · cases refused
    · cases refused
    · split at refused
      · cases refused
      · next missing =>
        cases refused
        exact .quotation (quotationBody_eq_none_iff.mp missing)
    · split at refused
      · next inner fenced =>
        split at refused
        · cases refused
        · next missing =>
          cases refused
          rw [← List.isPrefixOf?_eq_some_iff_append_eq.mp fenced]
          refine .snippet ?_
          rw [← infix_fenceMark_dropWhile, ← breakOn_eq_none_iff fenceMark_ne_nil]
          exact missing
      · split at refused <;> cases refused
  · intro unclosed
    generalize opens : c :: cs = text at unclosed
    cases unclosed with
    | phrase missing =>
      obtain ⟨rfl, rfl⟩ := List.cons.inj opens
      rw [scan.eq_3, (breakOn_eq_none_iff (by simp)).mpr missing]
    | quotation missing =>
      obtain ⟨rfl, rfl⟩ := List.cons.inj opens
      rw [scan.eq_6, quotationBody_eq_none_iff.mpr missing]
    | @snippet inner missing =>
      have nowhere : breakOn fenceMark (inner.dropWhile isTagChar) = none := by
        rw [breakOn_eq_none_iff fenceMark_ne_nil, infix_fenceMark_dropWhile]
        exact missing
      have fenced : fenceMark.isPrefixOf? (c :: cs) = some inner :=
        List.isPrefixOf?_eq_some_iff_append_eq.mpr opens.symm
      obtain rfl : c = '`' := (List.cons.inj opens).1
      rw [scan.eq_7 _ _ _ (by decide) (by decide) (by decide) (by decide) (by decide), fenced]
      simp only [nowhere]

end ConceptForest.Grammar
