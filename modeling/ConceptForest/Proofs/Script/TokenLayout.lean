import ConceptForest.Proofs.Script.Scanning

/-!
The tokens of a snippet are laid out well.

`Laid` follows the tokens with what is open in front of each: blocks, brackets, and the logical
line. It says which token may come next, and whatever the scanner accepts obeys it. That nothing is
left open, and that nothing is closed too often, is read off it.

* `laid_of_tokens` — the tokens of a snippet are laid out from nothing open to nothing open.
* `layout_outside` — the tokens of the layout stand outside of all brackets.
* `tokens_wellFormed` — so blocks and brackets balance, no line is empty, and places do not go back.
-/

namespace ConceptForest.Script

open ConceptForest.Text

/-! ### Kinds of lexemes -/

/-- Does the lexeme stand for layout: the end of a logical line, the opening or the closing of a
block? -/
def Lexeme.isLayout : Lexeme → Bool
  | .newline | .indent | .dedent => true
  | _ => false

/-- Does the lexeme stand for something written on a line? -/
def Lexeme.isContent : Lexeme → Bool
  | .newline | .indent | .dedent | .endOfInput => false
  | _ => true

/-- Does the lexeme open a bracket? -/
def Lexeme.isOpening : Lexeme → Bool
  | .op text => text == "(" || text == "[" || text == "\x7b"
  | _ => false

/-- Does the lexeme close a bracket? -/
def Lexeme.isClosing : Lexeme → Bool
  | .op text => text == ")" || text == "]" || text == "\x7d"
  | _ => false

theorem Lexeme.depthAfter_eq (l : Lexeme) (depth : Nat) :
    l.depthAfter depth =
      if l.isOpening then depth + 1 else if l.isClosing then depth - 1 else depth := by
  cases l <;> rfl

theorem Lexeme.not_isClosing_of_isOpening {l : Lexeme} (opening : l.isOpening = true) :
    l.isClosing = false := by
  cases l with
  | op text =>
    simp only [isOpening, Bool.or_eq_true, beq_iff_eq] at opening
    rcases opening with (rfl | rfl) | rfl <;> rfl
  | _ => rfl

/-- An opening bracket is one more that is open, and a closing one, where it may stand, one less. -/
theorem Lexeme.depthAfter_balance {l : Lexeme} {depth : Nat}
    (opened : l.isClosing = true → 0 < depth) :
    l.depthAfter depth + (if l.isClosing then 1 else 0) =
      depth + (if l.isOpening then 1 else 0) := by
  rw [depthAfter_eq]
  by_cases opening : l.isOpening = true
  · simp [opening, not_isClosing_of_isOpening opening]
  · by_cases closing : l.isClosing = true
    · have := opened closing
      simp only [opening, closing, if_true, Bool.false_eq_true, if_false]
      omega
    · simp [opening, closing]

/-! ### Tokens in their order -/

/-- The tokens go on where so many blocks and brackets are open; `lineOpen` says that there is
something on the logical line. -/
inductive Laid : Nat → Nat → Bool → List Token → Prop where
  | endOfInput {p : Position} : Laid 0 0 false [⟨.endOfInput, p⟩]
  | newline {blocks : Nat} {p : Position} {ts : List Token} (further : Laid blocks 0 false ts) :
    Laid blocks 0 true (⟨.newline, p⟩ :: ts)
  | indent {blocks : Nat} {p : Position} {ts : List Token}
    (further : Laid (blocks + 1) 0 false ts) : Laid blocks 0 false (⟨.indent, p⟩ :: ts)
  | dedent {blocks : Nat} {p : Position} {ts : List Token} (further : Laid blocks 0 false ts) :
    Laid (blocks + 1) 0 false (⟨.dedent, p⟩ :: ts)
  | content {blocks depth : Nat} {lineOpen : Bool} {t : Token} {ts : List Token}
    (written : t.lexeme.isContent = true) (opened : t.lexeme.isClosing = true → 0 < depth)
    (further : Laid blocks (t.lexeme.depthAfter depth) true ts) :
    Laid blocks depth lineOpen (t :: ts)

variable {layout : Layout} {p q : Position} {cs rest : List Char} {ts front : List Token}
  {indents indents' : List Nat} {width blocks depth : Nat} {lineOpen : Bool} {lexemes : List Lexeme}

theorem Laid.dedents (further : Laid blocks 0 false ts) (closed : List Nat) :
    Laid (closed.length + blocks) 0 false (closed.map (fun _ => ⟨.dedent, p⟩) ++ ts) := by
  induction closed with
  | nil => simpa using further
  | cons width closed ih =>
    rw [List.length_cons, Nat.add_right_comm]
    exact .dedent ih

theorem Laid.endLine (further : Laid blocks 0 false ts) (outside : layout.depth = 0) :
    Laid blocks layout.depth layout.lineOpen (layout.endLine p ++ ts) := by
  rw [outside, Layout.endLine]
  cases lineOpen : layout.lineOpen with
  | true => exact .newline further
  | false => exact further

/-- The layout tokens in front of a line lead from the blocks that were open to those that are. -/
theorem Laid.line (fits : lineTokens indents width p rest = .ok (front, indents'))
    (further : Laid indents'.length 0 false ts) : Laid indents.length 0 false (front ++ ts) := by
  cases Fronted.of_lineTokens fits with
  | empty => exact further
  | deeper => exact .indent further
  | closing =>
    have whole := congrArg List.length
      (List.takeWhile_append_dropWhile (p := (width < ·)) (l := indents))
    rw [List.length_append] at whole
    rw [← whole]
    exact further.dedents (indents.takeWhile (width < ·))

theorem isContent_of_scanString {lead : List Char} {quote : Char} {s : Scan}
    (read : scanString lead quote cs = .ok s) : s.lexeme.isContent = true ∧
      s.lexeme.isClosing = false := by
  unfold scanString at read
  dsimp only at read
  split at read
  · cases read
  · obtain ⟨⟩ := read
    exact ⟨rfl, rfl⟩

/-- What is scanned stands on a line, and closes a bracket only where one is open. -/
theorem isContent_of_scan {c : Char} {s : Scan} (read : scan depth c cs = .ok s) :
    s.lexeme.isContent = true ∧ (s.lexeme.isClosing = true → 0 < depth) := by
  cases Scanned.of_scan read with
  | string _ _ _ read =>
    obtain ⟨content, notClosing⟩ := isContent_of_scanString read
    exact ⟨content, fun closing => absurd closing (by simp [notClosing])⟩
  | number => exact ⟨rfl, nofun⟩
  | name => exact ⟨rfl, nofun⟩
  | operator long =>
    refine ⟨rfl, fun closing => ?_⟩
    have none : ∀ op ∈ longOperators, (Lexeme.op op).isClosing = false := by decide
    exact absurd closing (by simp [none _ long])
  | mark _ opened =>
    refine ⟨rfl, fun closing => opened ?_⟩
    simp only [Lexeme.isClosing, Bool.or_eq_true, beq_iff_eq] at closing
    rcases closing with (closing | closing) | closing
    · exact .inl (String.singleton_inj.mp closing)
    · exact .inr (.inl (String.singleton_inj.mp closing))
    · exact .inr (.inr (String.singleton_inj.mp closing))

/-- What is scanned is laid out, from what is open in front of it. -/
theorem Laid.of_scans (scans : Scans layout p cs ts) :
    Laid layout.indents.length layout.depth layout.lineOpen ts := by
  induction scans with
  | done closed =>
    rw [List.append_assoc]
    exact Laid.endLine (Laid.dedents .endOfInput _) closed
  | wrapped _ _ ih => exact ih
  | line outside _ _ fits _ ih =>
    rw [List.append_assoc]
    exact (Laid.line fits (by simpa [outside] using ih)).endLine outside
  | gap _ _ _ ih => exact ih
  | token _ _ scanned _ ih =>
    obtain ⟨content, opened⟩ := isContent_of_scan scanned
    exact .content content opened ih

/-- The tokens of a snippet are laid out, from nothing open to nothing open. -/
theorem laid_of_tokens {source : String} (accepted : tokens source = .ok ts) :
    Laid 0 0 false ts :=
  .of_scans (tokens_eq_ok_iff.mp accepted)

/-! ### What is open and what is closed -/

/-- The number of tokens of a kind. -/
def number (kind : Lexeme → Bool) (ts : List Token) : Nat :=
  ts.countP fun t => kind t.lexeme

variable {kind : Lexeme → Bool} {t : Token} {before after : List Token}

@[simp] theorem number_nil : number kind [] = 0 := rfl

@[simp] theorem number_cons :
    number kind (t :: ts) = number kind ts + if kind t.lexeme then 1 else 0 :=
  List.countP_cons

@[simp] theorem number_append :
    number kind (front ++ ts) = number kind front + number kind ts :=
  List.countP_append

/-- Is it the opening of a block? -/
def Lexeme.isIndent (l : Lexeme) : Bool := l == .indent

/-- Is it the closing of a block? -/
def Lexeme.isDedent (l : Lexeme) : Bool := l == .dedent

@[simp] theorem Lexeme.isIndent_indent : Lexeme.indent.isIndent = true := rfl

@[simp] theorem Lexeme.isIndent_dedent : Lexeme.dedent.isIndent = false := rfl

@[simp] theorem Lexeme.isDedent_indent : Lexeme.indent.isDedent = false := rfl

@[simp] theorem Lexeme.isDedent_dedent : Lexeme.dedent.isDedent = true := rfl

/-- Is there something on the logical line behind the tokens, if `lineOpen` says so in front? -/
def openBehind (lineOpen : Bool) (before : List Token) : Bool :=
  (before.getLast?.map fun t => t.lexeme.isContent).getD lineOpen

theorem openBehind_cons : openBehind lineOpen (t :: before) =
    openBehind t.lexeme.isContent before := by
  cases before with
  | nil => rfl
  | cons u before =>
    simp only [openBehind, List.getLast?_cons_cons]
    cases last : (u :: before).getLast? with
    | none => simp at last
    | some v => rfl

theorem Lexeme.kinds_of_isContent {l : Lexeme} (content : l.isContent = true) :
    l.isIndent = false ∧ l.isDedent = false := by
  cases l with
  | newline | indent | dedent | endOfInput => cases content
  | _ => exact ⟨rfl, rfl⟩

theorem Lexeme.not_isLayout_of_isContent {l : Lexeme} (content : l.isContent = true) :
    l.isLayout = false := by
  cases l with
  | newline | indent | dedent | endOfInput => cases content
  | _ => rfl

/-- What is open behind some of the tokens: what was open in front, more for each opening among
them and less for each closing. -/
theorem Laid.behind (laid : Laid blocks depth lineOpen (before ++ after)) (more : after ≠ []) :
    ∃ blocks' depth' lineOpen', Laid blocks' depth' lineOpen' after ∧
      lineOpen' = openBehind lineOpen before ∧
      blocks' + number Lexeme.isDedent before = blocks + number Lexeme.isIndent before ∧
      depth' + number Lexeme.isClosing before = depth + number Lexeme.isOpening before := by
  induction before generalizing blocks depth lineOpen with
  | nil => exact ⟨blocks, depth, lineOpen, laid, rfl, rfl, rfl⟩
  | cons t before ih =>
    rw [openBehind_cons]
    generalize whole : t :: before ++ after = ts at laid
    cases laid with
    | endOfInput =>
      obtain ⟨-, nothing⟩ := List.cons.inj whole
      exact absurd (List.append_eq_nil_iff.mp nothing).2 more
    | newline further =>
      obtain ⟨rfl, rfl⟩ := List.cons.inj whole
      obtain ⟨blocks', depth', lineOpen', laid, same, even, level⟩ := ih further
      exact ⟨blocks', depth', lineOpen', laid, same, even, level⟩
    | indent further =>
      obtain ⟨rfl, rfl⟩ := List.cons.inj whole
      obtain ⟨blocks', depth', lineOpen', laid, same, even, level⟩ := ih further
      refine ⟨blocks', depth', lineOpen', laid, same, ?_, level⟩
      simp only [number_cons, Lexeme.isDedent_indent, Lexeme.isIndent_indent, if_true]
      simp only [Bool.false_eq_true, if_false]
      omega
    | dedent further =>
      obtain ⟨rfl, rfl⟩ := List.cons.inj whole
      obtain ⟨blocks', depth', lineOpen', laid, same, even, level⟩ := ih further
      refine ⟨blocks', depth', lineOpen', laid, same, ?_, level⟩
      simp only [number_cons, Lexeme.isDedent_dedent, Lexeme.isIndent_dedent, if_true]
      simp only [Bool.false_eq_true, if_false]
      omega
    | content written opened further =>
      obtain ⟨rfl, rfl⟩ := List.cons.inj whole
      obtain ⟨blocks', depth', lineOpen', laid, same, even, level⟩ := ih further
      refine ⟨blocks', depth', lineOpen', laid, written ▸ same, ?_, ?_⟩
      · obtain ⟨notIndent, notDedent⟩ := Lexeme.kinds_of_isContent written
        simpa [notIndent, notDedent] using even
      · have balance := Lexeme.depthAfter_balance opened
        simp only [number_cons]
        omega

/-- Layout stands outside of all brackets: behind what is in front of it, as many are closed as were
open. -/
theorem Laid.outside (laid : Laid blocks depth lineOpen (before ++ t :: after))
    (layout : t.lexeme.isLayout = true) :
    number Lexeme.isClosing before = depth + number Lexeme.isOpening before := by
  obtain ⟨blocks', depth', lineOpen', behind, -, -, level⟩ := laid.behind (List.cons_ne_nil t after)
  cases behind with
  | endOfInput => cases layout
  | content written => rw [Lexeme.not_isLayout_of_isContent written] at layout; cases layout
  | _ => omega

/-- The end of input is the last token, and only the last. -/
theorem Laid.ends (laid : Laid blocks depth lineOpen ts) :
    ∃ front p, ts = front ++ [⟨.endOfInput, p⟩] ∧ ∀ t ∈ front, t.lexeme ≠ .endOfInput := by
  have further : ∀ {t : Token} {ts : List Token}, t.lexeme ≠ .endOfInput →
      (∃ front p, ts = front ++ [⟨.endOfInput, p⟩] ∧ ∀ t ∈ front, t.lexeme ≠ .endOfInput) →
      ∃ front p, t :: ts = front ++ [⟨.endOfInput, p⟩] ∧ ∀ t ∈ front, t.lexeme ≠ .endOfInput := by
    rintro t _ other ⟨front, p, rfl, others⟩
    exact ⟨t :: front, p, rfl, List.forall_mem_cons.mpr ⟨other, others⟩⟩
  induction laid with
  | endOfInput => exact ⟨[], _, rfl, nofun⟩
  | newline _ ih | indent _ ih | dedent _ ih => exact further nofun ih
  | content written _ _ ih => exact further (by rintro same; rw [same] at written; cases written) ih

/-- In the end all blocks and brackets are closed. -/
theorem Laid.total (laid : Laid blocks depth lineOpen ts) :
    number Lexeme.isDedent ts = blocks + number Lexeme.isIndent ts ∧
      number Lexeme.isClosing ts = depth + number Lexeme.isOpening ts := by
  obtain ⟨front, p, rfl, -⟩ := laid.ends
  obtain ⟨blocks', depth', lineOpen', last, -, even, level⟩ := laid.behind (List.cons_ne_nil _ [])
  have none : blocks' = 0 ∧ depth' = 0 := by
    cases last with
    | endOfInput => exact ⟨rfl, rfl⟩
    | content written => cases written
  simp only [number_append, number_cons, number_nil, Lexeme.isDedent, Lexeme.isIndent,
    Lexeme.isOpening, Lexeme.isClosing] at even level ⊢
  simp only [reduceCtorEq, beq_iff_eq, Bool.false_eq_true, if_false]
  omega

/-- Nowhere more is closed than is open. -/
theorem Laid.prefix_le (laid : Laid blocks depth lineOpen ts) (first : front <+: ts) :
    number Lexeme.isDedent front ≤ blocks + number Lexeme.isIndent front ∧
      number Lexeme.isClosing front ≤ depth + number Lexeme.isOpening front := by
  obtain ⟨after, rfl⟩ := first
  by_cases whole : after = []
  · obtain ⟨even, level⟩ := laid.total
    rw [whole, List.append_nil] at even level
    exact ⟨even.le, level.le⟩
  · obtain ⟨_, _, _, -, -, even, level⟩ := laid.behind whole
    omega

/-! ### Places -/

/-- The one place is not behind the other. -/
def NotBehind (p q : Position) : Prop :=
  p.line < q.line ∨ p.line = q.line ∧ p.column ≤ q.column

theorem NotBehind.refl (p : Position) : NotBehind p p :=
  .inr ⟨rfl, Nat.le_refl _⟩

theorem NotBehind.trans {p q r : Position} (first : NotBehind p q) (second : NotBehind q r) :
    NotBehind p r := by
  unfold NotBehind at *
  omega

theorem notBehind_advance (p : Position) (c : Char) : NotBehind p (p.advance c) := by
  unfold Position.advance NotBehind
  split
  · exact .inl (Nat.lt_succ_self _)
  · exact .inr ⟨rfl, Nat.le_succ _⟩

theorem notBehind_after (p : Position) (cs : List Char) : NotBehind p (p.after cs) := by
  induction cs generalizing p with
  | nil => exact .refl p
  | cons c cs ih => exact (notBehind_advance p c).trans (ih _)

/-- The tokens stand one behind the other, none of them in front of `p`. -/
def Ascending (p : Position) (ts : List Token) : Prop :=
  (p :: ts.map Token.position).Pairwise NotBehind

theorem Ascending.mono (later : NotBehind p q) (ascending : Ascending q ts) : Ascending p ts := by
  obtain ⟨front, order⟩ := List.pairwise_cons.mp ascending
  exact List.pairwise_cons.mpr ⟨fun r mem => later.trans (front r mem), order⟩

theorem Ascending.cons {l : Lexeme} (ascending : Ascending p ts) : Ascending p (⟨l, p⟩ :: ts) :=
  List.pairwise_cons.mpr ⟨List.forall_mem_cons.mpr ⟨.refl p, (List.pairwise_cons.mp ascending).1⟩,
    ascending⟩

theorem Ascending.dedents (closed : List Nat) (ascending : Ascending p ts) :
    Ascending p (closed.map (fun _ => ⟨.dedent, p⟩) ++ ts) := by
  induction closed with
  | nil => exact ascending
  | cons width closed ih => exact ih.cons

theorem Ascending.endLine (ascending : Ascending p ts) : Ascending p (layout.endLine p ++ ts) := by
  unfold Layout.endLine
  split
  · exact ascending.cons
  · exact ascending

theorem Ascending.line (fits : lineTokens indents width p rest = .ok (front, indents'))
    (ascending : Ascending p ts) : Ascending p (front ++ ts) := by
  cases Fronted.of_lineTokens fits with
  | empty => exact ascending
  | deeper => exact ascending.cons
  | closing => exact ascending.dedents _

theorem Ascending.of_scans (scans : Scans layout p cs ts) : Ascending p ts := by
  induction scans with
  | @done layout p closed =>
    have last : Ascending p [⟨.endOfInput, p⟩] := Ascending.cons (List.pairwise_singleton _ p)
    rw [List.append_assoc]
    exact (last.dedents layout.indents).endLine
  | wrapped _ _ ih => exact ih.mono (notBehind_advance _ _)
  | line _ _ place fits _ ih =>
    rw [List.append_assoc]
    refine Ascending.endLine (ih.line fits |>.mono ?_)
    rw [place]
    exact (notBehind_advance _ _).trans (notBehind_after _ _)
  | gap _ _ _ ih => exact ih.mono (notBehind_after _ _)
  | token _ _ _ _ ih =>
    exact ((ih.mono (notBehind_after _ _)).cons).mono (notBehind_after _ _)

/-! ### The tokens of a snippet -/

/-- The tokens are those of a whole snippet. -/
structure WellFormed (ts : List Token) : Prop where
  /-- The end of input is the last token, and only the last. -/
  ends : ∃ front p, ts = front ++ [⟨.endOfInput, p⟩] ∧ ∀ t ∈ front, t.lexeme ≠ .endOfInput
  /-- No block is closed before it is opened. -/
  blocks : ∀ front, front <+: ts →
    number Lexeme.isDedent front ≤ number Lexeme.isIndent front
  /-- All blocks are closed. -/
  allBlocks : number Lexeme.isDedent ts = number Lexeme.isIndent ts
  /-- No bracket is closed before it is opened. -/
  brackets : ∀ front, front <+: ts →
    number Lexeme.isClosing front ≤ number Lexeme.isOpening front
  /-- All brackets are closed. -/
  allBrackets : number Lexeme.isClosing ts = number Lexeme.isOpening ts
  /-- Between an opening bracket and the one that closes it there is no layout. -/
  inside : ∀ before opening within closing after,
    ts = before ++ opening :: within ++ closing :: after →
    opening.lexeme.isOpening = true → closing.lexeme.isClosing = true →
    (∀ front, front <+: within →
      number Lexeme.isClosing front ≤ number Lexeme.isOpening front) →
    number Lexeme.isClosing within = number Lexeme.isOpening within →
    ∀ t ∈ within, t.lexeme.isLayout = false
  /-- A logical line that ends has something on it. -/
  lines : ∀ before t after, ts = before ++ t :: after → t.lexeme = .newline →
    ∃ last ∈ before.getLast?, last.lexeme.isLayout = false
  /-- Places do not go back. -/
  places : (ts.map Token.position).Pairwise NotBehind

/-- Whatever the scanner accepts is well formed: the end of input comes once and last, blocks and
brackets are balanced, no layout stands inside of brackets, no logical line is empty, and places do
not go back. -/
theorem tokens_wellFormed {source : String} {ts : List Token} (accepted : tokens source = .ok ts) :
    WellFormed ts := by
  have laid := laid_of_tokens accepted
  obtain ⟨closedBlocks, closedBrackets⟩ := laid.total
  refine ⟨laid.ends, fun front first => ?_, ?_, fun front first => ?_, ?_, ?_, ?_, ?_⟩
  · simpa using (laid.prefix_le first).1
  · simpa using closedBlocks
  · simpa using (laid.prefix_le first).2
  · simpa using closedBrackets
  · intro before opening within closing after whole opens _ never _ t mem
    by_contra layout
    obtain ⟨front, back, rfl⟩ := List.append_of_mem mem
    have around : Laid 0 0 false
        ((before ++ opening :: front) ++ t :: (back ++ closing :: after)) := by
      simpa [whole] using laid
    have outside := around.outside (Bool.not_eq_false _ ▸ layout)
    have first : before <+: ts := ⟨_, by rw [whole, List.append_assoc]⟩
    have outer := (laid.prefix_le first).2
    have inner := never front (List.prefix_append front (t :: back))
    simp only [number_append, number_cons, opens, Lexeme.not_isClosing_of_isOpening opens] at outside
    simp only [Bool.false_eq_true, if_false, if_true] at outside
    omega
  · intro before t after whole newline
    obtain ⟨_, _, lineOpen, behind, same, -, -⟩ := (whole ▸ laid).behind (List.cons_ne_nil t after)
    cases behind with
    | newline =>
      unfold openBehind at same
      cases last : before.getLast? with
      | none => simp [last] at same
      | some u =>
        refine ⟨u, rfl, Lexeme.not_isLayout_of_isContent ?_⟩
        simpa [last] using same.symm
    | content written => rw [newline] at written; cases written
    | _ => cases newline
  · exact (List.pairwise_cons.mp (Ascending.of_scans (tokens_eq_ok_iff.mp accepted))).2

/-- A block with a bracketed expression over two lines. -/
theorem tokens_wellFormed_block : ∃ ts, tokens "if a:\n    f(b,\n  c)\n" = .ok ts ∧ WellFormed ts := by
  have accepted : (tokens "if a:\n    f(b,\n  c)\n").toOption.isSome = true := by decide +kernel
  obtain ⟨ts, some⟩ := Option.isSome_iff_exists.mp accepted
  exact ⟨ts, eq_ok_of_toOption some, tokens_wellFormed (eq_ok_of_toOption some)⟩

end ConceptForest.Script
