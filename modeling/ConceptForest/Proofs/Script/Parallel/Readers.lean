import ConceptForest.Proofs.Script.Openings
import ConceptForest.Proofs.Script.TokenLayout

/-!
Two lists of tokens that readers cannot tell apart.

A reader looks at lexemes only, and only at the front. If two lists of tokens are paired in a way
that shows the same lexeme at the front of both, and that lasts when a token is passed over, then
what a reader makes of the one it makes of the other (`Follows`). There is one lemma for every way to
look at the tokens and for every way to put readers together; a rule of the grammar is followed step
by step.

A pairing (`Parallel`) may let the one list end, at the end of a line, where the other goes on with a
closing parenthesis: no rule for expressions goes on with either. What such lists are good for is
said where a pairing is chosen.
-/

namespace ConceptForest.Script

open Reader

/-- What ties one list of tokens to another. -/
abbrev Pairing := List Token → List Token → Prop

variable {α β ι : Type} {strict : Prop} {R before before' : Pairing} {behind : α → Pairing}
  {further : β → Pairing} {r r' : Reader α} {ts us : List Token}

/-- What is paired in the one way is paired in the other. -/
abbrev Within (R R' : Pairing) : Prop :=
  ∀ ts us, R ts us → R' ts us

/-- What the one reader reads from the one list the other reads from the other, and the lists are
paired behind as they should be. If `strict`, then the other fails where the one fails, and for the
same reason. -/
def Follows (strict : Prop) (before : Pairing) (r r' : Reader α) (behind : α → Pairing) : Prop :=
  ∀ ts us, before ts us →
    (∀ a ts', r ts = .ok (a, ts') → ∃ us', r' us = .ok (a, us') ∧ behind a ts' us') ∧
      (strict → ∀ e, r ts = .error e → ∃ e', r' us = .error e' ∧ e'.fault = e.fault)

/-- The lists stay paired. -/
abbrev Tracks (strict : Prop) (R : Pairing) (r r' : Reader α) : Prop :=
  Follows strict R r r' fun _ => R

/-- The pairing, where something stands on the line. -/
def Content (R : Pairing) : Pairing := fun ts us =>
  R ts us ∧ (headLexeme ts).isContent = true

/-- The pairing, where a lexeme is at the front. -/
def At (R : Pairing) (l : Lexeme) : Pairing := fun ts us =>
  R ts us ∧ headLexeme ts = l

/-- A question about the front has been answered with yes only where something stands there. -/
def Answered (R : Pairing) : Bool → Pairing
  | true => Content R
  | false => R

/-- The pairing, where this is the keyword at the front, or there is none and the word is empty. -/
def Seen (R : Pairing) (word : String) : Pairing := fun ts us =>
  R ts us ∧ (word ≠ "" → (headLexeme ts).isContent = true)

theorem Lexeme.isContent_of_keyword {l : Lexeme} (some : l.keyword ≠ "") : l.isContent = true := by
  cases l with
  | name => rfl
  | _ => exact absurd rfl some

/-- Rules for expressions cannot tell the two lists apart. -/
structure Parallel (strict : Prop) (R : Pairing) : Prop where
  /-- The same lexeme is at the front of both, or the one list is at the end of a line, and the other
  goes on with a closing parenthesis. -/
  head : ∀ {ts us}, R ts us → headLexeme us = headLexeme ts ∨
    ¬ strict ∧ headLexeme ts = .newline ∧ headLexeme us = .op ")"
  /-- What stands on the line may be passed over. -/
  drop : ∀ {ts us}, R ts us → (headLexeme ts).isContent = true → R (ts.drop 1) (us.drop 1)
  /-- Both lists get shorter at once. -/
  shorter : ∀ {ts us ts' us'}, R ts us → R ts' us' →
    (ts'.length < ts.length ↔ us'.length < us.length)

namespace Follows

/-! ### One after the other -/

theorem pure {a : α} (paired : ∀ ts us, before ts us → behind a ts us) :
    Follows strict before (pure a) (pure a) behind := by
  refine fun ts us holds => ⟨?_, nofun⟩
  rintro _ _ ⟨⟩
  exact ⟨us, rfl, paired ts us holds⟩

theorem bind {rest rest' : α → Reader β} (first : Follows strict before r r' behind)
    (more : ∀ a, Follows strict (behind a) (rest a) (rest' a) further) :
    Follows strict before (r >>= rest) (r' >>= rest') further := by
  intro ts us paired
  obtain ⟨reads, fails⟩ := first ts us paired
  constructor
  · intro b left read
    obtain ⟨⟨a, ts'⟩, one, read⟩ := bind_eq_ok_iff.mp read
    obtain ⟨us', one', paired⟩ := reads a ts' one
    obtain ⟨left', read', paired⟩ := (more a ts' us' paired).1 b left read
    exact ⟨left', (run_bind_of_ok one').trans read', paired⟩
  · intro exactly e failed
    cases ran : r ts with
    | ok read =>
      obtain ⟨us', one', paired⟩ := reads read.1 read.2 ran
      rw [run_bind_of_ok ran] at failed
      obtain ⟨e', failed', same⟩ := (more read.1 read.2 us' paired).2 exactly e failed
      exact ⟨e', (run_bind_of_ok one').trans failed', same⟩
    | error e₁ =>
      obtain ⟨⟩ := (run_bind_of_error ran).symm.trans failed
      obtain ⟨e', failed', same⟩ := fails exactly e ran
      exact ⟨e', run_bind_of_error failed', same⟩

/-- Less is known in front, or more is asked behind. -/
theorem weaken {behind' : α → Pairing} (follows : Follows strict before' r r' behind')
    (front : ∀ ts us, before ts us → before' ts us)
    (back : ∀ a ts us, behind' a ts us → behind a ts us) : Follows strict before r r' behind := by
  intro ts us paired
  obtain ⟨reads, fails⟩ := follows ts us (front ts us paired)
  refine ⟨fun a ts' read => ?_, fails⟩
  obtain ⟨us', read', paired⟩ := reads a ts' read
  exact ⟨us', read', back a _ _ paired⟩

theorem front (follows : Follows strict before' r r' behind)
    (front : ∀ ts us, before ts us → before' ts us) : Follows strict before r r' behind :=
  follows.weaken front fun _ _ _ => id

/-- What is followed where something stands at the front is followed where a lexeme is known to. -/
theorem content {l : Lexeme} (follows : Follows strict (Content R) r r' behind)
    (written : l.isContent = true) : Follows strict (At R l) r r' behind :=
  follows.front fun _ _ paired => ⟨paired.1, paired.2 ▸ written⟩

theorem onLine (follows : Follows strict R r r' behind) : Follows strict (Content R) r r' behind :=
  follows.front fun _ _ => And.left

theorem anywhere {l : Lexeme} (follows : Follows strict R r r' behind) :
    Follows strict (At R l) r r' behind :=
  follows.front fun _ _ paired => paired.1

theorem seen {word : String} (follows : Follows strict (Content R) r r' behind)
    (some : word ≠ "") : Follows strict (Seen R word) r r' behind :=
  follows.front fun _ _ paired => ⟨paired.1, paired.2 some⟩

/-- The answer to a question may be forgotten. -/
theorem forget {question : Reader Bool} (asked : Follows strict R question question (Answered R)) :
    Tracks strict R question question := by
  refine asked.weaken (fun _ _ => id) ?_
  rintro (_ | _) ts us paired
  · exact paired
  · exact paired.1

/-- The token at the front is passed over in both lists. -/
theorem advance {behind : Pairing} (leads : ∀ ts us, before ts us → behind (ts.drop 1) (us.drop 1)) :
    Follows strict before advance advance fun _ => behind := by
  refine fun ts us paired => ⟨fun a ts' read => ?_, nofun⟩
  obtain ⟨⟩ := read
  exact ⟨us.drop 1, rfl, leads ts us paired⟩

/-! ### Branches -/

theorem either {condition : Prop} [Decidable condition] {s s' : Reader α}
    (yes : Follows strict before r r' behind) (no : Follows strict before s s' behind) :
    Follows strict before (if condition then r else s) (if condition then r' else s') behind := by
  split
  · exact yes
  · exact no

/-- One rule or the other, depending on what is at the front. -/
theorem choose {question question' : Reader Bool} {s s' : Reader α} {answered : Bool → Pairing}
    (asked : Follows strict before question question' answered)
    (yes : Follows strict (answered true) r r' behind)
    (no : Follows strict (answered false) s s' behind) :
    Follows strict before (question >>= fun answer => if answer = true then r else s)
      (question' >>= fun answer => if answer = true then r' else s') behind := by
  refine asked.bind fun answer => ?_
  cases answer with
  | true => exact yes
  | false => exact no

/-- What is done where the lexeme at the front is known. -/
theorem peekAt {l : Lexeme} {rest rest' : Lexeme → Reader α}
    (same : ∀ ts us, before ts us → headLexeme us = headLexeme ts)
    (follows : Follows strict (At before l) (rest l) (rest' l) behind) :
    Follows strict (At before l) (peek >>= rest) (peek >>= rest') behind := by
  rintro ts us ⟨paired, rfl⟩
  have shown : (Reader.peek >>= rest') us = rest' (headLexeme ts) us := by
    rw [← same ts us paired]
    rfl
  rw [shown]
  exact follows ts us ⟨paired, rfl⟩

/-- What is done depends on the lexeme at the front, which is the same. -/
theorem peek {rest rest' : Lexeme → Reader α}
    (same : ∀ ts us, before ts us → headLexeme us = headLexeme ts)
    (each : ∀ l, Follows strict (At before l) (rest l) (rest' l) behind) :
    Follows strict before (peek >>= rest) (peek >>= rest') behind :=
  fun ts us paired => (each (headLexeme ts)).peekAt same ts us ⟨paired, rfl⟩

/-- What stands behind a branching is shared by its branches. -/
theorem join {jump jump' : β → Reader α} {branches branches' : (β → Reader α) → Reader α}
    (middle : β → Pairing)
    (each : ∀ next next', (∀ b, Follows strict (middle b) (next b) (next' b) behind) →
      Follows strict before (branches next) (branches' next') behind)
    (more : ∀ b, Follows strict (middle b) (jump b) (jump' b) behind) :
    Follows strict before (have next := jump; branches next) (have next := jump'; branches' next)
      behind :=
  each jump jump' more

/-- Something may be read in between. -/
theorem skipped {condition : Prop} [Decidable condition] {item item' : Reader β}
    (reads : Follows strict before item item' fun _ => before)
    (more : Follows strict before r r' behind) :
    Follows strict before (if condition then r else item >>= fun _ => r)
      (if condition then r' else item' >>= fun _ => r') behind :=
  either more (reads.bind fun _ => more)

/-- A branch that reads nothing. -/
theorem nothing {b : β} {next next' : β → Reader α}
    (more : ∀ b, Follows strict before (next b) (next' b) behind) :
    Follows strict before (Pure.pure b >>= next) (Pure.pure b >>= next') behind :=
  bind (pure fun _ _ => id) more

/-- A branch that reads one thing. -/
theorem single {item item' : Reader β} {next next' : List β → Reader α}
    (follows : Follows strict before item item' fun _ => before')
    (more : ∀ bs, Follows strict before' (next bs) (next' bs) behind) :
    Follows strict before (item >>= fun b => Pure.pure [b] >>= next)
      (item' >>= fun b => Pure.pure [b] >>= next') behind :=
  follows.bind fun _ => nothing more

theorem mapM {γ : Type} {each each' : γ → Reader α} {cs : List γ}
    (item : ∀ c ∈ cs, Tracks strict R (each c) (each' c)) :
    Tracks strict R (cs.mapM each) (cs.mapM each') := by
  induction cs with
  | nil => exact .pure fun _ _ => id
  | cons c cs ih =>
    obtain ⟨first, others⟩ := List.forall_mem_cons.mp item
    rw [List.mapM_cons, List.mapM_cons]
    exact first.bind fun _ => (ih others).bind fun _ => .pure fun _ _ => id

/-! ### Repetition -/

/-- The lists are paired in one way as long as rounds find something, and in another way behind the
round that declines. A round that finds something without reading is the last one. -/
theorem many {before behind : Pairing} {round round' : Reader (Option α)}
    (each : Follows strict before round round' fun found => if found.isSome then before else behind)
    (shorter : ∀ {ts us ts' us'}, before ts us → before ts' us' →
      (ts'.length < ts.length ↔ us'.length < us.length))
    (last : ∀ ts us a ts' us', before ts us → before ts' us' → round ts = .ok (some a, ts') →
      ts'.length < ts.length ∨ behind ts' us') :
    Follows strict before (many round) (many round') fun _ => behind := by
  intro ts
  induction size : ts.length using Nat.strongRecOn generalizing ts with
  | ind n ih =>
    intro us paired
    obtain ⟨reads, fails⟩ := each ts us paired
    rw [Reader.many, Reader.many]
    cases ran : round ts with
    | error e =>
      refine ⟨nofun, fun exactly e₁ failed => ?_⟩
      obtain ⟨⟩ := failed
      obtain ⟨e', ran', same⟩ := fails exactly e ran
      exact ⟨e', by rw [ran'], same⟩
    | ok read =>
      obtain ⟨found, ts'⟩ := read
      obtain ⟨us', ran', further⟩ := reads found ts' ran
      rw [ran']
      cases found with
      | none =>
        refine ⟨fun as left read => ?_, nofun⟩
        obtain ⟨⟩ := read
        exact ⟨us', rfl, further⟩
      | some a =>
        have inStep := shorter paired further
        dsimp only
        by_cases less : ts'.length < ts.length
        · rw [if_pos less, if_pos (inStep.mp less)]
          obtain ⟨reads, fails⟩ := ih _ (size ▸ less) ts' rfl us' further
          cases ran : Reader.many round ts' with
          | error e =>
            refine ⟨nofun, fun exactly e₁ failed => ?_⟩
            obtain ⟨⟩ := failed
            obtain ⟨e', ran', same⟩ := fails exactly e ran
            exact ⟨e', by rw [ran'], same⟩
          | ok read =>
            obtain ⟨us', ran', further⟩ := reads _ _ ran
            refine ⟨fun as left read => ?_, nofun⟩
            obtain ⟨⟩ := read
            exact ⟨us', by rw [ran'], further⟩
        · rw [if_neg less, if_neg (mt inStep.mpr less)]
          refine ⟨fun as left read => ?_, nofun⟩
          obtain ⟨⟩ := read
          exact ⟨us', rfl, (last ts us a ts' us' paired further ran).resolve_left less⟩

/-! ### Failures -/

theorem fail {fault : Fault} :
    Follows strict before (fail fault : Reader α) (fail fault) behind := by
  refine fun ts us _ => ⟨nofun, fun _ e failed => ?_⟩
  obtain ⟨⟩ := failed
  exact ⟨_, rfl, rfl⟩

/-- A place is told in failures only. -/
theorem position {rest rest' : Text.Position → Reader α}
    (more : ∀ p q, Follows strict before (rest p) (rest' q) behind) :
    Follows strict before (position >>= rest) (position >>= rest') behind :=
  fun ts us paired => more _ _ ts us paired

/-- A look at the token behind the front means nothing where it changes nothing. -/
theorem peekSecond {rest rest' : Lexeme → Reader α}
    (more : ∀ l l', Follows strict before (rest l) (rest' l') behind) :
    Follows strict before (peekSecond >>= rest) (peekSecond >>= rest') behind :=
  fun ts us paired => more _ _ ts us paired

/-- What is known without reading: the same value, or the same fault somewhere. -/
theorem monadLift {x y : Except SyntaxError α} (paired : ∀ a ts us, before ts us → behind a ts us)
    (same : x.mapError SyntaxError.fault = y.mapError SyntaxError.fault) :
    Follows strict before (monadLift x) (monadLift y) behind := by
  intro ts us holds
  cases x with
  | ok a =>
    cases y with
    | error e => cases same
    | ok b =>
      obtain ⟨⟩ := same
      refine ⟨fun b ts' read => ?_, nofun⟩
      obtain ⟨⟩ := read
      exact ⟨us, rfl, paired a ts us holds⟩
  | error e =>
    cases y with
    | ok b => cases same
    | error e' =>
      refine ⟨nofun, fun _ e₁ failed => ?_⟩
      obtain ⟨⟩ := failed
      exact ⟨e', rfl, (Except.error.inj same).symm⟩

end Follows

/-! ### Looking at the tokens -/

variable (parallel : Parallel strict R)

namespace Parallel

include parallel

/-- What is done depends on the lexeme at the front. A closing parenthesis is taken for the end of a
line. -/
theorem peek {rest rest' : Lexeme → Reader α} (blind : rest' (.op ")") = rest' .newline)
    (each : ∀ l, Follows strict (At R l) (rest l) (rest' l) behind) :
    Follows strict R (peek >>= rest) (peek >>= rest') behind := by
  intro ts us paired
  have shown : (Reader.peek >>= rest') us = rest' (headLexeme ts) us := by
    rcases parallel.head paired with same | ⟨-, line, closing⟩
    · rw [← same]
      rfl
    · rw [line, ← blind, ← closing]
      rfl
  rw [shown]
  exact each _ ts us ⟨paired, rfl⟩

/-- What is done depends on the lexeme at the front, and at the end of a line it fails. -/
theorem peekOrFail {rest rest' : Lexeme → Reader α} (refuses : Refuses (rest .newline) .newline)
    (each : ∀ l, Follows strict (At R l) (rest l) (rest' l) behind) :
    Follows strict R (Reader.peek >>= rest) (Reader.peek >>= rest') behind := by
  intro ts us paired
  rcases parallel.head paired with same | ⟨lax, line, -⟩
  · have shown : (Reader.peek >>= rest') us = rest' (headLexeme ts) us := by
      rw [← same]
      rfl
    rw [shown]
    exact each _ ts us ⟨paired, rfl⟩
  · obtain ⟨e, failed⟩ := Refuses.peek refuses ts line
    refine ⟨fun a ts' read => ?_, fun exactly => absurd exactly lax⟩
    cases read.symm.trans failed

theorem unexpected : Follows strict R (unexpected : Reader α) unexpected behind := by
  intro ts us paired
  refine ⟨nofun, fun exactly e failed => ?_⟩
  obtain ⟨⟩ := failed
  rcases parallel.head paired with same | ⟨lax, -⟩
  · exact ⟨_, rfl, by show _ = _; rw [same]⟩
  · exact absurd exactly lax

/-- A question about the lexeme at the front. -/
theorem question {question : Reader Bool} (asked : Lexeme → Bool)
    (answers : ∀ ts, question ts = .ok (asked (headLexeme ts), ts))
    (blind : asked (.op ")") = asked .newline)
    (content : ∀ l, asked l = true → l.isContent = true) :
    Follows strict R question question (Answered R) := by
  intro ts us paired
  refine ⟨fun a ts' read => ?_, fun _ e failed => by cases (answers ts).symm.trans failed⟩
  obtain ⟨⟩ := (answers ts).symm.trans read
  have same : asked (headLexeme us) = asked (headLexeme ts) := by
    rcases parallel.head paired with same | ⟨-, line, closing⟩
    · rw [same]
    · rw [line, closing, blind]
  refine ⟨us, by rw [answers us, same], ?_⟩
  cases answer : asked (headLexeme ts) with
  | true => exact ⟨paired, content _ answer⟩
  | false => exact paired

theorem isOp {op : String} (other : op ≠ ")") :
    Follows strict R (isOp op) (isOp op) (Answered R) := by
  have blind : (Lexeme.op ")" == .op op) = (Lexeme.newline == .op op) :=
    beq_eq_false_iff_ne.mpr fun same => other (Lexeme.op.inj same).symm
  refine parallel.question (· == .op op) (fun _ => rfl) blind fun l here => ?_
  rw [beq_iff_eq.mp here]
  rfl

theorem isWord {word : String} : Follows strict R (isWord word) (isWord word) (Answered R) := by
  have blind : (Lexeme.op ")" == .name word) = (Lexeme.newline == .name word) := rfl
  refine parallel.question (· == .name word) (fun _ => rfl) blind fun l here => ?_
  rw [beq_iff_eq.mp here]
  rfl

theorem isOneOf {ops : List String} (other : ops.contains ")" = false) :
    Follows strict R (isOneOf ops) (isOneOf ops) (Answered R) := by
  refine parallel.question _ (isOneOf_eq ops) other fun l here => ?_
  cases l with
  | op => rfl
  | _ => cases here

theorem startsExpression :
    Follows strict R startsExpression startsExpression (Answered R) := by
  refine parallel.question _ startsExpression_eq rfl fun l here => ?_
  cases l with
  | name | number | string | op => rfl
  | _ => cases here

theorem advance : Follows strict (Content R) advance advance fun _ => R :=
  .advance fun _ _ paired => parallel.drop paired.1 paired.2

theorem eatIf {here : Reader Bool} (asked : Follows strict R here here (Answered R)) :
    Tracks strict R (eatIf here) (eatIf here) :=
  .choose asked (parallel.advance.bind fun _ => .pure fun _ _ => id) (.pure fun _ _ => id)

theorem eatOp {op : String} (other : op ≠ ")") :
    Tracks strict R (eatOp op) (eatOp op) :=
  parallel.eatIf (parallel.isOp other)

theorem eatWord {word : String} : Tracks strict R (eatWord word) (eatWord word) :=
  parallel.eatIf parallel.isWord

theorem peekSecond {rest rest' : Lexeme → Reader α} (blind : rest' (.op ")") = rest' .newline)
    (each : ∀ l, Follows strict (fun ts us => Content R ts us ∧ headLexeme (ts.drop 1) = l)
      (rest l) (rest' l) behind) :
    Follows strict (Content R) (peekSecond >>= rest) (peekSecond >>= rest') behind := by
  intro ts us paired
  have shown : (Reader.peekSecond >>= rest') us = rest' (headLexeme (ts.drop 1)) us := by
    rcases parallel.head (parallel.drop paired.1 paired.2) with same | ⟨-, line, closing⟩
    · rw [← same]
      rfl
    · rw [line, ← blind, ← closing]
      rfl
  rw [shown]
  exact each _ ts us ⟨paired, rfl⟩

/-- The lexeme that has been seen from afar is at the front then. -/
theorem advanceTo {l : Lexeme} :
    Follows strict (fun ts us => Content R ts us ∧ headLexeme (ts.drop 1) = l) Reader.advance
      Reader.advance fun _ => At R l :=
  .advance fun _ _ paired => ⟨parallel.drop paired.1.1 paired.1.2, paired.2⟩

/-- Two lexemes are passed over together, or not at all. -/
theorem skipTwo {condition : Bool} {l second : Lexeme} {s s' : Reader α}
    (yes : Follows strict R r r' behind) (no : Follows strict R s s' behind)
    (written : l.isContent = true) :
    Follows strict (fun ts us => Content R ts us ∧ headLexeme (ts.drop 1) = second)
      (if (condition && second == l) = true then
        Reader.advance >>= fun _ => Reader.advance >>= fun _ => r else s)
      (if (condition && second == l) = true then
        Reader.advance >>= fun _ => Reader.advance >>= fun _ => r' else s') behind := by
  by_cases both : (condition && second == l) = true
  · rw [if_pos both, if_pos both]
    obtain rfl := beq_iff_eq.mp (Bool.and_eq_true_iff.mp both).2
    exact parallel.advanceTo.bind fun _ => (parallel.advance.content written).bind fun _ => yes
  · rw [if_neg both, if_neg both]
    exact no.front fun _ _ paired => paired.1.1

/-! ### Closing marks -/

/-- Which way to go where a mark may close what is being read. At the end of a line there is no
other way. -/
theorem closing {op : String} {no no' : Reader α} (refuses : Refuses no .newline)
    (found : Follows strict (At R (.op op)) r r' behind) (other : Follows strict R no no' behind) :
    Follows strict R (Reader.isOp op >>= fun here => if here = true then r else no)
      (Reader.isOp op >>= fun here => if here = true then r' else no') behind := by
  have unfolded : ∀ yes no : Reader α,
      (Reader.isOp op >>= fun here => if here = true then yes else no) =
        (Reader.peek >>= fun l => if (l == .op op) = true then yes else no) := fun _ _ => rfl
  rw [unfolded, unfolded]
  refine parallel.peekOrFail refuses fun l => ?_
  by_cases here : l = .op op
  · subst here
    simpa using found
  · simpa [here] using other.anywhere

theorem eatClosing {op : String} {no no' : Reader α} (refuses : Refuses no .newline)
    (found : Follows strict R r r' behind) (other : Follows strict R no no' behind) :
    Follows strict R (Reader.eatOp op >>= fun here => if here = true then r else no)
      (Reader.eatOp op >>= fun here => if here = true then r' else no') behind := by
  have unfolded : ∀ yes no : Reader α,
      (Reader.eatOp op >>= fun here => if here = true then yes else no) =
        (Reader.isOp op >>= fun here => if here = true then Reader.advance >>= fun _ => yes else no) := by
    intro yes no
    simp only [Reader.eatOp, Reader.eatIf, bind_assoc]
    congr
    funext here
    cases here <;> rfl
  rw [unfolded, unfolded]
  exact parallel.closing refuses ((parallel.advance.content (by rfl)).bind fun _ => found) other

theorem expectOp {op : String} : Tracks strict R (expectOp op) (expectOp op) := by
  refine parallel.eatClosing (.peek (.fail _)) (.pure fun _ _ => id) ?_
  exact parallel.peekOrFail (.fail _) fun _ => .fail

theorem expectWord {word : String} : Tracks strict R (expectWord word) (expectWord word) :=
  .choose parallel.eatWord (.pure fun _ _ => id) (parallel.peekOrFail (.fail _) fun _ => .fail)

theorem expectName : Tracks strict R expectName expectName := by
  refine parallel.peekOrFail (.fail _) fun l => ?_
  cases l with
  | name text =>
    exact .either .fail ((parallel.advance.content (by rfl)).bind fun _ => .pure fun _ _ => id)
  | _ => exact .fail

theorem keyword : Follows strict R keyword keyword (Seen R) := by
  refine parallel.peek rfl fun l => ?_
  cases l with
  | name text => exact .pure fun _ _ paired => ⟨paired.1, fun _ => paired.2 ▸ rfl⟩
  | _ => exact .pure fun _ _ paired => ⟨paired.1, fun word => absurd rfl word⟩

/-! ### Repetition -/

theorem many {round round' : Reader (Option α)} (each : Tracks strict R round round') :
    Tracks strict R (many round) (many round') :=
  Follows.many (each.weaken (fun _ _ => id) fun found _ _ paired => by cases found <;> exact paired)
    parallel.shorter fun _ _ _ _ _ _ paired _ => .inr paired

theorem manyWhile {more : Reader Bool} (asked : Tracks strict R more more)
    (item : Tracks strict R r r') : Tracks strict R (manyWhile more r) (manyWhile more r') :=
  parallel.many <| .choose asked (item.bind fun _ => .pure fun _ _ => id) (.pure fun _ _ => id)

theorem oneAndMore {more : Reader Bool} (asked : Tracks strict R more more)
    (item : Tracks strict R r r') : Tracks strict R (oneAndMore more r) (oneAndMore more r') :=
  item.bind fun _ => (parallel.manyWhile asked item).bind fun _ => .pure fun _ _ => id

/-- Items behind commas, up to a closing mark. -/
theorem manyUpTo {close : String} (refuses : Refuses r .newline) (item : Tracks strict R r r') :
    Tracks strict R
      (Reader.manyWhile (do if ← Reader.eatOp "," then return !(← Reader.isOp close) else return false) r)
      (Reader.manyWhile (do if ← Reader.eatOp "," then return !(← Reader.isOp close) else return false)
        r') := by
  have unfolded : ∀ item : Reader α,
      (do if ← (do if ← Reader.eatOp "," then return !(← Reader.isOp close) else return false) then
            return some (← item)
          else return none) =
        (Reader.eatOp "," >>= fun comma => if comma = true then
          Reader.isOp close >>= fun closed => if closed = true then Pure.pure none
            else item >>= fun a => Pure.pure (some a)
          else Pure.pure none) := by
    intro item
    simp only [bind_assoc]
    congr
    funext comma
    cases comma with
    | false => rfl
    | true =>
      simp only [if_true, bind_assoc, pure_bind]
      congr
      funext closed
      cases closed <;> rfl
  unfold Reader.manyWhile
  rw [unfolded, unfolded]
  refine parallel.many (.choose (parallel.eatOp (by decide)) ?_ (.pure fun _ _ => id))
  exact parallel.closing refuses.bind (.pure fun _ _ paired => paired.1)
    (item.bind fun _ => .pure fun _ _ => id)

theorem commaSeparated {close : String} (refuses : Refuses r .newline)
    (item : Tracks strict R r r') :
    Tracks strict R (commaSeparated (Reader.isOp close) r)
      (commaSeparated (Reader.isOp close) r') :=
  item.bind fun _ => (parallel.manyUpTo refuses item).bind fun _ => .pure fun _ _ => id

/-- Rules that are followed as far as the rules they call again are. -/
theorem recursive {rules rules' : (ι → Reader α) → ι → Reader α}
    (step : ∀ again again', (∀ rule, Tracks strict R (again rule) (again' rule)) →
      ∀ rule, Tracks strict R (rules again rule) (rules' again' rule)) (rule : ι) :
    Tracks strict R (recursive rules rule) (recursive rules' rule) := by
  intro ts
  induction size : ts.length using Nat.strongRecOn generalizing rule ts with
  | ind n ih =>
    intro us paired
    rw [Reader.recursive, Reader.recursive]
    refine step _ _ (fun again ts' us' further => ?_) rule ts us paired
    have inStep := parallel.shorter paired further
    dsimp only
    by_cases less : ts'.length < ts.length
    · rw [if_pos less, if_pos (inStep.mp less)]
      exact ih _ (size ▸ less) again ts' rfl us' further
    · rw [if_neg less, if_neg (mt inStep.mpr less)]
      refine ⟨nofun, fun exactly e failed => ?_⟩
      obtain ⟨⟩ := failed
      rcases parallel.head further with same | ⟨lax, -⟩
      · exact ⟨_, rfl, by show _ = _; rw [same]⟩
      · exact absurd exactly lax

end Parallel

end ConceptForest.Script
