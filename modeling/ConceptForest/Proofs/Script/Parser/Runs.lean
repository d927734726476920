import ConceptForest.Proofs.Script.Passing.Readers
import ConceptForest.Proofs.Steps
import ConceptForest.Script.Parser

/-!
Rules of a parser that run as readers do.

`Runs` ties a rule to a reader. On a parser over tokens that end with the end of the input the rule
finds what the reader finds in the tokens that are left, fails where the reader fails and for the
same reason, and in any case leaves the tokens and the depth as they were; what it does to the scopes
depends on what has been read alone. There is one lemma for every way to put rules together, so that a
rule of the grammar is gone through once, beside its reader. What is changed for a while and changed
back (`Runs.deeper`) is changed back by a rule that fails as well.
-/

namespace ConceptForest.Script

namespace Parser

variable {n k j : Nat} {p q : Parser}

/-! ### Parsers that can be run -/

/-- The tokens that are left. -/
def rest (p : Parser) : List Token :=
  p.tokens.drop p.place

/-- The parser stands in front of one of at most `k` tokens, the last of which is the end of the
input, and `n` more nesting levels may be opened. -/
structure Fits (n k : Nat) (p : Parser) : Prop where
  ends : ∃ front here, p.tokens = front ++ [⟨.endOfInput, here⟩]
  within : p.place < p.tokens.length
  room : p.room = n
  left : p.left ≤ k

theorem left_eq (p : Parser) : p.left = p.rest.length :=
  List.length_drop.symm

theorem Fits.mono (fits : p.Fits n j) (more : j ≤ k) : p.Fits n k :=
  ⟨fits.ends, fits.within, fits.room, Nat.le_trans fits.left more⟩

/-- As many tokens are left as there are. -/
theorem Fits.self (fits : p.Fits n k) : p.Fits n p.left :=
  ⟨fits.ends, fits.within, fits.room, Nat.le_refl _⟩

theorem Fits.left_pos (fits : p.Fits n k) : 0 < p.left :=
  Nat.sub_pos_of_lt fits.within

/-- Further on, with other scopes. -/
theorem Fits.onward {place : Nat} {scopes : Scopes} (fits : p.Fits n k)
    (within : place < p.tokens.length) (left : p.tokens.length - place ≤ j) :
    Fits n j { p with place, scopes } :=
  ⟨fits.ends, within, fits.room, left⟩

/-- The end of the input is the last of the tokens that are left. -/
theorem Fits.rest_eq (fits : p.Fits n k) : ∃ front here, p.rest = front ++ [⟨.endOfInput, here⟩] := by
  obtain ⟨front, here, same⟩ := fits.ends
  have within := fits.within
  rw [same, List.length_append, List.length_singleton] at within
  refine ⟨front.drop p.place, here, ?_⟩
  rw [rest, same, List.drop_append_of_le_length (by omega)]

/-- Where the tokens are looked at, the front of what is left is seen; behind the end, the end. -/
theorem Fits.token?_eq (fits : p.Fits n k) :
    ((p.token? (p.place + j)).map Token.lexeme).getD .endOfInput = headLexeme (p.rest.drop j) := by
  obtain ⟨front, here, same⟩ := fits.ends
  rw [token?, rest, List.drop_drop, ← List.head?_drop]
  cases p.tokens.drop (p.place + j) with
  | nil => simp [same, headLexeme]
  | cons t ts => rfl

theorem Fits.position_eq (fits : p.Fits n k) :
    ((p.token? p.place).map Token.position).getD .start = headPosition p.rest := by
  rw [token?, rest, ← List.head?_drop]
  cases left : p.tokens.drop p.place with
  | nil => exact absurd (List.drop_eq_nil_iff.mp left) (Nat.not_le.mpr fits.within)
  | cons t ts => rfl

/-- Another token follows unless the end is at the front. -/
theorem Fits.succ_place_lt (fits : p.Fits n k) (inside : headLexeme p.rest ≠ .endOfInput) :
    p.place + 1 < p.tokens.length := by
  obtain ⟨front, here, same⟩ := fits.rest_eq
  have length := congrArg List.length same
  rw [rest, List.length_drop, List.length_append, List.length_singleton] at length
  cases front with
  | nil => exact absurd (by rw [same]; rfl) inside
  | cons t ts =>
    rw [List.length_cons] at length
    omega

theorem Fits.advance_eq (fits : p.Fits n k) :
    advance p = .ok () { p with place := p.place + 1 } := by
  show EStateM.Result.ok () (if p.place < p.tokens.length then _ else p) = _
  rw [if_pos fits.within]

/-! ### Rules beside readers -/

variable {α β γ δ : Type} {front : List Token → Prop} {scopes : Scopes}
  {m m' : Rule β} {r r' : Reader α} {value : α → β} {after : α → Scopes}
  {f : β → Rule δ} {g : α → Reader γ} {value' : γ → δ} {after' : γ → Scopes}

/-- On such parsers with these scopes, and with that front, the rule runs as the reader does. -/
def Runs (n k : Nat) (front : List Token → Prop) (scopes : Scopes) (rule : Rule β)
    (reader : Reader α) (value : α → β) (after : α → Scopes) : Prop :=
  ∀ p : Parser, p.Fits n k → p.scopes = scopes → front p.rest →
    (∀ a rest, reader p.rest = .ok (a, rest) → ∃ place, p.place ≤ place ∧
      place < p.tokens.length ∧ p.tokens.drop place = rest ∧
        rule p = .ok (value a) { p with place, scopes := after a }) ∧
      ∀ e, reader p.rest = .error e →
        ∃ q, rule p = .error e q ∧ q.tokens = p.tokens ∧ q.depth = p.depth

/-- Whatever the scopes are, the rule runs as the reader does, and does nothing to them. -/
def Agrees (n k : Nat) (front : List Token → Prop) (rule : Rule α) (reader : Reader α) : Prop :=
  ∀ scopes, Runs n k front scopes rule reader (fun a => a) fun _ => scopes

/-- The question is one about the lexeme at the front. -/
structure Asks (question : Rule Bool) (question' : Reader Bool) (asked : Lexeme → Bool) : Prop where
  rule : question = peek >>= fun l => pure (asked l)
  reader : question' = Reader.peek >>= fun l => pure (asked l)

variable {question : Rule Bool} {question' : Reader Bool} {asked : Lexeme → Bool}

theorem deeper_of_ok {fault : Fault} {b : β} (low : p.depth < maxNesting)
    (run : m { p with depth := p.depth + 1 } = .ok b q) :
    deeper fault m p = .ok b { q with depth := q.depth - 1 } := by
  have tried : attempt m { p with depth := p.depth + 1 } = .ok (.ok b) q := by rw [attempt, run]
  exact (bind_of_ok (run_get p)).trans <|
    (congrFun (if_neg (Nat.not_le.mpr low)) p).trans (bind_of_ok tried)

theorem deeper_of_error {fault : Fault} {e : SyntaxError} (low : p.depth < maxNesting)
    (run : m { p with depth := p.depth + 1 } = .error e q) :
    deeper fault m p = .error e { q with depth := q.depth - 1 } := by
  have tried : attempt m { p with depth := p.depth + 1 } = .ok (.error e) q := by rw [attempt, run]
  exact (bind_of_ok (run_get p)).trans <|
    (congrFun (if_neg (Nat.not_le.mpr low)) p).trans (bind_of_ok tried)

namespace Runs

/-! ### One after the other -/

theorem pure {a : α} {b : β} (same : value a = b) (done : after a = scopes) :
    Runs n k front scopes (pure b) (pure a) value after := by
  subst same
  rintro p fits rfl -
  refine ⟨?_, nofun⟩
  rintro _ _ ⟨⟩
  exact ⟨p.place, Nat.le_refl _, fits.within, rfl, by rw [done]; rfl⟩

/-- What is left behind the first rule bounds what is left in front of the next. -/
theorem bind_of (first : Runs n k front scopes m r value after)
    (less : ∀ us a rest, r us = .ok (a, rest) → rest.length ≤ us.length → us.length ≤ k →
      rest.length ≤ j)
    (further : ∀ a, Runs n j Anywhere (after a) (f (value a)) (g a) value' after') :
    Runs n k front scopes (m >>= f) (r >>= g) value' after' := by
  intro p fits same here
  obtain ⟨reads, fails⟩ := first p fits same here
  -- where the first rule has come to, the next one is run
  have next : ∀ a us, r p.rest = .ok (a, us) → ∃ place, p.place ≤ place ∧
      place < p.tokens.length ∧ p.tokens.drop place = us ∧
      m p = .ok (value a) { p with place, scopes := after a } ∧
      Fits n j { p with place, scopes := after a } := by
    intro a us one
    obtain ⟨place, later, within, rfl, run⟩ := reads a us one
    have left := List.length_drop (i := place) (l := p.tokens)
    have length := List.length_drop (i := p.place) (l := p.tokens)
    refine ⟨place, later, within, rfl, run, fits.onward within ?_⟩
    rw [← left]
    refine less _ a _ one ?_ ?_
    · rw [left, rest, length]
      omega
    · exact p.left_eq ▸ fits.left
  constructor
  · intro b us run
    obtain ⟨⟨a, middle⟩, one, others⟩ := bind_eq_ok_iff.mp run
    obtain ⟨place, later, within, rfl, ran, fits⟩ := next a middle one
    obtain ⟨place', later', within', rfl, ran'⟩ := (further a _ fits rfl trivial).1 b us others
    exact ⟨place', Nat.le_trans later later', within', rfl, (bind_of_ok ran).trans ran'⟩
  · intro e failed
    cases one : r p.rest with
    | error e₁ =>
      obtain ⟨⟩ := (run_bind_of_error one).symm.trans failed
      obtain ⟨q, ran, kept⟩ := fails e one
      exact ⟨q, bind_of_error ran, kept⟩
    | ok read =>
      obtain ⟨a, middle⟩ := read
      rw [run_bind_of_ok one] at failed
      obtain ⟨place, later, within, rfl, ran, fits⟩ := next a middle one
      obtain ⟨q, ran', kept⟩ := (further a _ fits rfl trivial).2 e failed
      exact ⟨q, (bind_of_ok ran).trans ran', kept⟩

theorem bind (first : Runs n k front scopes m r value after)
    (further : ∀ a, Runs n k Anywhere (after a) (f (value a)) (g a) value' after') :
    Runs n k front scopes (m >>= f) (r >>= g) value' after' :=
  first.bind_of (fun _ _ _ _ => Nat.le_trans) further

/-- Behind a token that has been passed over. -/
theorem past (first : Runs n k front scopes m r value after)
    (passes : Reads Anywhere r fun _ read => read ≠ [])
    (further : ∀ a, Runs n (k - 1) Anywhere (after a) (f (value a)) (g a) value' after') :
    Runs n k front scopes (m >>= f) (r >>= g) value' after' := by
  refine first.bind_of (fun us a rest run _ bound => ?_) further
  obtain ⟨read, rfl, -, passed⟩ := passes us a rest trivial run
  have := List.length_pos_iff.mpr passed
  rw [List.length_append] at bound
  omega

/-- The reader makes something else of what it has read. -/
theorem returning {made : α → γ} {value' : γ → β} {after' : γ → Scopes}
    (runs : Runs n k front scopes m r value after) (same : ∀ a, value' (made a) = value a)
    (done : ∀ a, after' (made a) = after a) :
    Runs n k front scopes m (r >>= fun a => Pure.pure (made a)) value' after' := by
  rw [← bind_pure m]
  exact runs.bind fun a => pure (same a) (done a)

theorem mono (runs : Runs n k front scopes m r value after) (less : j ≤ k) :
    Runs n j front scopes m r value after :=
  fun p fits => runs p (fits.mono less)

/-- Where rule and reader can be run they may be replaced. -/
theorem congr (rule : ∀ p : Parser, p.Fits n k → m p = m' p)
    (reader : ∀ p : Parser, p.Fits n k → r p.rest = r' p.rest)
    (runs : Runs n k front scopes m' r' value after) : Runs n k front scopes m r value after := by
  intro p fits same here
  rw [rule p fits, reader p fits]
  exact runs p fits same here

/-- Less is known of the front. -/
theorem under (runs : Runs n k Anywhere scopes m r value after) :
    Runs n k front scopes m r value after :=
  fun p fits same _ => runs p fits same trivial

/-! ### Branches -/

theorem either {condition : Prop} [Decidable condition]
    (yes : condition → Runs n k front scopes m r value after)
    (no : ¬ condition → Runs n k front scopes m' r' value after) :
    Runs n k front scopes (if condition then m else m') (if condition then r else r') value
      after := by
  split
  · next holds => exact yes holds
  · next fails => exact no fails

/-- One rule or the other, depending on what is at the front. -/
theorem choose (asked : Agrees n k front question question')
    (yes : Runs n k Anywhere scopes m r value after)
    (no : Runs n k Anywhere scopes m' r' value after) :
    Runs n k front scopes (question >>= fun answer => if answer = true then m else m')
      (question' >>= fun answer => if answer = true then r else r') value after :=
  (asked scopes).bind fun _ => .either (fun _ => yes) fun _ => no

/-! ### Looking at the tokens -/

theorem peek {f : Lexeme → Rule β} {g : Lexeme → Reader α}
    (each : ∀ l, Runs n k (fun us => front us ∧ headLexeme us = l) scopes (f l) (g l) value after) :
    Runs n k front scopes (peek >>= f) (Reader.peek >>= g) value after := by
  intro p fits same here
  have shown : (Parser.peek >>= f) p = f (headLexeme p.rest) p := by
    show f _ p = _
    rw [fits.token?_eq]
    rfl
  rw [shown]
  exact each _ p fits same ⟨here, rfl⟩

theorem peekSecond {f : Lexeme → Rule β} {g : Lexeme → Reader α}
    (each : ∀ l, Runs n k (fun us => front us ∧ headLexeme (us.drop 1) = l) scopes (f l) (g l) value
      after) :
    Runs n k front scopes (peekSecond >>= f) (Reader.peekSecond >>= g) value after := by
  intro p fits same here
  have shown : (Parser.peekSecond >>= f) p = f (headLexeme (p.rest.drop 1)) p := by
    show f _ p = _
    rw [fits.token?_eq]
  rw [shown]
  exact each _ p fits same ⟨here, rfl⟩

theorem position {f : Text.Position → Rule β} {g : Text.Position → Reader α}
    (each : ∀ here, Runs n k front scopes (f here) (g here) value after) :
    Runs n k front scopes (position >>= f) (Reader.position >>= g) value after := by
  intro p fits same here
  have shown : (Parser.position >>= f) p = f (headPosition p.rest) p := by
    show f _ p = _
    rw [fits.position_eq]
  rw [shown]
  exact each _ p fits same here

/-- Passes over a token that is known not to be the end. -/
theorem advance (inside : ∀ us, front us → headLexeme us ≠ .endOfInput) :
    Runs n k front scopes advance Reader.advance (fun a => a) fun _ => scopes := by
  rintro p fits rfl here
  refine ⟨?_, nofun⟩
  rintro _ _ ⟨⟩
  exact ⟨p.place + 1, Nat.le_succ _, fits.succ_place_lt (inside _ here), List.drop_drop.symm,
    fits.advance_eq⟩

/-! ### Failures -/

theorem throw {e : SyntaxError} :
    Runs n k front scopes (throw e : Rule β) (throw e : Reader α) value after := by
  intro p _ _ _
  refine ⟨nofun, ?_⟩
  rintro _ ⟨⟩
  exact ⟨p, rfl, rfl, rfl⟩

theorem fail {fault : Fault} :
    Runs n k front scopes (fail fault : Rule β) (Reader.fail fault : Reader α) value after :=
  position fun _ => throw

theorem unexpected :
    Runs n k front scopes (unexpected : Rule β) (Reader.unexpected : Reader α) value after :=
  peek fun _ => fail

/-! ### Questions about the front -/

theorem ask {f : Bool → Rule β} {g : Bool → Reader α} (asks : Asks question question' asked)
    (each : ∀ answer, Runs n k (fun us => front us ∧ asked (headLexeme us) = answer) scopes
      (f answer) (g answer) value after) :
    Runs n k front scopes (question >>= f) (question' >>= g) value after := by
  obtain ⟨rfl, rfl⟩ := asks
  rw [bind_assoc, bind_assoc]
  simp only [pure_bind]
  exact peek fun l => fun p fits same here => each _ p fits same ⟨here.1, congrArg asked here.2⟩

/-- Passes over a token that is known not to be the end. -/
theorem skip (inside : ∀ us, front us → headLexeme us ≠ .endOfInput)
    (further : Runs n (k - 1) (fun us => ∃ t, front (t :: us)) scopes m r value after) :
    Runs n k front scopes (Parser.advance >>= fun _ => m) (Reader.advance >>= fun _ => r) value
      after := by
  rintro p fits rfl here
  have within := fits.succ_place_lt (inside _ here)
  have left : p.tokens.length - p.place ≤ k := fits.left
  have next : Fits n (k - 1) { p with place := p.place + 1 } :=
    fits.onward within (by omega)
  have rest_eq : p.rest = p.tokens.get ⟨p.place, fits.within⟩ :: p.tokens.drop (p.place + 1) :=
    List.drop_eq_getElem_cons fits.within
  obtain ⟨reads, fails⟩ := further _ next rfl ⟨_, rest_eq ▸ here⟩
  rw [run_bind_of_ok (rfl : Reader.advance p.rest = .ok ((), p.rest.drop 1)),
    bind_of_ok fits.advance_eq, rest_eq]
  refine ⟨fun a us run => ?_, fails⟩
  obtain ⟨place, later, others⟩ := reads a us run
  exact ⟨place, Nat.le_of_succ_le later, others⟩

/-- One rule behind a fitting token, the other where there is none. -/
theorem eat (asks : Asks question question' asked) (inside : asked .endOfInput = false)
    (yes : Runs n (k - 1) Anywhere scopes m r value after)
    (no : Runs n k front scopes m' r' value after) :
    Runs n k front scopes (eatIf question >>= fun answer => if answer = true then m else m')
      (Reader.eatIf question' >>= fun answer => if answer = true then r else r') value after := by
  have split : (eatIf question >>= fun answer => if answer = true then m else m') =
      question >>= fun answer => if answer = true then Parser.advance >>= fun _ => m else m' := by
    rw [eatIf, bind_assoc]
    congr 1
    funext answer
    cases answer <;> simp
  have split' : (Reader.eatIf question' >>= fun answer => if answer = true then r else r') =
      question' >>= fun answer => if answer = true then Reader.advance >>= fun _ => r else r' := by
    rw [Reader.eatIf, bind_assoc]
    congr 1
    funext answer
    cases answer <;> simp
  rw [split, split']
  refine ask asks fun answer => ?_
  cases answer with
  | true =>
    refine skip (fun us here last => ?_) yes.under
    rw [last, inside] at here
    cases here.2
  | false => exact fun p fits same here => no p fits same here.1

/-- One rule where the word stands, the other where it does not. -/
theorem atWord {word : String}
    (yes : Runs n k (fun us => front us ∧ headLexeme us = .name word) scopes m r value after)
    (no : Runs n k front scopes m' r' value after) :
    Runs n k front scopes (isWord word >>= fun answer => if answer = true then m else m')
      (Reader.isWord word >>= fun answer => if answer = true then r else r') value after := by
  refine ask ⟨rfl, rfl⟩ fun answer => ?_
  cases answer with
  | true => exact fun p fits same here => yes p fits same ⟨here.1, beq_iff_eq.mp here.2⟩
  | false => exact fun p fits same here => no p fits same here.1

/-- The keyword at the front. -/
theorem keyword {f : String → Rule β} {g : String → Reader α}
    (each : ∀ word, Runs n k (fun us => front us ∧ (word ≠ "" → headLexeme us = .name word)) scopes
      (f word) (g word) value after) :
    Runs n k front scopes (keyword >>= f) (Reader.keyword >>= g) value after := by
  have seen : Parser.keyword = Parser.peek >>= fun l => Pure.pure l.keyword := by
    unfold Parser.keyword
    congr 1
    funext l
    cases l <;> rfl
  have seen' : Reader.keyword = Reader.peek >>= fun l => Pure.pure l.keyword :=
    funext keyword_eq
  rw [seen, seen', bind_assoc, bind_assoc]
  simp only [pure_bind]
  refine peek fun l => fun p fits same here => each _ p fits same ⟨here.1, ?_⟩
  rw [here.2]
  cases l with
  | name text =>
    intro some
    rw [Lexeme.keyword] at some ⊢
    split at some
    · next reserved => rw [if_pos reserved]
    · exact absurd rfl some
  | _ => exact fun some => absurd rfl some

/-! ### Repetition -/

/-- What each round does to the scopes, a loop does for all that its rounds find. -/
theorem many {turn : Rule (Option β)} {turn' : Reader (Option α)} {effect : α → Scopes → Scopes}
    (each : ∀ scopes, Runs n k Anywhere scopes turn turn' (Option.map value)
      fun found => found.elim scopes (effect · scopes)) :
    Runs n k front scopes (many turn) (Reader.many turn') (List.map value)
      fun as => as.foldl (fun scopes a => effect a scopes) scopes := by
  refine under fun p => ?_
  induction size : p.left using Nat.strongRecOn generalizing p scopes with
  | ind l ih =>
    rintro fits rfl -
    obtain ⟨reads, fails⟩ := each p.scopes p fits rfl trivial
    rw [Parser.many, Reader.many]
    cases one : turn' p.rest with
    | error e =>
      obtain ⟨q, run, kept⟩ := fails e one
      rw [run]
      refine ⟨by rintro _ _ ⟨⟩, ?_⟩
      rintro _ ⟨⟩
      exact ⟨q, rfl, kept⟩
    | ok read =>
      obtain ⟨found, us⟩ := read
      obtain ⟨place, later, within, rfl, run⟩ := reads found us one
      rw [run]
      cases found with
      | none =>
        refine ⟨?_, by rintro _ ⟨⟩⟩
        rintro _ _ ⟨⟩
        exact ⟨place, later, within, rfl, rfl⟩
      | some a =>
        -- rule and reader find the same number of tokens left, and go on or stop together
        have left : ∀ scopes, left { p with place, scopes } = (p.tokens.drop place).length :=
          fun _ => left_eq _
        simp only [Option.map_some, Option.elim_some, left, left_eq p]
        split
        · next shorter =>
          have bound : p.tokens.length - place ≤ k := by
            have := fits.left
            rw [Parser.left] at this
            omega
          have next : Fits n k { p with place, scopes := effect a p.scopes } :=
            fits.onward within bound
          have less : Parser.left { p with place, scopes := effect a p.scopes } < l := by
            rwa [left, ← size, left_eq p]
          obtain ⟨reads, fails⟩ := ih _ less _ rfl next rfl trivial
          cases others : Reader.many turn' (p.tokens.drop place) with
          | error e =>
            obtain ⟨q, run, kept⟩ := fails e others
            rw [run]
            refine ⟨by rintro _ _ ⟨⟩, ?_⟩
            rintro _ ⟨⟩
            exact ⟨q, rfl, kept⟩
          | ok read =>
            obtain ⟨as, us⟩ := read
            obtain ⟨place', later', within', rfl, run⟩ := reads as us others
            rw [run]
            refine ⟨?_, by rintro _ ⟨⟩⟩
            rintro _ _ ⟨⟩
            exact ⟨place', Nat.le_trans later later', within', rfl, rfl⟩
        · refine ⟨?_, by rintro _ ⟨⟩⟩
          rintro _ _ ⟨⟩
          exact ⟨place, later, within, rfl, rfl⟩

section

variable {effect : α → Scopes → Scopes} {more : Rule Bool} {more' : Reader Bool}

theorem manyWhile (asked : Agrees n k Anywhere more more')
    (item : ∀ scopes, Runs n k Anywhere scopes m r value fun a => effect a scopes) :
    Runs n k front scopes (manyWhile more m) (Reader.manyWhile more' r) (List.map value)
      fun as => as.foldl (fun scopes a => effect a scopes) scopes :=
  many fun scopes => choose asked ((item scopes).bind fun _ => .pure rfl rfl) (.pure rfl rfl)

theorem oneAndMore (asked : Agrees n k Anywhere more more')
    (item : ∀ scopes, Runs n k Anywhere scopes m r value fun a => effect a scopes) :
    Runs n k front scopes (oneAndMore more m) (Reader.oneAndMore more' r) (List.map value)
      fun as => as.foldl (fun scopes a => effect a scopes) scopes :=
  (item scopes).under.bind fun _ => (manyWhile asked item).bind fun _ => .pure rfl rfl

end

/-! ### Nesting -/

/-- One level deeper there is room for one level less; afterwards the depth is what it was. -/
theorem deeper {fault : Fault} (runs : Runs n k front scopes m r value after) :
    Runs (n + 1) k front scopes (deeper fault m) r value after := by
  intro p fits same here
  have low : p.depth < maxNesting := by
    have := fits.room
    rw [room] at this
    omega
  have next : Fits n k { p with depth := p.depth + 1 } := by
    refine ⟨fits.ends, fits.within, ?_, fits.left⟩
    have := fits.room
    rw [room] at this ⊢
    dsimp only
    omega
  obtain ⟨reads, fails⟩ := runs _ next same here
  constructor
  · intro a us read
    obtain ⟨place, later, within, left, run⟩ := reads a us read
    exact ⟨place, later, within, left, deeper_of_ok low run⟩
  · intro e failed
    obtain ⟨q, run, tokens, depth⟩ := fails e failed
    exact ⟨_, deeper_of_error low run, tokens, by rw [depth]; exact Nat.add_sub_cancel ..⟩

/-- Without room the rule is refused. -/
theorem tooDeep {fault : Fault} :
    Runs 0 k front scopes (Parser.deeper fault m) (Reader.fail fault : Reader α) value after := by
  intro p fits same here
  have high : maxNesting ≤ p.depth := Nat.sub_eq_zero_iff_le.mp fits.room
  have refused : Parser.deeper fault m p = (Parser.fail fault : Rule β) p :=
    (bind_of_ok (run_get p)).trans (congrFun (if_pos high) p)
  rw [refused]
  exact fail p fits same here

end Runs

/-! ### What a reader says of a rule, and a rule of a reader -/

/-- On `p` both rules find the same and leave the same behind, or fail for the same reason. -/
def Alike (m m' : Rule β) (p : Parser) : Prop :=
  (∀ b q, m p = .ok b q ↔ m' p = .ok b q) ∧ ∀ e, (∃ q, m p = .error e q) ↔ ∃ q, m' p = .error e q

/-- Rules that run as one reader are alike. -/
theorem Runs.alike (first : Runs n k front scopes m r value after)
    (second : Runs n k front scopes m' r value after) (fits : p.Fits n k) (same : p.scopes = scopes)
    (here : front p.rest) : Alike m m' p := by
  obtain ⟨reads, fails⟩ := first p fits same here
  obtain ⟨reads', fails'⟩ := second p fits same here
  cases read : r p.rest with
  | error e =>
    obtain ⟨q, run, -⟩ := fails e read
    obtain ⟨q', run', -⟩ := fails' e read
    simp [Alike, run, run']
  | ok found =>
    obtain ⟨place, -, within, left, run⟩ := reads found.1 found.2 read
    obtain ⟨place', -, within', left', run'⟩ := reads' found.1 found.2 read
    have length := congrArg List.length (left.trans left'.symm)
    rw [List.length_drop, List.length_drop] at length
    obtain rfl : place = place' := by omega
    simp [Alike, run, run']

/-- Readers that one rule runs as read the same. -/
theorem Agrees.unique {m : Rule α} {r r' : Reader α} (first : Agrees n k front m r)
    (second : Agrees n k front m r') (fits : p.Fits n k) (here : front p.rest) :
    r p.rest = r' p.rest := by
  obtain ⟨reads, fails⟩ := first p.scopes p fits rfl here
  obtain ⟨reads', fails'⟩ := second p.scopes p fits rfl here
  cases read : r p.rest with
  | error e =>
    obtain ⟨q, run, -⟩ := fails e read
    cases read' : r' p.rest with
    | error e' =>
      obtain ⟨q', run', -⟩ := fails' e' read'
      cases run.symm.trans run'
      rfl
    | ok found' =>
      obtain ⟨place', -, -, -, run'⟩ := reads' found'.1 found'.2 read'
      cases run.symm.trans run'
  | ok found =>
    obtain ⟨a, us⟩ := found
    obtain ⟨place, -, -, rfl, run⟩ := reads a us read
    cases read' : r' p.rest with
    | error e' =>
      obtain ⟨q', run', -⟩ := fails' e' read'
      cases run.symm.trans run'
    | ok found' =>
      obtain ⟨a', us'⟩ := found'
      obtain ⟨place', -, -, rfl, run'⟩ := reads' a' us' read'
      obtain ⟨rfl, same⟩ := EStateM.Result.ok.inj (run.symm.trans run')
      obtain rfl : place = place' := congrArg Parser.place same
      rfl

end Parser

end ConceptForest.Script
