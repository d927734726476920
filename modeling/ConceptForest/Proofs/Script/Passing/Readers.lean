import ConceptForest.Proofs.Script.Openings

/-!
What readers pass over.

`Reads` says of all results of a reader that the tokens passed over are the front of those that
were there, that the end of the input is not among them, and that result and tokens fit together.
So a reader gives back the rest of the very tokens it was given, and never goes past the end. There
is one lemma for every way to put readers together; what has been passed over is handed on from one
reader to the next.

A repetition ends because each of its rounds passes over something: `many_eq` runs it without the
check for that.
-/

namespace ConceptForest.Script

open Reader

variable {α β ι : Type} {r r' : Reader α} {front : List Token → Prop}
  {good : α → List Token → Prop} {fine : β → List Token → Prop} {fits between : List Token → Prop}
  {question : Reader Bool}

/-- Whatever the reader makes of tokens with that front, it has passed over some of them, none of
them the end, and these fit the result. -/
def Reads (front : List Token → Prop) (r : Reader α) (good : α → List Token → Prop) : Prop :=
  ∀ us a rest, front us → r us = .ok (a, rest) →
    ∃ read, us = read ++ rest ∧ (∀ t ∈ read, t.lexeme ≠ .endOfInput) ∧ good a read

/-- No tokens in particular. -/
def Anywhere (_ : List Token) : Prop := True

/-- The question passes over one fitting token if the answer is yes, and over nothing otherwise. -/
def Eats (question : Reader Bool) (fits : Lexeme → Prop) : Prop :=
  ∀ us answer rest, question us = .ok (answer, rest) →
    if answer then ∃ t, us = t :: rest ∧ fits t.lexeme ∧ t.lexeme ≠ .endOfInput else rest = us

/-- The question passes over nothing. -/
def Looks (question : Reader Bool) : Prop :=
  ∀ us answer rest, question us = .ok (answer, rest) → rest = us

/-- A list of results, each of which fits the tokens passed over for it. -/
inductive Each (good : α → List Token → Prop) : List α → List Token → Prop where
  | nil {read : List Token} : Each good [] read
  | cons {a : α} {as : List α} {read more : List Token} (first : good a read)
    (others : Each good as more) : Each good (a :: as) (read ++ more)

theorem Each.imp {as : List α} {read : List Token} {good' : α → List Token → Prop}
    (each : Each good as read) (better : ∀ a read, good a read → good' a read) :
    Each good' as read := by
  induction each with
  | nil => exact .nil
  | cons first _ ih => exact .cons (better _ _ first) ih

/-- A repetition either declines at once, or reads something and goes on if that was a token. -/
theorem cases_many {turn : Reader (Option α)} {us rest : List Token} {as : List α}
    (run : many turn us = .ok (as, rest)) :
    (turn us = .ok (none, rest) ∧ as = []) ∨
      ∃ a middle others, turn us = .ok (some a, middle) ∧ as = a :: others ∧
        (middle.length < us.length ∧ many turn middle = .ok (others, rest) ∨
          others = [] ∧ middle = rest) := by
  rw [Reader.many] at run
  split at run
  · cases run
  · next one =>
    obtain ⟨⟩ := run
    exact .inl ⟨one, rfl⟩
  · next a middle one =>
    refine .inr ⟨a, middle, ?_⟩
    split at run
    · next shorter =>
      split at run
      · cases run
      · next others left more =>
        obtain ⟨⟩ := run
        exact ⟨others, one, rfl, .inl ⟨shorter, more⟩⟩
    · obtain ⟨⟩ := run
      exact ⟨[], one, rfl, .inr ⟨rfl, rfl⟩⟩

/-- Where the question is answered with yes, a loop reads something. -/
theorem cases_manyWhile {us us' rest : List Token} {as : List α}
    (yes : question us = .ok (true, us')) (run : manyWhile question r us = .ok (as, rest)) :
    ∃ a middle others, as = a :: others ∧ r us' = .ok (a, middle) ∧
      (middle.length < us.length ∧ manyWhile question r middle = .ok (others, rest) ∨
        others = [] ∧ middle = rest) := by
  rw [manyWhile] at run
  rcases cases_many run with ⟨declined, -⟩ | ⟨a, middle, others, turn, rfl, further⟩
  · rw [run_bind_of_ok yes] at declined
    obtain ⟨_, -, found⟩ := bind_eq_ok_iff.mp declined
    cases found
  · rw [run_bind_of_ok yes] at turn
    obtain ⟨⟨_, _⟩, one, found⟩ := bind_eq_ok_iff.mp turn
    obtain ⟨⟩ := found
    exact ⟨a, middle, others, rfl, one, further⟩

/-- Where each round that goes on passes over something, a repetition is a plain loop. -/
theorem many_eq {turn : Reader (Option α)}
    (shorter : ∀ us a rest, turn us = .ok (some a, rest) → rest.length < us.length) :
    many turn = do
      match ← turn with
      | none => return []
      | some a => return a :: (← many turn) := by
  funext us
  rw [Reader.many]
  cases one : turn us with
  | error e => rw [run_bind_of_error one]
  | ok found =>
    obtain ⟨found, rest⟩ := found
    rw [run_bind_of_ok one]
    cases found with
    | none => rfl
    | some a =>
      dsimp only
      rw [if_pos (shorter us a rest one)]
      cases more : many turn rest with
      | error e => exact (run_bind_of_error more).symm
      | ok left =>
        rw [run_bind_of_ok more]
        rfl

namespace Reads

/-! ### One after the other -/

theorem mono (reads : Reads front r good) {good' : α → List Token → Prop}
    (better : ∀ a read, good a read → good' a read) : Reads front r good' := by
  intro us a rest here run
  obtain ⟨read, same, inside, holds⟩ := reads us a rest here run
  exact ⟨read, same, inside, better a read holds⟩

theorem under (reads : Reads Anywhere r good) : Reads front r good :=
  fun us a rest _ run => reads us a rest trivial run

/-- What is known of the front is known. -/
theorem given {fact : Prop} (known : ∀ us, front us → fact) (reads : fact → Reads front r good) :
    Reads front r good :=
  fun us a rest here run => reads (known us here) us a rest here run

theorem pure {a : α} (holds : good a []) : Reads front (pure a) good := by
  rintro us _ rest - ⟨⟩
  exact ⟨[], rfl, nofun, holds⟩

theorem bind {rest : α → Reader β} (first : Reads front r good)
    (further : ∀ a read, good a read →
      Reads Anywhere (rest a) fun b more => fine b (read ++ more)) :
    Reads front (r >>= rest) fine := by
  intro us b left here run
  obtain ⟨⟨a, middle⟩, one, others⟩ := bind_eq_ok_iff.mp run
  obtain ⟨read, rfl, inside, holds⟩ := first us a middle here one
  obtain ⟨more, rfl, inside', holds⟩ := further a read holds middle b left trivial others
  refine ⟨read ++ more, (List.append_assoc ..).symm, ?_, holds⟩
  exact List.forall_mem_append.mpr ⟨inside, inside'⟩

/-- A branch that reads nothing. -/
theorem nothing {a : α} {next : α → Reader β} (holds : good a [])
    (further : ∀ a read, good a read →
      Reads Anywhere (next a) fun b more => fine b (read ++ more)) :
    Reads front (Pure.pure a >>= next) fine :=
  bind (pure holds) further

/-- A branch that reads one thing. -/
theorem single {goods : List α → List Token → Prop} {next : List α → Reader β}
    (reads : Reads front r good) (holds : ∀ a read, good a read → goods [a] read)
    (further : ∀ as read, goods as read →
      Reads Anywhere (next as) fun b more => fine b (read ++ more)) :
    Reads front (r >>= fun a => Pure.pure [a] >>= next) fine :=
  reads.bind fun a read fits => further [a] read (holds a read fits)

/-- A question that passes over nothing, in front of the rest. -/
theorem look {rest : Bool → Reader α} (looks : Looks question)
    (further : ∀ answer, Reads front (rest answer) good) :
    Reads front (question >>= rest) good := by
  intro us a left here run
  obtain ⟨⟨answer, middle⟩, asked, others⟩ := bind_eq_ok_iff.mp run
  obtain rfl := looks us answer middle asked
  exact further answer middle a left here others

/-- What stands behind a branching is shared by its branches. -/
theorem join {jump : α → Reader β} {branches : (α → Reader β) → Reader β}
    (good : α → List Token → Prop)
    (before : ∀ next : α → Reader β,
      (∀ a read, good a read → Reads Anywhere (next a) fun b more => fine b (read ++ more)) →
      Reads front (branches next) fine)
    (further : ∀ a read, good a read →
      Reads Anywhere (jump a) fun b more => fine b (read ++ more)) :
    Reads front (have next := jump; branches next) fine :=
  before jump further

/-! ### Looking at the tokens -/

theorem peek {rest : Lexeme → Reader α}
    (further : ∀ l, Reads (fun us => front us ∧ headLexeme us = l) (rest l) good) :
    Reads front (Reader.peek >>= rest) good :=
  fun us a left here run => further _ us a left ⟨here, rfl⟩ run

theorem peekSecond {rest : Lexeme → Reader α}
    (further : ∀ l, Reads (fun us => front us ∧ headLexeme (us.drop 1) = l) (rest l) good) :
    Reads front (Reader.peekSecond >>= rest) good :=
  fun us a left here run => further _ us a left ⟨here, rfl⟩ run

theorem position {rest : Text.Position → Reader α} (further : ∀ p, Reads front (rest p) good) :
    Reads front (Reader.position >>= rest) good :=
  fun us a left here run => further _ us a left here run

theorem keyword {rest : String → Reader α}
    (further : ∀ word, Reads (fun us => front us ∧ (word ≠ "" → headLexeme us = .name word))
      (rest word) good) : Reads front (Reader.keyword >>= rest) good := by
  intro us a left here run
  rw [run_bind_of_ok (keyword_eq us)] at run
  refine further _ us a left ⟨here, fun some => ?_⟩ run
  cases l : headLexeme us with
  | name text =>
    rw [l, Lexeme.keyword] at some
    split at some
    · next reserved => rw [Lexeme.keyword, if_pos reserved]
    · exact absurd rfl some
  | _ => rw [l] at some; exact absurd rfl some

/-- Passes over a token that is known not to be the end. -/
theorem skip {next : Reader α} (inside : ∀ us, front us → headLexeme us ≠ .endOfInput)
    (further : ∀ t, t.lexeme ≠ .endOfInput →
      Reads (fun rest => front (t :: rest)) next fun a more => good a (t :: more)) :
    Reads front (advance >>= fun _ => next) good := by
  intro us a left here run
  cases us with
  | nil => exact absurd rfl (inside [] here)
  | cons t us =>
    have solid : t.lexeme ≠ .endOfInput := inside _ here
    obtain ⟨read, rfl, inside, holds⟩ := further t solid us a left here run
    exact ⟨t :: read, rfl, List.forall_mem_cons.mpr ⟨solid, inside⟩, holds⟩

/-- Passes over two tokens that are known not to be the end. -/
theorem skipTwo {next : Reader α} (first : ∀ us, front us → headLexeme us ≠ .endOfInput)
    (second : ∀ us, front us → headLexeme (us.drop 1) ≠ .endOfInput)
    (further : ∀ t t', Reads Anywhere next fun a more => good a (t :: t' :: more)) :
    Reads front (advance >>= fun _ => advance >>= fun _ => next) good :=
  skip first fun t _ => skip (fun us here => second (t :: us) here) fun t' _ => (further t t').under

/-! ### Branches -/

theorem either {condition : Prop} [Decidable condition] (reads : condition → Reads front r good)
    (reads' : ¬ condition → Reads front r' good) :
    Reads front (if condition then r else r') good := by
  split
  · next holds => exact reads holds
  · next fails => exact reads' fails

/-- One rule behind a fitting token, the other where there is none. -/
theorem eat {accepts : Lexeme → Prop} (eats : Eats question accepts)
    (yes : ∀ t, accepts t.lexeme → Reads Anywhere r fun a more => good a (t :: more))
    (no : Reads front r' good) :
    Reads front (question >>= fun answer => if answer = true then r else r') good := by
  intro us a left here run
  obtain ⟨⟨answer, middle⟩, asked, others⟩ := bind_eq_ok_iff.mp run
  have eaten := eats us answer middle asked
  cases answer with
  | true =>
    obtain ⟨t, rfl, fits, solid⟩ := eaten
    obtain ⟨read, rfl, inside, holds⟩ := yes t fits middle a left trivial others
    exact ⟨t :: read, rfl, List.forall_mem_cons.mpr ⟨solid, inside⟩, holds⟩
  | false =>
    obtain rfl : middle = us := eaten
    exact no middle a left here others

/-- One rule or the other, depending on what stands there. -/
theorem ask (looks : Looks question) (yes : Reads front r good) (no : Reads front r' good) :
    Reads front (question >>= fun answer => if answer = true then r else r') good :=
  look looks fun _ => either (fun _ => yes) fun _ => no

theorem isWord {word : String} {rest : Bool → Reader α}
    (further : ∀ answer, Reads (fun us => front us ∧
      (answer = true → headLexeme us = .name word)) (rest answer) good) :
    Reads front (Reader.isWord word >>= rest) good :=
  fun us a left here run => further _ us a left ⟨here, beq_iff_eq.mp⟩ run

/-- One rule where the word stands, the other where it does not. -/
theorem atWord {word : String}
    (yes : Reads (fun us => front us ∧ headLexeme us = .name word) r good)
    (no : Reads front r' good) :
    Reads front (Reader.isWord word >>= fun answer => if answer = true then r else r') good :=
  isWord fun _ => either
    (fun stands us a left here run => yes us a left ⟨here.1, here.2 stands⟩ run)
    fun _ us a left here run => no us a left here.1 run

/-! ### Failures -/

theorem throw {e : SyntaxError} : Reads front (throw e : Reader α) good := by
  rintro us a rest - ⟨⟩

theorem fail {fault : Fault} : Reads front (Reader.fail fault : Reader α) good :=
  .position fun _ => throw

theorem unexpected : Reads front (Reader.unexpected : Reader α) good :=
  .peek fun _ => fail

theorem lift {x : Except SyntaxError α} :
    Reads front (monadLift x : Reader α) fun a _ => x = .ok a := by
  intro us a rest _ run
  obtain ⟨b, same, run⟩ := bind_eq_ok_iff.mp run
  obtain ⟨⟩ := run
  exact ⟨[], rfl, nofun, same⟩

/-! ### Repetition -/

theorem many {turn : Reader (Option α)}
    (reads : Reads Anywhere turn fun found read => ∀ a ∈ found, good a read) :
    Reads front (many turn) (Each good) := by
  refine under fun us => ?_
  induction size : us.length using Nat.strongRecOn generalizing us with
  | ind n ih =>
    intro as rest _ run
    obtain ⟨one, rfl⟩ | ⟨a, middle, others, one, rfl, left⟩ := cases_many run
    · obtain ⟨read, same, inside, -⟩ := reads us none rest trivial one
      exact ⟨read, same, inside, .nil⟩
    · obtain ⟨read, rfl, inside, holds⟩ := reads us (some a) middle trivial one
      obtain ⟨shorter, more⟩ | ⟨rfl, rfl⟩ := left
      · obtain ⟨read', rfl, inside', holds'⟩ := ih _ (size ▸ shorter) middle rfl others _ trivial more
        refine ⟨read ++ read', by rw [List.append_assoc],
          List.forall_mem_append.mpr ⟨inside, inside'⟩, .cons (holds a rfl) holds'⟩
      · refine ⟨read, rfl, inside, ?_⟩
        have one : Each good [a] (read ++ []) := .cons (holds a rfl) .nil
        rwa [List.append_nil] at one

/-- A repetition whose first round finds something. -/
theorem manyFrom {turn : Reader (Option α)}
    (first : Reads front turn fun found read => ∃ a, found = some a ∧ good a read)
    (reads : Reads Anywhere turn fun found read => ∀ a ∈ found, good a read) :
    Reads front (Reader.many turn) fun as read => ∃ a others read₁ read₂,
      as = a :: others ∧ read = read₁ ++ read₂ ∧ good a read₁ ∧ Each good others read₂ := by
  intro us as rest here run
  obtain ⟨one, rfl⟩ | ⟨a, middle, others, one, rfl, left⟩ := cases_many run
  · obtain ⟨read, -, -, a, found, -⟩ := first us none rest here one
    cases found
  · obtain ⟨read, rfl, inside, a', found, holds⟩ := first us (some a) middle here one
    obtain rfl := Option.some.inj found
    obtain ⟨-, more⟩ | ⟨rfl, rfl⟩ := left
    · have further : Reads Anywhere (Reader.many turn) (Each good) := many reads
      obtain ⟨read', rfl, inside', holds'⟩ := further middle others rest trivial more
      refine ⟨read ++ read', by rw [List.append_assoc],
        List.forall_mem_append.mpr ⟨inside, inside'⟩, a, others, read, read', rfl, rfl, holds, holds'⟩
    · exact ⟨read, rfl, inside, a, [], read, [], rfl, (List.append_nil _).symm, holds, .nil⟩

/-- A round of a repetition: what tells that another item follows, and the item. -/
theorem turn {more : Reader Bool}
    (asked : Reads Anywhere more fun answer read => answer = true → between read)
    (reads : Reads Anywhere r good) :
    Reads Anywhere (do if ← more then return some (← r) else return none) fun found read =>
      ∀ a ∈ found, ∃ before behind, read = before ++ behind ∧ between before ∧ good a behind := by
  refine asked.bind fun answer before told => ?_
  cases answer with
  | false => exact pure nofun
  | true =>
    refine reads.bind fun a behind holds => pure fun _ found => ?_
    obtain rfl := Option.some.inj found
    exact ⟨before, behind, by simp, told rfl, holds⟩

theorem manyWhile {more : Reader Bool}
    (asked : Reads Anywhere more fun answer read => answer = true → between read)
    (reads : Reads Anywhere r good) :
    Reads front (manyWhile more r) (Each fun a read =>
      ∃ before behind, read = before ++ behind ∧ between before ∧ good a behind) :=
  many (turn asked reads)

theorem oneAndMore {more : Reader Bool} (reads : Reads Anywhere r good)
    (asked : Reads Anywhere more fun answer read => answer = true → between read) :
    Reads front (oneAndMore more r) fun as read => ∃ a others read₁ read₂,
      as = a :: others ∧ read = read₁ ++ read₂ ∧ good a read₁ ∧ Each (fun a read =>
        ∃ before behind, read = before ++ behind ∧ between before ∧ good a behind) others read₂ :=
  reads.under.bind fun a read₁ first => (manyWhile asked reads).bind fun others read₂ more =>
    pure ⟨a, others, read₁, read₂, rfl, by simp, first, more⟩

/-- What rules make of the results of rules, they make of their own. -/
theorem recursive {rules : (ι → Reader α) → ι → Reader α}
    (step : ∀ again, (∀ rule, Reads Anywhere (again rule) good) →
      ∀ rule, Reads Anywhere (rules again rule) good)
    (rule : ι) : Reads front (recursive rules rule) good := by
  refine under fun us => ?_
  induction size : us.length using Nat.strongRecOn generalizing rule us with
  | ind n ih =>
    intro a rest _ run
    rw [Reader.recursive] at run
    refine step _ (fun again => ?_) rule us a rest trivial run
    intro us' a rest _ run
    dsimp only at run
    split at run
    · next shorter => exact ih _ (size ▸ shorter) again us' rfl a rest trivial run
    · cases run

end Reads

/-! ### Questions -/

/-- A token is passed over if it is the one that is asked for. -/
theorem eats_eatIf (asked : Lexeme → Bool)
    (answers : ∀ us, question us = .ok (asked (headLexeme us), us))
    (inside : asked .endOfInput = false) : Eats (Reader.eatIf question) (asked · = true) := by
  intro us answer rest run
  rw [Reader.eatIf, run_bind_of_ok (answers us)] at run
  cases yes : asked (headLexeme us) with
  | false =>
    rw [yes] at run
    obtain ⟨⟩ := run
    rfl
  | true =>
    rw [yes] at run
    obtain ⟨⟩ := run
    cases us with
    | nil => cases inside.symm.trans yes
    | cons t us =>
      refine ⟨t, rfl, yes, fun last => ?_⟩
      rw [headLexeme, last] at yes
      cases inside.symm.trans yes

theorem Eats.imp {accepts accepts' : Lexeme → Prop} (eats : Eats question accepts)
    (wider : ∀ l, accepts l → accepts' l) : Eats question accepts' := by
  intro us answer rest run
  have eaten := eats us answer rest run
  cases answer with
  | true => exact eaten.imp fun t ⟨same, fits, solid⟩ => ⟨same, wider _ fits, solid⟩
  | false => exact eaten

theorem eats_eatOp {op : String} : Eats (eatOp op) (· = .op op) :=
  (eats_eatIf (· == .op op) (fun _ => rfl) rfl).imp fun _ => beq_iff_eq.mp

theorem eats_eatWord {word : String} : Eats (eatWord word) (· = .name word) :=
  (eats_eatIf (· == .name word) (fun _ => rfl) rfl).imp fun _ => beq_iff_eq.mp

theorem eats_eatOneOf {ops : List String} :
    Eats (eatIf (isOneOf ops)) (·.isAmong ops = true) :=
  eats_eatIf (·.isAmong ops) (isOneOf_eq ops) rfl

/-- What is asked may be asked of what is passed over. -/
theorem Eats.reads {accepts : Lexeme → Prop} (eats : Eats question accepts) :
    Reads front question fun answer read =>
      if answer then ∃ t, read = [t] ∧ accepts t.lexeme else read = [] := by
  intro us answer rest _ run
  have eaten := eats us answer rest run
  cases answer with
  | true =>
    obtain ⟨t, rfl, fits, solid⟩ := eaten
    exact ⟨[t], rfl, List.forall_mem_singleton.mpr solid, t, rfl, fits⟩
  | false =>
    obtain rfl : rest = us := eaten
    exact ⟨[], rfl, nofun, rfl⟩

/-- An item that follows behind a token of its own. -/
theorem Eats.asked {accepts : Lexeme → Prop} (eats : Eats question accepts) :
    Reads front question fun answer read =>
      answer = true → ∃ t, read = [t] ∧ accepts t.lexeme :=
  eats.reads.mono fun answer read told yes => by rwa [if_pos yes] at told

theorem looks_of_answers (asked : Lexeme → Bool)
    (answers : ∀ us, question us = .ok (asked (headLexeme us), us)) : Looks question := by
  intro us answer rest run
  obtain ⟨⟩ := (answers us).symm.trans run
  rfl

theorem looks_isWord {word : String} : Looks (isWord word) :=
  looks_of_answers (· == .name word) fun _ => rfl

theorem looks_isOp {op : String} : Looks (isOp op) :=
  looks_of_answers (· == .op op) fun _ => rfl

theorem looks_isOneOf {ops : List String} : Looks (isOneOf ops) :=
  looks_of_answers (·.isAmong ops) (isOneOf_eq ops)

/-- A question asked after another one. -/
theorem Looks.ask {yes no : Reader Bool} (looks : Looks question) (looks' : Looks yes)
    (looks'' : Looks no) :
    Looks (question >>= fun answer => if answer = true then yes else no) := by
  intro us answer rest run
  obtain ⟨⟨first, middle⟩, asked, others⟩ := bind_eq_ok_iff.mp run
  obtain rfl := looks us first middle asked
  cases first with
  | true => exact looks' middle answer rest others
  | false => exact looks'' middle answer rest others

theorem looks_pure {answer : Bool} : Looks (pure answer) := by
  rintro us _ rest ⟨⟩
  rfl

theorem looks_peekSecond {l : Lexeme} : Looks (do return (← peekSecond) == l) := by
  rintro us _ rest ⟨⟩
  rfl

theorem looks_not (looks : Looks question) : Looks (do return !(← question)) := by
  intro us answer rest run
  obtain ⟨⟨asked, middle⟩, one, told⟩ := bind_eq_ok_iff.mp run
  obtain ⟨⟩ := told
  exact looks us asked rest one

theorem looks_startsExpression : Looks startsExpression :=
  looks_of_answers Lexeme.opensExpression startsExpression_eq

theorem looks_atLineEnd : Looks atLineEnd := by
  rintro us _ _ ⟨⟩
  rfl

theorem Looks.reads (looks : Looks question) : Reads front question fun _ read => read = [] := by
  intro us answer rest _ run
  obtain rfl := looks us answer rest run
  exact ⟨[], rfl, nofun, rfl⟩

/-- An item that follows where something stands. -/
theorem Looks.asked (looks : Looks question) :
    Reads front question fun answer read => answer = true → read = [] :=
  looks.reads.mono fun _ _ none _ => none

/-- An operator behind which another question decides. -/
theorem reads_eatOp_and {op : String} {asked : Reader Bool} (looks : Looks asked) :
    Reads Anywhere (do if ← eatOp op then asked else return false) fun answer read =>
      answer = true → ∃ t, read = [t] ∧ t.lexeme = .op op :=
  .eat eats_eatOp (fun t same => looks.reads.mono fun _ _ none _ => ⟨t, by rw [none], same⟩)
    (.pure nofun)

/-! ### Marks that must be there -/

namespace Reads

theorem expectOp {op : String} :
    Reads front (expectOp op) fun _ read => ∃ t, read = [t] ∧ t.lexeme = .op op :=
  .eat eats_eatOp (fun t same => .pure ⟨t, rfl, same⟩) (.peek fun _ => .fail)

theorem expectWord {word : String} :
    Reads front (expectWord word) fun _ read => ∃ t, read = [t] ∧ t.lexeme = .name word :=
  .eat eats_eatWord (fun t same => .pure ⟨t, rfl, same⟩) (.peek fun _ => .fail)

theorem expectName : Reads front expectName fun _ read => read ≠ [] := by
  refine .peek fun l => ?_
  cases l with
  | name text =>
    refine .either (fun _ => .fail) fun _ =>
      .skip (fun us here => ?_) fun t _ => .pure (List.cons_ne_nil _ _)
    rw [here.2]
    exact Lexeme.noConfusion
  | _ => exact .fail

theorem expectLineEnd : Reads front expectLineEnd fun _ _ => True := by
  refine .peek fun l => ?_
  cases l with
  | newline =>
    refine (Reads.skip (fun us here => ?_) fun t _ => pure trivial).mono fun _ _ => id
    rw [here.2]
    exact Lexeme.noConfusion
  | endOfInput => exact .pure trivial
  | _ => exact .unexpected

end Reads

end ConceptForest.Script
