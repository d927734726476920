import ConceptForest.Console.Meta

/-!
Runs of the front end: line after line, until the input ends, no session is left, or it is told to
stop.

A line is about the session that is current when the line is read; meta commands are about the front
end. Whatever a session has to say is said in the header before its next line.
-/

namespace ConceptForest

/-- The lines of an input, without their ends. What stands behind the last line break is a line
unless it is empty. -/
def inputLines (input : String) : List String :=
  let pieces := Text.lines input.toList
  let complete := if pieces.getLast? == some [] then pieces.dropLast else pieces
  complete.map fun line => String.ofList (line.reverse.dropWhile (· == '\r')).reverse

namespace Console

/-- The mark of meta commands. -/
def metaMark : List Char := [':', '/']

/-- Takes a line of input. -/
def evaluate (c : Console) (line : String) : Step :=
  match metaMark.isPrefixOf? (Text.trimStart line.toList) with
  | some text => c.metaCommand text
  | none =>
    match c.currentSession? with
    | none => ⟨c, [], true⟩
    | some s =>
      let (t, result) := s.interpret line
      let shown := match result with
        | .ok _ => []
        | .error e => [.failure e.message]
      ⟨c.setCurrent t, shown, false⟩

/-- A run that has ended. -/
structure Run where
  console : Console
  shown : List Display
  /-- Why the run could not go on, if so. -/
  error? : Option ConsoleError := none

/-- Takes lines of input one by one. -/
def run (c : Console) : List String → Run
  | [] =>
    match c.current? with
    | none => ⟨c, [], none⟩
    | some index =>
      match c.header index with
      | .error e => ⟨c, [], some e⟩
      | .ok (d, header) => ⟨d, [header, .ending], none⟩
  | line :: rest =>
    match c.current? with
    | none => ⟨c, [], none⟩
    | some index =>
      match c.header index with
      | .error e => ⟨c, [], some e⟩
      | .ok (d, header) =>
        let step := d.evaluate line
        if step.quits then ⟨step.console, header :: step.shown, none⟩
        else
          let r := step.console.run rest
          { r with shown := header :: step.shown ++ r.shown }

end Console

end ConceptForest
