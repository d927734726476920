import ConceptForest.CommandLine

/-!
The program: reads the command line and the files that it names, and takes input line by line.
-/

namespace ConceptForest.Terminal

/-- The text of a file; nothing if there is no such file. -/
def textOfFile? (path : String) : IO (Option String) := do
  try return some (← IO.FS.readFile path)
  catch e =>
    match e with
    | .noFileOrDirectory .. => return none
    | _ => throw e

/-- Where the configuration is looked for if nothing is said about it. -/
def defaultConfigPath? : IO (Option String) := do
  if let some path ← IO.getEnv "DEFINER_CONFIG" then return some path
  let folder? := match ← IO.getEnv "XDG_CONFIG_HOME", ← IO.getEnv "HOME" with
    | some folder, _ => some folder
    | none, some home => some (home ++ "/.config")
    | none, none => none
  return folder?.map (· ++ "/definer/config.toml")

/-- Shows something at once. -/
def put (colours : Bool) (ds : List Display) : IO Unit := do
  let out ← IO.getStdout
  out.putStr (displayText colours ds)
  out.flush

/-- Takes lines from the standard input until the run ends; gives the reason if it cannot go on. -/
partial def converse (colours : Bool) (console : Console) : IO (Option ConsoleError) := do
  match console.current? with
  | none => return none
  | some index =>
    match console.header index with
    | .error e => return some e
    | .ok (console, header) =>
      put colours [header]
      let raw ← (← IO.getStdin).getLine
      match inputLines raw with
      | [] =>
        put colours [.ending]
        return none
      | line :: _ =>
        let step := console.evaluate line
        put colours step.shown
        if step.quits then return none else converse colours step.console

/-- Tells why the program ends in failure. -/
def fail (e : ConsoleError) : IO UInt32 := do
  IO.eprintln s!"✗ {e.message}"
  return 1

/-- Runs the front end as the options want it. -/
def runProgram (o : CommandLine.Options) : IO UInt32 := do
  let path? := o.config?.or (← defaultConfigPath?)
  let file? ← match path? with
    | some path => textOfFile? path
    | none => pure none
  match CommandLine.start o file? with
  | .error e => fail e
  | .ok console =>
    let colours := (← IO.getEnv "NO_COLOR").isNone && (← (← IO.getStdout).isTty)
    let error? ← match o.script? with
      | none => converse colours console
      | some path =>
        match ← textOfFile? path with
        | none => pure (some (.unreadable path "no such file"))
        | some script =>
          let r := console.run (inputLines script)
          put colours r.shown
          pure r.error?
    match error? with
    | some e => fail e
    | none => return 0

end ConceptForest.Terminal

open ConceptForest

/-- The program. -/
def main (args : List String) : IO UInt32 := do
  match CommandLine.parse args with
  | .refused =>
    IO.eprint CommandLine.helpText
    return 2
  | .help =>
    IO.print CommandLine.helpText
    return 0
  | .version =>
    IO.print CommandLine.versionText
    return 0
  | .run o => Terminal.runProgram o
