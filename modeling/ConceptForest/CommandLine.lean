import ConceptForest.Console.Run

/-!
The command line of the front end.

Options come by a long name or by a letter. Letters without a value can stand together behind one
dash; a value stands behind its option as a word of its own, or is joined to it.
-/

namespace ConceptForest.CommandLine

/-- The options. -/
inductive Flag where
  | config
  | output
  | script
  | verbose
  | help
  | version
  deriving DecidableEq, Repr

namespace Flag

/-- All options. -/
def all : List Flag :=
  [config, output, script, verbose, help, version]

/-- The long name of an option. -/
def long : Flag → String
  | config => "config"
  | output => "output"
  | script => "script"
  | verbose => "verbose"
  | help => "help"
  | version => "version"

/-- The letter of an option. -/
def letter : Flag → Char
  | config => 'c'
  | output => 'o'
  | script => 's'
  | verbose => 'v'
  | help => 'h'
  | version => 'V'

/-- Does the option want a value? -/
def takesValue : Flag → Bool
  | config | output | script => true
  | _ => false

/-- What an option is for. -/
def about : Flag → String
  | config => "Configuration file path"
  | output => "Output format for expansions (text, json, yaml)"
  | script => "Read input lines from a file instead of stdin"
  | verbose => "Enable verbose output"
  | help => "Print help"
  | version => "Print version"

end Flag

/-- What the options ask for. -/
structure Options where
  config? : Option String := none
  format? : Option Format := none
  script? : Option String := none
  verbose : Bool := false
  deriving DecidableEq, Repr

/-- What a command line asks for. -/
inductive Request where
  | run (options : Options)
  | help
  | version
  /-- It makes no sense. -/
  | refused
  deriving DecidableEq, Repr

namespace Options

/-- Gives a value to an option that has none yet. -/
def give? (o : Options) (flag : Flag) (value : String) : Option Options :=
  match flag with
  | .config => if o.config?.isNone then some { o with config? := some value } else none
  | .script => if o.script?.isNone then some { o with script? := some value } else none
  | .output =>
    if o.format?.isNone then (Format.named? value).map fun f => { o with format? := some f }
    else none
  | _ => none

end Options

/-- What the letters behind one dash come to. -/
inductive Letters where
  /-- No value is missing. -/
  | done (options : Options)
  /-- The value of the last one is the next word. -/
  | wants (flag : Flag) (options : Options)
  /-- Nothing else counts. -/
  | settled (request : Request)

/-- Takes the letters behind one dash. What stands behind a letter that wants a value is its
value. -/
def letters (o : Options) : List Char → Letters
  | [] => .done o
  | c :: cs =>
    match Flag.all.find? (·.letter == c) with
    | none => .settled .refused
    | some .help => .settled .help
    | some .version => .settled .version
    | some .verbose => if o.verbose then .settled .refused else letters { o with verbose := true } cs
    | some flag =>
      match cs with
      | [] => .wants flag o
      | _ =>
        let value := if cs.head? = some '=' then cs.tail else cs
        match o.give? flag (String.ofList value) with
        | some o => .done o
        | none => .settled .refused

/-- The name of an option, and the value joined to it by an equals sign. -/
def splitEquals (cs : List Char) : String × Option String :=
  let name := String.ofList (cs.takeWhile (· != '='))
  match cs.dropWhile (· != '=') with
  | [] => (name, none)
  | _ :: value => (name, some (String.ofList value))

/-- Can the word be the value of the option before it? -/
def isValue (word : String) : Bool :=
  word.toList.head? != some '-' || word == "-"

mutual

/-- Takes the words of a command line. -/
def parseWith (o : Options) : List String → Request
  | [] => .run o
  | word :: rest =>
    match word.toList with
    | ['-', '-'] => if rest.isEmpty then .run o else .refused
    | '-' :: '-' :: cs =>
      let (name, value?) := splitEquals cs
      match Flag.all.find? (·.long == name), value? with
      | none, _ => .refused
      | some .help, none => .help
      | some .version, none => .version
      | some .verbose, none =>
        if o.verbose then .refused else parseWith { o with verbose := true } rest
      | some flag, some value =>
        match o.give? flag value with
        | some o => parseWith o rest
        | none => .refused
      | some flag, none => parseValue o flag rest
    | '-' :: c :: cs =>
      match letters o (c :: cs) with
      | .done o => parseWith o rest
      | .wants flag o => parseValue o flag rest
      | .settled request => request
    | _ => .refused

/-- Takes the value of an option and what follows it. -/
def parseValue (o : Options) (flag : Flag) : List String → Request
  | [] => .refused
  | word :: rest =>
    if !isValue word then .refused
    else
      match o.give? flag word with
      | some o => parseWith o rest
      | none => .refused

end

/-- What the words of a command line ask for. -/
def parse (words : List String) : Request :=
  parseWith {} words

/-- The name of the program and its version. -/
def versionText : String := "definer 0.1.3\n"

/-- How the program is called. -/
def helpText : String :=
  let optionLines := Flag.all.map fun flag =>
    let value := if flag.takesValue then s!" <{flag.long.toUpper}>" else ""
    s!"  -{flag.letter}, --{Console.padded 18 (flag.long ++ value)} {flag.about}\n"
  "Usage: definer [OPTIONS]\n\nOptions:\n" ++ String.join optionLines

/-- What a program leaves behind when it ends. -/
structure Result where
  status : Nat
  output : String
  deriving DecidableEq, Repr

/-- Starts the front end with the text of its configuration file, if there is one. -/
def start (o : Options) (config? : Option String) : Except ConsoleError Console := do
  let config ← (Config.load config?).mapError .config
  Console.start config (o.format?.getD .text)

/-- Runs the front end on an input, without colours. -/
def runOn (console : Console) (input : String) : Result :=
  let r := console.run (inputLines input)
  ⟨if r.error?.isNone then 0 else 1, displayText false r.shown⟩

/-- Does what a command line asks for. `file?` is the text of the file at a path. -/
def perform (file? : String → Option String) (words : List String) (input : String) : Result :=
  match parse words with
  | .refused => ⟨2, ""⟩
  | .help => ⟨0, helpText⟩
  | .version => ⟨0, versionText⟩
  | .run o =>
    match start o (o.config?.bind file?), o.script? with
    | .error _, _ => ⟨1, ""⟩
    | .ok console, none => runOn console input
    | .ok console, some path =>
      match file? path with
      | none => ⟨1, ""⟩
      | some script => runOn console script

end ConceptForest.CommandLine
