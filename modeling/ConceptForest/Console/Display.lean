import ConceptForest.Console.Colour
import ConceptForest.Session.Prompt

/-!
What the front end shows.

A run is a list of displays; only here do they become text, with or without colours.
-/

namespace ConceptForest

/-- Something that the front end shows. -/
inductive Display where
  /-- The place where a session stands, and what it has to say, before a line of input. -/
  | header (session : Nat) (label : String) (prompts : List Prompt) (invitation : String)
  | line (text : String)
  /-- Why a line of input came to nothing. -/
  | failure (message : String)
  /-- The input has ended. -/
  | ending
  deriving DecidableEq, Repr

/-- The colour of a prompt's mark. -/
def PromptKind.colour : PromptKind → Colour
  | info => .blue
  | diagnostic => .yellow
  | _ => .red

namespace Display

/-- A text in a colour, if there are colours. -/
def painted (colours : Bool) (colour : Colour) (text : String) : String :=
  if colours then colour.paint text else text

/-- A prompt as it is shown: its mark, and then its message; what is amiss is named. -/
def promptText (colours : Bool) (p : Prompt) : String :=
  let body := match p.kind with
    | .info => p.message
    | .diagnostic => painted colours .yellow p.message
    | _ => painted colours .red p.text
  painted colours p.kind.colour "?>" ++ " " ++ body

/-- A display as text. -/
def text (colours : Bool) : Display → String
  | header _ label prompts invitation =>
    String.join ((["===", label] ++ prompts.map (promptText colours) ++ ["==="]).map (· ++ "\n")) ++
      invitation
  | line text => text ++ "\n"
  | failure message =>
    painted colours .red "✗" ++ " " ++ painted colours .red message ++ "\n"
  | ending => "\n"

/-- The prompts in a header. -/
def prompts : Display → List Prompt
  | header _ _ prompts _ => prompts
  | _ => []

end Display

/-- Displays as text, one after the other. -/
def displayText (colours : Bool) (ds : List Display) : String :=
  String.join (ds.map (Display.text colours))

end ConceptForest
