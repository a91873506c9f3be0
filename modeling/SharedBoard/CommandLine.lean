import SharedBoard.Script

/-!
The command line of the script player: at most one path, where a single hyphen stands for standard
input, and the layer to print. Arguments are judged from left to right; the first that is wrong, or
asks for help, decides.
-/

namespace SharedBoard.CommandLine

open Script (Layer)

def standardInput : String := "-"

inductive Request where
  | help
  | play (path : String) (layer : Layer)
  deriving DecidableEq

structure Draft where
  path : Option String := none
  layer : Option Layer := none

def Draft.request (d : Draft) : Request :=
  .play (d.path.getD standardInput) (d.layer.getD .view)

/-- A second path is wrong. -/
def Draft.withPath (d : Draft) (path : String) : Option Draft :=
  if d.path.isSome then none else some { d with path := some path }

def layer? : String → Option Layer
  | "local" => some .view
  | "network" => some .confirmed
  | _ => none

/-- A second layer is wrong, and so is any other word. -/
def Draft.withLayer (d : Draft) (word : String) : Option Draft :=
  if d.layer.isSome then none else (layer? word).map fun layer => { d with layer := some layer }

def layerOption : String := "--layer"

/-- The word that is given with the layer option in one argument. -/
def attachedLayer? (arg : String) : Option String :=
  let start := layerOption.toList ++ ['=']
  if start.isPrefixOf arg.toList then some (String.ofList (arg.toList.drop start.length)) else none

/-- Reads arguments after a double hyphen, all of which are paths. -/
def readPaths (d : Draft) (args : List String) : Option Request :=
  (args.foldlM Draft.withPath d).map Draft.request

/-- Reads arguments; none when they are wrong. -/
def read (d : Draft) : List String → Option Request
  | [] => some d.request
  | arg :: args =>
    if arg = "--" then readPaths d args
    else if arg = layerOption then
      match args with
      | [] => none
      | word :: args => (d.withLayer word).bind fun d => read d args
    else
      match attachedLayer? arg with
      | some word => (d.withLayer word).bind fun d => read d args
      | none =>
        if arg = "--help" || ['-', 'h'].isPrefixOf arg.toList then some .help
        else if arg != standardInput && arg.toList.head? = some '-' then none
        else (d.withPath arg).bind fun d => read d args

def parse (args : List String) : Option Request := read {} args

def usage : String := "Usage: boardsync-replay [OPTIONS] [INPUT]"

def help : String :=
  "Replay a board session script and print the board\n\n" ++
  usage ++ "\n\n" ++
  "Arguments:\n" ++
  "  [INPUT]  Script path, or `-` for stdin [default: -]\n\n" ++
  "Options:\n" ++
  "      --layer <LAYER>  Which layer to print [default: local] [possible values: local, network]\n" ++
  "  -h, --help           Print help\n"

end SharedBoard.CommandLine
