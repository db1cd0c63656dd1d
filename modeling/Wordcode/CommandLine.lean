import Wordcode.Config.Text
import Wordcode.Engine
import Wordcode.Listing
import Wordcode.Tree.Document

/-!
# The command line

`Invocation.ofArgs?` reads the arguments and `Invocation.perform` does what they ask for: `run`
evaluates a tree file and prints its value, `compile` prints the program as a hex dump or a
disassembly. Both are pure; files are given as a function from paths to their content.
-/

namespace Wordcode

inductive Command where
  | run
  | compile (disassemble : Bool)
  deriving DecidableEq

structure Invocation where
  config : Option String
  command : Command
  tree : String
  deriving DecidableEq

/-! ### Arguments -/

/-- What has been read of the arguments. The options of the latest command are kept apart from
those in front of it. -/
structure Arguments where
  earlierConfig : Option String := none
  config : Option String := none
  command : Option Command := none
  tree : Option String := none
  /-- Whether the next argument is the configuration file. -/
  valueDue : Bool := false
  optionsEnded : Bool := false

namespace Arguments

/-- Whether an argument is an option. A single dash is not. -/
def isOption (arg : String) : Bool := arg.toList.head? = some '-' && arg ≠ "-"

/-- Notes the configuration file; it is given once at most, and its name is not empty. -/
def setConfig (a : Arguments) (path : String) : Option Arguments :=
  if a.config.isSome ∨ path = "" then none
  else some { a with config := some path, valueDue := false }

/-- Notes that a disassembly is asked for; only the compile command knows this, and only once. -/
def setDisassemble (a : Arguments) : Option Arguments :=
  match a.command with
  | some (.compile false) => some { a with command := some (.compile true) }
  | _ => none

def long (a : Arguments) (name : String) (value : Option String) : Option Arguments :=
  match name, value with
  | "config", none => some { a with valueDue := true }
  | "config", some path => a.setConfig path
  | "verbose", none => some a
  | "disassemble", none => a.setDisassemble
  | _, _ => none

/-- Takes joined short options. What follows the letter of an option with a value is that value,
with or without an equals sign between them. -/
def short (a : Arguments) : List Char → Option Arguments
  | [] => some a
  | 'v' :: cs => a.short cs
  | 'd' :: cs => a.setDisassemble.bind (·.short cs)
  | ['c'] => some { a with valueDue := true }
  | 'c' :: '=' :: cs => a.setConfig (String.ofList cs)
  | 'c' :: cs => a.setConfig (String.ofList cs)
  | _ => none

def option (a : Arguments) (arg : String) : Option Arguments :=
  match arg.toList with
  | '-' :: '-' :: cs =>
    let name := String.ofList (cs.takeWhile (· ≠ '='))
    match cs.dropWhile (· ≠ '=') with
    | [] => a.long name none
    | _ :: value => a.long name (some (String.ofList value))
  | '-' :: cs => a.short cs
  | _ => none

/-- Takes an argument that is no option: first the command, then the tree file. -/
def positional (a : Arguments) (arg : String) : Option Arguments :=
  match a.command, a.tree with
  | none, _ =>
    let start := fun c : Command =>
      some { a with command := some c, earlierConfig := a.config, config := none }
    match arg with
    | "run" => start .run
    | "compile" => start (.compile false)
    | _ => none
  | some _, none => if arg = "" then none else some { a with tree := some arg }
  | some _, some _ => none

/-- Takes one argument. Two dashes after the command end the options. -/
def step (a : Arguments) (arg : String) : Option Arguments :=
  if a.optionsEnded then a.positional arg
  else if a.valueDue then
    if isOption arg then none else a.setConfig arg
  else if arg = "--" then
    if a.command.isSome then some { a with optionsEnded := true } else none
  else if isOption arg then a.option arg
  else a.positional arg

/-- The request, once all arguments have been read. The configuration file after the command goes
before the one in front of it. -/
def finish (a : Arguments) : Option Invocation :=
  match a.command, a.tree, a.valueDue with
  | some command, some tree, false => some ⟨a.config.or a.earlierConfig, command, tree⟩
  | _, _, _ => none

end Arguments

def Invocation.ofArgs? (args : List String) : Option Invocation :=
  (args.foldlM Arguments.step {}).bind (·.finish)

/-! ### Outcomes -/

inductive CommandError where
  | engine (error : EngineError)
  | decode (error : DecodeError)
  | unreadableTree (path : String)
  | malformedTree (path : String)
  deriving DecidableEq

namespace CommandError

def message : CommandError → String
  | engine error => error.message
  | decode error => error.message
  | unreadableTree path => s!"failed to read {path}"
  | malformedTree path => s!"failed to parse syntax tree {path}"

end CommandError

namespace Invocation

def engine (i : Invocation) (read : String → Except ReadError String) :
    Except CommandError Engine :=
  let config :=
    match i.config with
    | some path => Config.load path (read path)
    | none => .ok {}
  (config.bind Engine.ofConfig).mapError fun e => .engine (.config e)

def readTree (i : Invocation) (read : String → Except ReadError String) :
    Except CommandError Tree :=
  match read i.tree with
  | .error _ => .error (.unreadableTree i.tree)
  | .ok s =>
    match Tree.parse? s with
    | some t => .ok t
    | none => .error (.malformedTree i.tree)

/-- What a request prints. The configuration is read before the tree. -/
def perform (i : Invocation) (read : String → Except ReadError String) :
    Except CommandError String := do
  let engine ← i.engine read
  let tree ← i.readTree read
  match i.command with
  | .run =>
    let value ← (engine.evaluate tree).mapError .engine
    return value.text ++ "\n"
  | .compile disassemble =>
    let program ← (engine.compile tree).mapError .engine
    if disassemble then program.disassemble.mapError .decode else return program.hexDump

end Invocation

inductive Outcome where
  | usage
  | failure (error : CommandError)
  | success (output : String)

namespace Outcome

def exitCode : Outcome → UInt32
  | success _ => 0
  | failure _ => 1
  | usage => 2

def ofArgs (args : List String) (read : String → Except ReadError String) : Outcome :=
  match Invocation.ofArgs? args with
  | none => usage
  | some i =>
    match i.perform read with
    | .ok output => success output
    | .error e => failure e

end Outcome

end Wordcode
