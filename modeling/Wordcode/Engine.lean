import Wordcode.Config
import Wordcode.Lowering
import Wordcode.Machine

/-!
# The engine

An engine joins lowering, validation and the machine under one configuration.
-/

namespace Wordcode

/-- A configuration under which programs can run: at least one stack slot is allowed. -/
structure Engine where
  config : Config
  depth_pos : 0 < config.maxStackDepth

inductive EngineError where
  | lowering (error : LoweringError)
  | stream (error : StreamError)
  | fault (fault : Fault)
  | config (error : ConfigError)
  deriving DecidableEq

namespace EngineError

/-- The wording of the error, led by the stage it comes from. -/
def message : EngineError → String
  | lowering error => "compile error: " ++ error.message
  | stream error => "bytecode error: " ++ error.message
  | fault f => "runtime error: " ++ f.message
  | config error => "invalid configuration: " ++ error.message

end EngineError

namespace Engine

def default : Engine := ⟨{}, by decide⟩

def ofConfig (c : Config) : Except ConfigError Engine :=
  if h : 0 < c.maxStackDepth then .ok ⟨c, h⟩ else .error .zeroDepth

def withMaxStackDepth (e : Engine) (depth : Nat) : Except ConfigError Engine :=
  ofConfig { e.config with maxStackDepth := depth }

def compile (_ : Engine) (t : Tree) : Except EngineError Program :=
  t.compile.mapError .lowering

/-- Runs a program and reads the word it leaves at the program's result kind, or as a signed
64-bit integer if that kind is unknown. -/
def execute (e : Engine) (p : Program) : Except EngineError Value := do
  if e.config.verifyPrograms then
    p.validate.mapError .stream
  let w ← (Machine.run e.config.maxStackDepth p.code).mapError .fault
  return .ofWord (p.resultKind.getD .i64) w

def executeBytes (e : Engine) (code : List UInt8) : Except EngineError Int :=
  (e.execute (.ofBytes code)).map (·.word.signed)

def evaluate (e : Engine) (t : Tree) : Except EngineError Value := do
  e.execute (← e.compile t)

end Engine

end Wordcode
