import Wordcode.Directory

/-!
# Configuration

The two settings of an engine, and the ways in which a configuration can be refused.
-/

namespace Wordcode

structure Config where
  /-- The number of stack slots a run may use. -/
  maxStackDepth : Nat := 1024
  /-- Whether a stream is validated before it is run. -/
  verifyPrograms : Bool := true
  deriving DecidableEq

inductive ConfigError where
  | zeroDepth
  | malformed
  | unreadable (path : String) (cause : ReadError)
  deriving DecidableEq

namespace ConfigError

def message : ConfigError → String
  | zeroDepth => "max_stack_depth must be greater than zero"
  | malformed => "TOML parse error"
  | unreadable path cause =>
    let reason := cause.message
    s!"reading {path}: {reason}"

end ConfigError

namespace Config

def validate (c : Config) : Except ConfigError Config :=
  if c.maxStackDepth = 0 then .error .zeroDepth else .ok c

end Config

end Wordcode
