import Wordcode.Config
import Wordcode.Toml.Document

/-!
# Configurations from text

A configuration is written as a TOML document with the settings `max_stack_depth` and
`verify_programs`. Settings that are not written keep their defaults, and other names are
ignored.
-/

namespace Wordcode.Config

def depthOf? (es : Toml.Entries) : Option Nat :=
  match es.lookup "max_stack_depth" with
  | none => some ({} : Config).maxStackDepth
  | some (.value (.integer (.ofNat n))) => some n
  | some _ => none

def verifyOf? (es : Toml.Entries) : Option Bool :=
  match es.lookup "verify_programs" with
  | none => some ({} : Config).verifyPrograms
  | some (.value (.boolean b)) => some b
  | some _ => none

def parse? (s : String) : Option Config := do
  let es ← Toml.parse? s
  return ⟨← depthOf? es, ← verifyOf? es⟩

/-- Reads a configuration from a text. A malformed document is reported before a bad setting. -/
def ofText (s : String) : Except ConfigError Config :=
  match parse? s with
  | some c => c.validate
  | none => .error .malformed

def load (path : String) (content : Except ReadError String) : Except ConfigError Config :=
  match content with
  | .ok s => ofText s
  | .error cause => .error (.unreadable path cause)

end Wordcode.Config
