import Wordcode.CommandLine

/-!
# The program

Reads the files a request names, performs it, and prints its outcome.
-/

namespace Wordcode

/-- The number of an operating-system error, given either as it is or negated in 32 bits. -/
def systemErrorNumber (code : UInt32) : UInt32 :=
  if code < 0x80000000 then code else 0 - code

def ReadError.ofSystem : IO.Error → ReadError
  | .noFileOrDirectory _ _ _ => .notFound
  | e@(.inappropriateType _ code _) =>
    match systemErrorNumber code with
    | 20 => .notDirectory
    | 21 => .isDirectory
    | _ => .other e.toString
  | e@(.invalidArgument _ code _) | e@(.resourceExhausted _ code _) =>
    if systemErrorNumber code = 36 then .nameTooLong else .other e.toString
  | e => .other e.toString

def readText (path : String) : IO (Except ReadError String) := do
  try
    return Directory.decode (← IO.FS.readBinFile path)
  catch e =>
    return .error (.ofSystem e)

/-- Reads the files a request names, and gives them as a function of their paths. -/
def readFiles (i : Invocation) : IO (String → Except ReadError String) := do
  let contents ← (i.config.toList ++ [i.tree]).mapM fun path => return (path, ← readText path)
  return fun path => (contents.lookup path).getD (.error .notFound)

end Wordcode

open Wordcode in
def main (args : List String) : IO UInt32 := do
  let read ←
    match Invocation.ofArgs? args with
    | some i => readFiles i
    | none => pure fun _ => .error .notFound
  let outcome := Outcome.ofArgs args read
  match outcome with
  | .usage => IO.eprintln "usage: [-c FILE] [-v] (run TREE | compile [-d] TREE)"
  | .failure error => IO.eprintln ("Error: " ++ error.message)
  | .success output => IO.print output
  return outcome.exitCode
