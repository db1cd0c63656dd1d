/-!
# Files

Why a file cannot be read as text, and a directory of files that is held in memory. Paths are
resolved in it as the operating system resolves them.
-/

namespace Wordcode

inductive ReadError where
  | notFound | isDirectory | notDirectory | nameTooLong | notText
  | other (description : String)
  deriving DecidableEq

namespace ReadError

def message : ReadError → String
  | notFound => "No such file or directory (os error 2)"
  | isDirectory => "Is a directory (os error 21)"
  | notDirectory => "Not a directory (os error 20)"
  | nameTooLong => "File name too long (os error 36)"
  | notText => "stream did not contain valid UTF-8"
  | other description => description

end ReadError

/-- The files of one directory, which has no directories below it. -/
structure Directory where
  files : List (String × ByteArray)

namespace Directory

def decode (content : ByteArray) : Except ReadError String :=
  match String.fromUTF8? content with
  | some s => .ok s
  | none => .error .notText

def maxName : Nat := 255

def maxPath : Nat := 4096

/-- Reads what the components of a path lead to outside of the directory, where nothing but the
directories above it is known to be there. -/
def readOutside (names : List String) : Except ReadError String :=
  match names.find? (fun name => name ≠ "" ∧ name ≠ "." ∧ name ≠ "..") with
  | none => .error .isDirectory
  | some name => .error (if maxName < name.utf8ByteSize then .nameTooLong else .notFound)

def readAt (d : Directory) : List String → Except ReadError String
  | [] => .error .isDirectory
  | name :: rest =>
    if name = "" ∨ name = "." then readAt d rest
    else if name = ".." then readOutside rest
    else if maxName < name.utf8ByteSize then .error .nameTooLong
    else
      match d.files.lookup name with
      | none => .error .notFound
      | some content => if rest.isEmpty then decode content else .error .notDirectory

/-- Reads the file at a path. Of the absolute paths, only the root and the null device are known. -/
def read (d : Directory) (path : String) : Except ReadError String :=
  if maxPath ≤ path.utf8ByteSize then .error .nameTooLong
  else if path = "/dev/null" then .ok ""
  else
    match path.splitOn "/" with
    | "" :: rest => if rest.isEmpty then .error .notFound else readOutside rest
    | names => d.readAt names

end Directory

end Wordcode
