/-!
# Faults of the system

The reasons for which the system refuses to read or write, with the wording and the number that
the system gives them.
-/

namespace Multicast.Files

/-- Why the system refuses. -/
inductive Fault
  /-- Nothing is there. -/
  | notFound
  /-- Something other than a directory is where one has to be. -/
  | notADirectory
  /-- A directory is where a file has to be. -/
  | isADirectory
  /-- Something is there already. -/
  | exists
  /-- The program that was to read what is written reads no further. -/
  | brokenPipe
  /-- A name or a path is longer than the system allows. -/
  | nameTooLong
  /-- A path has a character in it that ends texts of the system. -/
  | nulInPath
  /-- A file is not text. -/
  | notText
  deriving DecidableEq, Repr

/-- The wording of a fault. -/
def Fault.message : Fault → String
  | notFound => "No such file or directory (os error 2)"
  | notADirectory => "Not a directory (os error 20)"
  | isADirectory => "Is a directory (os error 21)"
  | .exists => "File exists (os error 17)"
  | brokenPipe => "Broken pipe (os error 32)"
  | nameTooLong => "File name too long (os error 36)"
  | nulInPath => "file name contained an unexpected NUL byte"
  | notText => "stream did not contain valid UTF-8"

end Multicast.Files
