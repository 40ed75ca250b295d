import Horizon.Path
import Horizon.Text.Numeral

/-!
Why an operation on files fails.
-/

namespace Horizon

inductive FileError where
  | notFound
  | permissionDenied
  | alreadyExists
  | notADirectory
  | isADirectory
  | tooManyLinks
  | nameTooLong
  | notExecutable
  | textBusy
  | nulInPath
  | namesNoFile (path : Path)
  | targetIsDirectory (path : Path)
  | notRegular
  | notText
deriving DecidableEq, Repr

namespace FileError

/-- What went wrong, in the words of the system. -/
def reason : FileError → Text
  | .notFound => "No such file or directory".toList
  | .permissionDenied => "Permission denied".toList
  | .alreadyExists => "File exists".toList
  | .notADirectory => "Not a directory".toList
  | .isADirectory => "Is a directory".toList
  | .tooManyLinks => "Too many levels of symbolic links".toList
  | .nameTooLong => "File name too long".toList
  | .notExecutable => "Exec format error".toList
  | .textBusy => "Text file busy".toList
  | .nulInPath => "file name contained an unexpected NUL byte".toList
  | .namesNoFile path => path ++ " names no file".toList
  | .targetIsDirectory path => path ++ " is a directory".toList
  | .notRegular =>
      "the source path is neither a regular file nor a symlink to a regular file".toList
  | .notText => "stream did not contain valid UTF-8".toList

/-- The number of an error that the system itself reports. -/
def number? : FileError → Option Nat
  | .notFound => some 2
  | .permissionDenied => some 13
  | .alreadyExists => some 17
  | .notADirectory => some 20
  | .isADirectory => some 21
  | .tooManyLinks => some 40
  | .nameTooLong => some 36
  | .notExecutable => some 8
  | .textBusy => some 26
  | _ => none

def message (e : FileError) : Text :=
  match e.number? with
  | some n => e.reason ++ " (os error ".toList ++ Numeral.write n ++ [')']
  | none => e.reason

end FileError
end Horizon
