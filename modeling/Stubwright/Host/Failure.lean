/-!
# Failures of the host

Why the host refuses to read or write a file, in the words of the operating system.
-/

namespace Stubwright.Host

/-- Why a file operation fails. -/
inductive Failure where
  /-- A part of the path does not exist. -/
  | notFound
  /-- A part of the path that should be a directory is a file. -/
  | notDirectory
  /-- The path names a directory where a file is wanted. -/
  | isDirectory
  /-- The path, or a name in it, is longer than the system allows. -/
  | nameTooLong
  | zeroByte
  /-- The bytes of the file are not UTF-8. -/
  | notText
deriving DecidableEq, Repr

def Failure.message : Failure → String
  | .notFound => "No such file or directory (os error 2)"
  | .notDirectory => "Not a directory (os error 20)"
  | .isDirectory => "Is a directory (os error 21)"
  | .nameTooLong => "File name too long (os error 36)"
  | .zeroByte => "file name contained an unexpected NUL byte"
  | .notText => "stream did not contain valid UTF-8"

end Stubwright.Host
