import BraceLang.Text.Utf8

/-! # Read faults — why a file gives no text -/

namespace BraceLang

namespace Cli

/-- Why a file gives no text. -/
inductive ReadFault where
  /-- The system refused the file, with its reason and the number of it. -/
  | refused (reason : String) (code : Nat)
  /-- The contents are not UTF-8. -/
  | notText
  deriving DecidableEq

namespace ReadFault

/-- There is no file of that name. -/
def notFound : ReadFault :=
  .refused "No such file or directory" 2

/-- A file stands where a directory is needed. -/
def notDirectory : ReadFault :=
  .refused "Not a directory" 20

/-- A directory stands where a file is needed. -/
def isDirectory : ReadFault :=
  .refused "Is a directory" 21

/-- A name is longer than the system allows. -/
def nameTooLong : ReadFault :=
  .refused "File name too long" 36

/-- The file may not be read. -/
def permissionDenied : ReadFault :=
  .refused "Permission denied" 13

/-- The refusals that have a wording of their own here. -/
def known : List ReadFault :=
  [notFound, permissionDenied, notDirectory, isDirectory, nameTooLong]

/-- The number of a refusal. -/
def code? : ReadFault → Option Nat
  | refused _ code => some code
  | notText => none

/-- The refusal of a given number; where there is no wording for it, with the
    reason that the system gives. -/
def ofCode (code : Nat) (reason : String) : ReadFault :=
  (known.find? (fun fault => fault.code? = some code)).getD (.refused reason code)

/-- The fault in words. -/
def message : ReadFault → String
  | refused reason code => reason ++ " (os error " ++ toString code ++ ")"
  | notText => "stream did not contain valid UTF-8"

end ReadFault

/-- The text of a file whose bytes were asked for. -/
def textOf (answer : Except ReadFault (List UInt8)) : Except ReadFault String :=
  match answer with
  | .error fault => .error fault
  | .ok bytes =>
      match Text.decode? bytes with
      | some text => .ok text
      | none => .error .notText

end Cli

end BraceLang
