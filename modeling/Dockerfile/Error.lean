import Dockerfile.Text.Basic

/-!
# Errors

* `Error`: the five ways in which an operation can fail. Callers tell failures apart by the way;
  the text beside it explains the single case.
* `Error.message`: the full wording, with the line of a malformed instruction.
* The failures that this library itself reports, each with its wording: `Error.emptyImagePath`,
  `Error.mismatchedImage`, `Error.badEscape`, `Error.openHeredoc`, `Error.badKeyword`,
  `Error.noInstructions`, `Error.noBaseImage`, `Error.noBaseValue`, `Error.nothingTaken`,
  `Error.notUtf8`.
-/

namespace Dockerfile

/-- Why an operation failed. -/
inductive Error where
  /-- A path that is no image reference. -/
  | badImage (detail : Text)
  /-- Source text that cannot be read, at a physical line. -/
  | malformed (line : Nat) (detail : Text)
  /-- A document without the instruction that is asked for. -/
  | notFound (detail : Text)
  /-- An instruction without the value that is asked for. -/
  | missingValue (detail : Text)
  /-- A source or a sink that failed. -/
  | transfer (detail : Text)
deriving DecidableEq, Repr

namespace Error

/-- The full wording of an error. -/
def message : Error → Text
  | badImage detail => "Invalid image reference: ".toList ++ detail
  | malformed line detail =>
    "Syntax error at line ".toList ++ Text.ofNat line ++ ": ".toList ++ detail
  | notFound detail => "Not found: ".toList ++ detail
  | missingValue detail => "Missing value: ".toList ++ detail
  | transfer detail => "I/O error: ".toList ++ detail

/-- The failure lies in the text that was read: an image path or an instruction. -/
def concernsText : Error → Bool
  | badImage _ | malformed _ _ => true
  | _ => false

/-! ## Image references -/

/-- A path without characters names no image. -/
def emptyImagePath : Error := .badImage "empty image path".toList

/-- The path has none of the accepted shapes. -/
def mismatchedImage (path : Text) : Error :=
  .badImage ('\'' :: path ++
    "' does not match [host:port/][namespace/]repository[:tag]".toList)

/-! ## Source text -/

/-- An escape directive selects something other than a backslash or a backquote. -/
def badEscape (line : Nat) (value : Text) : Error :=
  .malformed line ("invalid escape '".toList ++ value ++ "': must be ` or \\".toList)

/-- The document ends before the terminator of a heredoc that opened at `line`. -/
def openHeredoc (line : Nat) (word : Text) : Error :=
  .malformed line ("unterminated heredoc '".toList ++ word ++ ['\''])

/-- The first word of an instruction is no keyword. -/
def badKeyword (line : Nat) (word : Text) : Error :=
  .malformed line ("invalid instruction '".toList ++ word ++ ['\''])

/-- A text of `lineCount` lines holds no instruction; it is reported at its last line. -/
def noInstructions (lineCount : Nat) : Error :=
  .malformed (max 1 lineCount) "file with no instructions".toList

/-! ## Documents -/

/-- No base image is declared. -/
def noBaseImage : Error := .notFound "no FROM statements found".toList

/-- The declaration of the base image, at `line`, names no image. -/
def noBaseValue (line : Nat) : Error :=
  .missingValue
    ("no values supplied to last FROM statement (line ".toList ++ Text.ofNat line ++ [')'])

/-! ## Sources and sinks -/

/-- A sink took none of the bytes that were left. -/
def nothingTaken : Error := .transfer "failed to write whole buffer".toList

/-- The bytes read are not UTF-8. -/
def notUtf8 : Error := .transfer "stream did not contain valid UTF-8".toList

end Error

end Dockerfile
