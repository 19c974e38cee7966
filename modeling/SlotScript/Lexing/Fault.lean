import SlotScript.Diagnostic

/-! # Faults in the text

What can be wrong with a piece of source text.  A fault does not stop reading:
the text it covers gives no token, and reading goes on behind it. -/

namespace SlotScript

/-- A reason why a piece of text is no token. -/
inductive LexFault where
  | unterminatedComment
  | unexpectedCharacter (c : Char)
  | unterminatedString
  | invalidStringEscape (c : Char)
  | unterminatedCharacter
  | invalidCharacterEscape
  | trailingPoint
  | multiplePoints
  | invalidNumber (text : String)
deriving DecidableEq, Repr

namespace LexFault

/-- The fault as it is shown to the user. -/
def message : LexFault → String
  | .unterminatedComment => "Unterminated block comment."
  | .unexpectedCharacter c => "Unexpected character '" ++ String.singleton c ++ "'."
  | .unterminatedString => "Unterminated string."
  | .invalidStringEscape c =>
    "Invalid escape sequence '\\" ++ String.singleton c ++ "' in string literal."
  | .unterminatedCharacter => "Unterminated character literal."
  | .invalidCharacterEscape => "Invalid escape sequence in character literal."
  | .trailingPoint => "Invalid number format (trailing decimal point)."
  | .multiplePoints => "Invalid number format (multiple decimal points)."
  | .invalidNumber text => "Invalid number format: " ++ text

/-- The fault reported on a line. -/
def diagnostic (f : LexFault) (line : Nat) : Diagnostic := ⟨line, .nowhere, f.message⟩

end LexFault

/-- An error message with its line, as it is shown on its own. -/
def lineText (line : Nat) (message : String) : String := "line " ++ line.repr ++ ": " ++ message

end SlotScript
