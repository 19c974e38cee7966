import SlotScript.Token.Basic

/-! # Diagnostics

A diagnostic is an error found while reading a program.  It names a line and,
where one is known, the token at which reading stood. -/

namespace SlotScript

/-- Where on its line an error was found. -/
inductive Location where
  | atEnd
  | atLexeme (lexeme : String)
  | nowhere
deriving DecidableEq, Repr

namespace Location

/-- The place of a token. -/
def ofToken (t : Token) : Location :=
  if t.kind = .eof then .atEnd else .atLexeme t.lexeme

/-- The place as it is shown to the user; an unknown place shows nothing. -/
def text : Location → String
  | .atEnd => "at end"
  | .atLexeme lexeme => "at '" ++ lexeme ++ "'"
  | .nowhere => ""

end Location

/-- The mark that starts a message about a line. -/
def lineMark (line : Nat) : String := "[line " ++ line.repr ++ "]"

/-- One reported error. -/
structure Diagnostic where
  line : Nat
  location : Location
  message : String
deriving DecidableEq, Repr

namespace Diagnostic

/-- The diagnostic as it is shown to the user. -/
def text (d : Diagnostic) : String :=
  match d.location with
  | .nowhere => lineMark d.line ++ " Error: " ++ d.message
  | place => lineMark d.line ++ " Error " ++ place.text ++ ": " ++ d.message

/-- Several diagnostics, one on a line. -/
def listText (ds : List Diagnostic) : String := "\n".intercalate (ds.map text)

end Diagnostic

end SlotScript
