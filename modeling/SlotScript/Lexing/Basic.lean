import SlotScript.Lexing.Segment

/-! # Tokens of a source text

`lex` turns a source text into its tokens, closed by an end mark, and the
diagnostics of the text that is no token.  Both are read off the segments: a
token or a diagnostic lies on the line on which its segment ends. -/

namespace SlotScript

/-- What reading a text gives. -/
structure Lexed where
  tokens : List Token
  diagnostics : List Diagnostic

namespace Lexed

/-- The mark behind the last token. -/
def endMark (line : Nat) : Token := { kind := .eof, lexeme := "", line }

/-- Collects the tokens and diagnostics of segments that start on a line. -/
def ofSegments (line : Nat) : List Segment → Lexed
  | [] => ⟨[endMark line], []⟩
  | s :: rest =>
    let line := line + s.lines
    let after := ofSegments line rest
    match s.meaning with
    | .fault f => { after with diagnostics := f.diagnostic line :: after.diagnostics }
    | .token kind lexeme literal =>
      if kind.isIgnored then after
      else
        { after with tokens := ⟨kind, String.ofList lexeme, line, literal⟩ :: after.tokens }

end Lexed

/-- The tokens of a source text.  The `names` are accepted as types in a cast,
beside the built-in ones. -/
def lex (names : List String) (source : String) : Lexed :=
  Lexed.ofSegments 1 (Segment.ofChars names source.toList)

end SlotScript
