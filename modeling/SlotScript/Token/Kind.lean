import SlotScript.Ty

/-! # Kinds of tokens

A kind says which role a piece of text plays.  Type names are reserved words
and carry their type; the other reserved words have a kind each.  The first
three kinds mark text that is read and dropped. -/

namespace SlotScript

/-- The role of a token in the grammar. -/
inductive Token.Kind where
  | newline | blank | comment
  | leftParen | rightParen | leftBrace | rightBrace | leftBracket | rightBracket
  | typeCast | comma | dot | semicolon
  | minus | minusEqual | decrement
  | plus | plusEqual | increment
  | slash | slashEqual
  | star | starEqual | power | powerEqual
  | percent | percentEqual
  | bitAnd | bitOr | bitXor | bitNot | leftShift | rightShift
  | and | or | bang | bangEqual | equal | equalEqual
  | greater | greaterEqual | less | lessEqual
  | identifier | string | character | number
  | ifWord | elifWord | elseWord | whileWord | forWord | continueWord | breakWord
  | returnWord | classWord | superWord | thisWord
  | nullWord | trueWord | falseWord | printWord
  | type (t : Ty)
  | eof
deriving DecidableEq, Repr

namespace Token.Kind

/-- Text of this kind takes no part in the grammar. -/
def isIgnored (k : Kind) : Bool := k == .newline || k == .blank || k == .comment

/-- The type that a reserved type name stands for. -/
def type? : Kind → Option Ty
  | .type t => some t
  | _ => none

/-- The reserved words other than the type names. -/
def reserved : List (String × Kind) :=
  [("if", .ifWord), ("elif", .elifWord), ("else", .elseWord), ("while", .whileWord),
    ("for", .forWord), ("continue", .continueWord), ("break", .breakWord),
    ("return", .returnWord), ("class", .classWord), ("super", .superWord),
    ("this", .thisWord), ("null", .nullWord), ("true", .trueWord), ("false", .falseWord),
    ("print", .printWord)]

/-- The kind of a word: a reserved word has its own, a type name that of its
type, and any other word is an identifier. -/
def ofWord (s : String) : Kind :=
  match reserved.lookup s with
  | some k => k
  | none =>
    match Ty.ofName? s with
    | some t => .type t
    | none => .identifier

/-- The operators and punctuation marks, longer ones first, so that the first
entry that matches is the longest. -/
def marks : List (List Char × Kind) :=
  [(['*', '*', '='], .powerEqual),
    (['&', '&'], .and), (['|', '|'], .or),
    (['+', '+'], .increment), (['+', '='], .plusEqual),
    (['-', '-'], .decrement), (['-', '='], .minusEqual),
    (['*', '*'], .power), (['*', '='], .starEqual),
    (['%', '='], .percentEqual), (['/', '='], .slashEqual),
    (['!', '='], .bangEqual), (['=', '='], .equalEqual),
    (['<', '='], .lessEqual), (['<', '<'], .leftShift),
    (['>', '='], .greaterEqual), (['>', '>'], .rightShift),
    (['('], .leftParen), ([')'], .rightParen),
    (['{'], .leftBrace), (['}'], .rightBrace),
    (['['], .leftBracket), ([']'], .rightBracket),
    ([','], .comma), (['.'], .dot), ([';'], .semicolon),
    (['~'], .bitNot), (['^'], .bitXor), (['&'], .bitAnd), (['|'], .bitOr),
    (['+'], .plus), (['-'], .minus), (['*'], .star), (['/'], .slash), (['%'], .percent),
    (['!'], .bang), (['='], .equal), (['<'], .less), (['>'], .greater)]

end Token.Kind

end SlotScript
