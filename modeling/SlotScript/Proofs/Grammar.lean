import SlotScript.Parsing.Basic

/-! # The grammar

```
program     → declaration*
declaration → TYPE IDENTIFIER ( "=" assignment )? ";" | "print" assignment ";"
            | "{" declaration* "}" | assignment ";"
assignment  → IDENTIFIER ( "=" | "+=" | "-=" | "*=" | "/=" | "%=" | "**=" ) assignment | or
or          → and ( "||" and )*
and         → equality ( "&&" equality )*
equality    → comparison ( ( "!=" | "==" ) comparison )*
comparison  → bitOr ( ( ">" | ">=" | "<" | "<=" ) bitOr )*
bitOr       → bitXor ( "|" bitXor )*
bitXor      → bitAnd ( "^" bitAnd )*
bitAnd      → shift ( "&" shift )*
shift       → term ( ( "<<" | ">>" ) term )*
term        → factor ( ( "-" | "+" ) factor )*
factor      → exponent ( ( "/" | "*" | "%" ) exponent )*
exponent    → unary ( "**" unary )*
unary       → ( "!" | "-" | "~" ) unary | ( "++" | "--" ) IDENTIFIER | postfix
postfix     → IDENTIFIER ( "++" | "--" ) | primary
primary     → NUMBER | STRING | CHARACTER | "true" | "false" | "null" | IDENTIFIER
            | TYPECAST unary | "(" assignment ")"
```

`Derives s ts e` says that the tokens `ts` can be derived from the symbol `s`, and
that `e` is the tree of the derivation.  A repetition groups to the left, so it is
stated as a rule that puts one more operand behind what is there.  The tree of a
number, string or character is the value that its token carries.  `Declares` and
`DeclaresAll` say the same of declarations and programs. -/

namespace SlotScript.Grammar

/-- The symbols for operators between operands, loosest first. -/
inductive Tier where
  | or | and | equality | comparison | bitOr | bitXor | bitAnd | shift | term | factor | exponent
deriving DecidableEq, Repr

/-- The symbols that expressions are derived from. -/
inductive Symbol where
  | assignment
  | tier (t : Tier)
  | unary
  | postfixed
  | primary
deriving DecidableEq, Repr

namespace Tier

/-- The operators of a tier. -/
def operators : Tier → List Token.Kind
  | .or => [.or]
  | .and => [.and]
  | .equality => [.bangEqual, .equalEqual]
  | .comparison => [.greater, .greaterEqual, .less, .lessEqual]
  | .bitOr => [.bitOr]
  | .bitXor => [.bitXor]
  | .bitAnd => [.bitAnd]
  | .shift => [.leftShift, .rightShift]
  | .term => [.minus, .plus]
  | .factor => [.slash, .star, .percent]
  | .exponent => [.power]

/-- The symbol of a tier's operands. -/
def operand : Tier → Symbol
  | .or => .tier .and
  | .and => .tier .equality
  | .equality => .tier .comparison
  | .comparison => .tier .bitOr
  | .bitOr => .tier .bitXor
  | .bitXor => .tier .bitAnd
  | .bitAnd => .tier .shift
  | .shift => .tier .term
  | .term => .tier .factor
  | .factor => .tier .exponent
  | .exponent => .unary

/-- The tree of two operands and an operator of a tier. -/
def node : Tier → Expr → Token → Expr → Expr
  | .or, left, op, right => .logical left op right
  | .and, left, op, right => .logical left op right
  | _, left, op, right => .binary left op right

end Tier

/-- The operators of compound assignments, with the operators they apply. -/
def compounds : List (Token.Kind × Token.Kind) :=
  [(.plusEqual, .plus), (.minusEqual, .minus), (.starEqual, .star), (.slashEqual, .slash),
    (.percentEqual, .percent), (.powerEqual, .power)]

/-- The tokens can be derived from the symbol, with this tree. -/
inductive Derives : Symbol → List Token → Expr → Prop
  | assign {name op : Token} {ts : List Token} {e : Expr} :
      name.kind = .identifier → op.kind = .equal → Derives .assignment ts e →
      Derives .assignment (name :: op :: ts) (.assign name e)
  | compound {name op : Token} {base : Token.Kind} {ts : List Token} {e : Expr} :
      name.kind = .identifier → (op.kind, base) ∈ compounds → Derives .assignment ts e →
      Derives .assignment (name :: op :: ts)
        (.assign name (.binary (.var name) (op.withoutEqual base) e))
  | unassigned {ts : List Token} {e : Expr} : Derives (.tier .or) ts e → Derives .assignment ts e
  | operand (t : Tier) {ts : List Token} {e : Expr} :
      Derives t.operand ts e → Derives (.tier t) ts e
  | operator (t : Tier) {before behind : List Token} {op : Token} {left right : Expr} :
      Derives (.tier t) before left → op.kind ∈ t.operators → Derives t.operand behind right →
      Derives (.tier t) (before ++ op :: behind) (t.node left op right)
  | unary {op : Token} {ts : List Token} {e : Expr} :
      op.kind ∈ [.bang, .minus, .bitNot] → Derives .unary ts e →
      Derives .unary (op :: ts) (.unary op e)
  | stepBefore {op name : Token} :
      op.kind ∈ [.increment, .decrement] → name.kind = .identifier → Derives .unary [op, name] (.step op name true)
  | postfixed {ts : List Token} {e : Expr} : Derives .postfixed ts e → Derives .unary ts e
  | stepBehind {name op : Token} :
      name.kind = .identifier → op.kind ∈ [.increment, .decrement] →
      Derives .postfixed [name, op] (.step op name false)
  | primary {ts : List Token} {e : Expr} : Derives .primary ts e → Derives .postfixed ts e
  | literal {t : Token} {v : Literal} :
      t.kind ∈ [.number, .string, .character] → t.literal = some v →
      Derives .primary [t] (.literal v)
  | trueWord {t : Token} : t.kind = .trueWord → Derives .primary [t] (.literal (.bool true))
  | falseWord {t : Token} : t.kind = .falseWord → Derives .primary [t] (.literal (.bool false))
  | nullWord {t : Token} : t.kind = .nullWord → Derives .primary [t] (.literal .null)
  | var {name : Token} : name.kind = .identifier → Derives .primary [name] (.var name)
  | cast {target : Token} {ts : List Token} {e : Expr} :
      target.kind = .typeCast → Derives .unary ts e → Derives .primary (target :: ts) (.cast target e)
  | group {l r : Token} {ts : List Token} {e : Expr} :
      l.kind = .leftParen → Derives .assignment ts e → r.kind = .rightParen →
      Derives .primary (l :: (ts ++ [r])) (.grouping e)

mutual

/-- The tokens are a declaration or a statement. -/
inductive Declares : List Token → Stmt → Prop
  | declare {k name semicolon : Token} {type : Ty} :
      k.kind = .type type → name.kind = .identifier → semicolon.kind = .semicolon →
      Declares [k, name, semicolon] (.declare type name none)
  | declareInit {k name eq semicolon : Token} {type : Ty} {ts : List Token} {e : Expr} :
      k.kind = .type type → name.kind = .identifier → eq.kind = .equal →
      Derives .assignment ts e → semicolon.kind = .semicolon →
      Declares (k :: name :: eq :: (ts ++ [semicolon])) (.declare type name (some e))
  | print {k semicolon : Token} {ts : List Token} {e : Expr} :
      k.kind = .printWord → Derives .assignment ts e → semicolon.kind = .semicolon →
      Declares (k :: (ts ++ [semicolon])) (.print e)
  | block {l r : Token} {ts : List Token} {body : List Stmt} :
      l.kind = .leftBrace → DeclaresAll ts body → r.kind = .rightBrace →
      Declares (l :: (ts ++ [r])) (.block body)
  | expression {semicolon : Token} {ts : List Token} {e : Expr} :
      Derives .assignment ts e → semicolon.kind = .semicolon →
      Declares (ts ++ [semicolon]) (.expression e)

/-- The tokens are declarations and statements in sequence. -/
inductive DeclaresAll : List Token → List Stmt → Prop
  | nil : DeclaresAll [] []
  | cons {first others : List Token} {s : Stmt} {rest : List Stmt} :
      Declares first s → DeclaresAll others rest → DeclaresAll (first ++ others) (s :: rest)

end

end SlotScript.Grammar
