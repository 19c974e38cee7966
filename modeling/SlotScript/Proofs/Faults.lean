import SlotScript.Proofs.Partition
import SlotScript.Proofs.Promotion
import SlotScript.Proofs.Shapes
import SlotScript.Lowering

/-! # Faults that cannot be met

Lowering refuses operators it does not know, expressions without a value, conditional
statements, and casts to names that are no types.  None of the first three can happen
to a program that was read: every tree that is read is well shaped, and lowering a well
shaped tree fails only for its names and types (`Stmt.lowerAll_ensures`).  The last
cannot happen to a program that was read off a text, unless further type names were
registered: the tokens of a text that are casts name types (`lex_regular`). -/

namespace SlotScript

open Lowering Attempt Outcome
open Token.Kind (binaries unaries)

/-! ### Code with a value -/

/-- The fault is about the types of operands. -/
def LowerFault.OfTypes : LowerFault → Prop
  | .unsupportedPromotion _ _ | .unsupportedIntegralPromotion _ _ | .unsupportedComparison _ _
  | .notNumeric _ | .notIntegral _ | .notBoolean _ | .invalidConversion _ _ => True
  | _ => False

namespace Code

variable {c left right : Code}

/-- The code has a value. -/
def Valued (c : Code) : Prop := ∃ t, c.type = some t

theorem convertTo_valued (c : Code) (t : Ty) : (c.convertTo t).Valued := ⟨t, convertTo_type c t⟩

theorem truthNumber_valued (c : Code) : c.truthNumber.Valued := ⟨.int, rfl⟩

theorem valueType_yields (h : c.Valued) {E : LowerFault → Prop} :
    Yields c.valueType (fun t => c.type = some t) E := by
  obtain ⟨t, ht⟩ := h
  rw [valueType_eq_ok.mpr ht]
  exact ht

theorem asNumeric_yields (h : c.Valued) : Yields c.asNumeric Valued LowerFault.OfTypes := by
  unfold asNumeric
  refine (valueType_yields h).bind fun t _ => ?_
  split
  · exact h
  · split
    · exact c.truthNumber_valued
    · trivial

theorem asIntegral_yields (h : c.Valued) : Yields c.asIntegral Valued LowerFault.OfTypes := by
  unfold asIntegral
  refine (valueType_yields h).bind fun t _ => ?_
  split
  · exact h
  · split
    · exact c.convertTo_valued .int
    · split
      · exact c.truthNumber_valued
      · trivial

theorem asBoolean_yields (h : c.Valued) : Yields c.asBoolean Valued LowerFault.OfTypes := by
  unfold asBoolean
  refine (valueType_yields h).bind fun t _ => ?_
  split
  · exact h
  · split
    · exact ⟨.bool, rfl⟩
    · trivial

theorem asStored_yields (h : c.Valued) (slot : Slot) :
    Yields (c.asStored slot) Valued
      fun fault => ∃ t, fault = .assignmentMismatch slot.name t slot.type := by
  unfold asStored
  refine (valueType_yields h).bind fun t _ => ?_
  split
  · exact c.convertTo_valued slot.type
  · exact ⟨t, rfl⟩

theorem promoteNumeric_yields (l r : Ty) :
    Yields (l.promoteNumeric r) (fun _ => True) LowerFault.OfTypes := by
  unfold Ty.promoteNumeric
  split <;> trivial

theorem promoteIntegral_yields (l r : Ty) :
    Yields (l.promoteIntegral r) (fun _ => True) LowerFault.OfTypes := by
  unfold Ty.promoteIntegral
  split
  · exact promoteNumeric_yields l r
  · trivial

theorem promote_yields (op : BinaryOp) (l r : Ty) :
    Yields (op.promote l r) (fun _ => True) LowerFault.OfTypes := by
  cases op with
  | arithmetic => exact promoteNumeric_yields l r
  | bitwise => exact promoteIntegral_yields l r
  | comparison =>
      show Yields (l.promoteComparison r) _ _
      unfold Ty.promoteComparison
      split
      · trivial
      · split <;> trivial

theorem raise_yields (hl : left.Valued) (hr : right.Valued) (line : Nat) :
    Yields (left.raise right line) Valued LowerFault.OfTypes := by
  unfold raise
  refine (valueType_yields hl).bind fun l _ => (valueType_yields hr).bind fun r _ => ?_
  split
  · exact (promoteIntegral_yields l r).bind fun width _ => ⟨width, rfl⟩
  · exact (asNumeric_yields hl).bind fun _ _ => (asNumeric_yields hr).bind fun _ _ => ⟨.double, rfl⟩

theorem ofKind_of_binaries {k : Token.Kind} (h : k ∈ binaries) (hpower : k ≠ .power) :
    BinaryOp.ofKind? k ≠ none := by
  revert hpower
  revert k
  decide

/-- An operator between two operands is found unless it is a power, which has code of
its own. -/
theorem combine_yields {op : Token} (hl : left.Valued) (hr : right.Valued) :
    Yields (left.combine op right) Valued fun fault =>
      fault.OfTypes ∨ op.kind ∉ binaries ∧ fault = .unsupportedOperator op.lexeme := by
  unfold combine
  refine (valueType_yields hl).bind fun l _ => (valueType_yields hr).bind fun r _ => ?_
  split
  · exact (raise_yields hl hr op.line).mono (fun _ h => h) fun _ h => .inl h
  · rename_i hpower
    split
    · exact ⟨.string, rfl⟩
    · split
      · rename_i hnone
        exact .inr ⟨fun hop => ofKind_of_binaries hop hpower hnone, rfl⟩
      · rename_i operator _
        have hpromote := promote_yields operator l r
        refine (hpromote.mono (fun _ h => h) fun _ h => .inl h).bind fun t _ => ?_
        split
        · exact .inl trivial
        · exact ⟨operator.resultType t, rfl⟩

theorem castTo_yields (h : c.Valued) (name : String) (line : Nat) :
    Yields (c.castTo name line) Valued fun fault =>
      fault.OfTypes ∨ Ty.ofName? name = none ∧ fault = .unresolvableType name := by
  unfold castTo
  split
  · rename_i hnone
    exact .inr ⟨hnone, rfl⟩
  · rename_i t _
    refine (valueType_yields h).bind fun s _ => ?_
    split
    · exact .inl trivial
    · split
      · exact h
      · exact ⟨t, rfl⟩

end Code

/-! ### Possible faults -/

/-- Lowering the statements of a source can fail for this reason. -/
def LowerFault.Possible (source : List Token) : LowerFault → Prop
  | .unresolvableType name =>
    ∃ t ∈ source, t.kind = .typeCast ∧ t.lexeme = name ∧ Ty.ofName? name = none
  | .unsupportedOperator _ | .noValue | .unsupportedStatement _ => False
  | _ => True

/-- The error has a possible reason. -/
def LowerError.Possible (source : List Token) (e : LowerError) : Prop := e.fault.Possible source

theorem LowerFault.OfTypes.possible {fault : LowerFault} (h : fault.OfTypes)
    (source : List Token) : fault.Possible source := by
  cases fault with
  | undefinedVariable | duplicateDeclaration | unresolvableType | assignmentMismatch
  | unsupportedOperator | noValue | unsupportedStatement => exact h.elim
  | _ => trivial

section steps

variable {source : List Token} {α : Type} {Q : α → Prop}

theorem checkAt_ensures (t : Token) {r : Except LowerFault α} {E : LowerFault → Prop}
    (h : Yields r Q E) (hE : ∀ fault, E fault → fault.Possible source) :
    (checkAt t r).Ensures Q (LowerError.Possible source) :=
  ensures_ofExcept (h.mapError hE)

/-- An operand that has to be of some type. -/
theorem checkOperand_ensures (t : Token) {r : Except LowerFault α}
    (h : Yields r Q LowerFault.OfTypes) : (checkAt t r).Ensures Q (LowerError.Possible source) :=
  checkAt_ensures t h fun _ hfault => hfault.possible source

/-- A value that is stored into a variable. -/
theorem checkStored_ensures (t : Token) {c : Code} (h : c.Valued) (slot : Slot) :
    (checkAt t (c.asStored slot)).Ensures Code.Valued (LowerError.Possible source) := by
  apply checkAt_ensures t (Code.asStored_yields h slot)
  intro fault hfault
  obtain ⟨type, rfl⟩ := hfault
  trivial

theorem visit_ensures (t : Token) :
    (visit t).Ensures (fun _ => True) (LowerError.Possible source) := fun _ => trivial

theorem currentLine_ensures :
    currentLine.Ensures (fun _ => True) (LowerError.Possible source) := fun _ => trivial

theorem allocate_ensures (name : String) (type : Ty) :
    (allocate name type).Ensures (fun _ => True) (LowerError.Possible source) := fun _ => trivial

theorem resolve_ensures (t : Token) :
    (resolve t).Ensures (fun _ => True) (LowerError.Possible source) := by
  intro s
  have hscope : Yields (s.scope.resolve t.lexeme) (fun _ => True) (LowerFault.Possible source) := by
    unfold Scope.resolve
    split <;> trivial
  exact hscope.mapError fun _ he => he

theorem bindName_ensures (t : Token) (slot : Slot) :
    (bindName t slot).Ensures (fun _ => True) (LowerError.Possible source) := by
  intro s
  simp only [bindName, Attempt.run]
  split
  · trivial
  · rename_i fault hfault
    unfold Scope.declare at hfault
    split at hfault
    · cases hfault
      trivial
    · split at hfault <;> cases hfault

theorem inBlock_ensures {inside : Lower α}
    (h : inside.Ensures Q (LowerError.Possible source)) :
    (inBlock inside).Ensures (fun result => Q result.1) (LowerError.Possible source) := by
  intro s
  have hinside := h { s with scope := s.scope.push }
  simp only [inBlock, Attempt.run] at hinside ⊢
  cases hresult : (inside { s with scope := s.scope.push }).1 with
  | ok a =>
      rw [hresult] at hinside
      exact hinside
  | error e =>
      rw [hresult] at hinside
      exact hinside

theorem applyUnary_ensures {op : Token} (hop : op.kind ∈ unaries) {c : Code} (h : c.Valued) :
    (applyUnary op c).Ensures Code.Valued (LowerError.Possible source) := by
  have finish : ∀ (operator : UnaryOp) (r : Except LowerFault Code),
      Yields r Code.Valued LowerFault.OfTypes →
      (do
        let d ← checkAt op r
        return .unary operator d ⟨d.type, ← currentLine⟩ : Lower Code).Ensures Code.Valued
          (LowerError.Possible source) := by
    intro operator r hr
    refine (checkOperand_ensures op hr).bind fun d hd => ?_
    exact currentLine_ensures.bind fun line _ => ensures_pure hd
  unfold applyUnary
  split
  · exact finish .negate _ (Code.asNumeric_yields h)
  · exact finish .not _ (Code.asBoolean_yields h)
  · exact finish .complement _ (Code.asIntegral_yields h)
  · rename_i hminus hbang hnot
    simp only [unaries, List.mem_cons, List.not_mem_nil, or_false] at hop
    rcases hop with hop | hop | hop
    · exact absurd hop hbang
    · exact absurd hop hminus
    · exact absurd hop hnot

theorem stepVariable_ensures (op target : Token) (isPrefix : Bool) :
    (stepVariable op target isPrefix).Ensures Code.Valued (LowerError.Possible source) := by
  unfold stepVariable
  refine (resolve_ensures target).bind fun slot _ => ?_
  split
  · exact ensures_fail trivial
  · cases isPrefix with
    | true => exact ensures_pure ⟨slot.type, rfl⟩
    | false => exact (allocate_ensures _ _).bind fun temp _ => ensures_pure ⟨temp.type, rfl⟩

end steps

/-! ### Expressions and statements -/

/-- Lowering a well shaped expression gives code with a value, or fails for a possible
reason. -/
theorem Expr.lower_ensures {source : List Token} {e : Expr} (h : e.Shaped source) :
    e.lower.Ensures Code.Valued (LowerError.Possible source) := by
  induction e with
  | literal v => exact currentLine_ensures.bind fun line _ => ensures_pure ⟨v.type, rfl⟩
  | grouping inner ih => exact ih h
  | var name =>
      refine (visit_ensures name).bind fun _ _ => ?_
      exact (resolve_ensures name).bind fun slot _ => ensures_pure ⟨slot.type, rfl⟩
  | assign target value ih =>
      refine (visit_ensures target).bind fun _ _ => (resolve_ensures target).bind fun slot _ => ?_
      refine (ih h.2).bind fun code hcode => ?_
      refine (checkStored_ensures target hcode slot).bind fun stored _ => ?_
      exact ensures_pure ⟨slot.type, rfl⟩
  | unary op operand ih =>
      refine (visit_ensures op).bind fun _ _ => ?_
      exact (ih h.2).bind fun code hcode => applyUnary_ensures h.1 hcode
  | binary left op right ihl ihr =>
      refine (visit_ensures op).bind fun _ _ => ?_
      refine (ihl h.2.1).bind fun l hl => (ihr h.2.2).bind fun r hr => ?_
      refine checkAt_ensures op (Code.combine_yields hl hr) fun fault hfault => ?_
      rcases hfault with htypes | ⟨hop, -⟩
      · exact htypes.possible source
      · exact absurd h.1 hop
  | logical left op right ihl ihr =>
      refine (visit_ensures op).bind fun _ _ => (ihl h.2.1).bind fun l hl => ?_
      refine (checkOperand_ensures op (Code.asBoolean_yields hl)).bind fun l' _ => ?_
      refine (ihr h.2.2).bind fun r hr => ?_
      refine (checkOperand_ensures op (Code.asBoolean_yields hr)).bind fun r' _ => ?_
      exact currentLine_ensures.bind fun line _ => ensures_pure ⟨.bool, rfl⟩
  | cast target operand ih =>
      obtain ⟨⟨hkind, hsource⟩, hoperand⟩ := h
      refine (visit_ensures target).bind fun _ _ => (ih hoperand).bind fun code hcode => ?_
      refine checkAt_ensures target (Code.castTo_yields hcode _ _) fun fault hfault => ?_
      rcases hfault with htypes | ⟨hnone, rfl⟩
      · exact htypes.possible source
      · exact ⟨target, hsource, hkind, rfl, hnone⟩
  | step op target isPrefix =>
      refine (visit_ensures op).bind fun _ _ => ?_
      exact stepVariable_ensures op target isPrefix

mutual

theorem Stmt.lower_ensures {source : List Token} :
    ∀ {stmt : Stmt}, stmt.Shaped source →
      stmt.lower.Ensures (fun _ => True) (LowerError.Possible source)
  | .expression e, h => by
      rw [Stmt.lower]
      exact fun s => (Expr.lower_ensures h s).mono (fun _ _ => trivial) fun _ he => he
  | .print e, h => by
      rw [Stmt.lower]
      exact (Expr.lower_ensures h).bind fun code _ => ensures_pure trivial
  | .declare type name initial, h => by
      rw [Stmt.lower]
      refine (visit_ensures name).bind fun _ _ => (allocate_ensures _ _).bind fun slot _ => ?_
      refine (bindName_ensures name slot).bind fun _ _ => ?_
      cases initial with
      | none => exact ensures_pure trivial
      | some e =>
          refine (Expr.lower_ensures (h.2 e rfl)).bind fun code hcode => ?_
          refine (checkStored_ensures name hcode slot).bind fun _ _ => ?_
          exact ensures_pure trivial
  | .block body, h => by
      rw [Stmt.lower]
      refine (inBlock_ensures (Stmt.lowerAll_ensures h)).bind fun _ _ => ?_
      exact currentLine_ensures.bind fun _ _ => ensures_pure trivial
  | .conditional _ _ _ _, h => by
      rw [Stmt.Shaped] at h
      exact h.elim

theorem Stmt.lowerAll_ensures {source : List Token} :
    ∀ {stmts : List Stmt}, Stmt.AllShaped source stmts →
      (Stmt.lowerAll stmts).Ensures (fun _ => True) (LowerError.Possible source)
  | [], _ => by
      rw [Stmt.lowerAll]
      exact ensures_pure trivial
  | stmt :: rest, h => by
      rw [Stmt.lowerAll]
      refine (Stmt.lower_ensures h.1).bind fun _ _ => ?_
      exact (Stmt.lowerAll_ensures h.2).bind fun _ _ => ensures_pure trivial

end

/-- A program that was read is refused for a possible reason only. -/
theorem lower_possible {tokens : List Token} {e : LowerError}
    (h : lower (parse tokens).statements = .error e) : e.fault.Possible tokens := by
  have hall := Stmt.lowerAll_ensures (parse_shaped tokens) .start
  unfold lower at h
  split at h
  · cases h
  · rename_i hrun
    rw [hrun] at hall
    cases h
    exact hall

/-! ### Tokens of a text -/

/-- What a token of a kind carries: a number, a string or a character carries a value
of its kind, and any other token carries none. -/
inductive Token.Kind.Carries : Token.Kind → Option Literal → Prop
  | int (n : Int32) : Carries .number (some (.int n))
  | long (n : Int64) : Carries .number (some (.long n))
  | double (x : Float) : Carries .number (some (.double x))
  | string (s : String) : Carries .string (some (.string s))
  | character (c : Char) : Carries .character (some (.char c))
  | nothing {k : Token.Kind} : k ∉ [.number, .string, .character] → Carries k none

theorem Literal.ofNumeral_carries {text : List Char} {v : Literal}
    (h : Literal.ofNumeral? text = some v) : Token.Kind.number.Carries (some v) := by
  unfold Literal.ofNumeral? at h
  split at h
  · split at h
    · rw [← h]
      exact .int _
    · split at h
      · rw [← h]
        exact .long _
      · obtain ⟨x, -, rfl⟩ := Option.map_eq_some_iff.mp h
        exact .double x
  · obtain ⟨x, -, rfl⟩ := Option.map_eq_some_iff.mp h
    exact .double x

theorem Token.Kind.ofWord_unvalued (s : String) : ofWord s ∉ [.number, .string, .character] := by
  have hreserved : ∀ entry ∈ reserved, entry.2 ∉ [.number, .string, .character] := by decide
  unfold ofWord
  split
  · rename_i k hk
    obtain ⟨before, after, hsplit, -⟩ := List.lookup_eq_some_iff.mp hk
    exact hreserved (s, k) (by rw [hsplit]; simp)
  · split <;> simp

theorem Segment.Fits.carries {names : List String} {text lexeme rest : List Char}
    {kind : Token.Kind} {literal : Option Literal} {lines : Nat}
    (h : Segment.Fits names ⟨text, .token kind lexeme literal, lines⟩ rest) :
    kind.Carries literal := by
  cases h with
  | newline | blank | lineComment | blockComment | cast => exact .nothing (by decide)
  | string => exact .string _
  | character => exact .character _
  | number _ _ hvalue => exact Literal.ofNumeral_carries hvalue
  | word => exact .nothing (Token.Kind.ofWord_unvalued _)
  | mark hmark =>
      have hmarks : ∀ entry ∈ Token.Kind.marks, entry.2 ∉ [.number, .string, .character] := by
        decide
      exact .nothing (hmarks _ hmark)

/-- The token is none that is dropped, carries what its kind says, and names a type if
it is a cast. -/
structure Token.Regular (names : List String) (t : Token) : Prop where
  heeded : t.kind.isIgnored = false
  carries : t.kind.Carries t.literal
  cast : t.kind = .typeCast → t.lexeme ∈ Ty.all.map Ty.name ++ names

/-- All tokens of a text are regular. -/
theorem lex_regular (names : List String) (source : String) :
    ∀ t ∈ (lex names source).tokens, t.Regular names := by
  intro t ht
  have htiles := tiles_pieces (Segment.segmented_ofChars names source.toList)
  rcases htiles.covers_or_end ht with ⟨text, rest, hcovers⟩ | rfl
  · exact ⟨hcovers.proper.2, hcovers.fits.carries, fun hcast => (hcovers.cast hcast).2⟩
  · refine ⟨rfl, .nothing (by simp [Lexed.endMark]), fun hcast => ?_⟩
    simp [Lexed.endMark] at hcast

theorem Ty.ofName_ne_none {s : String} (h : s ∈ Ty.all.map Ty.name) : Ty.ofName? s ≠ none := by
  obtain ⟨t, ht, rfl⟩ := List.mem_map.mp h
  intro hnone
  have hdiffer := List.find?_eq_none.mp hnone t ht
  simp at hdiffer

/-- What is read has the shape that lowering relies on.  A program that was read is
never refused for an unknown operator, a missing value or an unknown statement; one
that was read off a text, with no type names registered, is not refused for an unknown
type either. -/
theorem parse_meets_lowering :
    (∀ tokens : List Token,
      Stmt.AllShaped tokens (parse tokens).statements ∧
      ∀ e, lower (parse tokens).statements = .error e →
        (∀ lexeme, e.fault ≠ .unsupportedOperator lexeme) ∧ e.fault ≠ .noValue ∧
          ∀ name, e.fault ≠ .unsupportedStatement name) ∧
    ∀ source : String,
      (∀ t ∈ (lex [] source).tokens, t.kind.Carries t.literal ∧ t.kind.isIgnored = false) ∧
      ∀ e, lower (parse (lex [] source).tokens).statements = .error e →
        ∀ name, e.fault ≠ .unresolvableType name := by
  refine ⟨fun tokens => ⟨parse_shaped tokens, fun e he => ?_⟩, fun source => ⟨?_, ?_⟩⟩
  · have hpossible := lower_possible he
    refine ⟨fun lexeme hfault => ?_, fun hfault => ?_, fun name hfault => ?_⟩
    all_goals
      rw [hfault] at hpossible
      exact hpossible
  · intro t ht
    have hregular := lex_regular [] source t ht
    exact ⟨hregular.carries, hregular.heeded⟩
  · intro e he name hfault
    have hpossible := lower_possible he
    rw [hfault] at hpossible
    obtain ⟨t, ht, hkind, rfl, hnone⟩ := hpossible
    have hname := (lex_regular [] source t ht).cast hkind
    rw [List.append_nil] at hname
    exact Ty.ofName_ne_none hname hnone

example : lower (parse (lex ["Point"] "(Point)1;").tokens).statements =
    .error ⟨1, .atLexeme "Point", .unresolvableType "Point"⟩ := by cbv

end SlotScript
