import SlotScript.Proofs.CodeTypes

/-! # Nodes of lowered code

The nodes of a tree of code are listed with every node before its parts
(`Code.nodes`), and `Code.collect f` gathers what `f` finds at them.  Blocks
declare slots, loads and stores name one; all that lowering puts around an
operand to prepare it for an operator is plain, so it adds nothing to what is
collected there (`Code.collect_combine` and the lemmas before it).

`Code.Under c blocks d` says that `d` is a node of `c` and that `blocks` are the
slots of the blocks around it.  They are among the blocks of the tree
(`Code.Under.sublist`), and in well-typed code they declare every slot that the
node names (`Code.Under.declared`). -/

namespace SlotScript

namespace Code

/-! ### Parts and nodes -/

/-- The parts of a node, in order. -/
def parts : Code → List Code
  | .constant _ _ | .load _ _ => []
  | .store _ value _ => [value]
  | .convert operand _ | .unary _ operand _ | .print operand _ => [operand]
  | .binary _ left right _ | .logical _ left right _ => [left, right]
  | .condition test positive negative _ => [test, positive, negative]
  | .call _ arguments _ => arguments
  | .block _ body _ => body

theorem sizeOf_part {c d : Code} (h : d ∈ c.parts) : sizeOf d < sizeOf c := by
  cases c with
  | call builtin arguments note =>
      have hlt := List.sizeOf_lt_of_mem (show d ∈ arguments from h)
      rw [call.sizeOf_spec]
      omega
  | block slots body note =>
      have hlt := List.sizeOf_lt_of_mem (show d ∈ body from h)
      rw [block.sizeOf_spec]
      omega
  | _ => grind [parts]

/-- The nodes of a tree, each before its parts. -/
def nodes (c : Code) : List Code := c :: c.parts.attach.flatMap fun d => d.1.nodes
termination_by sizeOf c
decreasing_by exact sizeOf_part d.2

/-- The slots that a block declares. -/
def slots? : Code → Option (List Slot)
  | .block slots _ _ => some slots
  | _ => none

/-- The slot that a node reads or writes. -/
def access? : Code → Option Slot
  | .load slot _ | .store slot _ _ => some slot
  | _ => none

/-- The node only computes with the values of its parts: it names and declares no slot, and
prints nothing. -/
def isPlain : Code → Bool
  | .load _ _ | .store _ _ _ | .print _ _ | .block _ _ _ => false
  | _ => true

/-- What a function finds at the nodes of a tree. -/
def collect {β : Type} (f : Code → Option β) (c : Code) : List β := c.nodes.filterMap f

/-- The slots of each block of a tree. -/
def blockSlots (c : Code) : List (List Slot) := c.collect slots?

/-- The slots that a tree reads and writes, once for each load and store. -/
def accesses (c : Code) : List Slot := c.collect access?

variable {β : Type} {f : Code → Option β}

theorem nodes_eq (c : Code) : c.nodes = c :: c.parts.flatMap nodes := by
  rw [nodes]
  simp [List.flatMap_def]

theorem collect_eq (f : Code → Option β) (c : Code) :
    c.collect f = (f c).toList ++ c.parts.flatMap (collect f) := by
  unfold collect
  rw [nodes_eq, List.filterMap_cons, List.filterMap_flatMap]
  cases f c with
  | none => rfl
  | some b => rfl

theorem blockSlots_eq (c : Code) : c.blockSlots = c.slots?.toList ++ c.parts.flatMap blockSlots :=
  collect_eq slots? c

/-! ### Operands -/

/-- The function finds nothing at plain nodes. -/
def SkipsPlain (f : Code → Option β) : Prop := ∀ c, c.isPlain = true → f c = none

theorem skipsPlain_slots? : SkipsPlain slots? := by
  intro c hc
  cases c with
  | block slots body note => cases hc
  | _ => rfl

theorem skipsPlain_access? : SkipsPlain access? := by
  intro c hc
  cases c with
  | load slot note => cases hc
  | store slot value note => cases hc
  | _ => rfl

variable {a b c d : Code}

/-- A plain node has what its parts have. -/
theorem collect_of_plain (hf : SkipsPlain f) (hc : c.isPlain = true) :
    c.collect f = c.parts.flatMap (collect f) := by
  rw [collect_eq, hf c hc]
  rfl

theorem collect_ofValue (hf : SkipsPlain f) (v : Value) (t : Ty) (n : Nat) :
    (ofValue v t n).collect f = [] :=
  collect_of_plain hf rfl

theorem collect_around (hf : SkipsPlain f) (hd : d.isPlain = true) (hp : d.parts = [c]) :
    d.collect f = c.collect f := by
  rw [collect_of_plain hf hd, hp, List.flatMap_singleton]

theorem collect_pair (hf : SkipsPlain f) (hd : d.isPlain = true) (hp : d.parts = [a, b]) :
    d.collect f = a.collect f ++ b.collect f := by
  rw [collect_of_plain hf hd, hp, List.flatMap_cons, List.flatMap_singleton]

theorem collect_convertTo (hf : SkipsPlain f) (c : Code) (t : Ty) :
    (c.convertTo t).collect f = c.collect f := by
  unfold convertTo
  split
  · rfl
  · exact collect_around hf rfl rfl

theorem collect_truthNumber (hf : SkipsPlain f) (c : Code) :
    c.truthNumber.collect f = c.collect f := by
  rw [collect_of_plain hf rfl]
  simp [truthNumber, parts, collect_ofValue hf]

theorem collect_asNumeric (hf : SkipsPlain f) (h : c.asNumeric = .ok d) :
    d.collect f = c.collect f := by
  rcases asNumeric_eq_ok.mp h with ⟨_, _, _, rfl⟩ | ⟨_, rfl⟩
  · rfl
  · exact collect_truthNumber hf c

theorem collect_asIntegral (hf : SkipsPlain f) (h : c.asIntegral = .ok d) :
    d.collect f = c.collect f := by
  rcases asIntegral_eq_ok.mp h with ⟨_, _, _, rfl⟩ | ⟨_, rfl⟩ | ⟨_, rfl⟩
  · rfl
  · exact collect_convertTo hf c .int
  · exact collect_truthNumber hf c

theorem collect_asBoolean (hf : SkipsPlain f) (h : c.asBoolean = .ok d) :
    d.collect f = c.collect f := by
  rcases asBoolean_eq_ok.mp h with ⟨_, rfl⟩ | ⟨t, _, _, rfl⟩
  · rfl
  · rw [collect_pair hf rfl rfl, collect_ofValue hf, List.append_nil]

theorem collect_asStored (hf : SkipsPlain f) {slot : Slot} (h : c.asStored slot = .ok d) :
    d.collect f = c.collect f := by
  obtain ⟨_, _, _, rfl⟩ := asStored_eq_ok.mp h
  exact collect_convertTo hf c slot.type

theorem collect_prepared (hf : SkipsPlain f) {k : Token.Kind} {o : UnaryOp} (h : c.Prepared k o d) :
    d.collect f = c.collect f := by
  cases h with
  | negate h => exact collect_asNumeric hf h
  | not h => exact collect_asBoolean hf h
  | complement h => exact collect_asIntegral hf h

theorem collect_castTo (hf : SkipsPlain f) {name : String} {n : Nat} (h : c.castTo name n = .ok d) :
    d.collect f = c.collect f := by
  obtain ⟨s, t, _, _, _, rfl⟩ := castTo_eq_ok.mp h
  split
  · rfl
  · exact collect_around hf rfl rfl

theorem collect_combine (hf : SkipsPlain f) {op : Token} (h : a.combine op b = .ok c) :
    c.collect f = a.collect f ++ b.collect f := by
  obtain ⟨l, r, _, _, h⟩ := combine_eq_ok.mp h
  cases h with
  | integralPower t _ _ =>
      rw [collect_pair hf rfl rfl, collect_convertTo hf, collect_convertTo hf]
  | doublePower x y _ _ hx hy =>
      rw [collect_pair hf rfl rfl, collect_convertTo hf, collect_convertTo hf,
        collect_asNumeric hf hx, collect_asNumeric hf hy]
  | concat _ _ => exact collect_pair hf rfl rfl
  | operator o t _ _ _ _ =>
      rw [collect_pair hf rfl rfl, collect_convertTo hf, collect_convertTo hf]

/-! ### Blocks and accesses -/

section shapes

variable (v : Value) (t : Ty) (n : Nat) (slot : Slot) (slots : List Slot) (body : List Code)

@[simp] theorem blockSlots_ofValue : (ofValue v t n).blockSlots = [] :=
  collect_ofValue skipsPlain_slots? v t n

@[simp] theorem accesses_ofValue : (ofValue v t n).accesses = [] :=
  collect_ofValue skipsPlain_access? v t n

@[simp] theorem blockSlots_loadFrom : (loadFrom slot n).blockSlots = [] := by
  rw [blockSlots_eq]
  rfl

@[simp] theorem accesses_loadFrom : (loadFrom slot n).accesses = [slot] := by
  unfold accesses
  rw [collect_eq]
  rfl

@[simp] theorem blockSlots_storeTo : (storeTo slot c n).blockSlots = c.blockSlots := by
  rw [blockSlots_eq]
  simp [storeTo, slots?, parts]

@[simp] theorem accesses_storeTo : (storeTo slot c n).accesses = slot :: c.accesses := by
  unfold accesses
  rw [collect_eq]
  simp [storeTo, access?, parts]

@[simp] theorem blockSlots_print (note : Note) : (print c note).blockSlots = c.blockSlots := by
  rw [blockSlots_eq]
  simp [slots?, parts]

@[simp] theorem accesses_print (note : Note) : (print c note).accesses = c.accesses := by
  unfold accesses
  rw [collect_eq]
  simp [access?, parts]

@[simp] theorem blockSlots_ofBlock :
    (ofBlock slots body n).blockSlots = slots :: body.flatMap blockSlots := by
  rw [blockSlots_eq]
  rfl

@[simp] theorem accesses_ofBlock : (ofBlock slots body n).accesses = body.flatMap accesses := by
  unfold accesses
  rw [collect_eq]
  rfl

@[simp] theorem blockSlots_stepSlot (op : Token) : (stepSlot slot op v).blockSlots = [] := by
  rw [stepSlot, blockSlots_storeTo, blockSlots, collect_pair skipsPlain_slots? rfl rfl]
  show blockSlots _ ++ blockSlots _ = []
  simp

@[simp] theorem accesses_stepSlot (op : Token) : (stepSlot slot op v).accesses = [slot, slot] := by
  rw [stepSlot, accesses_storeTo, accesses, collect_pair skipsPlain_access? rfl rfl]
  show slot :: (accesses _ ++ accesses _) = [slot, slot]
  simp

end shapes

/-! ### Blocks around a node -/

/-- The second tree is a node of the first, and stands under blocks with these
slots, the outermost first. -/
inductive Under : Code → List (List Slot) → Code → Prop
  | root (c : Code) : Under c [] c
  | part {c d e : Code} {blocks : List (List Slot)} : d ∈ c.parts → Under d blocks e →
      Under c (c.slots?.toList ++ blocks) e

theorem Under.sublist {blocks : List (List Slot)} (h : c.Under blocks d) :
    blocks.Sublist c.blockSlots := by
  induction h with
  | root c => exact List.nil_sublist _
  | @part c d e blocks hd _ ih =>
      rw [blockSlots_eq]
      refine (List.Sublist.refl _).append (ih.trans ?_)
      rw [List.flatMap_def]
      exact List.sublist_flatten_of_mem (List.mem_map_of_mem hd)

theorem AllWellTyped.mem {Γ : Context} {cs : List Code} (h : AllWellTyped Γ cs) (hd : d ∈ cs) :
    d.WellTyped Γ := by
  induction cs with
  | nil => cases hd
  | cons c cs ih =>
      rcases List.mem_cons.mp hd with rfl | hd
      · exact h.1
      · exact ih h.2 hd

/-- The parts of well-typed code are well-typed under the slots that its node
declares. -/
theorem WellTyped.parts {Γ : Context} :
    ∀ {c : Code}, c.WellTyped Γ → AllWellTyped (Γ.opening (c.slots?.getD [])) c.parts
  | .constant _ _, _ | .load _ _, _ => trivial
  | .store _ _ _, h => ⟨h.2.1, trivial⟩
  | .convert _ _, h | .unary _ _ _, h | .print _ _, h => ⟨h.1, trivial⟩
  | .binary _ _ _ _, h | .logical _ _ _ _, h => ⟨h.1, h.2.1, trivial⟩
  | .condition _ _ _ _, h => ⟨h.1, h.2.1, h.2.2.1, trivial⟩
  | .call _ _ _, h => h.1
  | .block _ _ _, h => h.2.1

/-- Each slot that a node of well-typed code names is declared by a block around
it, or was there before. -/
theorem Under.declared {blocks : List (List Slot)} {slot : Slot} (h : c.Under blocks d)
    (hslot : d.access? = some slot) :
    ∀ {Γ : Context}, c.WellTyped Γ → slot ∈ blocks.flatten ∨ slot ∈ Γ.ready := by
  induction h with
  | root c =>
      intro Γ hc
      cases c with
      | load s note => exact .inr (Option.some.inj hslot ▸ hc.1)
      | store s value note => exact .inr (Option.some.inj hslot ▸ hc.1)
      | _ => cases hslot
  | @part c d e blocks hd _ ih =>
      intro Γ hc
      rw [List.flatten_append, List.mem_append]
      rcases ih hslot (hc.parts.mem hd) with hin | hin
      · exact .inl (.inr hin)
      · rcases List.mem_append.mp hin with hown | hout
        · refine .inl (.inl ?_)
          cases hs : c.slots? with
          | none =>
              rw [hs] at hown
              cases hown
          | some slots =>
              rw [hs] at hown
              exact List.mem_flatten.mpr ⟨slots, List.mem_singleton_self slots, hown⟩
        · exact .inr hout

end Code

end SlotScript
