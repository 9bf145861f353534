import SpirvText.Proofs.Layout.Replay

/-!
# What a layout puts out

Which fields a part of the layout can put out and what it leaves, whatever the supply: fixed
operands put out one field each, none of them a string or an operand of a list
(`isFixed_of_fixedOperands`), and only some tails hold a string.  The sets that have been imported
matter to extended instructions alone (`Supply.layOut_congr`).
-/

namespace SpirvText

def Field.isFixed : Field → Bool
  | .reg _ | .literal _ | .symbol .. | .extNumber .. => true
  | _ => false

def Field.isText : Field → Bool
  | .text _ => true
  | _ => false

theorem Field.isText_of_isFixed {field : Field} (h : field.isFixed = true) :
    field.isText = false := by
  cases field with
  | text => cases h
  | _ => rfl

/-- No symbol stands in a fixed place. -/
theorem Field.expr_notMem_of_isFixed {field : Field} (h : field.isFixed = true) (symbol : String) :
    .expr symbol ∉ field.operands := by
  cases field with
  | reg | literal | symbol | extNumber => simp [Field.operands]
  | _ => cases h

namespace Opcode

/-- Only the extended instruction takes its number from a set. -/
theorem extNumber_notMem_fixed {o : Opcode} (h : o ≠ .opExtInst) : .extNumber ∉ o.shape.fixed := by
  cases o <;> first | exact absurd rfl h | simp [shape]

/-- Where a tail depends on a decoration, this is the last of the fixed operands. -/
theorem fixed_of_decoration {o : Opcode} (h : o.shape.tail = .decoration) :
    ∃ kinds, o.shape.fixed = kinds ++ [.symbol .decoration] := by
  cases o <;> first | exact ⟨[.id], rfl⟩ | exact ⟨[.id, .literal], rfl⟩ | cases h

end Opcode

namespace Supply

open Transcript

variable {ι ε : Type} {s : Supply ι ε} {opcode : Opcode} {items rest : List ι} {fields : List Field}

/-! ## Fixed operands -/

/-- Only the number of an extended instruction depends on the imported sets. -/
theorem fixedOperands_congr (s : Supply ι ε) {kinds : List OperandKind}
    (hkinds : .extNumber ∉ kinds) (registry registry' : Registry) (opcode : Opcode) (index : Nat)
    (values : FixedValues) (items : List ι) :
    s.fixedOperands registry opcode kinds index values items =
      s.fixedOperands registry' opcode kinds index values items := by
  induction kinds generalizing index values items with
  | nil => rfl
  | cons kind kinds ih =>
    cases items with
    | nil => rfl
    | cons item items =>
      have hkind : s.fixedOperand registry opcode kind values item =
          s.fixedOperand registry' opcode kind values item := by
        cases kind with
        | extNumber => exact absurd List.mem_cons_self hkinds
        | _ => rfl
      rw [fixedOperands, fixedOperands, hkind]
      exact congrArg (_ >>= ·)
        (funext fun values ↦ ih (fun h ↦ hkinds (List.mem_cons_of_mem _ h)) _ values items)

/-- All but extended instructions are laid out alike whatever sets have been imported. -/
theorem layOut_congr (s : Supply ι ε) (hopcode : opcode ≠ .opExtInst)
    (registry registry' : Registry) (items : List ι) :
    s.layOut registry opcode items = s.layOut registry' opcode items := by
  rw [layOut, layOut,
    s.fixedOperands_congr (Opcode.extNumber_notMem_fixed hopcode) registry registry']

/-- A fixed operand is laid out as a field in a fixed place. -/
theorem TakesFixed.isFixed {registry : Registry} {kind : OperandKind} {values values' : FixedValues}
    {item : ι} {field : Field} (h : s.TakesFixed registry values item kind field values') :
    field.isFixed = true := by
  cases h <;> rfl

/-- Each of the fixed operands takes up one item. -/
theorem isFixed_of_fixedOperands {registry : Registry} {kinds : List OperandKind} {index : Nat}
    {values values' : FixedValues}
    (hrun : s.fixedOperands registry opcode kinds index values items =
      ⟨fields, .ok (values', rest)⟩) :
    (∀ field ∈ fields, field.isFixed = true) ∧ rest = items.drop kinds.length := by
  induction kinds generalizing index values items fields with
  | nil =>
    obtain ⟨rfl, hvalues⟩ := pure_eq_ok.mp hrun
    cases hvalues
    exact ⟨List.forall_mem_nil _, rfl⟩
  | cons kind kinds ih =>
    obtain ⟨item, more, field, values₁, back, rfl, rfl, hfield, hmore⟩ :=
      fixedOperands_cons_eq_ok.mp hrun
    obtain ⟨hback, rfl⟩ := ih hmore
    exact ⟨List.forall_mem_cons.mpr ⟨hfield.isFixed, hback⟩, rfl⟩

/-- A symbol that comes last among the fixed operands selects the tail. -/
theorem selector_of_fixedOperands {registry : Registry} {kinds : List OperandKind}
    {category : Category} {index : Nat} {values values' : FixedValues}
    (hrun : s.fixedOperands registry opcode (kinds ++ [.symbol category]) index values items =
      ⟨fields, .ok (values', rest)⟩) :
    ∃ item word, items[kinds.length]? = some item ∧ s.symbol category item = .ok word ∧
      values'.selector = some word := by
  induction kinds generalizing index values items fields with
  | nil =>
    obtain ⟨item, more, field, values₁, back, rfl, -, hfield, hmore⟩ :=
      fixedOperands_cons_eq_ok.mp hrun
    obtain ⟨-, hvalues⟩ := pure_eq_ok.mp hmore
    cases hvalues
    cases hfield with
    | symbol hitem => exact ⟨item, _, rfl, hitem, rfl⟩
  | cons kind kinds ih =>
    obtain ⟨item, more, field, values₁, back, rfl, -, -, hmore⟩ := fixedOperands_cons_eq_ok.mp hrun
    exact ih hmore

/-! ## Tails without strings -/

theorem isText_of_plainTail (hrun : s.plainTail items = ⟨fields, .ok rest⟩) :
    ∀ field ∈ fields, field.isText = false := by
  induction items generalizing fields with
  | nil =>
    obtain ⟨rfl, -⟩ := pure_eq_ok.mp hrun
    exact List.forall_mem_nil _
  | cons item items ih =>
    obtain ⟨operand, -, hrun⟩ := liftM_bind_eq_ok.mp hrun
    obtain ⟨back, hmore, rfl⟩ := put_bind_eq_ok.mp hrun
    exact List.forall_mem_cons.mpr ⟨rfl, ih hmore⟩

theorem isText_of_symbolTail {category : Category} {item : ι}
    (hrun : s.symbolTail category item items = ⟨fields, .ok rest⟩) :
    ∀ field ∈ fields, field.isText = false := by
  obtain ⟨word, -, rfl, -⟩ := symbolTail_eq_ok.mp hrun
  exact List.forall_mem_singleton.mpr rfl

theorem isText_of_roundingTail {name : String}
    (hrun : s.roundingTail opcode name items = ⟨fields, .ok rest⟩) :
    ∀ field ∈ fields, field.isText = false := by
  induction items generalizing fields with
  | nil => exact absurd hrun fail_ne_ok
  | cons item items ih =>
    cases items with
    | nil => exact isText_of_symbolTail hrun
    | cons next items =>
      obtain ⟨operand, -, hrun⟩ := liftM_bind_eq_ok.mp hrun
      obtain ⟨back, hmore, rfl⟩ := put_bind_eq_ok.mp hrun
      exact List.forall_mem_cons.mpr ⟨rfl, ih hmore⟩

theorem isText_of_extInstTail {values : FixedValues}
    (hrun : s.extInstTail opcode values items = ⟨fields, .ok rest⟩) :
    ∀ field ∈ fields, field.isText = false := by
  unfold extInstTail at hrun
  split at hrun
  · split at hrun
    · exact isText_of_roundingTail hrun
    · exact isText_of_plainTail hrun
  · exact absurd hrun fail_ne_ok

theorem isText_of_memoryTail (hrun : s.memoryTail opcode items = ⟨fields, .ok rest⟩) :
    ∀ field ∈ fields, field.isText = false := by
  obtain ⟨htakes, -⟩ := takesMasks_of_memoryTail hrun
  clear hrun
  induction htakes with
  | nil => exact List.forall_mem_nil _
  | unaligned _ _ _ _ ih => exact List.forall_mem_cons.mpr ⟨rfl, ih⟩
  | aligned _ _ _ _ _ _ ih =>
    exact List.forall_mem_cons.mpr ⟨rfl, List.forall_mem_cons.mpr ⟨rfl, ih⟩⟩

theorem isText_of_imageTail (hrun : s.imageTail opcode items = ⟨fields, .ok rest⟩) :
    ∀ field ∈ fields, field.isText = false := by
  cases items with
  | nil =>
    obtain ⟨rfl, -⟩ := pure_eq_ok.mp hrun
    exact List.forall_mem_nil _
  | cons item items =>
    rw [imageTail] at hrun
    split at hrun
    · obtain ⟨front, mid, back, hsymbol, hplain, rfl⟩ := Transcript.bind_eq_ok.mp hrun
      exact List.forall_mem_append.mpr ⟨isText_of_symbolTail hsymbol, isText_of_plainTail hplain⟩
    · exact absurd hrun fail_ne_ok

end Supply

end SpirvText
