import Mathlib.Tactic.Common
import SpirvText.Layout
import SpirvText.Proofs.Inversion

/-!
# Laying out operands again

A run of the layout depends on its supply only through the fields it takes.  If operands can be laid
out from one supply, and another supply offers the fields of that run, then the layout takes the
same fields from the second supply (`Supply.repeats_layOut`).  This is what makes written text and
operand lists agree: what was read from a line is offered by the operands, and what was taken from
the operands is offered by the text written for them.
-/

namespace SpirvText

/-- Only the definition of a constant has the literal of one. -/
theorem Opcode.tail_ne_constant {o : Opcode} (h : o ≠ .opConstant) : o.shape.tail ≠ .constant := by
  intro htail
  cases o <;> first | exact h rfl | cases htail

namespace Supply

open Transcript

variable {ι ε κ δ : Type}

/-! ## Supplies -/

/-- A supply that takes literals and symbols from the items it holds to be immediate, and registers
from others. -/
structure Lawful (s : Supply ι ε) : Prop where
  isImmediate_of_literal : ∀ {item word}, s.literal item = .ok word → s.isImmediate item = true
  isImmediate_of_symbol : ∀ {category item word},
    s.symbol category item = .ok word → s.isImmediate item = true
  isImmediate_of_plain : ∀ {item r}, s.plain item = .ok (.reg r) → s.isImmediate item = false

/-- A supply that takes nothing but registers from what is not immediate, and passes nothing
over. -/
structure Strict (s : Supply ι ε) : Prop where
  reg_of_plain : ∀ {item operand}, s.isImmediate item = false → s.plain item = .ok operand →
    ∃ r, operand = .reg r
  skip_ne_ok : ∀ {item operand}, s.skip item ≠ .ok operand

/-- The supply offers fields, none of them a constant, at the front of some items, and leaves the
rest. -/
inductive Offers (s : Supply ι ε) : List Field → List ι → List ι → Prop
  | nil (items : List ι) : Offers s [] items items
  | reg {r : Reg} {item : ι} {fields : List Field} {items rest : List ι} :
    s.reg item = .ok r → Offers s fields items rest →
    Offers s (.reg r :: fields) (item :: items) rest
  | literal {word : UInt32} {item : ι} {fields : List Field} {items rest : List ι} :
    s.literal item = .ok word → Offers s fields items rest →
    Offers s (.literal word :: fields) (item :: items) rest
  | symbol {category : Category} {word : UInt32} {item : ι} {fields : List Field}
    {items rest : List ι} :
    s.symbol category item = .ok word → Offers s fields items rest →
    Offers s (.symbol category word :: fields) (item :: items) rest
  | extNumber {set : ExtSet} {word : UInt32} {item : ι} {fields : List Field}
    {items rest : List ι} :
    s.extNumber set item = .ok word → Offers s fields items rest →
    Offers s (.extNumber set word :: fields) (item :: items) rest
  | text {value : String} {item : ι} {fields : List Field} {items mid rest : List ι} :
    s.text item items = .ok (value, mid) → Offers s fields mid rest →
    Offers s (.text value :: fields) (item :: items) rest
  | plain {operand : Operand} {item : ι} {fields : List Field} {items rest : List ι} :
    s.plain item = .ok operand → Offers s fields items rest →
    Offers s (.plain operand :: fields) (item :: items) rest

section Offers

variable {s : Supply ι ε} {fields front back : List Field}
  {items mid rest : List ι}

theorem Offers.append (h : s.Offers front items mid) (h' : s.Offers back mid rest) :
    s.Offers (front ++ back) items rest := by
  induction h with
  | nil => exact h'
  | reg hitem _ ih => exact .reg hitem (ih h')
  | literal hitem _ ih => exact .literal hitem (ih h')
  | symbol hitem _ ih => exact .symbol hitem (ih h')
  | extNumber hitem _ ih => exact .extNumber hitem (ih h')
  | text hitem _ ih => exact .text hitem (ih h')
  | plain hitem _ ih => exact .plain hitem (ih h')

/-- Fields that are offered one after the other are offered with something left between. -/
theorem Offers.of_append (h : s.Offers (front ++ back) items rest) :
    ∃ mid, s.Offers front items mid ∧ s.Offers back mid rest := by
  induction front generalizing items with
  | nil => exact ⟨items, .nil items, h⟩
  | cons field front ih =>
    rw [List.cons_append] at h
    cases h with
    | reg hitem h =>
      obtain ⟨mid, hfront, hback⟩ := ih h
      exact ⟨mid, .reg hitem hfront, hback⟩
    | literal hitem h =>
      obtain ⟨mid, hfront, hback⟩ := ih h
      exact ⟨mid, .literal hitem hfront, hback⟩
    | symbol hitem h =>
      obtain ⟨mid, hfront, hback⟩ := ih h
      exact ⟨mid, .symbol hitem hfront, hback⟩
    | extNumber hitem h =>
      obtain ⟨mid, hfront, hback⟩ := ih h
      exact ⟨mid, .extNumber hitem hfront, hback⟩
    | text hitem h =>
      obtain ⟨mid, hfront, hback⟩ := ih h
      exact ⟨mid, .text hitem hfront, hback⟩
    | plain hitem h =>
      obtain ⟨mid, hfront, hback⟩ := ih h
      exact ⟨mid, .plain hitem hfront, hback⟩

/-- Every field takes some item. -/
theorem Offers.items_ne_nil {field : Field} (h : s.Offers (field :: fields) items rest) :
    items ≠ [] := by
  cases h <;> exact List.cons_ne_nil _ _

end Offers

/-! ## Fixed operands -/

/-- The supply takes an item for a fixed operand of the given kind, after others that said some
values.  The operand is laid out as a field and adds to the values. -/
inductive TakesFixed (s : Supply ι ε) (registry : Registry) (values : FixedValues) (item : ι) :
    OperandKind → Field → FixedValues → Prop
  | id {r : Reg} :
    s.reg item = .ok r →
    TakesFixed s registry values item .id (.reg r) { values with regs := values.regs ++ [r] }
  | literal {word : UInt32} :
    s.literal item = .ok word →
    TakesFixed s registry values item .literal (.literal word)
      { values with selector := some word }
  | symbol {category : Category} {word : UInt32} :
    s.symbol category item = .ok word →
    TakesFixed s registry values item (.symbol category) (.symbol category word)
      { values with selector := some word }
  | extNumber {handle : Reg} {set : ExtSet} {word : UInt32} :
    values.regs.getLast? = some handle → registry.find? handle = some set →
    s.extNumber set item = .ok word →
    TakesFixed s registry values item .extNumber (.extNumber set word)
      { values with selector := some word, set := some set }

section TakesFixed

variable {s : Supply ι ε} {registry : Registry} {opcode : Opcode} {kind : OperandKind}
  {values values' : FixedValues} {item : ι} {field : Field} {fields : List Field}

/-- A fixed operand that is laid out is one field, which the supply takes for its kind. -/
theorem fixedOperand_eq_ok :
    s.fixedOperand registry opcode kind values item = ⟨fields, .ok values'⟩ ↔
      ∃ field, fields = [field] ∧ s.TakesFixed registry values item kind field values' := by
  constructor
  · intro hrun
    cases kind with
    | id =>
      simp only [fixedOperand, liftM_bind_eq_ok, put_pure_eq_ok] at hrun
      obtain ⟨r, hitem, rfl, rfl⟩ := hrun
      exact ⟨.reg r, rfl, .id hitem⟩
    | literal =>
      simp only [fixedOperand, liftM_bind_eq_ok, put_pure_eq_ok] at hrun
      obtain ⟨word, hitem, rfl, rfl⟩ := hrun
      exact ⟨.literal word, rfl, .literal hitem⟩
    | symbol category =>
      simp only [fixedOperand, liftM_bind_eq_ok, put_pure_eq_ok] at hrun
      obtain ⟨word, hitem, rfl, rfl⟩ := hrun
      exact ⟨.symbol category word, rfl, .symbol hitem⟩
    | extNumber =>
      simp only [fixedOperand] at hrun
      split at hrun
      · exact absurd hrun fail_ne_ok
      · next handle hhandle =>
        split at hrun
        · exact absurd hrun fail_ne_ok
        · next set hset =>
          simp only [liftM_bind_eq_ok, put_pure_eq_ok] at hrun
          obtain ⟨word, hitem, rfl, rfl⟩ := hrun
          exact ⟨.extNumber set word, rfl, .extNumber hhandle hset hitem⟩
  · rintro ⟨field, rfl, htakes⟩
    cases htakes with
    | id hitem | literal hitem | symbol hitem =>
      simp only [fixedOperand, liftM_bind_eq_ok, put_pure_eq_ok]
      exact ⟨_, hitem, rfl, rfl⟩
    | extNumber hhandle hset hitem =>
      simp only [fixedOperand, hhandle, hset, liftM_bind_eq_ok, put_pure_eq_ok]
      exact ⟨_, hitem, rfl, rfl⟩

theorem fixedOperands_cons_eq_ok {kinds : List OperandKind} {index : Nat} {items rest : List ι} :
    s.fixedOperands registry opcode (kind :: kinds) index values items =
        ⟨fields, .ok (values', rest)⟩ ↔
      ∃ item more field values₁ back, items = item :: more ∧ fields = field :: back ∧
        s.TakesFixed registry values item kind field values₁ ∧
        s.fixedOperands registry opcode kinds (index + 1) values₁ more =
          ⟨back, .ok (values', rest)⟩ := by
  constructor
  · intro hrun
    cases items with
    | nil => exact absurd hrun fail_ne_ok
    | cons item more =>
      obtain ⟨front, values₁, back, hfirst, hmore, rfl⟩ := Transcript.bind_eq_ok.mp hrun
      obtain ⟨field, rfl, hfield⟩ := fixedOperand_eq_ok.mp hfirst
      exact ⟨item, more, field, values₁, back, rfl, rfl, hfield, hmore⟩
  · rintro ⟨item, more, field, values₁, back, rfl, rfl, hfield, hmore⟩
    exact Transcript.bind_eq_ok.mpr
      ⟨[field], values₁, back, fixedOperand_eq_ok.mpr ⟨field, rfl, hfield⟩, hmore, rfl⟩

/-- What is taken for a fixed operand is offered as the field that it is laid out as. -/
theorem TakesFixed.offers (h : s.TakesFixed registry values item kind field values')
    (items : List ι) : s.Offers [field] (item :: items) items := by
  cases h with
  | id hitem => exact .reg hitem (.nil items)
  | literal hitem => exact .literal hitem (.nil items)
  | symbol hitem => exact .symbol hitem (.nil items)
  | extNumber _ _ hitem => exact .extNumber hitem (.nil items)

/-- A supply that offers the field takes it for the same operand. -/
theorem TakesFixed.again (h : s.TakesFixed registry values item kind field values')
    {s' : Supply κ δ} {items' rest' : List κ} (hoffers : s'.Offers [field] items' rest') :
    ∃ item', items' = item' :: rest' ∧ s'.TakesFixed registry values item' kind field values' := by
  cases h with
  | id =>
    cases hoffers with
    | reg hitem hnone =>
      cases hnone
      exact ⟨_, rfl, .id hitem⟩
  | literal =>
    cases hoffers with
    | literal hitem hnone =>
      cases hnone
      exact ⟨_, rfl, .literal hitem⟩
  | symbol =>
    cases hoffers with
    | symbol hitem hnone =>
      cases hnone
      exact ⟨_, rfl, .symbol hitem⟩
  | extNumber hhandle hset =>
    cases hoffers with
    | extNumber hitem hnone =>
      cases hnone
      exact ⟨_, rfl, .extNumber hhandle hset hitem⟩

end TakesFixed

/-! ## Runs that can be repeated -/

/-- What `proc` does with `items` it does because of the fields that `s` offers there, and `proc'`
does the same wherever `s'` offers these fields. -/
def Repeats (s : Supply ι ε) (s' : Supply κ δ)
    (proc : List ι → Transcript Field ε (List ι)) (proc' : List κ → Transcript Field δ (List κ)) :
    Prop :=
  ∀ (items rest : List ι) (fields : List Field), proc items = ⟨fields, .ok rest⟩ →
    s.Offers fields items rest ∧
      ∀ (items' rest' : List κ), s'.Offers fields items' rest' → (rest' = [] ↔ rest = []) →
        proc' items' = ⟨fields, .ok rest'⟩

section Repeats

variable {s : Supply ι ε} {s' : Supply κ δ}

/-- Two supplies that offer the same fields come to an end together. -/
theorem Offers.nil_iff {fields : List Field}
    {items rest : List ι} {items' rest' : List κ} (h : s.Offers fields items rest)
    (h' : s'.Offers fields items' rest') (hrest : rest' = [] ↔ rest = []) :
    items' = [] ↔ items = [] := by
  cases fields with
  | nil =>
    cases h
    cases h'
    exact hrest
  | cons field fields => exact iff_of_false h'.items_ne_nil h.items_ne_nil

/-- Runs one after the other can be repeated one after the other. -/
theorem Repeats.bind {proc next : List ι → Transcript Field ε (List ι)}
    {proc' next' : List κ → Transcript Field δ (List κ)} (h : Repeats s s' proc proc')
    (hnext : Repeats s s' next next') :
    Repeats s s' (fun items ↦ proc items >>= next) (fun items ↦ proc' items >>= next') := by
  intro items rest fields hrun
  obtain ⟨front, mid, back, hproc, hback, rfl⟩ := Transcript.bind_eq_ok.mp hrun
  obtain ⟨hfront, hrepeat⟩ := h _ _ _ hproc
  obtain ⟨hoffers, hrepeat'⟩ := hnext _ _ _ hback
  refine ⟨hfront.append hoffers, fun items' rest' hoffers' hrest ↦ ?_⟩
  obtain ⟨mid', hfront', hback'⟩ := hoffers'.of_append
  have hmid := hoffers.nil_iff hback' hrest
  exact Transcript.bind_eq_ok.mpr
    ⟨front, mid', back, hrepeat _ _ hfront' hmid, hrepeat' _ _ hback' hrest, rfl⟩

/-- A run that has nothing left to do. -/
theorem repeats_nil (proc' : List κ → Transcript Field δ (List κ)) (hnil : proc' [] = pure [])
    {rest : List ι} {fields : List Field}
    (hrun : (pure [] : Transcript Field ε (List ι)) = ⟨fields, .ok rest⟩) :
    s.Offers fields [] rest ∧
      ∀ items' rest', s'.Offers fields items' rest' → (rest' = [] ↔ rest = []) →
        proc' items' = ⟨fields, .ok rest'⟩ := by
  obtain ⟨rfl, rfl⟩ := pure_eq_ok.mp hrun
  refine ⟨.nil [], fun items' rest' hoffers hrest ↦ ?_⟩
  cases hoffers
  rw [hrest.mpr rfl, hnil]
  rfl

/-- A run that may also have nothing to do. -/
theorem Repeats.optional {proc inner : List ι → Transcript Field ε (List ι)}
    {proc' inner' : List κ → Transcript Field δ (List κ)} (h : Repeats s s' inner inner')
    (hnil : proc [] = pure []) (hcons : ∀ item items, proc (item :: items) = inner (item :: items))
    (hnil' : proc' [] = pure [])
    (hcons' : ∀ item items, proc' (item :: items) = inner' (item :: items)) :
    Repeats s s' proc proc' := by
  intro items rest fields hrun
  cases items with
  | nil => exact repeats_nil proc' hnil' (hnil ▸ hrun)
  | cons item items =>
    rw [hcons] at hrun
    obtain ⟨hoffers, hrepeat⟩ := h _ _ _ hrun
    refine ⟨hoffers, fun items' rest' hoffers' hrest ↦ ?_⟩
    cases items' with
    | nil => exact absurd ((hoffers.nil_iff hoffers' hrest).mp rfl) (List.cons_ne_nil _ _)
    | cons item' items' => rw [hcons', hrepeat _ _ hoffers' hrest]

/-- Any number of operands are laid out again wherever they are offered. -/
theorem repeats_plainTail : Repeats s s' s.plainTail s'.plainTail := by
  intro items
  induction items with
  | nil => exact fun rest fields hrun ↦ repeats_nil s'.plainTail rfl hrun
  | cons item items ih =>
    intro rest fields hrun
    rw [plainTail, liftM_bind_eq_ok] at hrun
    obtain ⟨operand, hitem, hrun⟩ := hrun
    obtain ⟨back, hmore, rfl⟩ := put_bind_eq_ok.mp hrun
    obtain ⟨hoffers, hrepeat⟩ := ih _ _ hmore
    refine ⟨.plain hitem hoffers, fun items' rest' h hrest ↦ ?_⟩
    cases h with
    | plain hitem' h =>
      rw [plainTail, liftM_bind_eq_ok]
      exact ⟨operand, hitem', put_bind_eq_ok.mpr ⟨back, hrepeat _ _ h hrest, rfl⟩⟩

/-- Registers of an interface are taken again.  A word among them would not be offered, and a symbol
might be taken for a word. -/
theorem interfaceTail_again (hs' : s'.Lawful) {items rest : List ι} {fields : List Field}
    (hrun : s.interfaceTail items = ⟨fields, .ok rest⟩)
    (hregs : ∀ field ∈ fields, ∃ r, field = .plain (.reg r)) :
    s.Offers fields items rest ∧
      ∀ items' rest', s'.Offers fields items' rest' → (rest' = [] ↔ rest = []) →
        s'.interfaceTail items' = ⟨fields, .ok rest'⟩ := by
  induction items generalizing fields with
  | nil => exact repeats_nil s'.interfaceTail rfl hrun
  | cons item items ih =>
    rw [interfaceTail] at hrun
    split at hrun
    · obtain ⟨operand, -, hrun⟩ := liftM_bind_eq_ok.mp hrun
      obtain ⟨back, -, rfl⟩ := put_bind_eq_ok.mp hrun
      obtain ⟨r, hr⟩ := hregs _ List.mem_cons_self
      cases hr
    · obtain ⟨operand, hitem, hrun⟩ := liftM_bind_eq_ok.mp hrun
      obtain ⟨back, hmore, rfl⟩ := put_bind_eq_ok.mp hrun
      obtain ⟨hoffers, hrepeat⟩ := ih hmore fun field hfield ↦ hregs field (.tail _ hfield)
      obtain ⟨r, hr⟩ := hregs _ List.mem_cons_self
      cases hr
      refine ⟨.plain hitem hoffers, fun items' rest' h hrest ↦ ?_⟩
      cases h with
      | plain hitem' h =>
        rw [interfaceTail, if_neg (by simp [hs'.isImmediate_of_plain hitem']), liftM_bind_eq_ok]
        exact ⟨.reg r, hitem', put_bind_eq_ok.mpr ⟨back, hrepeat _ _ h hrest, rfl⟩⟩

/-- Items that nothing but a register is taken from, unless they are immediate. -/
def RegsIn (s : Supply ι ε) (items : List ι) : Prop :=
  ∀ item ∈ items, ∀ operand, s.isImmediate item = false → s.plain item = .ok operand →
    ∃ r, operand = .reg r

theorem Strict.regsIn (hs : s.Strict) (items : List ι) : s.RegsIn items :=
  fun _ _ _ himm hitem ↦ hs.reg_of_plain himm hitem

/-- An interface is made of registers and of what is passed over. -/
theorem regs_of_interfaceTail {items rest : List ι} {fields : List Field} (hregs : s.RegsIn items)
    (hrun : s.interfaceTail items = ⟨fields, .ok rest⟩) :
    ∀ field ∈ fields, (∃ r, field = .plain (.reg r)) ∨
      ∃ item operand, s.skip item = .ok operand ∧ field = .hidden operand := by
  induction items generalizing fields with
  | nil =>
    obtain ⟨rfl, -⟩ := pure_eq_ok.mp hrun
    exact List.forall_mem_nil _
  | cons item items ih =>
    have hmore' : s.RegsIn items := fun next hnext ↦ hregs next (List.mem_cons_of_mem _ hnext)
    rw [interfaceTail] at hrun
    split at hrun
    · obtain ⟨operand, hitem, hrun⟩ := liftM_bind_eq_ok.mp hrun
      obtain ⟨back, hmore, rfl⟩ := put_bind_eq_ok.mp hrun
      exact List.forall_mem_cons.mpr ⟨.inr ⟨item, operand, hitem, rfl⟩, ih hmore' hmore⟩
    · next himm =>
      obtain ⟨operand, hitem, hrun⟩ := liftM_bind_eq_ok.mp hrun
      obtain ⟨back, hmore, rfl⟩ := put_bind_eq_ok.mp hrun
      obtain ⟨r, rfl⟩ := hregs item List.mem_cons_self operand (Bool.eq_false_iff.mpr himm) hitem
      exact List.forall_mem_cons.mpr ⟨.inl ⟨r, rfl⟩, ih hmore' hmore⟩

/-- An interface is laid out again, for no words are passed over when it is read. -/
theorem repeats_interfaceTail (hs : s.Strict) (hs' : s'.Lawful) :
    Repeats s s' s.interfaceTail s'.interfaceTail := by
  intro items rest fields hrun
  refine interfaceTail_again hs' hrun fun field hfield ↦ ?_
  rcases regs_of_interfaceTail (hs.regsIn items) hrun field hfield with hreg | ⟨_, _, hskip, -⟩
  · exact hreg
  · exact absurd hskip hs.skip_ne_ok

/-! ## Symbols and strings -/

theorem symbolTail_eq_ok {category : Category} {item : ι} {items rest : List ι}
    {fields : List Field} :
    s.symbolTail category item items = ⟨fields, .ok rest⟩ ↔
      ∃ word, s.symbol category item = .ok word ∧ fields = [.symbol category word] ∧
        items = rest := by
  simp only [symbolTail, liftM_bind_eq_ok, put_pure_eq_ok]

/-- Takes one symbol, which must not be missing. -/
def symbolFirst (s : Supply ι ε) (missing : OperandError) (category : Category) :
    List ι → Transcript Field ε (List ι)
  | [] => fail (s.error missing)
  | item :: items => s.symbolTail category item items

theorem repeats_symbolFirst (missing : OperandError) (category : Category) :
    Repeats s s' (s.symbolFirst missing category) (s'.symbolFirst missing category) := by
  intro items rest fields hrun
  cases items with
  | nil => exact absurd hrun fail_ne_ok
  | cons item items =>
    obtain ⟨word, hitem, rfl, rfl⟩ := symbolTail_eq_ok.mp hrun
    refine ⟨.symbol hitem (.nil items), fun items' rest' hoffers hrest ↦ ?_⟩
    cases hoffers with
    | symbol hitem' hoffers =>
      cases hoffers
      exact symbolTail_eq_ok.mpr ⟨word, hitem', rfl, rfl⟩

theorem repeats_textTail (opcode : Opcode) :
    Repeats s s' (s.textTail opcode) (s'.textTail opcode) := by
  intro items rest fields hrun
  cases items with
  | nil => exact absurd hrun fail_ne_ok
  | cons item items =>
    simp only [textTail, liftM_bind_eq_ok, put_pure_eq_ok] at hrun
    obtain ⟨⟨value, mid⟩, hitem, rfl, rfl⟩ := hrun
    refine ⟨.text hitem (.nil mid), fun items' rest' hoffers hrest ↦ ?_⟩
    cases hoffers with
    | text hitem' hoffers =>
      cases hoffers
      simp only [textTail, liftM_bind_eq_ok, put_pure_eq_ok]
      exact ⟨_, hitem', rfl, rfl⟩

/-! ## Decorations -/

/-- Where a scope is not named it is a register. -/
theorem regs_of_uniformId {opcode : Opcode} {items rest : List ι} {fields : List Field}
    (hregs : s.RegsIn items)
    (hrun : s.decorationTail opcode .uniformId items = ⟨fields, .ok rest⟩) :
    ∀ field ∈ fields, (∃ word, field = .symbol .scope word) ∨ ∃ r, field = .plain (.reg r) := by
  cases items with
  | nil =>
    obtain ⟨rfl, -⟩ := pure_eq_ok.mp hrun
    exact List.forall_mem_nil _
  | cons item items =>
    simp only [decorationTail] at hrun
    split at hrun
    · obtain ⟨word, -, rfl, -⟩ := symbolTail_eq_ok.mp hrun
      exact List.forall_mem_singleton.mpr (.inl ⟨word, rfl⟩)
    · next himm =>
      simp only [liftM_bind_eq_ok, put_bind_eq_ok, pure_eq_ok] at hrun
      obtain ⟨operand, hitem, back, ⟨rfl, -⟩, rfl⟩ := hrun
      obtain ⟨r, rfl⟩ := hregs item List.mem_cons_self operand (Bool.eq_false_iff.mpr himm) hitem
      exact List.forall_mem_singleton.mpr (.inr ⟨r, rfl⟩)

/-- A scope, which may be missing, named or a register, is taken again. -/
theorem uniformId_again (hs' : s'.Lawful) {opcode : Opcode} {items rest : List ι}
    {fields : List Field} (hregs : s.RegsIn items)
    (hrun : s.decorationTail opcode .uniformId items = ⟨fields, .ok rest⟩) :
    s.Offers fields items rest ∧
      ∀ items' rest', s'.Offers fields items' rest' → (rest' = [] ↔ rest = []) →
        s'.decorationTail opcode .uniformId items' = ⟨fields, .ok rest'⟩ := by
  have hfields := regs_of_uniformId hregs hrun
  cases items with
  | nil => exact repeats_nil (s'.decorationTail opcode .uniformId) rfl hrun
  | cons item items =>
    simp only [decorationTail] at hrun
    split at hrun
    · obtain ⟨word, hitem, rfl, rfl⟩ := symbolTail_eq_ok.mp hrun
      refine ⟨.symbol hitem (.nil items), fun items' rest' hoffers _ ↦ ?_⟩
      cases hoffers with
      | symbol hitem' hoffers =>
        cases hoffers
        simp only [decorationTail, hs'.isImmediate_of_symbol hitem', if_true]
        exact symbolTail_eq_ok.mpr ⟨word, hitem', rfl, rfl⟩
    · simp only [liftM_bind_eq_ok, put_bind_eq_ok, pure_eq_ok] at hrun
      obtain ⟨operand, hitem, back, ⟨rfl, rfl⟩, rfl⟩ := hrun
      obtain ⟨word, hword⟩ | ⟨r, hr⟩ := hfields _ List.mem_cons_self
      · cases hword
      cases hr
      refine ⟨.plain hitem (.nil items), fun items' rest' hoffers _ ↦ ?_⟩
      cases hoffers with
      | plain hitem' hoffers =>
        cases hoffers
        simp only [decorationTail, hs'.isImmediate_of_plain hitem', Bool.false_eq_true, if_false,
          liftM_bind_eq_ok, put_bind_eq_ok, pure_eq_ok]
        exact ⟨.reg r, hitem', [], ⟨rfl, trivial⟩, rfl⟩

/-- What a decoration calls for is laid out again as long as registers and words are told apart. -/
theorem repeats_decorationTail (hs : s.Strict) (hs' : s'.Lawful) (opcode : Opcode)
    (form : DecorationForm) :
    Repeats s s' (s.decorationTail opcode form) (s'.decorationTail opcode form) := by
  have hsymbol : ∀ category, Repeats s s'
      (s.symbolFirst (.malformed opcode .missingLinkageType) category)
      (s'.symbolFirst (.malformed opcode .missingLinkageType) category) :=
    repeats_symbolFirst _
  cases form with
  | builtIn =>
    exact (hsymbol .builtIn).optional rfl (fun _ _ ↦ rfl) rfl fun _ _ ↦ rfl
  | funcParamAttr =>
    exact (hsymbol .functionParameterAttribute).optional rfl (fun _ _ ↦ rfl) rfl
      fun _ _ ↦ rfl
  | fpRoundingMode =>
    exact (hsymbol .fpRoundingMode).optional rfl (fun _ _ ↦ rfl) rfl fun _ _ ↦ rfl
  | fpFastMathMode =>
    exact (hsymbol .fpFastMathMode).optional rfl (fun _ _ ↦ rfl) rfl fun _ _ ↦ rfl
  | linkageAttributes =>
    exact ((repeats_textTail opcode).bind (hsymbol .linkageType)).optional rfl
      (fun _ _ ↦ rfl) rfl fun _ _ ↦ rfl
  | userSemantic =>
    exact (repeats_textTail opcode).optional rfl (fun _ _ ↦ rfl) rfl fun _ _ ↦ rfl
  | other => exact repeats_plainTail.optional rfl (fun _ _ ↦ rfl) rfl fun _ _ ↦ rfl
  | uniformId => exact fun items _ _ hrun ↦ uniformId_again hs' (hs.regsIn items) hrun

/-! ## Extended instructions, memory and images -/

theorem repeats_roundingTail (opcode : Opcode) (name : String) :
    Repeats s s' (s.roundingTail opcode name) (s'.roundingTail opcode name) := by
  intro items
  induction items with
  | nil => exact fun rest fields hrun ↦ absurd hrun fail_ne_ok
  | cons item items ih =>
    intro rest fields hrun
    cases items with
    | nil =>
      obtain ⟨word, hitem, rfl, rfl⟩ := symbolTail_eq_ok.mp hrun
      refine ⟨.symbol hitem (.nil []), fun items' rest' hoffers hrest ↦ ?_⟩
      cases hoffers with
      | symbol hitem' hoffers =>
        cases hoffers
        rw [hrest.mpr rfl]
        exact symbolTail_eq_ok.mpr ⟨word, hitem', rfl, rfl⟩
    | cons next items =>
      obtain ⟨operand, hitem, hrun⟩ := liftM_bind_eq_ok.mp hrun
      obtain ⟨back, hmore, rfl⟩ := put_bind_eq_ok.mp hrun
      obtain ⟨hoffers, hrepeat⟩ := ih _ _ hmore
      refine ⟨.plain hitem hoffers, fun items' rest' hoffers' hrest ↦ ?_⟩
      cases hoffers' with
      | @plain _ item' _ items' _ hitem' hoffers' =>
        -- the mode at the end is still to come, so this operand is not the last
        obtain ⟨next', more', rfl⟩ : ∃ next' more', items' = next' :: more' := by
          refine List.exists_cons_of_ne_nil fun hnil ↦ ?_
          exact List.cons_ne_nil _ _ ((hoffers.nil_iff hoffers' hrest).mp hnil)
        exact liftM_bind_eq_ok.mpr ⟨operand, hitem',
          put_bind_eq_ok.mpr ⟨back, hrepeat _ _ hoffers' hrest, rfl⟩⟩

/-- An extended instruction goes on in the same way if its set and number are the same. -/
theorem repeats_extInstTail (opcode : Opcode) (values : FixedValues) :
    Repeats s s' (s.extInstTail opcode values) (s'.extInstTail opcode values) := by
  intro items rest fields hrun
  unfold extInstTail at hrun
  unfold extInstTail
  split at hrun
  · next set number _ _ =>
    by_cases hmode : set.endsWithRoundingMode number = true
    · simp only [hmode, if_true] at hrun ⊢
      exact repeats_roundingTail opcode _ _ _ _ hrun
    · simp only [hmode] at hrun ⊢
      exact repeats_plainTail _ _ _ hrun
  · exact absurd hrun fail_ne_ok

/-- The supply takes items for masks, each with an alignment after it just if it has the bit of one,
and lays them out as fields. -/
inductive TakesMasks (s : Supply ι ε) : List ι → List Field → Prop
  | nil : TakesMasks s [] []
  | unaligned {item : ι} {mask : UInt32} {items : List ι} {fields : List Field} :
    s.isImmediate item = true → s.symbol .memoryOperand item = .ok mask →
    (mask &&& Category.alignedBit != 0) = false → TakesMasks s items fields →
    TakesMasks s (item :: items) (.symbol .memoryOperand mask :: fields)
  | aligned {item next : ι} {mask word : UInt32} {items : List ι} {fields : List Field} :
    s.isImmediate item = true → s.symbol .memoryOperand item = .ok mask →
    (mask &&& Category.alignedBit != 0) = true →
    s.isImmediate next = true → s.literal next = .ok word → TakesMasks s items fields →
    TakesMasks s (item :: next :: items) (.symbol .memoryOperand mask :: .literal word :: fields)

/-- Memory operands that are laid out are masks with the alignments that their bits call for. -/
theorem takesMasks_of_memoryTail {opcode : Opcode} {items rest : List ι} {fields : List Field}
    (hrun : s.memoryTail opcode items = ⟨fields, .ok rest⟩) :
    s.TakesMasks items fields ∧ rest = [] := by
  induction items using memoryTail.induct (s := s) generalizing fields with
  | case1 =>
    obtain ⟨rfl, rfl⟩ := pure_eq_ok.mp hrun
    exact ⟨.nil, rfl⟩
  | case2 item items himm ihrest ih =>
    rw [memoryTail.eq_def] at hrun
    simp only [himm, if_true, liftM_bind_eq_ok, put_bind_eq_ok] at hrun
    obtain ⟨mask, hitem, back, hmore, rfl⟩ := hrun
    split at hmore
    · next haligned =>
      cases items with
      | nil => exact absurd hmore fail_ne_ok
      | cons next items =>
        dsimp only at hmore
        split at hmore
        · next hnext =>
          simp only [liftM_bind_eq_ok, put_bind_eq_ok] at hmore
          obtain ⟨word, hword, last, hlast, rfl⟩ := hmore
          obtain ⟨htakes, rfl⟩ := ihrest hlast
          exact ⟨.aligned himm hitem haligned hnext hword htakes, rfl⟩
        · exact absurd hmore fail_ne_ok
    · next haligned =>
      obtain ⟨htakes, rfl⟩ := ih hmore
      exact ⟨.unaligned himm hitem (eq_false_of_ne_true haligned) htakes, rfl⟩
  | case3 item items himm =>
    rw [memoryTail.eq_def] at hrun
    simp only [himm] at hrun
    exact absurd hrun fail_ne_ok

/-- Masks with the alignments that their bits call for are laid out. -/
theorem TakesMasks.memoryTail (opcode : Opcode) {items : List ι} {fields : List Field}
    (h : s.TakesMasks items fields) : s.memoryTail opcode items = ⟨fields, .ok []⟩ := by
  induction h with
  | nil => rfl
  | unaligned himm hitem hbit _ ih =>
    rw [memoryTail.eq_def]
    simp only [himm, if_true, liftM_bind_eq_ok, put_bind_eq_ok]
    refine ⟨_, hitem, _, ?_, rfl⟩
    simpa only [hbit, Bool.false_eq_true, if_false] using ih
  | aligned himm hitem hbit hnext hword _ ih =>
    rw [memoryTail.eq_def]
    simp only [himm, if_true, liftM_bind_eq_ok, put_bind_eq_ok]
    refine ⟨_, hitem, _, ?_, rfl⟩
    simp only [hbit, hnext, if_true, liftM_bind_eq_ok, put_bind_eq_ok]
    exact ⟨_, hword, _, ih, rfl⟩

theorem TakesMasks.offers {items : List ι} {fields : List Field} (h : s.TakesMasks items fields) :
    s.Offers fields items [] := by
  induction h with
  | nil => exact .nil []
  | unaligned _ hitem _ _ ih => exact .symbol hitem ih
  | aligned _ hitem _ _ hword _ ih => exact .symbol hitem (.literal hword ih)

/-- A mask can only be taken from something immediate, and so can the alignment that it calls
for. -/
theorem TakesMasks.again {items : List ι} {fields : List Field} (h : s.TakesMasks items fields)
    (hs' : s'.Lawful) {items' : List κ} (hoffers : s'.Offers fields items' []) :
    s'.TakesMasks items' fields := by
  induction h generalizing items' with
  | nil =>
    cases hoffers
    exact .nil
  | unaligned _ _ hbit _ ih =>
    cases hoffers with
    | symbol hitem hoffers =>
      exact .unaligned (hs'.isImmediate_of_symbol hitem) hitem hbit (ih hoffers)
  | aligned _ _ hbit _ _ _ ih =>
    cases hoffers with
    | symbol hitem hoffers =>
      cases hoffers with
      | literal hword hoffers =>
        exact .aligned (hs'.isImmediate_of_symbol hitem) hitem hbit
          (hs'.isImmediate_of_literal hword) hword (ih hoffers)

theorem repeats_memoryTail (hs' : s'.Lawful) (opcode : Opcode) :
    Repeats s s' (s.memoryTail opcode) (s'.memoryTail opcode) := by
  intro items rest fields hrun
  obtain ⟨htakes, rfl⟩ := takesMasks_of_memoryTail hrun
  refine ⟨htakes.offers, fun items' rest' hoffers hrest ↦ ?_⟩
  obtain rfl : rest' = [] := hrest.mpr rfl
  exact (htakes.again hs' hoffers).memoryTail opcode

theorem repeats_imageTail (hs' : s'.Lawful) (opcode : Opcode) :
    Repeats s s' (s.imageTail opcode) (s'.imageTail opcode) := by
  intro items rest fields hrun
  cases items with
  | nil => exact repeats_nil (s'.imageTail opcode) rfl hrun
  | cons item items =>
    by_cases himm : s.isImmediate item = true
    · rw [imageTail, if_pos himm] at hrun
      obtain ⟨front, mid, back, hsymbol, hplain, rfl⟩ := Transcript.bind_eq_ok.mp hrun
      obtain ⟨word, hitem, rfl, rfl⟩ := symbolTail_eq_ok.mp hsymbol
      have htail : Repeats s s' s.plainTail s'.plainTail := repeats_plainTail
      obtain ⟨hoffers, hrepeat⟩ := htail _ _ _ hplain
      refine ⟨.symbol hitem hoffers, fun items' rest' hoffers' hrest ↦ ?_⟩
      cases hoffers' with
      | symbol hitem' hoffers' =>
        rw [imageTail, if_pos (hs'.isImmediate_of_symbol hitem')]
        exact Transcript.bind_eq_ok.mpr ⟨_, _, back,
          symbolTail_eq_ok.mpr ⟨word, hitem', rfl, rfl⟩, hrepeat _ _ hoffers' hrest, rfl⟩
    · rw [imageTail, if_neg himm] at hrun
      exact absurd hrun fail_ne_ok

/-! ## Whole instructions -/

/-- The tails without a constant. -/
theorem repeats_tail (hs : s.Strict) (hs' : s'.Lawful) (opcode : Opcode) (values : FixedValues)
    {tail : Tail} (htail : tail ≠ .constant) :
    Repeats s s' (fun items ↦ s.tail opcode values items tail)
      (fun items ↦ s'.tail opcode values items tail) := by
  cases tail with
  | empty =>
    intro items rest fields hrun
    obtain ⟨rfl, rfl⟩ := pure_eq_ok.mp hrun
    refine ⟨.nil items, fun items' rest' hoffers _ ↦ ?_⟩
    cases hoffers
    rfl
  | plain => exact repeats_plainTail
  | constant => exact absurd rfl htail
  | text => exact repeats_textTail opcode
  | textInterface => exact (repeats_textTail opcode).bind (repeats_interfaceTail hs hs')
  | decoration =>
    cases hword : values.selector with
    | none =>
      intro items rest fields hrun
      simp only [Supply.tail, hword] at hrun
      exact absurd hrun fail_ne_ok
    | some word =>
      simp only [Supply.tail, hword]
      exact repeats_decorationTail hs hs' opcode _
  | extInst => exact repeats_extInstTail opcode values
  | memoryAccess => exact repeats_memoryTail hs' opcode
  | imageOperands => exact repeats_imageTail hs' opcode
  | optionalSymbol category =>
    exact (repeats_symbolFirst (.malformed opcode .noDecoration) category).optional rfl
      (fun _ _ ↦ rfl) rfl fun _ _ ↦ rfl

/-- The fixed operands are laid out again one by one, and say the same about the tail. -/
theorem repeats_fixedOperands (s' : Supply κ δ) {registry : Registry}
    {opcode : Opcode} {kinds : List OperandKind} {index : Nat} {values values' : FixedValues}
    {items rest : List ι} {fields : List Field}
    (hrun : s.fixedOperands registry opcode kinds index values items =
      ⟨fields, .ok (values', rest)⟩) :
    s.Offers fields items rest ∧
      ∀ items' rest', s'.Offers fields items' rest' →
        s'.fixedOperands registry opcode kinds index values items' =
          ⟨fields, .ok (values', rest')⟩ := by
  induction kinds generalizing index values items fields with
  | nil =>
    rw [fixedOperands, pure_eq_ok] at hrun
    obtain ⟨rfl, hvalues⟩ := hrun
    cases hvalues
    refine ⟨.nil _, fun items' rest' hoffers ↦ ?_⟩
    cases hoffers
    rfl
  | cons kind kinds ih =>
    obtain ⟨item, more, field, values₁, back, rfl, rfl, hfield, hmore⟩ :=
      fixedOperands_cons_eq_ok.mp hrun
    obtain ⟨hback, hrepeat⟩ := ih hmore
    refine ⟨(hfield.offers more).append hback, fun items' rest' hoffers ↦ ?_⟩
    rw [← List.singleton_append] at hoffers
    obtain ⟨mid', hfront', hback'⟩ := hoffers.of_append
    obtain ⟨item', rfl, hfield'⟩ := hfield.again hfront'
    exact fixedOperands_cons_eq_ok.mpr
      ⟨item', mid', field, values₁, back, rfl, rfl, hfield', hrepeat _ _ hback'⟩

/-- Operands that were laid out once are laid out again from any supply that offers their
fields. -/
theorem repeats_layOut (hs : s.Strict) (hs' : s'.Lawful) (registry : Registry) {opcode : Opcode}
    (hopcode : opcode ≠ .opConstant) :
    Repeats s s' (s.layOut registry opcode) (s'.layOut registry opcode) := by
  intro items rest fields hrun
  obtain ⟨front, ⟨values, mid⟩, back, hfixed, htail, rfl⟩ := Transcript.bind_eq_ok.mp hrun
  obtain ⟨hfront, hrepeat⟩ := repeats_fixedOperands s' hfixed
  have htail' := Opcode.tail_ne_constant hopcode
  obtain ⟨hback, hrepeat'⟩ := repeats_tail hs hs' opcode values htail' _ _ _ htail
  refine ⟨hfront.append hback, fun items' rest' hoffers hrest ↦ ?_⟩
  obtain ⟨mid', hfront', hback'⟩ := hoffers.of_append
  exact Transcript.bind_eq_ok.mpr
    ⟨front, (values, mid'), back, hrepeat _ _ hfront', hrepeat' _ _ hback' hrest, rfl⟩

end Repeats

/-! ## Constants -/

/-- A constant is laid out as its type, its register and a literal of this type. -/
theorem layOut_opConstant_eq_ok {s : Supply ι ε} {registry : Registry} {items rest : List ι}
    {fields : List Field} :
    s.layOut registry .opConstant items = ⟨fields, .ok rest⟩ ↔
      ∃ first second more type result value, items = first :: second :: more ∧
        s.reg first = .ok type ∧ s.reg second = .ok result ∧
        s.constant type more = .ok (value, rest) ∧
        fields = [.reg type, .reg result, .constant value] := by
  constructor
  · intro hrun
    obtain ⟨front, ⟨values, mid⟩, back, hfixed, htail, rfl⟩ := Transcript.bind_eq_ok.mp hrun
    obtain ⟨first, _, _, _, _, rfl, rfl, htype, hfixed⟩ := fixedOperands_cons_eq_ok.mp hfixed
    obtain ⟨second, _, _, _, _, rfl, rfl, hresult, hfixed⟩ := fixedOperands_cons_eq_ok.mp hfixed
    obtain ⟨rfl, hvalues⟩ := pure_eq_ok.mp hfixed
    cases hvalues
    cases htype with
    | @id type htype =>
      cases hresult with
      | @id result hresult =>
        obtain ⟨⟨value, rest⟩, hvalue, htail⟩ := liftM_bind_eq_ok.mp htail
        obtain ⟨rfl, rfl⟩ := put_pure_eq_ok.mp htail
        exact ⟨first, second, mid, type, result, value, rfl, htype, hresult, hvalue, rfl⟩
  · rintro ⟨first, second, more, type, result, value, rfl, htype, hresult, hvalue, rfl⟩
    refine Transcript.bind_eq_ok.mpr ⟨[.reg type, .reg result],
      (⟨[type, result], none, none⟩, more), [.constant value], ?_, ?_, rfl⟩
    · refine fixedOperands_cons_eq_ok.mpr ⟨first, _, _, _, _, rfl, rfl, .id htype, ?_⟩
      exact fixedOperands_cons_eq_ok.mpr ⟨second, _, _, _, _, rfl, rfl, .id hresult, rfl⟩
    · exact liftM_bind_eq_ok.mpr ⟨_, hvalue, put_pure_eq_ok.mpr ⟨rfl, rfl⟩⟩

end Supply

end SpirvText
