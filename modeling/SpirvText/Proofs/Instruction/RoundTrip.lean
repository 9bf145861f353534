import SpirvText.Instruction.Writer
import SpirvText.Proofs.Layout.Replay
import SpirvText.Proofs.Number.Literals
import SpirvText.Proofs.Token.Symbols

/-!
# Instructions written and read back

An instruction that was read in some context can be written in it, and the words of the written line
are read as the same instruction (`Instruction.legible_of_read`).  The one exception are constants
of a floating-point type whose width no number is stored in.
-/

namespace SpirvText

open Lexer

/-! ## The two supplies -/

namespace Supply

variable {types : List (Reg × ScalarType)} {line : Nat} {stop : Located}

/-- A line offers literals and symbols only where its tokens are immediate. -/
theorem lawful_ofLine (types : List (Reg × ScalarType)) (line : Nat) (stop : Located) :
    (ofLine types line stop).Lawful where
  isImmediate_of_literal := by
    rintro ⟨t, l⟩ word h
    cases t with
    | int => rfl
    | _ => cases h
  isImmediate_of_symbol := by
    rintro category ⟨t, l⟩ word h
    cases t with
    | int | ident => rfl
    | _ => cases h
  isImmediate_of_plain := by
    rintro ⟨t, l⟩ r h
    cases t with
    | id => rfl
    | int v =>
      obtain ⟨word, -, hword⟩ := map_eq_ok.mp h
      cases hword
    | _ => cases h

/-- From a token that is not immediate a line offers nothing but a register. -/
theorem strict_ofLine (types : List (Reg × ScalarType)) (line : Nat) (stop : Located) :
    (ofLine types line stop).Strict where
  reg_of_plain := by
    rintro ⟨t, l⟩ operand himm h
    cases t with
    | id number =>
      obtain ⟨r, -, rfl⟩ := map_eq_ok.mp h
      exact ⟨r, rfl⟩
    | _ => cases himm
  skip_ne_ok := nofun

/-- An instruction offers literals and symbols only where its operands are words. -/
theorem lawful_ofInstruction (i : Instruction) : (ofInstruction i).Lawful where
  isImmediate_of_literal := by
    rintro ⟨operand, position⟩ word h
    cases operand with
    | imm => rfl
    | _ => cases h
  isImmediate_of_symbol := by
    rintro category ⟨operand, position⟩ word h
    cases operand with
    | imm => rfl
    | _ => cases h
  isImmediate_of_plain := by
    rintro ⟨operand, position⟩ r h
    cases h
    rfl

/-- A literal word is had from nothing but a word. -/
theorem imm_of_wordAt {opcode : Opcode} {wanted : Wanted} {item : Operand × Nat} {word : UInt32}
    (h : wordAt opcode wanted item = .ok word) : item.1 = .imm word := by
  obtain ⟨operand, position⟩ := item
  cases operand with
  | imm => cases h; rfl
  | _ => cases h

theorem reg_of_ofInstruction {i : Instruction} {item : Operand × Nat} {r : Reg}
    (h : (ofInstruction i).reg item = .ok r) : item.1 = .reg r := by
  obtain ⟨operand, position⟩ := item
  cases operand with
  | reg => cases h; rfl
  | _ => cases h

end Supply

/-! ## Fields as words -/

/-- The token that a field is read as where it is written. -/
def Field.Shows (field : Field) (t : Token) : Prop :=
  ∃ cs, field.shown.toList = ' ' :: cs ∧ Spells cs t

/-- A field is shown as a token if that is what its text spells. -/
theorem Field.shows_of_spells {field : Field} {text : String} {t : Token}
    (hshown : field.shown = " " ++ text) (ht : Spells text.toList t) : field.Shows t := by
  refine ⟨text.toList, ?_, ht⟩
  rw [hshown, String.toList_append]
  rfl

/-- Fields that are written one after the other are read one after the other. -/
theorem Lexer.Reads.fields {fields : List Field} {ts us : List Token} {cs : List Char}
    (h : List.Forall₂ Field.Shows fields ts) (hcs : EndsWord cs) (hreads : Reads cs us) :
    EndsWord ((String.join (fields.map Field.shown)).toList ++ cs) ∧
      Reads ((String.join (fields.map Field.shown)).toList ++ cs) (ts ++ us) := by
  induction h with
  | nil => exact ⟨hcs, hreads⟩
  | cons hfield _ ih =>
    obtain ⟨word, hshown, hword⟩ := hfield
    simp only [List.map_cons, String.join_cons, String.toList_append, hshown, List.cons_append,
      List.append_assoc]
    exact ⟨endsWord_blank _, (Reads.word hword ih.1 ih.2).blank⟩

theorem Reg.number_of_ofNumber? {number : UInt32} {r : Reg} (h : Reg.ofNumber? number = some r) :
    r.number = number.toNat := by
  obtain ⟨hzero, hr⟩ := Option.ite_none_left_eq_some.mp h
  cases hr
  have hpos : 1 ≤ number.toNat :=
    Nat.one_le_iff_ne_zero.mpr fun hnone ↦ hzero (UInt32.toNat_inj.mp hnone)
  rw [Reg.number, UInt32.toNat_sub_of_le number 1 (UInt32.le_iff_toNat_le.mpr hpos)]
  exact Nat.sub_add_cancel hpos

/-- A token that a field is read as where it is written, and that is taken for this field. -/
def Field.SpeltBy (types : List (Reg × ScalarType)) (field : Field) (t : Token) : Prop :=
  field.Shows t ∧ ∀ line stop l fields items rest,
    (Supply.ofLine types line stop).Offers fields items rest →
      (Supply.ofLine types line stop).Offers (field :: fields) (⟨t, l⟩ :: items) rest

namespace Supply

variable {types : List (Reg × ScalarType)} {line : Nat} {stop : Located}

theorem regOf_eq_ok {number : UInt32} {t : Located} {r : Reg} :
    regOf number t = .ok r ↔ Reg.ofNumber? number = some r := by
  unfold regOf
  cases Reg.ofNumber? number <;> simp

/-- A register is spelt as the number it was read from. -/
theorem spells_text_of_ofNumber? {number : UInt32} {r : Reg} (h : Reg.ofNumber? number = some r) :
    Spells r.text.toList (.id number) := by
  have htext : r.text.toList = '%' :: Nat.toDigits 10 number.toNat := by
    show ("%" ++ Nat.repr r.number).toList = _
    rw [Reg.number_of_ofNumber? h, String.toList_append, Nat.toList_repr]
    rfl
  rw [htext]
  exact spells_id number

/-- A word is read back from the number it is written as. -/
theorem wordOf_signedWord (word : UInt32) (t : Located) :
    wordOf (signedWord word) t = .ok word := by
  obtain ⟨hlow, hhigh⟩ := signedWord_bounds word
  rw [wordOf, if_pos, wordOfInt_signedWord]
  simp only [Bool.and_eq_true, decide_eq_true_eq]
  omega

theorem exists_speltBy_reg {item : Located} {r : Reg}
    (h : (ofLine types line stop).reg item = .ok r) : ∃ t, Field.SpeltBy types (.reg r) t := by
  obtain ⟨t, l⟩ := item
  cases t with
  | id number =>
    have hnumber := regOf_eq_ok.mp h
    exact ⟨.id number, Field.shows_of_spells rfl (spells_text_of_ofNumber? hnumber),
      fun _ _ _ _ _ _ hoffers ↦ .reg (regOf_eq_ok.mpr hnumber) hoffers⟩
  | _ => cases h

theorem speltBy_literal (types : List (Reg × ScalarType)) (word : UInt32) :
    Field.SpeltBy types (.literal word) (.int (signedWord word)) :=
  ⟨Field.shows_of_spells rfl (spells_signedWord word), fun _ _ _ _ _ _ hoffers ↦
    .literal (wordOf_signedWord word _) hoffers⟩

/-- Every word is spelt as a symbol of every category, by names or as a number. -/
theorem exists_speltBy_symbol (types : List (Reg × ScalarType)) (category : Category)
    (word : UInt32) : ∃ t, Field.SpeltBy types (.symbol category word) t := by
  obtain ⟨t, ht, hsymbol⟩ := category.exists_spelling word
  exact ⟨t, Field.shows_of_spells rfl ht, fun _ _ _ _ _ _ hoffers ↦
    .symbol (hsymbol _ _ _ _) hoffers⟩

/-- Every number is spelt as an instruction of every set, by its name or as it is. -/
theorem exists_speltBy_extNumber (types : List (Reg × ScalarType)) (set : ExtSet) (word : UInt32) :
    ∃ t, Field.SpeltBy types (.extNumber set word) t := by
  obtain ⟨t, ht, hnumber⟩ := set.exists_spelling word
  exact ⟨t, Field.shows_of_spells rfl ht, fun _ _ _ _ _ _ hoffers ↦
    .extNumber (hnumber _ _ _ _) hoffers⟩

/-- A string is one token, which holds no zero character. -/
theorem text_eq_ok {item : Located} {items rest : List Located} {value : String} :
    (ofLine types line stop).text item items = .ok (value, rest) ↔
      item.token = .str value ∧ '\x00' ∉ value.toList ∧ items = rest := by
  obtain ⟨t, l⟩ := item
  cases t with
  | str text =>
    by_cases hzero : '\x00' ∈ text.toList
    · simp only [ofLine, List.contains_iff_mem, hzero, if_true, Token.str.injEq]
      exact iff_of_false (fun h ↦ by cases h) fun h ↦ h.2.1 (h.1 ▸ hzero)
    · simp only [ofLine, List.contains_iff_mem, hzero, if_false, Token.str.injEq, Except.ok.injEq,
        Prod.mk.injEq]
      exact ⟨fun h ↦ ⟨h.1, h.1 ▸ hzero, h.2⟩, fun h ↦ ⟨h.1, h.2.2⟩⟩
  | _ => simp [ofLine]

/-- A string is spelt as itself, unless it ends in a backslash or holds a zero character. -/
theorem speltBy_text (types : List (Reg × ScalarType)) {value : String}
    (hlast : value.toList.getLast? ≠ some '\\') (hzero : '\x00' ∉ value.toList) :
    Field.SpeltBy types (.text value) (.str value) :=
  ⟨Field.shows_of_spells rfl (spells_quoted hlast), fun _ _ _ _ _ _ hoffers ↦
    .text (text_eq_ok.mpr ⟨rfl, hzero, rfl⟩) hoffers⟩

/-- An operand that was taken from a token that has a spelling is spelt itself. -/
theorem exists_speltBy_plain {item : Located} {operand : Operand} (hitem : WellFormed item.token)
    (h : (ofLine types line stop).plain item = .ok operand) :
    ∃ t, Field.SpeltBy types (.plain operand) t := by
  obtain ⟨t, l⟩ := item
  cases t with
  | id number =>
    obtain ⟨r, hr, rfl⟩ := map_eq_ok.mp h
    have hnumber := regOf_eq_ok.mp hr
    exact ⟨.id number, Field.shows_of_spells rfl (spells_text_of_ofNumber? hnumber),
      fun _ _ _ _ _ _ hoffers ↦ .plain (map_eq_ok.mpr ⟨r, regOf_eq_ok.mpr hnumber, rfl⟩) hoffers⟩
  | int v =>
    obtain ⟨word, -, rfl⟩ := map_eq_ok.mp h
    exact ⟨.int (signedWord word), Field.shows_of_spells rfl (spells_signedWord word),
      fun _ _ _ _ _ _ hoffers ↦ .plain (map_eq_ok.mpr ⟨word, wordOf_signedWord word _, rfl⟩) hoffers⟩
  | ident text =>
    cases h
    refine ⟨.ident text, Field.shows_of_spells rfl ?_, fun _ _ _ _ _ _ hoffers ↦
      .plain rfl hoffers⟩
    have hname := spells_name hitem
    rwa [String.ofList_toList] at hname
  | _ => cases h

/-- What the tokens of a line offer can be spelt. -/
theorem Offers.exists_speltBy {fields : List Field} {items rest : List Located}
    (h : (ofLine types line stop).Offers fields items rest)
    (hitems : ∀ t ∈ items, WellFormed t.token) :
    ∃ ts, List.Forall₂ (Field.SpeltBy types) fields ts := by
  induction h with
  | nil => exact ⟨[], .nil⟩
  | reg hitem _ ih =>
    obtain ⟨t, ht⟩ := exists_speltBy_reg hitem
    obtain ⟨ts, hts⟩ := ih fun t ht ↦ hitems t (List.mem_cons_of_mem _ ht)
    exact ⟨t :: ts, .cons ht hts⟩
  | @literal word _ _ _ _ hitem _ ih =>
    obtain ⟨ts, hts⟩ := ih fun t ht ↦ hitems t (List.mem_cons_of_mem _ ht)
    exact ⟨_ :: ts, .cons (speltBy_literal types word) hts⟩
  | @symbol category word _ _ _ _ hitem _ ih =>
    obtain ⟨t, ht⟩ := exists_speltBy_symbol types category word
    obtain ⟨ts, hts⟩ := ih fun t ht ↦ hitems t (List.mem_cons_of_mem _ ht)
    exact ⟨t :: ts, .cons ht hts⟩
  | @extNumber set word _ _ _ _ hitem _ ih =>
    obtain ⟨t, ht⟩ := exists_speltBy_extNumber types set word
    obtain ⟨ts, hts⟩ := ih fun t ht ↦ hitems t (List.mem_cons_of_mem _ ht)
    exact ⟨t :: ts, .cons ht hts⟩
  | text hitem _ ih =>
    obtain ⟨htoken, hzero, rfl⟩ := text_eq_ok.mp hitem
    have hlast := hitems _ List.mem_cons_self
    rw [htoken] at hlast
    obtain ⟨ts, hts⟩ := ih fun t ht ↦ hitems t (List.mem_cons_of_mem _ ht)
    exact ⟨_ :: ts, .cons (speltBy_text types hlast hzero) hts⟩
  | plain hitem _ ih =>
    obtain ⟨t, ht⟩ := exists_speltBy_plain (hitems _ List.mem_cons_self) hitem
    obtain ⟨ts, hts⟩ := ih fun t ht ↦ hitems t (List.mem_cons_of_mem _ ht)
    exact ⟨t :: ts, .cons ht hts⟩

/-- Tokens that spell fields offer them, on whatever lines they are. -/
theorem offers_of_speltBy {fields : List Field} {ts : List Token}
    (h : List.Forall₂ (Field.SpeltBy types) fields ts) {located : List Located}
    (hlocated : located.map (·.token) = ts) :
    (ofLine types line stop).Offers fields located [] := by
  induction h generalizing located with
  | nil =>
    rw [List.map_eq_nil_iff.mp hlocated]
    exact .nil []
  | cons hfield _ ih =>
    obtain ⟨⟨t, l⟩, more, rfl, rfl, hmore⟩ := List.map_eq_cons_iff.mp hlocated
    exact hfield.2 _ _ _ _ _ _ (ih hmore)

/-! ## Fields as operands -/

/-- A string is taken off the words that hold it, whatever comes after them. -/
theorem text_ofInstruction (i : Instruction) {value : String} (hzero : '\x00' ∉ value.toList)
    (rest : List Operand) (start : Nat) :
    ∃ item items, (StringWords.operands value ++ rest).zipIdx start = item :: items ∧
      (ofInstruction i).text item items =
        .ok (value, rest.zipIdx (start + (StringWords.operands value).length)) := by
  obtain ⟨word, more, hwords⟩ := StringWords.exists_operands value
  have hitems : (StringWords.operands value ++ rest).zipIdx start =
      (.imm word, start) :: (more ++ rest).zipIdx (start + 1) := by
    rw [hwords]
    rfl
  refine ⟨_, _, hitems, ?_⟩
  simp only [ofInstruction, Operand.isImm, if_true]
  rw [← hitems, List.zipIdx_map_fst, StringWords.decodeFront_operands hzero, Text.ofBytes_bytes,
    List.zipIdx_append, List.drop_left' List.length_zipIdx]

/-- What the tokens of a line offer is offered by the operands that they stand for. -/
theorem Offers.ofInstruction {fields : List Field} {items rest : List Located}
    (h : (ofLine types line stop).Offers fields items rest) (i : Instruction) (start : Nat) :
    (ofInstruction i).Offers fields ((fields.flatMap Field.operands).zipIdx start) [] := by
  induction h generalizing start with
  | nil => exact .nil []
  | reg _ _ ih => exact .reg rfl (ih _)
  | literal _ _ ih => exact .literal rfl (ih _)
  | symbol _ _ ih => exact .symbol rfl (ih _)
  | extNumber _ _ ih => exact .extNumber rfl (ih _)
  | plain _ _ ih => exact .plain rfl (ih _)
  | @text value _ fields _ _ _ hitem _ ih =>
    obtain ⟨-, hzero, rfl⟩ := text_eq_ok.mp hitem
    obtain ⟨item, items, hitems, htext⟩ :=
      text_ofInstruction i hzero (fields.flatMap Field.operands) start
    rw [List.flatMap_cons, Field.operands, hitems]
    exact .text htext (ih _)

end Supply

/-! ## Whole instructions -/

/-- Fields that the operands they stand for are laid out as, and the words they are written as
too. -/
def Field.Stable (context : ReadContext) (opcode : Opcode) (fields : List Field) : Prop :=
  (Instruction.ofFields opcode fields).layOut context.registry = ⟨fields, .ok []⟩ ∧
    ∃ ts, List.Forall₂ Field.Shows fields ts ∧ ∀ line stop located, located.map (·.token) = ts →
      (Supply.ofLine context.types line stop).layOut context.registry opcode located =
        ⟨fields, .ok []⟩

theorem Instruction.ofFields_constant (type result : Reg) (value : Literal) :
    Instruction.ofFields .opConstant [.reg type, .reg result, .constant value] =
      value.define type result := by
  have hoperands : [Field.reg type, .reg result, .constant value].flatMap Field.operands =
      (value.define type result).operands := by
    simp [Field.operands, Literal.define]
  exact congrArg (Instruction.mk .opConstant · value.form) hoperands

def ReadContext.floatWidth? (context : ReadContext) (i : Instruction) : Option UInt32 :=
  if i.opcode = .opConstant then
    match (i.reg? 0).bind (context.types.lookup ·) with
    | some (.float width) => some width
    | _ => none
  else none

namespace Supply

variable {context : ReadContext} {line : Nat} {stop : Located} {items : List Located}
  {fields : List Field}

/-- What a line is laid out as comes back from the operands and from the words it stands for. -/
theorem stable_of_layOut {opcode : Opcode} (hopcode : opcode ≠ .opConstant)
    (hlaid : (ofLine context.types line stop).layOut context.registry opcode items =
      ⟨fields, .ok []⟩)
    (hitems : ∀ t ∈ items, WellFormed t.token) : Field.Stable context opcode fields := by
  have hstrict := strict_ofLine context.types line stop
  constructor
  · obtain ⟨hoffers, hrepeat⟩ :=
      repeats_layOut hstrict (lawful_ofInstruction _) context.registry hopcode _ _ _ hlaid
    exact hrepeat _ _ (hoffers.ofInstruction _ 0) (iff_of_true rfl rfl)
  · have hoffers := (repeats_layOut hstrict (lawful_ofLine context.types line stop)
      context.registry hopcode _ _ _ hlaid).1
    obtain ⟨ts, hts⟩ := hoffers.exists_speltBy hitems
    refine ⟨ts, hts.imp fun _ _ h ↦ h.1, fun line' stop' located hlocated ↦ ?_⟩
    obtain ⟨-, hrepeat⟩ := repeats_layOut hstrict (lawful_ofLine context.types line' stop')
      context.registry hopcode _ _ _ hlaid
    exact hrepeat _ _ (offers_of_speltBy hts hlocated) (iff_of_true rfl rfl)

theorem constant_ofLine_eq_ok {types : List (Reg × ScalarType)} {type : Reg} {value : Literal}
    {rest : List Located} :
    (ofLine types line stop).constant type items = .ok (value, rest) ↔
      ∃ scalar t, types.lookup type = some scalar ∧ items = t :: rest ∧
        literalOf scalar t = .ok value := by
  simp only [ofLine]
  cases types.lookup type with
  | none => simp
  | some scalar =>
    cases items with
    | nil => simp
    | cons t items =>
      simp only [bind_eq_ok]
      constructor
      · rintro ⟨literal, hliteral, hvalue⟩
        cases hvalue
        exact ⟨scalar, t, rfl, rfl, hliteral⟩
      · rintro ⟨_, _, ⟨⟩, ⟨⟩, hliteral⟩
        exact ⟨value, hliteral, rfl⟩

/-- The definition of a constant is laid out as its type, its register and its literal. -/
theorem layOut_define (value : Literal) (type result : Reg) (registry : Registry) :
    (value.define type result).layOut registry =
      ⟨[.reg type, .reg result, .constant value], .ok []⟩ := by
  refine layOut_opConstant_eq_ok.mpr ⟨(.reg type, 0), (.reg result, 1),
    (value.words.toList.map Operand.imm).zipIdx 2, type, result, value, ?_, rfl, rfl, ?_, rfl⟩
  · simp [Literal.define]
  · obtain ⟨words, form⟩ := value
    cases words <;> rfl

/-- So does a constant, if its type has a width that numbers are stored in. -/
theorem stable_of_layOut_opConstant
    (hlaid : (ofLine context.types line stop).layOut context.registry .opConstant items =
      ⟨fields, .ok []⟩)
    (hwidth : ∀ width ∈ context.floatWidth? (.ofFields .opConstant fields),
      width = 16 ∨ width = 32 ∨ width = 64) : Field.Stable context .opConstant fields := by
  obtain ⟨first, second, more, type, result, value, rfl, htype, hresult, hvalue, rfl⟩ :=
    layOut_opConstant_eq_ok.mp hlaid
  obtain ⟨scalar, t, hscalar, rfl, hliteral⟩ := constant_ofLine_eq_ok.mp hvalue
  constructor
  · rw [Instruction.ofFields_constant]
    exact layOut_define value type result context.registry
  · obtain ⟨u, hu⟩ := exists_speltBy_reg htype
    obtain ⟨v, hv⟩ := exists_speltBy_reg hresult
    have hwidth' : ∀ width, scalar = .float width → width = 16 ∨ width = 32 ∨ width = 64 := by
      rintro width rfl
      refine hwidth width ?_
      show (match context.types.lookup type with
        | some (.float width) => some width
        | _ => none) = some width
      rw [hscalar]
    obtain ⟨w, hw, hread⟩ := (ScalarType.holds_of_literalOf hliteral).exists_spelling hwidth'
    refine ⟨[u, v, w], .cons hu.1 (.cons hv.1 (.cons (Field.shows_of_spells rfl hw) .nil)), ?_⟩
    intro line' stop' located hlocated
    obtain ⟨first', more, rfl, rfl, hmore⟩ := List.map_eq_cons_iff.mp hlocated
    obtain ⟨second', last, rfl, rfl, hlast⟩ := List.map_eq_cons_iff.mp hmore
    obtain ⟨third, _, rfl, rfl, hnil⟩ := List.map_eq_cons_iff.mp hlast
    obtain rfl := List.map_eq_nil_iff.mp hnil
    have hregs : (ofLine context.types line' stop').Offers [.reg type, .reg result]
        [first', second'] [] := offers_of_speltBy (.cons hu (.cons hv .nil)) rfl
    cases hregs with
    | reg htype' hregs =>
      cases hregs with
      | reg hresult' =>
        exact layOut_opConstant_eq_ok.mpr ⟨first', second', [third], type, result, value, rfl,
          htype', hresult', constant_ofLine_eq_ok.mpr ⟨scalar, third, hscalar, rfl, hread _⟩, rfl⟩

end Supply

/-! ## Contexts -/

/-- The context after an instruction, which may import a set or declare a type. -/
def ReadContext.after (context : ReadContext) (i : Instruction) : ReadContext :=
  let registry := context.registry.after i.opcode (i.layOut context.registry).entries
  ReadContext.declare { context with registry } i

namespace Instruction

theorem opcodeOf_eq_ok {first : Located} {opcode : Opcode} (h : first.token = .ident opcode.mnemonic) :
    opcodeOf first = .ok opcode := by
  simp only [opcodeOf, h, Opcode.ofMnemonic?_mnemonic]

/-- Reading an instruction is to find its opcode and to lay out all of the line. -/
theorem read_eq_ok {context context' : ReadContext} {first : Located} {rest : List Located}
    {stop : Located} {i : Instruction} :
    (read context first rest stop).result = .ok (i, context') ↔
      ∃ opcode fields, opcodeOf first = .ok opcode ∧
        (Supply.ofLine context.types 0 stop).layOut context.registry opcode rest =
          ⟨fields, .ok []⟩ ∧
        i = .ofFields opcode fields ∧
        context' = ReadContext.declare
          { context with registry := context.registry.after opcode fields } i := by
  simp only [read, Transcript.result_bind, bind_eq_ok]
  constructor
  · rintro ⟨opcode, hopcode, -, -, left, hlaid, hleft⟩
    cases left with
    | nil =>
      cases hleft
      exact ⟨opcode, _, hopcode, Transcript.ext rfl (mapError_eq_ok.mp hlaid), rfl, rfl⟩
    | cons t left => cases hleft
  · rintro ⟨opcode, fields, hopcode, hlaid, rfl, rfl⟩
    refine ⟨opcode, hopcode, (), rfl, [], ?_, ?_⟩
    · rw [hlaid]
      rfl
    · rw [hlaid]
      rfl

/-- An instruction that can be written, in the place that a context describes, as words that are
read as the same instruction there. -/
def Legible (context : ReadContext) (i : Instruction) : Prop :=
  ∃ fields ts, i.layOut context.registry = ⟨fields, .ok []⟩ ∧ List.Forall₂ Field.Shows fields ts ∧
    ∀ first rest stop, first.token = .ident i.opcode.mnemonic → rest.map (·.token) = ts →
      (read context first rest stop).result = .ok (i, context.after i)

/-- An instruction that was read is legible in the context it was read in. -/
theorem legible_of_read {context context' : ReadContext} {first : Located} {rest : List Located}
    {stop : Located} {i : Instruction}
    (hread : (read context first rest stop).result = .ok (i, context'))
    (hrest : ∀ t ∈ rest, WellFormed t.token)
    (hwidth : ∀ width ∈ context.floatWidth? i, width = 16 ∨ width = 32 ∨ width = 64) :
    i.Legible context ∧ context' = context.after i := by
  obtain ⟨opcode, fields, hopcode, hlaid, rfl, rfl⟩ := read_eq_ok.mp hread
  obtain ⟨hwrite, ts, hts, hagain⟩ : Field.Stable context opcode fields := by
    by_cases hconstant : opcode = .opConstant
    · subst hconstant
      exact Supply.stable_of_layOut_opConstant hlaid hwidth
    · exact Supply.stable_of_layOut hconstant hlaid hrest
  have hafter : context.after (.ofFields opcode fields) = ReadContext.declare
      { context with registry := context.registry.after opcode fields } (.ofFields opcode fields) := by
    rw [ReadContext.after, hwrite]
    rfl
  refine ⟨⟨fields, ts, hwrite, hts, fun first' rest' stop' hfirst hrest' ↦ ?_⟩, hafter.symm⟩
  exact read_eq_ok.mpr ⟨opcode, fields, opcodeOf_eq_ok hfirst, hagain _ _ _ hrest', rfl, hafter⟩

end Instruction

end SpirvText
