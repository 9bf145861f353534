import SpirvText.Proofs.Module.Origin

/-!
# Written lines

Some tails go on in one way after a word and in another after a register.  The writer tells the two
apart by operands and the reader by tokens, and they disagree about symbols: a symbol is no word,
but the name it is written as is taken for one.  So a line that was written whole is read back as
the same operands (`Instruction.read_of_writtenWhole`) just if no symbol stands where the two are
told apart.
-/

namespace SpirvText

open Lexer

namespace Instruction

/-- An instruction whose tail goes on in one way after a word and in another after a register. -/
def TellsWordsApart (i : Instruction) : Prop :=
  match i.opcode.shape.tail with
  | .textInterface | .memoryAccess | .imageOperands => True
  | .decoration => ∃ word, i.operands[i.opcode.shape.fixed.length - 1]? = some (.imm word) ∧
    DecorationForm.ofWord word = .uniformId
  | _ => False

/-- An instruction of which every operand is written: there is no error, none is left over and none
is passed over. -/
structure WrittenWhole (i : Instruction) (registry : Registry) : Prop where
  error : (i.emit "" registry).error? = none
  dropped : ∀ count, .operandsDropped i.opcode count ∉ (i.emit "" registry).events
  hidden : ∀ operand, .hidden operand ∉ (i.layOut registry).entries

theorem WrittenWhole.layOut {i : Instruction} {registry : Registry} (h : i.WrittenWhole registry) :
    i.layOut registry = ⟨(i.layOut registry).entries, .ok []⟩ := by
  obtain ⟨herror, hdropped, -⟩ := h
  refine Transcript.ext rfl ?_
  simp only [emit] at herror hdropped
  cases hresult : (i.layOut registry).result with
  | error e =>
    rw [hresult] at herror
    cases herror
  | ok rest =>
    cases rest with
    | nil => rfl
    | cons operand rest =>
      have hnone := hdropped (rest.length + 1)
      rw [hresult] at hnone
      exact absurd (List.mem_append_right _ List.mem_cons_self) hnone

/-- An instruction is written whole if all operands are laid out and none is passed over. -/
theorem writtenWhole_of_layOut {i : Instruction} {registry : Registry} {fields : List Field}
    (hlaid : i.layOut registry = ⟨fields, .ok []⟩)
    (hhidden : ∀ operand, .hidden operand ∉ fields) : i.WrittenWhole registry := by
  refine ⟨by simp only [emit, hlaid], fun count hcount ↦ ?_, by rwa [hlaid]⟩
  simp only [emit, hlaid, List.append_nil, layoutEvents, List.mem_append] at hcount
  rcases hcount with hfixed | hset
  · split at hfixed <;> simp at hfixed
  · split at hset
    · simp only [Registry.bindEvents] at hset
      split at hset <;> simp at hset
    · cases hset

end Instruction

/-- A symbol that is read as one name. -/
def IsOneName (symbol : String) : Prop :=
  ∃ located, tokenize symbol = .ok located ∧ located.map (·.token) = [.ident symbol, .eof]

theorem isOneName_iff {symbol : String} : IsOneName symbol ↔ IsName symbol.toList := by
  constructor
  · rintro ⟨located, hlocated, htokens⟩
    obtain ⟨t, more, rfl, ht, -⟩ := List.map_eq_cons_iff.mp htokens
    have hformed := wellFormed_of_tokens hlocated t List.mem_cons_self (by rw [ht]; rfl)
    rwa [ht] at hformed
  · intro hname
    have hspells := spells_name hname
    rw [String.ofList_toList] at hspells
    exact hspells.reads 1

namespace Supply

variable {i : Instruction} {fields : List Field} {items rest : List (Operand × Nat)}

/-! ## Tails -/

theorem regsIn_ofInstruction (h : ∀ item ∈ items, ∀ symbol, item.1 ≠ .expr symbol) :
    (Supply.ofInstruction i).RegsIn items := by
  rintro ⟨operand, position⟩ hitem _ himm ⟨⟩
  cases operand with
  | reg r => exact ⟨r, rfl⟩
  | imm word => cases himm
  | expr symbol => exact absurd rfl (h _ hitem symbol)

/-- What is laid out from operands, without strings, stands for them and is laid out again. -/
theorem restated_of_repeats {types : List (Reg × ScalarType)}
    {proc : Nat → Located → List Located → Transcript Field ReadError (List Located)}
    (h : ∀ line stop, (Supply.ofInstruction i).Offers fields items [] ∧
      ∀ items' rest', (ofLine types line stop).Offers fields items' rest' →
        (rest' = [] ↔ ([] : List (Operand × Nat)) = []) →
          proc line stop items' = ⟨fields, .ok rest'⟩)
    (htext : ∀ field ∈ fields, field.isText = false) (hitems : ∀ item ∈ items, item.1.Legible) :
    StandFor types fields (items.map (·.1)) ∧ ∀ line stop located,
      (ofLine types line stop).Offers fields located [] →
        proc line stop located = ⟨fields, .ok []⟩ := by
  obtain ⟨hoffers, -⟩ := h 1 ⟨.eof, 1⟩
  obtain ⟨front, rfl, hstand⟩ := hoffers.standFor types htext hitems
  rw [List.append_nil]
  exact ⟨hstand, fun line stop located hlocated ↦
    (h line stop).2 located [] hlocated (iff_of_true rfl rfl)⟩

/-- The registers of an interface. -/
theorem interfaceTail_restated (types : List (Reg × ScalarType))
    (hrun : (Supply.ofInstruction i).interfaceTail items = ⟨fields, .ok []⟩)
    (hhidden : ∀ operand, .hidden operand ∉ fields)
    (hsymbols : ∀ item ∈ items, ∀ symbol, item.1 ≠ .expr symbol)
    (hitems : ∀ item ∈ items, item.1.Legible) :
    StandFor types fields (items.map (·.1)) ∧ ∀ line stop located,
      (ofLine types line stop).Offers fields located [] →
        (ofLine types line stop).interfaceTail located = ⟨fields, .ok []⟩ := by
  have hregs : ∀ field ∈ fields, ∃ r, field = .plain (.reg r) := by
    intro field hfield
    rcases regs_of_interfaceTail (regsIn_ofInstruction hsymbols) hrun field hfield with
      hreg | ⟨_, operand, -, rfl⟩
    · exact hreg
    · exact absurd hfield (hhidden operand)
  refine restated_of_repeats
    (fun line stop ↦ interfaceTail_again (lawful_ofLine types line stop) hrun hregs) ?_ hitems
  intro field hfield
  obtain ⟨r, rfl⟩ := hregs field hfield
  rfl

/-- A string and the registers of an interface. -/
theorem textInterface_restated (types : List (Reg × ScalarType)) {opcode : Opcode} {text : String}
    {operands : List Operand} {start : Nat} (hzero : '\x00' ∉ text.toList)
    (hlast : text.toList.getLast? ≠ some '\\')
    (hrun : (do
      let items ← (Supply.ofInstruction i).textTail opcode
        ((StringWords.operands text ++ operands).zipIdx start)
      (Supply.ofInstruction i).interfaceTail items) = ⟨fields, .ok []⟩)
    (hhidden : ∀ operand, .hidden operand ∉ fields)
    (hsymbols : ∀ symbol, .expr symbol ∉ operands)
    (hlegible : ∀ operand ∈ operands, operand.Legible) :
    StandFor types fields (StringWords.operands text ++ operands) ∧ ∀ line stop located,
      (ofLine types line stop).Offers fields located [] →
        (do
          let items ← (ofLine types line stop).textTail opcode located
          (ofLine types line stop).interfaceTail items) = ⟨fields, .ok []⟩ := by
  obtain ⟨item, items, hitems, htake⟩ := text_ofInstruction i hzero operands start
  rw [hitems] at hrun
  obtain ⟨front, mid, back, htext, hinterface, rfl⟩ := Transcript.bind_eq_ok.mp hrun
  simp only [textTail, htake, Transcript.liftM_bind_eq_ok, Transcript.put_bind_eq_ok,
    Transcript.pure_eq_ok] at htext
  obtain ⟨_, ⟨⟩, _, ⟨rfl, rfl⟩, rfl⟩ := htext
  obtain ⟨hstand, hagain⟩ := interfaceTail_restated types hinterface
    (fun operand hoperand ↦ hhidden operand (List.mem_append_right _ hoperand))
    (fun item hitem symbol hsymbol ↦
      hsymbols symbol (hsymbol ▸ List.fst_mem_of_mem_zipIdx hitem))
    (fun item hitem ↦ hlegible _ (List.fst_mem_of_mem_zipIdx hitem))
  rw [List.zipIdx_map_fst] at hstand
  refine ⟨.cons ⟨.str text, speltBy_text types hlast hzero⟩ hstand, ?_⟩
  intro line stop located hoffers
  cases hoffers with
  | text hitem hoffers =>
    refine Transcript.bind_eq_ok.mpr ⟨[.text text], _, back, ?_, hagain line stop _ hoffers, rfl⟩
    exact Transcript.liftM_bind_eq_ok.mpr ⟨_, hitem, rfl⟩

end Supply

namespace Instruction

/-- An instruction that has a string after its fixed operands, without a zero character and without
a backslash at its end. -/
def HasText (i : Instruction) : Prop :=
  ∃ text operands, i.operands.drop i.opcode.shape.fixed.length =
      StringWords.operands text ++ operands ∧
    '\x00' ∉ text.toList ∧ text.toList.getLast? ≠ some '\\'

/-- An instruction in which no symbol stands where words and registers are told apart. -/
def SymbolsApart (i : Instruction) : Prop :=
  i.opcode.shape.tail = .textInterface ∨ i.opcode.shape.tail = .decoration →
    ∀ symbol, .expr symbol ∉ i.operands

variable {i : Instruction} {registry : Registry} {fields : List Field}

/-- The tail is laid out from the line as from the operands, if words and registers are told apart
alike. -/
theorem tail_restated (types : List (Reg × ScalarType)) {values : FixedValues}
    {operands : List Operand} {start : Nat} (hapart : i.TellsWordsApart)
    (hdecoration : i.opcode.shape.tail = .decoration →
      ∃ word, values.selector = some word ∧ DecorationForm.ofWord word = .uniformId)
    (htext : i.opcode.shape.tail = .textInterface → ∃ text more,
      operands = StringWords.operands text ++ more ∧ '\x00' ∉ text.toList ∧
        text.toList.getLast? ≠ some '\\')
    (hrun : (Supply.ofInstruction i).tail i.opcode values (operands.zipIdx start)
      i.opcode.shape.tail = ⟨fields, .ok []⟩)
    (hhidden : ∀ operand, .hidden operand ∉ fields)
    (hsymbols : i.opcode.shape.tail = .textInterface ∨ i.opcode.shape.tail = .decoration →
      ∀ symbol, .expr symbol ∉ operands)
    (hlegible : ∀ operand ∈ operands, operand.Legible) :
    Supply.StandFor types fields operands ∧ ∀ line stop located,
      (Supply.ofLine types line stop).Offers fields located [] →
        (Supply.ofLine types line stop).tail i.opcode values located i.opcode.shape.tail =
          ⟨fields, .ok []⟩ := by
  have hitems : ∀ item ∈ operands.zipIdx start, item.1.Legible :=
    fun item hitem ↦ hlegible _ (List.fst_mem_of_mem_zipIdx hitem)
  cases htail : i.opcode.shape.tail with
  | textInterface =>
    rw [htail] at hrun
    obtain ⟨text, more, rfl, hzero, hlast⟩ := htext htail
    exact Supply.textInterface_restated types hzero hlast hrun hhidden
      (fun symbol hsymbol ↦ hsymbols (.inl htail) symbol (List.mem_append_right _ hsymbol))
      (fun operand hoperand ↦ hlegible operand (List.mem_append_right _ hoperand))
  | decoration =>
    obtain ⟨word, hword, hform⟩ := hdecoration htail
    simp only [Supply.tail, htail, hword, hform] at hrun ⊢
    have hregs : (Supply.ofInstruction i).RegsIn (operands.zipIdx start) :=
      Supply.regsIn_ofInstruction fun item hitem symbol hsymbol ↦
        hsymbols (.inr htail) symbol (hsymbol ▸ List.fst_mem_of_mem_zipIdx hitem)
    have hnotext : ∀ field ∈ fields, field.isText = false := by
      intro field hfield
      rcases Supply.regs_of_uniformId hregs hrun field hfield with ⟨word, rfl⟩ | ⟨r, rfl⟩ <;> rfl
    have hrestated := Supply.restated_of_repeats
      (fun line stop ↦ Supply.uniformId_again (Supply.lawful_ofLine types line stop) hregs hrun)
      hnotext hitems
    rwa [List.zipIdx_map_fst] at hrestated
  | memoryAccess =>
    rw [htail] at hrun
    have hrestated := Supply.restated_of_repeats
      (fun line stop ↦ Supply.repeats_memoryTail (Supply.lawful_ofLine types line stop)
        i.opcode _ _ _ hrun) (Supply.isText_of_memoryTail hrun) hitems
    rwa [List.zipIdx_map_fst] at hrestated
  | imageOperands =>
    rw [htail] at hrun
    have hrestated := Supply.restated_of_repeats
      (fun line stop ↦ Supply.repeats_imageTail (Supply.lawful_ofLine types line stop)
        i.opcode _ _ _ hrun) (Supply.isText_of_imageTail hrun) hitems
    rwa [List.zipIdx_map_fst] at hrestated
  | _ =>
    rw [TellsWordsApart, htail] at hapart
    exact hapart.elim

/-- The decoration that a tail depends on is the last of the fixed operands. -/
theorem selector_of_tellsWordsApart {values : FixedValues} {rest : List (Operand × Nat)}
    (hapart : i.TellsWordsApart) (htail : i.opcode.shape.tail = .decoration)
    (hrun : (Supply.ofInstruction i).fixedOperands registry i.opcode i.opcode.shape.fixed 0 {}
      i.operands.zipIdx = ⟨fields, .ok (values, rest)⟩) :
    ∃ word, values.selector = some word ∧ DecorationForm.ofWord word = .uniformId := by
  rw [TellsWordsApart, htail] at hapart
  obtain ⟨word, hword, hform⟩ := hapart
  obtain ⟨kinds, hkinds⟩ := Opcode.fixed_of_decoration htail
  rw [hkinds] at hrun hword
  obtain ⟨item, word', hitem, hsymbol, hselector⟩ := Supply.selector_of_fixedOperands hrun
  rw [List.getElem?_zipIdx, Option.map_eq_some_iff] at hitem
  obtain ⟨operand, hoperand, rfl⟩ := hitem
  have himm : operand = .imm word' := Supply.imm_of_wordAt hsymbol
  rw [List.length_append, List.length_singleton, Nat.add_sub_cancel, hoperand, himm] at hword
  cases hword
  exact ⟨word, hselector, hform⟩

/-- An instruction that was written whole, without a symbol where words and registers are told
apart, is laid out again from what is written. -/
theorem layOut_restated (context : ReadContext) (hapart : i.TellsWordsApart)
    (htext : i.opcode.shape.tail = .textInterface → i.HasText) (hsymbols : i.SymbolsApart)
    (hlegible : ∀ operand ∈ i.operands, operand.Legible)
    (hlaid : i.layOut registry = ⟨fields, .ok []⟩)
    (hhidden : ∀ operand, .hidden operand ∉ fields) :
    Supply.StandFor context.types fields i.operands ∧ ∀ line stop located,
      (Supply.ofLine context.types line stop).Offers fields located [] →
        (Supply.ofLine context.types line stop).layOut context.registry i.opcode located =
          ⟨fields, .ok []⟩ := by
  obtain ⟨front, ⟨values, mid⟩, back, hfixed, htail, rfl⟩ := Transcript.bind_eq_ok.mp hlaid
  obtain ⟨hfront, rfl⟩ := Supply.isFixed_of_fixedOperands hfixed
  set count := i.opcode.shape.fixed.length with hcount
  have hdrop : i.operands.zipIdx.drop count = (i.operands.drop count).zipIdx count :=
    List.ext_getElem? fun k ↦ by simp [List.getElem?_zipIdx]
  obtain ⟨hoffers, -⟩ := Supply.repeats_fixedOperands (Supply.ofInstruction i) hfixed
  obtain ⟨taken, htaken, hstand⟩ := hoffers.standFor context.types
    (fun field hfield ↦ Field.isText_of_isFixed (hfront field hfield))
    fun item hitem ↦ hlegible _ (List.fst_mem_of_mem_zipIdx hitem)
  rw [hdrop] at htail htaken
  obtain ⟨hstand', hagain⟩ := tail_restated context.types hapart
    (fun hdecoration ↦ selector_of_tellsWordsApart hapart hdecoration hfixed) htext htail
    (fun operand hoperand ↦ hhidden operand (List.mem_append_right _ hoperand))
    (fun htells symbol hsymbol ↦ hsymbols htells symbol (List.mem_of_mem_drop hsymbol))
    (fun operand hoperand ↦ hlegible operand (List.mem_of_mem_drop hoperand))
  constructor
  · have hoperands : i.operands = taken.map (·.1) ++ i.operands.drop count := by
      have hmap := congrArg (List.map (·.1)) htaken
      rwa [List.map_append, List.zipIdx_map_fst, List.zipIdx_map_fst] at hmap
    rw [hoperands]
    exact hstand.append hstand'
  · intro line stop located hlocated
    obtain ⟨mid', hfront', hback'⟩ := hlocated.of_append
    obtain ⟨-, hrepeat⟩ :=
      Supply.repeats_fixedOperands (Supply.ofLine context.types line stop) hfixed
    have hopcode : i.opcode ≠ .opExtInst := by
      intro hopcode
      rw [TellsWordsApart, hopcode] at hapart
      exact hapart
    rw [Supply.layOut_congr _ hopcode _ registry]
    exact Transcript.bind_eq_ok.mpr
      ⟨front, (values, mid'), back, hrepeat _ _ hfront', hagain line stop mid' hback', rfl⟩

/-! ## Reading lines back -/

theorem isStructural_of_tellsWordsApart (hapart : i.TellsWordsApart) :
    i.opcode.isStructural = false := by
  have hne : ∀ opcode, opcode.shape.tail = .empty → i.opcode ≠ opcode := by
    rintro opcode htail rfl
    rw [TellsWordsApart, htail] at hapart
    exact hapart
  exact Opcode.isStructural_eq_false (hne _ rfl) (hne _ rfl) (hne _ rfl) (hne _ rfl)

theorem form?_of_speltBy {types : List (Reg × ScalarType)} {field : Field} {t : Token}
    (h : field.SpeltBy types t) : field.form? = none := by
  cases h.2 1 ⟨.eof, 1⟩ 1 [] [] [] (.nil []) <;> rfl

theorem ofFields_of_standFor (opcode : Opcode) {types : List (Reg × ScalarType)}
    {operands : List Operand} (h : Supply.StandFor types fields operands) :
    ofFields opcode fields = ⟨opcode, operands, .integer⟩ := by
  obtain ⟨rfl, ts, hts⟩ := h
  have hform : fields.findSome? Field.form? = none := by
    induction hts with
    | nil => rfl
    | cons hfield _ ih => rw [List.findSome?_cons, form?_of_speltBy hfield, ih]
  rw [ofFields, hform]
  rfl

/-- A line that is read as a global instruction is read as a module. -/
theorem read_textOf {j : Instruction} {ts : List Token} (hglobal : j.opcode.isStructural = false)
    (hfields : List.Forall₂ Field.Shows fields ts)
    (hread : ∀ first words stop, first.token = .ident j.opcode.mnemonic →
      words.map (·.token) = ts → ∃ context, (read {} first words stop).result = .ok (j, context))
    (name : String) :
    (Module.read (textOf j.opcode fields) name).result = .ok ⟨name, [j], []⟩ := by
  have hadds : [j].foldlM Assembly.add {} = .ok { globals := [j] } :=
    Assembly.foldlM_add_cons.mpr ⟨_, .global hglobal rfl, rfl⟩
  exact (Module.restores_lastLine hfields hread).read hadds rfl name

/-- An instruction that is written whole is read back, as long as no symbol stands where words and
registers are told apart. -/
theorem read_of_writtenWhole (hapart : i.TellsWordsApart)
    (htext : i.opcode.shape.tail = .textInterface → i.HasText) (hsymbols : i.SymbolsApart)
    (hlegible : ∀ operand ∈ i.operands, operand.Legible) (hwhole : i.WrittenWhole registry)
    (name : String) :
    (Module.read (i.emit "" registry).text name).result =
      .ok ⟨name, [⟨i.opcode, i.operands, .integer⟩], []⟩ := by
  obtain ⟨hstand, hagain⟩ :=
    layOut_restated {} hapart htext hsymbols hlegible hwhole.layOut hwhole.hidden
  have hi := ofFields_of_standFor i.opcode hstand
  obtain ⟨-, ts, hts⟩ := hstand
  rw [emit, String.empty_append, ← hi]
  have hglobal := isStructural_of_tellsWordsApart hapart
  refine read_textOf (j := ofFields i.opcode _) hglobal (hts.imp fun _ _ h ↦ h.1)
    (fun first words stop hfirst hwords ↦ ?_) name
  have hlaid := hagain 0 stop words (Supply.offers_of_speltBy hts hwords)
  exact ⟨_, read_eq_ok.mpr ⟨i.opcode, _, opcodeOf_eq_ok hfirst, hlaid, rfl, rfl⟩⟩

end Instruction

namespace Supply

variable {types : List (Reg × ScalarType)} {line : Nat} {stop : Located} {opcode : Opcode}
  {fields : List Field} {items rest : List Located}

/-! ## Symbols in lines -/

theorem expr_notMem_of_textInterface
    (hrun : (do
      let items ← (ofLine types line stop).textTail opcode items
      (ofLine types line stop).interfaceTail items) = ⟨fields, .ok rest⟩) (symbol : String) :
    .expr symbol ∉ fields.flatMap Field.operands := by
  have hstrict := strict_ofLine types line stop
  obtain ⟨front, mid, back, htext, hinterface, rfl⟩ := Transcript.bind_eq_ok.mp hrun
  intro hsymbol
  obtain ⟨field, hfield, hoperand⟩ := List.mem_flatMap.mp hsymbol
  rcases List.mem_append.mp hfield with hfield | hfield
  · cases items with
    | nil => exact Transcript.fail_ne_ok htext
    | cons item items =>
      obtain ⟨⟨value, left⟩, -, htext⟩ := Transcript.liftM_bind_eq_ok.mp htext
      obtain ⟨_, hnone, rfl⟩ := Transcript.put_bind_eq_ok.mp htext
      obtain ⟨rfl, -⟩ := Transcript.pure_eq_ok.mp hnone
      cases List.mem_singleton.mp hfield
      obtain ⟨word, -, hword⟩ := List.mem_map.mp hoperand
      cases hword
  · rcases regs_of_interfaceTail (hstrict.regsIn mid) hinterface field hfield with
      ⟨r, rfl⟩ | ⟨_, _, hskip, -⟩
    · cases List.mem_singleton.mp hoperand
    · exact hstrict.skip_ne_ok hskip

theorem expr_notMem_of_uniformId
    (hrun : (ofLine types line stop).decorationTail opcode .uniformId items =
      ⟨fields, .ok rest⟩) (symbol : String) :
    .expr symbol ∉ fields.flatMap Field.operands := by
  intro hsymbol
  obtain ⟨field, hfield, hoperand⟩ := List.mem_flatMap.mp hsymbol
  rcases regs_of_uniformId ((strict_ofLine types line stop).regsIn items) hrun field hfield with
    ⟨word, rfl⟩ | ⟨r, rfl⟩
  · cases List.mem_singleton.mp hoperand
  · cases List.mem_singleton.mp hoperand

end Supply

namespace Instruction

variable {i : Instruction} {registry : Registry}

/-- Where a line is read, symbols do not stand where words and registers are told apart. -/
theorem WasRead.symbolsApart (h : i.WasRead) (hapart : i.TellsWordsApart) : i.SymbolsApart := by
  intro htells symbol hsymbol
  obtain ⟨context, first, rest, stop, context', hread, -⟩ := h
  obtain ⟨opcode, fields, -, hlaid, rfl, -⟩ := read_eq_ok.mp hread
  have hconstant : opcode ≠ .opConstant := by
    rintro rfl
    exact hapart
  obtain ⟨hoffers, -⟩ := Supply.repeats_layOut (Supply.strict_ofLine context.types 0 stop)
    (Supply.lawful_ofLine context.types 0 stop) context.registry hconstant _ _ _ hlaid
  obtain ⟨front, ⟨values, mid⟩, back, hfixed, htail, rfl⟩ := Transcript.bind_eq_ok.mp hlaid
  rw [ofFields, List.flatMap_append, List.mem_append] at hsymbol
  rcases hsymbol with hsymbol | hsymbol
  · obtain ⟨field, hfield, hoperand⟩ := List.mem_flatMap.mp hsymbol
    obtain ⟨hfront, -⟩ := Supply.isFixed_of_fixedOperands hfixed
    exact Field.expr_notMem_of_isFixed (hfront field hfield) symbol hoperand
  · rcases htells with hinterface | hdecoration
    · rw [show opcode.shape.tail = .textInterface from hinterface] at htail
      exact Supply.expr_notMem_of_textInterface htail symbol hsymbol
    · obtain ⟨mid', hfront, -⟩ :=
        (hoffers.ofInstruction (ofFields opcode (front ++ back)) 0).of_append
      obtain ⟨-, hrepeat⟩ := Supply.repeats_fixedOperands
        (Supply.ofInstruction (ofFields opcode (front ++ back))) hfixed
      obtain ⟨word, hword, hform⟩ :=
        selector_of_tellsWordsApart hapart hdecoration (hrepeat _ _ hfront)
      rw [show opcode.shape.tail = .decoration from hdecoration] at htail
      simp only [Supply.tail, hword, hform] at htail
      exact Supply.expr_notMem_of_uniformId htail symbol hsymbol

/-- A line that was written whole, by an instruction whose tail tells words and registers apart, is
read back as the same operands just if no symbol stands where the two are told apart, and every
symbol is one name. -/
theorem reads_back_iff_no_symbol (hapart : i.TellsWordsApart)
    (hregs : ∀ r, .reg r ∈ i.operands → r.number < 2 ^ 32)
    (htext : i.opcode.shape.tail = .textInterface → i.HasText) (hwhole : i.WrittenWhole registry)
    (name : String) :
    (Module.read (i.emit "" registry).text name).result =
        .ok ⟨name, [⟨i.opcode, i.operands, .integer⟩], []⟩ ↔
      i.SymbolsApart ∧ ∀ symbol, .expr symbol ∈ i.operands → IsOneName symbol := by
  constructor
  · intro hread
    have hwas := Module.wasRead_of_read hread ⟨i.opcode, i.operands, .integer⟩ List.mem_cons_self
    have hconstant : i.opcode ≠ .opConstant := by
      intro hopcode
      rw [TellsWordsApart, hopcode] at hapart
      exact hapart
    exact ⟨hwas.symbolsApart hapart, fun symbol hsymbol ↦
      isOneName_iff.mpr (hwas.legible hconstant _ hsymbol)⟩
  · rintro ⟨hsymbols, hnames⟩
    refine read_of_writtenWhole hapart htext hsymbols (fun operand hoperand ↦ ?_) hwhole name
    cases operand with
    | reg r => exact hregs r hoperand
    | imm word => trivial
    | expr symbol => exact isOneName_iff.mp (hnames symbol hoperand)

/-- An image operation with a mask, a symbol and a word after it. -/
def imageRead : Instruction :=
  ⟨.opImageRead, [.reg ⟨0⟩, .reg ⟨1⟩, .reg ⟨2⟩, .reg ⟨3⟩, .imm 2, .expr "lod", .imm 7], .integer⟩

/-- The symbol in `imageRead` does no harm, for an image operation takes operands of any kind. -/
theorem reads_back_iff_no_symbol_imageRead :
    imageRead.WrittenWhole .empty ∧
      (Module.read (imageRead.emit "" .empty).text "image").result =
        .ok ⟨"image", [imageRead], []⟩ := by
  have hlaid : imageRead.layOut .empty = ⟨[.reg ⟨0⟩, .reg ⟨1⟩, .reg ⟨2⟩, .reg ⟨3⟩,
      .symbol .imageOperand 2, .plain (.expr "lod"), .plain (.imm 7)], .ok []⟩ := rfl
  have hwhole := writtenWhole_of_layOut hlaid (by simp)
  have hapart : imageRead.TellsWordsApart := trivial
  have hname : IsOneName "lod" := ⟨[⟨.ident "lod", 1⟩, ⟨.eof, 1⟩], by decide +kernel, rfl⟩
  have hregs : ∀ r, .reg r ∈ imageRead.operands → r.number < 2 ^ 32 := by
    simp [imageRead, Reg.number]
  have htext : imageRead.opcode.shape.tail = .textInterface → imageRead.HasText := by
    intro htail
    cases htail
  refine ⟨hwhole, (reads_back_iff_no_symbol hapart hregs htext hwhole "image").mpr ⟨?_, ?_⟩⟩
  · rintro (h | h) <;> cases h
  · simpa [imageRead] using hname

/-- An entry point with a symbol in its interface. -/
def symbolicEntryPoint : Instruction where
  opcode := .opEntryPoint
  operands := .imm 6 :: .reg ⟨0⟩ :: StringWords.operands "main" ++ [.expr "w"]

/-- The name of a symbol in an interface is taken for a word. -/
theorem not_reads_back_symbolicEntryPoint :
    symbolicEntryPoint.WrittenWhole .empty ∧ IsOneName "w" ∧
      (Module.read (symbolicEntryPoint.emit "" .empty).text "m").result =
        .error ⟨1, .unexpectedToken .interfaceRegister (.ident "w")⟩ := by
  have hlaid : symbolicEntryPoint.layOut .empty = ⟨[.symbol .executionModel 6, .reg ⟨0⟩,
      .text "main", .plain (.expr "w")], .ok []⟩ :=
    Transcript.eq_ok_iff.mpr ⟨by decide +kernel, by decide +kernel⟩
  refine ⟨writtenWhole_of_layOut hlaid (by simp),
    ⟨[⟨.ident "w", 1⟩, ⟨.eof, 1⟩], by decide +kernel, rfl⟩, ?_⟩
  rw [Module.read, tokenize]
  decide +kernel

end Instruction

end SpirvText
