import Mathlib.Data.List.Nodup
import SpirvText.Instruction.Reader
import SpirvText.Proofs.Text.Strings
import SpirvText.Proofs.Token.Spelling

/-!
# Symbols read back

Words that are written by name are read back from what is written: values of an enumeration and
masks (`Category.exists_spelling`), and the instructions of an extended set
(`ExtSet.exists_spelling`).  What has no name is written as a number, which is read as well.
-/

namespace SpirvText

open Lexer

/-! ## Names -/

/-- A test for names, which leaves out those where letters after digits could be an exponent or the
mark of a hexadecimal number. -/
def Lexer.looksLikeName (cs : List Char) : Bool :=
  match cs.dropWhile Char.isDigit with
  | [] => false
  | c :: tail =>
    startsName c && tail.all continuesName &&
      ((cs.takeWhile Char.isDigit).isEmpty || !(['e', 'E', 'x', 'X'].contains c))

theorem Lexer.isName_of_looksLikeName {cs : List Char} (h : looksLikeName cs = true) :
    IsName cs := by
  have hcs := List.takeWhile_append_dropWhile (p := Char.isDigit) (l := cs)
  rw [looksLikeName] at h
  split at h
  · cases h
  · next c tail heq =>
    rw [heq] at hcs
    simp only [Bool.and_eq_true, Bool.or_eq_true, List.all_eq_true, List.isEmpty_iff,
      Bool.not_eq_true', List.contains_eq_mem, decide_eq_false_iff_not] at h
    obtain ⟨⟨hc, htail⟩, hmark⟩ := h
    refine ⟨_, c, tail, hcs.symm, fun d hd ↦ List.mem_takeWhile_imp hd, hc, htail, fun hne ↦ ?_⟩
    have hletter := hmark.resolve_left hne
    simp only [List.mem_cons, List.not_mem_nil, or_false, not_or] at hletter
    exact ⟨fun he ↦ absurd he (by tauto), fun _ ↦ by tauto⟩

theorem Lexer.spells_of_looksLikeName {text : String} (h : looksLikeName text.toList = true) :
    Spells text.toList (.ident text) := by
  have hword := spells_name (isName_of_looksLikeName h)
  rwa [String.ofList_toList] at hword

/-! ## Tables of names -/

/-- A number that goes with a text, to tell fixed texts apart by. -/
def Text.key (text : String) : Nat := (stored text).foldl (fun n b ↦ 256 * n + b.toNat) 0

/-- All of these are names, and no two are the same. -/
structure NameTable (names : List String) : Prop where
  nodup_key : (names.map Text.key).Nodup
  isAscii : ∀ name ∈ names, ∀ b ∈ Text.stored name, b.toNat < 128
  looksLikeName : ∀ name ∈ names, looksLikeName (Text.asciiChars name) = true

def areDistinct : List Nat → Bool
  | [] => true
  | n :: ns => ns.all (fun m ↦ !Nat.beq m n) && areDistinct ns

theorem nodup_of_areDistinct {ns : List Nat} (h : areDistinct ns = true) : ns.Nodup := by
  induction ns with
  | nil => exact List.nodup_nil
  | cons n ns ih =>
    rw [areDistinct, Bool.and_eq_true, List.all_eq_true] at h
    refine List.nodup_cons.mpr ⟨fun hmem ↦ ?_, ih h.2⟩
    have hne := h.1 n hmem
    simp at hne

/-- The test of whether these names make up a table, one that evaluates quickly. -/
def isNameTable (names : List String) : Bool :=
  areDistinct (names.map Text.key) && names.all fun name ↦
    (Text.stored name).all (fun b ↦ Nat.blt b.toNat 128) &&
      Lexer.looksLikeName (Text.asciiChars name)

/-- Names that pass the test make up a table. -/
theorem nameTable_of_isNameTable {names : List String} (h : isNameTable names = true) :
    NameTable names := by
  simp only [isNameTable, Bool.and_eq_true, List.all_eq_true, Nat.blt_eq] at h
  exact ⟨nodup_of_areDistinct h.1, fun name hname ↦ (h.2 name hname).1,
    fun name hname ↦ (h.2 name hname).2⟩

namespace NameTable

variable {names : List String} {name : String}

theorem nodup (h : NameTable names) : names.Nodup := h.nodup_key.of_map

theorem looksLikeName_toList (h : NameTable names) (hname : name ∈ names) :
    Lexer.looksLikeName name.toList = true := by
  rw [Text.toList_eq_asciiChars (h.isAscii name hname)]
  exact h.looksLikeName name hname

theorem spells (h : NameTable names) (hname : name ∈ names) : Spells name.toList (.ident name) :=
  spells_of_looksLikeName (h.looksLikeName_toList hname)

/-- A look-up by name finds the entry with that name. -/
theorem find?_eq_some {α : Type} {entries : List α} {f : α → String} (h : NameTable (entries.map f))
    {entry : α} (hentry : entry ∈ entries) : entries.find? (f · == f entry) = some entry := by
  have hnodup := h.nodup
  clear h
  induction entries with
  | nil => cases hentry
  | cons first entries ih =>
    rw [List.map_cons, List.nodup_cons] at hnodup
    rcases List.mem_cons.mp hentry with rfl | hentry
    · simp
    · have hne : f first ≠ f entry := fun heq ↦ hnodup.1 (heq ▸ List.mem_map_of_mem hentry)
      rw [List.find?_cons_of_neg (by simpa using hne), ih hentry hnodup.2]

end NameTable

/-- The test of whether a name is like those of the bits of a mask, one that evaluates quickly. -/
def Category.namesBit (entry : UInt32 × String) : Bool :=
  (List.range 32).any (fun k ↦ Nat.beq entry.1.toNat (2 ^ k)) &&
    ((Text.asciiChars entry.2).head?.any startsName &&
      (Text.asciiChars entry.2).all (fun d ↦ continuesName d && d != '|')) &&
    !Nat.beq (Text.key entry.2) (Text.key "None")

def ExtSet.all : List ExtSet :=
  [.openClStd, .glslStd450, .debugInfo100, .openClDebugInfo100, .amdTrinaryMinMax, .unknown]

/-- The tables of all names pass their tests. -/
structure TablesChecked : Prop where
  categories : ∀ c ∈ Category.all, isNameTable (c.table.map (·.2)) = true ∧
    (!c.isMask || c.table.all Category.namesBit) = true
  sets : ∀ set ∈ ExtSet.all, isNameTable (set.table.map (·.2)) = true
  mnemonics : isNameTable (Opcode.all.map Opcode.mnemonic) = true

/-- One evaluation for all tables. -/
theorem tablesChecked : TablesChecked := by
  have htables : (Category.all.all (fun c ↦ isNameTable (c.table.map (·.2)) &&
      (!c.isMask || c.table.all Category.namesBit)) &&
      ExtSet.all.all (fun set ↦ isNameTable (set.table.map (·.2))) &&
      isNameTable (Opcode.all.map Opcode.mnemonic)) = true := by
    decide +kernel
  simp only [Bool.and_eq_true, List.all_eq_true] at htables
  exact ⟨htables.1.1, htables.1.2, htables.2⟩

namespace Supply

theorem naturalWord?_toNat (word : UInt32) : naturalWord? word.toNat = some word := by
  have hlt := word.toNat_lt
  have hfits : (0 ≤ (word.toNat : Int) && (word.toNat : Int) < 2 ^ 32) = true := by
    simp
    omega
  have hmod : ((word.toNat : Int) % 2 ^ 32).toNat = word.toNat := by omega
  rw [naturalWord?, if_pos hfits, wordOfInt, hmod, UInt32.ofNat_toNat]

variable (types : List (Reg × ScalarType)) (line : Nat) (stop : Located) {word : UInt32}

theorem symbol_int {c : Category} {v : Int} (h : naturalWord? v = some word) (l : Nat) :
    (ofLine types line stop).symbol c ⟨.int v, l⟩ = .ok word := by
  simp only [ofLine, h]

theorem symbol_ident {c : Category} {text : String} (h : c.parse? text = some word) (l : Nat) :
    (ofLine types line stop).symbol c ⟨.ident text, l⟩ = .ok word := by
  simp only [ofLine, h]

theorem extNumber_int {set : ExtSet} {v : Int} (h : naturalWord? v = some word) (l : Nat) :
    (ofLine types line stop).extNumber set ⟨.int v, l⟩ = .ok word := by
  simp only [ofLine, h]

theorem extNumber_ident {set : ExtSet} {text : String}
    (h : set.parseInstruction? text = some word) (l : Nat) :
    (ofLine types line stop).extNumber set ⟨.ident text, l⟩ = .ok word := by
  simp only [ofLine, h]

end Supply

/-! ## Enumerations -/

namespace Category

theorem mem_all (c : Category) : c ∈ all := by
  cases c <;> decide

theorem nameTable (c : Category) : NameTable (c.table.map (·.2)) :=
  nameTable_of_isNameTable (tablesChecked.categories c c.mem_all).1

theorem mem_names {c : Category} {entry : UInt32 × String} (h : entry ∈ c.table) :
    entry.2 ∈ c.table.map (·.2) :=
  List.mem_map_of_mem h

/-- A name of a category is read as its word. -/
theorem parsePart?_of_mem_table {c : Category} {entry : UInt32 × String} (h : entry ∈ c.table) :
    c.parsePart? entry.2.toList = some entry.1 := by
  have hname : ∀ name : String, (name.toList == entry.2.toList) = (name == entry.2) := by
    intro name
    rw [Bool.eq_iff_iff, beq_iff_eq, beq_iff_eq, String.toList_inj]
  simp only [parsePart?, hname, c.nameTable.find?_eq_some h]

/-- Where a value is written by name or in decimal, it is read back by the same rule. -/
theorem exists_spelling_enumeration {c : Category} (hmask : c.isMask = false) (word : UInt32) :
    ∃ t, Spells (c.render word).toList t ∧
      ∀ types line stop l, (Supply.ofLine types line stop).symbol c ⟨t, l⟩ = .ok word := by
  simp only [render, hmask, Bool.false_eq_true, if_false]
  cases hname : c.table.lookup word with
  | none =>
    have hlt := word.toNat_lt
    rw [Option.getD_none]
    exact ⟨.int word.toNat, spells_natural (by omega), fun types line stop ↦
      Supply.symbol_int types line stop (Supply.naturalWord?_toNat word)⟩
  | some name =>
    have hmem := mem_of_lookup_eq_some hname
    have hpart := parsePart?_of_mem_table hmem
    have hparse : c.parse? name = some word := by
      rw [parse?, hmask, if_neg (by decide)]
      exact hpart
    rw [Option.getD_some]
    exact ⟨.ident name, c.nameTable.spells (mem_names hmem),
      fun types line stop ↦ Supply.symbol_ident types line stop hparse⟩

/-! ## Masks -/

theorem splitBars_of_not_mem {part : List Char} (h : '|' ∉ part) : splitBars part = [part] := by
  induction part with
  | nil => rfl
  | cons c part ih =>
    rw [List.mem_cons, not_or] at h
    rw [splitBars, if_neg (by simpa using Ne.symm h.1), ih h.2]

theorem splitBars_append {part : List Char} (h : '|' ∉ part) (rest : List Char) :
    splitBars (part ++ '|' :: rest) = part :: splitBars rest := by
  induction part with
  | nil => rw [List.nil_append, splitBars, if_pos (by rfl)]
  | cons c part ih =>
    rw [List.mem_cons, not_or] at h
    rw [List.cons_append, splitBars, if_neg (by simpa using Ne.symm h.1), ih h.2]

/-- Parts without bars are had back by cutting at the bars between them. -/
theorem splitBars_intercalate {parts : List (List Char)} (hne : parts ≠ [])
    (h : ∀ part ∈ parts, '|' ∉ part) : splitBars (['|'].intercalate parts) = parts := by
  induction parts with
  | nil => exact absurd rfl hne
  | cons part parts ih =>
    cases parts with
    | nil =>
      rw [List.intercalate_singleton]
      exact splitBars_of_not_mem (h part List.mem_cons_self)
    | cons next parts =>
      rw [List.intercalate_cons_cons, List.append_assoc, List.singleton_append,
        splitBars_append (h part List.mem_cons_self),
        ih (by simp) fun part' hpart ↦ h part' (List.mem_cons_of_mem part hpart)]

/-- A mask holds the bit that it has in common with a word of one bit. -/
theorem or_eq_of_and_ne_zero {word bit : UInt32} {k : Nat} (hbit : bit.toBitVec = .twoPow 32 k)
    (h : word &&& bit ≠ 0) : word ||| bit = word := by
  have hset : word.toBitVec.getLsbD k = true := by
    by_contra hclear
    refine h (UInt32.eq_of_toBitVec_eq ?_)
    rw [UInt32.toBitVec_and, hbit, BitVec.and_twoPow, if_neg hclear]
    rfl
  refine UInt32.eq_of_toBitVec_eq ?_
  rw [UInt32.toBitVec_or, hbit]
  ext i hi
  rw [BitVec.getElem_or]
  by_cases hk : k = i
  · subst hk
    rw [← BitVec.getLsbD_eq_getElem hi, hset, Bool.true_or]
  · simp [BitVec.getElem_twoPow, Ne.symm hk]

/-- Moving bits from the rest to what is named keeps all of them. -/
theorem or_or_and_not (named rest bit : UInt32) :
    named ||| bit ||| rest &&& ~~~bit = named ||| rest ||| bit := by
  refine UInt32.eq_of_toBitVec_eq ?_
  ext i hi
  simp
  cases named.toBitVec[i] <;> cases rest.toBitVec[i] <;> cases bit.toBitVec[i] <;> rfl

/-- What the names of bits are like: each stands for one bit, begins with a letter, holds no bar
and is not what an empty mask is called. -/
structure NamesBit (entry : UInt32 × String) : Prop where
  bit : ∃ k ∈ List.range 32, entry.1.toBitVec = .twoPow 32 k
  starts : entry.2.toList.head?.any startsName = true
  continues : ∀ d ∈ entry.2.toList, continuesName d = true ∧ d ≠ '|'
  ne_none : entry.2 ≠ "None"

theorem namesBit_of_mem_table {c : Category} (hmask : c.isMask = true) {entry : UInt32 × String}
    (h : entry ∈ c.table) : NamesBit entry := by
  have htable := (tablesChecked.categories c c.mem_all).2
  rw [hmask, Bool.not_true, Bool.false_or] at htable
  have hentry := List.all_eq_true.mp htable entry h
  have hchars := Text.toList_eq_asciiChars (c.nameTable.isAscii _ (mem_names h))
  rw [namesBit, ← hchars] at hentry
  simp only [Bool.and_eq_true, List.any_eq_true, List.all_eq_true, bne_iff_ne, Nat.beq_eq,
    Bool.not_eq_true'] at hentry
  obtain ⟨⟨⟨k, hk, hbit⟩, hstarts, hcontinues⟩, hne⟩ := hentry
  refine ⟨⟨k, hk, ?_⟩, hstarts, hcontinues, fun heq ↦ ?_⟩
  · refine BitVec.eq_of_toNat_eq ?_
    have hk : k < 32 := List.mem_range.mp hk
    rw [BitVec.toNat_twoPow_of_lt hk]
    exact hbit
  · rw [heq, Nat.beq_refl] at hne
    cases hne

section Masks

variable {c : Category} {word : UInt32}

def setEntries (c : Category) (word : UInt32) : List (UInt32 × String) :=
  c.table.filter (word &&& ·.1 != 0)

/-- Named and unnamed bits make up the mask.  What has been named and what is left do so at every
step. -/
theorem foldl_or_unnamedBits (hmask : c.isMask = true) (word : UInt32) :
    (c.setEntries word).foldl (fun named entry ↦ named ||| entry.1) 0 ||| c.unnamedBits word =
      word := by
  have hstep : ∀ table : List (UInt32 × String), (∀ entry ∈ table, entry ∈ c.table) →
      ∀ named rest, named ||| rest = word →
        (table.filter (word &&& ·.1 != 0)).foldl (fun named entry ↦ named ||| entry.1) named |||
          table.foldl (fun rest entry ↦
            if word &&& entry.1 != 0 then rest &&& ~~~entry.1 else rest) rest = word := by
    intro table
    induction table with
    | nil => exact fun _ named rest h ↦ h
    | cons entry table ih =>
      intro hmem named rest h
      have htable := fun entry' h' ↦ hmem entry' (List.mem_cons_of_mem entry h')
      rw [List.filter_cons, List.foldl_cons]
      split
      · next hbit =>
        obtain ⟨k, -, hk⟩ := (namesBit_of_mem_table hmask (hmem entry List.mem_cons_self)).bit
        refine ih htable _ _ ?_
        rw [or_or_and_not, h, or_eq_of_and_ne_zero hk (bne_iff_ne.mp hbit)]
      · exact ih htable _ _ h
  exact hstep c.table (fun _ h ↦ h) 0 word (UInt32.zero_or)

/-- Names are read as the bits they stand for. -/
theorem foldlM_names {entries : List (UInt32 × String)} (h : ∀ entry ∈ entries, entry ∈ c.table)
    (named : UInt32) :
    (entries.map (·.2.toList)).foldlM (fun word part ↦ (word ||| ·) <$> c.parsePart? part) named =
      some (entries.foldl (fun named entry ↦ named ||| entry.1) named) := by
  induction entries generalizing named with
  | nil => rfl
  | cons entry entries ih =>
    rw [List.map_cons, List.foldlM_cons, parsePart?_of_mem_table (h entry List.mem_cons_self)]
    exact ih (fun entry' h' ↦ h entry' (List.mem_cons_of_mem entry h')) _

theorem parsePart?_hex (c : Category) (word : UInt32) :
    c.parsePart? (Numeral.hex word.toNat).toList = some word := by
  have htext : (Numeral.hex word.toNat).toList = '0' :: 'x' :: Nat.toDigits 16 word.toNat := by
    simp [Numeral.hex]
  rw [parsePart?, htext]
  split
  · next found name hfind =>
    have hname := c.nameTable.looksLikeName_toList (mem_names (List.mem_of_find?_eq_some hfind))
    have heq := List.find?_some hfind
    rw [eq_of_beq heq] at hname
    simp [looksLikeName] at hname
  · exact Numeral.word?_toDigits (by decide) (by decide) word

/-- A mask is written as the names of its bits, and as a number for those that have none. -/
theorem maskParts_eq (c : Category) (word : UInt32) :
    (c.maskParts word).map String.toList = (c.setEntries word).map (·.2.toList) ++
      if c.unnamedBits word = 0 then [] else [(Numeral.hex (c.unnamedBits word).toNat).toList] := by
  rw [maskParts]
  by_cases hrest : c.unnamedBits word = 0
  · simp [hrest, setEntries]
  · simp [hrest, setEntries]

theorem mem_table_of_mem_setEntries {entry : UInt32 × String} (h : entry ∈ c.setEntries word) :
    entry ∈ c.table :=
  (List.mem_filter.mp h).1

/-- The parts of a mask are read as the mask. -/
theorem foldlM_maskParts (hmask : c.isMask = true) (word : UInt32) :
    ((c.maskParts word).map String.toList).foldlM
      (fun word part ↦ (word ||| ·) <$> c.parsePart? part) 0 = some word := by
  have hall := foldl_or_unnamedBits hmask word
  rw [maskParts_eq, List.foldlM_append, foldlM_names fun entry ↦ mem_table_of_mem_setEntries]
  simp only [Option.bind_eq_bind, Option.bind_some]
  split
  · next hrest =>
    rw [hrest, UInt32.or_zero] at hall
    rw [hall]
    rfl
  · rw [List.foldlM_cons, parsePart?_hex]
    exact congrArg some hall

theorem isAlphanum_of_isDigit {c : Char} (h : Numeral.isDigit 16 c = true) :
    c.isAlphanum = true := by
  simp only [Numeral.isDigit, Bool.and_eq_true, Bool.or_eq_true] at h
  simp only [Char.isAlphanum, Bool.or_eq_true]
  exact h.1.symm

/-- The parts of a mask can stand in a name, and hold no bars. -/
theorem continuesName_of_mem_maskParts (hmask : c.isMask = true) {part : List Char}
    (h : part ∈ (c.maskParts word).map String.toList) {d : Char} (hd : d ∈ part) :
    continuesName d = true ∧ d ≠ '|' := by
  rw [maskParts_eq, List.mem_append] at h
  rcases h with h | h
  · obtain ⟨entry, hentry, rfl⟩ := List.mem_map.mp h
    exact (namesBit_of_mem_table hmask (mem_table_of_mem_setEntries hentry)).continues d hd
  · split at h
    · cases h
    · have hpart : part = '0' :: 'x' :: Nat.toDigits 16 (c.unnamedBits word).toNat := by
        simpa [Numeral.hex] using h
      have halpha : d.isAlphanum = true := by
        rw [hpart] at hd
        rcases List.mem_cons.mp hd with rfl | hd
        · decide
        · rcases List.mem_cons.mp hd with rfl | hd
          · decide
          · exact isAlphanum_of_isDigit
              (Numeral.isDigit_of_mem_toDigits (by decide) (by decide) hd)
      refine ⟨by simp [continuesName, halpha], ?_⟩
      rintro rfl
      revert halpha
      decide

theorem mem_intercalate {parts : List (List Char)} {d : Char}
    (h : d ∈ ['|'].intercalate parts) : d = '|' ∨ ∃ part ∈ parts, d ∈ part := by
  induction parts with
  | nil => cases h
  | cons part parts ih =>
    cases parts with
    | nil =>
      rw [List.intercalate_singleton] at h
      exact .inr ⟨part, List.mem_cons_self, h⟩
    | cons next parts =>
      rw [List.intercalate_cons_cons, List.append_assoc, List.mem_append, List.mem_append] at h
      rcases h with h | h | h
      · exact .inr ⟨part, List.mem_cons_self, h⟩
      · exact .inl (List.mem_singleton.mp h)
      · rcases ih h with h | ⟨part', hpart, hd⟩
        · exact .inl h
        · exact .inr ⟨part', List.mem_cons_of_mem part hpart, hd⟩

theorem exists_intercalate_cons (part : List Char) (parts : List (List Char)) :
    ∃ more, ['|'].intercalate (part :: parts) = part ++ more := by
  cases parts with
  | nil => exact ⟨[], by rw [List.intercalate_singleton, List.append_nil]⟩
  | cons next parts => exact ⟨_, by rw [List.intercalate_cons_cons, List.append_assoc]⟩

/-- A mask with a named bit is written as a name. -/
theorem isName_intercalate (hmask : c.isMask = true) (hnamed : c.setEntries word ≠ []) :
    IsName (['|'].intercalate ((c.maskParts word).map String.toList)) := by
  have hall : ∀ d ∈ ['|'].intercalate ((c.maskParts word).map String.toList),
      continuesName d = true := by
    intro d hd
    rcases mem_intercalate hd with rfl | ⟨part, hpart, hd⟩
    · decide
    · exact (continuesName_of_mem_maskParts hmask hpart hd).1
  obtain ⟨entry, entries, hentries⟩ := List.exists_cons_of_ne_nil hnamed
  have hmem : entry ∈ c.setEntries word := by
    rw [hentries]
    exact List.mem_cons_self
  have hstarts := (namesBit_of_mem_table hmask (mem_table_of_mem_setEntries hmem)).starts
  rw [maskParts_eq, hentries, List.map_cons, List.cons_append] at hall ⊢
  obtain ⟨more, hmore⟩ := exists_intercalate_cons entry.2.toList (entries.map (·.2.toList) ++
    if c.unnamedBits word = 0 then [] else [(Numeral.hex (c.unnamedBits word).toNat).toList])
  rw [hmore] at hall ⊢
  cases hname : entry.2.toList with
  | nil => simp [hname] at hstarts
  | cons d tail =>
    rw [hname] at hall hstarts
    exact ⟨[], d, tail ++ more, rfl, by simp, by simpa using hstarts,
      fun x hx ↦ hall x (List.mem_cons_of_mem d hx), by simp⟩

theorem maskParts_ne_nil (hmask : c.isMask = true) (hword : word ≠ 0) :
    (c.maskParts word).map String.toList ≠ [] := by
  intro hnil
  have hall := foldlM_maskParts hmask word
  rw [hnil] at hall
  exact hword (Option.some.inj hall).symm

theorem splitBars_maskParts (hmask : c.isMask = true) (hword : word ≠ 0) :
    splitBars ("|".intercalate (c.maskParts word)).toList =
      (c.maskParts word).map String.toList := by
  rw [String.toList_intercalate]
  exact splitBars_intercalate (maskParts_ne_nil hmask hword) fun part hpart hbar ↦
    (continuesName_of_mem_maskParts hmask hpart hbar).2 rfl

theorem intercalate_ne_none (hmask : c.isMask = true) (hword : word ≠ 0) :
    "|".intercalate (c.maskParts word) ≠ "None" := by
  intro hnone
  have hparts := splitBars_maskParts hmask hword
  have hsplit : splitBars "None".toList = ["None".toList] := by decide
  rw [hnone, hsplit, maskParts_eq] at hparts
  have hmem : "None".toList ∈ (c.setEntries word).map (·.2.toList) ++
      if c.unnamedBits word = 0 then []
      else [(Numeral.hex (c.unnamedBits word).toNat).toList] := by
    rw [← hparts]
    exact List.mem_cons_self
  rcases List.mem_append.mp hmem with hmem | hmem
  · obtain ⟨entry, hentry, heq⟩ := List.mem_map.mp hmem
    exact (namesBit_of_mem_table hmask (mem_table_of_mem_setEntries hentry)).ne_none
      (String.toList_inj.mp heq)
  · split at hmem
    · cases hmem
    · simp [Numeral.hex] at hmem

/-- A mask is read back from what is written. -/
theorem parse?_maskParts (hmask : c.isMask = true) (hword : word ≠ 0) :
    c.parse? ("|".intercalate (c.maskParts word)) = some word := by
  have hne := intercalate_ne_none hmask hword
  rw [parse?, if_pos hmask, if_neg (by simpa using hne), splitBars_maskParts hmask hword,
    foldlM_maskParts hmask word]

/-- Every word is read back from its text as a mask. -/
theorem exists_spelling_mask (hmask : c.isMask = true) (word : UInt32) :
    ∃ t, Spells (c.render word).toList t ∧
      ∀ types line stop l, (Supply.ofLine types line stop).symbol c ⟨t, l⟩ = .ok word := by
  rw [render, if_pos hmask]
  by_cases hword : word = 0
  · subst hword
    have hparse : c.parse? "None" = some 0 := by
      rw [parse?, if_pos hmask]
      rfl
    rw [if_pos (beq_self_eq_true _)]
    exact ⟨.ident "None", spells_of_looksLikeName (by decide), fun types line stop ↦
      Supply.symbol_ident types line stop hparse⟩
  · rw [if_neg (by simpa using hword)]
    by_cases hnamed : c.setEntries word = []
    · have hall := foldl_or_unnamedBits hmask word
      rw [hnamed, List.foldl_nil, UInt32.zero_or] at hall
      have htext : ("|".intercalate (c.maskParts word)).toList =
          (Numeral.hex word.toNat).toList := by
        rw [String.toList_intercalate, maskParts_eq, hnamed, hall, if_neg hword]
        simp
      have hlt := word.toNat_lt
      rw [htext]
      exact ⟨.int word.toNat, spells_hex (by omega), fun types line stop ↦
        Supply.symbol_int types line stop (Supply.naturalWord?_toNat word)⟩
    · have hname := spells_name (isName_intercalate hmask hnamed)
      rw [← String.toList_singleton, ← String.toList_intercalate, String.ofList_toList] at hname
      exact ⟨_, hname, fun types line stop ↦
        Supply.symbol_ident types line stop (parse?_maskParts hmask hword)⟩

end Masks

/-- A word that is written by name is read back. -/
theorem exists_spelling (c : Category) (word : UInt32) :
    ∃ t, Spells (c.render word).toList t ∧
      ∀ types line stop l, (Supply.ofLine types line stop).symbol c ⟨t, l⟩ = .ok word := by
  cases hmask : c.isMask with
  | false => exact exists_spelling_enumeration hmask word
  | true => exact exists_spelling_mask hmask word

end Category

/-! ## Extended instructions -/

namespace ExtSet

theorem mem_all (set : ExtSet) : set ∈ all := by
  cases set <;> decide

theorem nameTable (set : ExtSet) : NameTable (set.table.map (·.2)) :=
  nameTable_of_isNameTable (tablesChecked.sets set set.mem_all)

/-- The number of an extended instruction is read back from its name. -/
theorem exists_spelling (set : ExtSet) (number : UInt32) :
    ∃ t, Spells (set.instructionName number).toList t ∧
      ∀ types line stop l, (Supply.ofLine types line stop).extNumber set ⟨t, l⟩ = .ok number := by
  rw [instructionName]
  cases hname : set.table.lookup number with
  | none =>
    have hlt := number.toNat_lt
    rw [Option.getD_none]
    exact ⟨.int number.toNat, spells_natural (by omega), fun types line stop ↦
      Supply.extNumber_int types line stop (Supply.naturalWord?_toNat number)⟩
  | some name =>
    have hmem := mem_of_lookup_eq_some hname
    have hparse : set.parseInstruction? name = some number := by
      simp only [parseInstruction?, set.nameTable.find?_eq_some hmem]
    rw [Option.getD_some]
    exact ⟨.ident name, set.nameTable.spells (List.mem_map_of_mem hmem), fun types line stop ↦
      Supply.extNumber_ident types line stop hparse⟩

end ExtSet

/-! ## Mnemonics -/

namespace Opcode

theorem mem_all (o : Opcode) : o ∈ all := by
  cases o <;> decide

theorem nameTable : NameTable (all.map mnemonic) :=
  nameTable_of_isNameTable tablesChecked.mnemonics

/-- A mnemonic is read as a name. -/
theorem spells_mnemonic (o : Opcode) : Spells o.mnemonic.toList (.ident o.mnemonic) :=
  nameTable.spells (List.mem_map_of_mem o.mem_all)

theorem ofMnemonic?_mnemonic (o : Opcode) : ofMnemonic? o.mnemonic = some o :=
  nameTable.find?_eq_some o.mem_all

end Opcode

end SpirvText
