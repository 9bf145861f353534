import SpirvText.Proofs.Layout.Replay

/-!
# Layouts that agree

Two supplies that take the same from related items make for layouts that put out the same fields and
end alike, in values or in errors (`Supply.agree_layOut`).  Unlike a replay this says something
about layouts that fail too.
-/

namespace SpirvText

variable {ω ε δ α β α' β' ι κ : Type}

/-- Two results that are both values or both errors, and related as such. -/
@[mk_iff]
inductive EndAlike (E : ε → δ → Prop) (A : α → β → Prop) : Except ε α → Except δ β → Prop
  | ok {a : α} {b : β} : A a b → EndAlike E A (.ok a) (.ok b)
  | error {e : ε} {d : δ} : E e d → EndAlike E A (.error e) (.error d)

namespace EndAlike

variable {E : ε → δ → Prop} {A : α → β → Prop}

/-- Results that end alike still do after continuations that end alike on related values. -/
theorem bind {B : α' → β' → Prop} {x : Except ε α} {y : Except δ β} {k : α → Except ε α'}
    {l : β → Except δ β'} (h : EndAlike E A x y) (hk : ∀ a b, A a b → EndAlike E B (k a) (l b)) :
    EndAlike E B (x >>= k) (y >>= l) := by
  cases h with
  | ok hab => exact hk _ _ hab
  | error he => exact .error he

theorem map {B : α' → β' → Prop} {x : Except ε α} {y : Except δ β} {f : α → α'} {g : β → β'}
    (h : EndAlike E A x y) (hf : ∀ a b, A a b → B (f a) (g b)) :
    EndAlike E B (f <$> x) (g <$> y) := by
  cases h with
  | ok hab => exact .ok (hf _ _ hab)
  | error he => exact .error he

/-- Errors may be named anew on both sides. -/
theorem mapError {ε' δ' : Type} {E' : ε' → δ' → Prop} {f : ε → ε'} {g : δ → δ'} {x : Except ε α}
    {y : Except δ β} (h : EndAlike E A x y) (hE : ∀ e d, E e d → E' (f e) (g d)) :
    EndAlike E' A (x.mapError f) (y.mapError g) := by
  cases h with
  | ok hab => exact .ok hab
  | error hed => exact .error (hE _ _ hed)

theorem imp {E' : ε → δ → Prop} {x : Except ε α} {y : Except δ β} (h : EndAlike E A x y)
    (hE : ∀ e d, E e d → E' e d) : EndAlike E' A x y := by
  cases h with
  | ok hab => exact .ok hab
  | error he => exact .error (hE _ _ he)

/-- Results that differ only in what their errors are called are the same once they are called
alike. -/
theorem mapError_eq {γ : Type} {f : ε → γ} {g : δ → γ} {x : Except ε α} {y : Except δ α}
    (h : EndAlike (fun e d ↦ f e = g d) Eq x y) : x.mapError f = y.mapError g := by
  cases h with
  | ok hab => exact congrArg Except.ok hab
  | error he => exact congrArg Except.error he

end EndAlike

namespace Transcript

/-- Two computations that put out the same and end alike. -/
def Agree (E : ε → δ → Prop) (A : α → β → Prop) (x : Transcript ω ε α) (y : Transcript ω δ β) :
    Prop :=
  x.entries = y.entries ∧ EndAlike E A x.result y.result

variable {E : ε → δ → Prop} {A : α → β → Prop} {B : α' → β' → Prop}

theorem agree_pure {a : α} {b : β} (h : A a b) :
    Agree E A (pure a : Transcript ω ε α) (pure b) := ⟨rfl, .ok h⟩

theorem agree_fail {e : ε} {d : δ} (h : E e d) :
    Agree E A (fail e : Transcript ω ε α) (fail d) := ⟨rfl, .error h⟩

theorem agree_liftM {x : Except ε α} {y : Except δ β} (h : EndAlike E A x y) :
    Agree E A (liftM x : Transcript ω ε α) (liftM y) := ⟨rfl, h⟩

/-- Computations that agree still do after continuations that agree on related values. -/
theorem Agree.bind {x : Transcript ω ε α} {y : Transcript ω δ β} {k : α → Transcript ω ε α'}
    {l : β → Transcript ω δ β'} (h : Agree E A x y) (hk : ∀ a b, A a b → Agree E B (k a) (l b)) :
    Agree E B (x >>= k) (y >>= l) := by
  obtain ⟨entries, result⟩ := x
  obtain ⟨entries', result'⟩ := y
  obtain ⟨rfl, hresult⟩ := h
  cases hresult with
  | error he => exact ⟨rfl, .error he⟩
  | ok hab =>
    obtain ⟨hentries, hk⟩ := hk _ _ hab
    exact ⟨congrArg (entries ++ ·) hentries, hk⟩

theorem Agree.put_bind {entry : ω} {k : Unit → Transcript ω ε α} {l : Unit → Transcript ω δ β}
    (h : Agree E A (k ()) (l ())) : Agree E A (put entry >>= k) (put entry >>= l) := by
  obtain ⟨hentries, hresult⟩ := h
  exact ⟨congrArg (entry :: ·) hentries, hresult⟩

end Transcript

namespace Supply

open Transcript (agree_pure agree_fail agree_liftM)

variable {s : Supply ι ε} {s' : Supply κ δ} {R : ι → κ → Prop} {E : ε → δ → Prop}

/-- What was taken is the same, and what is left related. -/
def SameTaken (R : ι → κ → Prop) (x : α × List ι) (y : α × List κ) : Prop :=
  x.1 = y.1 ∧ List.Forall₂ R x.2 y.2

/-- Two supplies that take the same from related items. -/
structure Agree (s : Supply ι ε) (s' : Supply κ δ) (R : ι → κ → Prop) (E : ε → δ → Prop) :
    Prop where
  isImmediate : ∀ item item', R item item' → s.isImmediate item = s'.isImmediate item'
  reg : ∀ item item', R item item' → EndAlike E Eq (s.reg item) (s'.reg item')
  literal : ∀ item item', R item item' → EndAlike E Eq (s.literal item) (s'.literal item')
  symbol : ∀ category item item', R item item' →
    EndAlike E Eq (s.symbol category item) (s'.symbol category item')
  extNumber : ∀ set item item', R item item' →
    EndAlike E Eq (s.extNumber set item) (s'.extNumber set item')
  plain : ∀ item item', R item item' → EndAlike E Eq (s.plain item) (s'.plain item')
  skip : ∀ item item', R item item' → EndAlike E Eq (s.skip item) (s'.skip item')
  text : ∀ item item' items items', R item item' → List.Forall₂ R items items' →
    EndAlike E (SameTaken R) (s.text item items) (s'.text item' items')
  constant : ∀ type items items', List.Forall₂ R items items' →
    EndAlike E (SameTaken R) (s.constant type items) (s'.constant type items')
  error : ∀ e, E (s.error e) (s'.error e)

variable (hs : s.Agree s' R E) (opcode : Opcode) {items : List ι} {items' : List κ}

include hs

theorem agree_plainTail (h : List.Forall₂ R items items') :
    Transcript.Agree E (List.Forall₂ R) (s.plainTail items) (s'.plainTail items') := by
  induction h with
  | nil => exact agree_pure .nil
  | cons hitem _ ih =>
    refine (agree_liftM (hs.plain _ _ hitem)).bind ?_
    rintro operand _ rfl
    exact ih.put_bind

theorem agree_interfaceTail (h : List.Forall₂ R items items') :
    Transcript.Agree E (List.Forall₂ R) (s.interfaceTail items) (s'.interfaceTail items') := by
  induction h with
  | nil => exact agree_pure .nil
  | cons hitem _ ih =>
    rw [interfaceTail, interfaceTail, hs.isImmediate _ _ hitem]
    split
    · refine (agree_liftM (hs.skip _ _ hitem)).bind ?_
      rintro operand _ rfl
      exact ih.put_bind
    · refine (agree_liftM (hs.plain _ _ hitem)).bind ?_
      rintro operand _ rfl
      exact ih.put_bind

theorem agree_symbolTail (category : Category) {item : ι} {item' : κ} (hitem : R item item')
    (h : List.Forall₂ R items items') :
    Transcript.Agree E (List.Forall₂ R) (s.symbolTail category item items)
      (s'.symbolTail category item' items') := by
  refine (agree_liftM (hs.symbol category _ _ hitem)).bind ?_
  rintro word _ rfl
  exact (agree_pure h).put_bind

theorem agree_textTail (h : List.Forall₂ R items items') :
    Transcript.Agree E (List.Forall₂ R) (s.textTail opcode items) (s'.textTail opcode items') := by
  cases h with
  | nil => exact agree_fail (hs.error _)
  | cons hitem h =>
    refine (agree_liftM (hs.text _ _ _ _ hitem h)).bind ?_
    rintro ⟨value, rest⟩ ⟨_, rest'⟩ ⟨rfl, hrest⟩
    exact (agree_pure hrest).put_bind

theorem agree_decorationTail (form : DecorationForm) (h : List.Forall₂ R items items') :
    Transcript.Agree E (List.Forall₂ R) (s.decorationTail opcode form items)
      (s'.decorationTail opcode form items') := by
  cases h with
  | nil => exact agree_pure .nil
  | cons hitem h =>
    cases form with
    | builtIn | funcParamAttr | fpRoundingMode | fpFastMathMode =>
      exact agree_symbolTail hs _ hitem h
    | uniformId =>
      rw [decorationTail, decorationTail, hs.isImmediate _ _ hitem]
      split
      · exact agree_symbolTail hs _ hitem h
      · refine (agree_liftM (hs.plain _ _ hitem)).bind ?_
        rintro operand _ rfl
        exact (agree_pure h).put_bind
    | linkageAttributes =>
      refine (agree_textTail hs opcode (.cons hitem h)).bind fun rest rest' hrest ↦ ?_
      cases hrest with
      | nil => exact agree_fail (hs.error _)
      | cons htype hrest => exact agree_symbolTail hs _ htype hrest
    | userSemantic => exact agree_textTail hs opcode (.cons hitem h)
    | other => exact agree_plainTail hs (.cons hitem h)

theorem agree_roundingTail (name : String) (h : List.Forall₂ R items items') :
    Transcript.Agree E (List.Forall₂ R) (s.roundingTail opcode name items)
      (s'.roundingTail opcode name items') := by
  induction h with
  | nil => exact agree_fail (hs.error _)
  | cons hitem h ih =>
    cases h with
    | nil => exact agree_symbolTail hs _ hitem .nil
    | cons hnext h =>
      refine (agree_liftM (hs.plain _ _ hitem)).bind ?_
      rintro operand _ rfl
      exact ih.put_bind

theorem agree_extInstTail (values : FixedValues) (h : List.Forall₂ R items items') :
    Transcript.Agree E (List.Forall₂ R) (s.extInstTail opcode values items)
      (s'.extInstTail opcode values items') := by
  unfold extInstTail
  split
  · split
    · exact agree_roundingTail hs opcode _ h
    · exact agree_plainTail hs h
  · exact agree_fail (hs.error _)

theorem agree_memoryTail (h : List.Forall₂ R items items') :
    Transcript.Agree E (List.Forall₂ R) (s.memoryTail opcode items)
      (s'.memoryTail opcode items') := by
  induction items using memoryTail.induct (s := s) generalizing items' with
  | case1 =>
    cases h
    exact agree_pure .nil
  | case2 item items himm ihrest ih =>
    cases h with
    | cons hitem h =>
      rw [memoryTail.eq_def, memoryTail.eq_def]
      simp only [himm, hs.isImmediate _ _ hitem ▸ himm, if_true]
      refine (agree_liftM (hs.symbol _ _ _ hitem)).bind ?_
      rintro mask _ rfl
      refine Transcript.Agree.put_bind ?_
      split
      · cases h with
        | nil => exact agree_fail (hs.error _)
        | cons hnext h =>
          simp only [hs.isImmediate _ _ hnext]
          split
          · refine (agree_liftM (hs.literal _ _ hnext)).bind ?_
            rintro word _ rfl
            exact (ihrest h).put_bind
          · exact agree_fail (hs.error _)
      · exact ih h
  | case3 item items himm =>
    cases h with
    | cons hitem h =>
      rw [memoryTail.eq_def, memoryTail.eq_def]
      simp only [himm, hs.isImmediate _ _ hitem ▸ himm]
      exact agree_fail (hs.error _)

theorem agree_imageTail (h : List.Forall₂ R items items') :
    Transcript.Agree E (List.Forall₂ R) (s.imageTail opcode items)
      (s'.imageTail opcode items') := by
  cases h with
  | nil => exact agree_pure .nil
  | cons hitem h =>
    rw [imageTail, imageTail, hs.isImmediate _ _ hitem]
    split
    · exact (agree_symbolTail hs _ hitem h).bind fun _ _ hrest ↦ agree_plainTail hs hrest
    · exact agree_fail (hs.error _)

/-- Every tail is laid out alike from related items. -/
theorem agree_tail (values : FixedValues) (tail : Tail) (h : List.Forall₂ R items items') :
    Transcript.Agree E (List.Forall₂ R) (s.tail opcode values items tail)
      (s'.tail opcode values items' tail) := by
  cases tail with
  | empty => exact agree_pure h
  | plain => exact agree_plainTail hs h
  | constant =>
    rw [Supply.tail, Supply.tail]
    split
    · exact agree_fail (hs.error _)
    · refine (agree_liftM (hs.constant _ _ _ h)).bind ?_
      rintro ⟨value, rest⟩ ⟨_, rest'⟩ ⟨rfl, hrest⟩
      exact (agree_pure hrest).put_bind
  | text => exact agree_textTail hs opcode h
  | textInterface =>
    exact (agree_textTail hs opcode h).bind fun _ _ hrest ↦ agree_interfaceTail hs hrest
  | decoration =>
    rw [Supply.tail, Supply.tail]
    split
    · exact agree_fail (hs.error _)
    · exact agree_decorationTail hs opcode _ h
  | extInst => exact agree_extInstTail hs opcode values h
  | memoryAccess => exact agree_memoryTail hs opcode h
  | imageOperands => exact agree_imageTail hs opcode h
  | optionalSymbol category =>
    cases h with
    | nil => exact agree_pure .nil
    | cons hitem h => exact agree_symbolTail hs _ hitem h

/-- A fixed operand says the same about the tail whichever of the related items it is taken from. -/
theorem agree_fixedOperand (registry : Registry) (kind : OperandKind) (values : FixedValues)
    {item : ι} {item' : κ} (hitem : R item item') :
    Transcript.Agree E Eq (s.fixedOperand registry opcode kind values item)
      (s'.fixedOperand registry opcode kind values item') := by
  cases kind with
  | id =>
    refine (agree_liftM (hs.reg _ _ hitem)).bind ?_
    rintro r _ rfl
    exact .put_bind (agree_pure rfl)
  | literal =>
    refine (agree_liftM (hs.literal _ _ hitem)).bind ?_
    rintro word _ rfl
    exact .put_bind (agree_pure rfl)
  | symbol category =>
    refine (agree_liftM (hs.symbol category _ _ hitem)).bind ?_
    rintro word _ rfl
    exact .put_bind (agree_pure rfl)
  | extNumber =>
    rw [fixedOperand, fixedOperand]
    split
    · exact agree_fail (hs.error _)
    · split
      · exact agree_fail (hs.error _)
      · refine (agree_liftM (hs.extNumber _ _ _ hitem)).bind ?_
        rintro word _ rfl
        exact .put_bind (agree_pure rfl)

theorem agree_fixedOperands (registry : Registry) (kinds : List OperandKind) (index : Nat)
    (values : FixedValues) (h : List.Forall₂ R items items') :
    Transcript.Agree E (SameTaken R) (s.fixedOperands registry opcode kinds index values items)
      (s'.fixedOperands registry opcode kinds index values items') := by
  induction kinds generalizing index values items items' with
  | nil => exact agree_pure ⟨rfl, h⟩
  | cons kind kinds ih =>
    cases h with
    | nil => exact agree_fail (hs.error _)
    | cons hitem h =>
      refine (agree_fixedOperand hs opcode registry kind values hitem).bind ?_
      rintro values _ rfl
      exact ih (index + 1) values h

/-- Supplies that take the same from related items lay an instruction out alike, and leave related
items. -/
theorem agree_layOut (registry : Registry) (h : List.Forall₂ R items items') :
    Transcript.Agree E (List.Forall₂ R) (s.layOut registry opcode items)
      (s'.layOut registry opcode items') := by
  refine (agree_fixedOperands hs opcode registry opcode.shape.fixed 0 {} h).bind ?_
  rintro ⟨values, rest⟩ ⟨_, rest'⟩ ⟨rfl, hrest⟩
  exact agree_tail hs opcode values opcode.shape.tail hrest

end Supply

end SpirvText
