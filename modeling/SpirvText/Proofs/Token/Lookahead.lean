import SpirvText.Proofs.Token.Spelling

/-!
# What a token depends on

A token is read from its own characters and from a look at what comes after them: a number stops at
a point that no digit follows, and digits stop where letters make a name or an exponent of them.
Such a look never finds more than is there.  `Cuts rest rest'` says that `rest'` is a beginning of
`rest`, and then a blank, the end of a line or the end of the source.  A token that was read in
front of `rest` is read in front of `rest'` as well, from the same characters (`takes_scan`), and
its line breaks are those among them.
-/

namespace SpirvText

namespace Lexer

/-- What may stand in place of `rest`: the beginning of it, and then what ends a word. -/
inductive Cuts : List Char → List Char → Prop
  | stop {rest rest' : List Char} : EndsWord rest' → Cuts rest rest'
  | cons {rest rest' : List Char} (c : Char) : Cuts rest rest' → Cuts (c :: rest) (c :: rest')

namespace Cuts

variable {rest rest' : List Char}

theorem append_left (h : Cuts rest rest') (w : List Char) : Cuts (w ++ rest) (w ++ rest') := by
  induction w with
  | nil => exact h
  | cons c w ih => exact .cons c ih

theorem append_right {tail : List Char} (h : EndsWord tail) (rest : List Char) :
    Cuts rest (rest ++ tail) := by
  induction rest with
  | nil => exact .stop h
  | cons c rest ih => exact .cons c ih

/-- A character that does not end a word was there before. -/
theorem of_cons {c : Char} (h : Cuts rest (c :: rest')) (hblank : c ≠ ' ') (hline : c ≠ '\n') :
    ∃ more, rest = c :: more ∧ Cuts more rest' := by
  cases h with
  | stop hend => exact absurd (hend c rfl) (not_or.mpr ⟨hblank, hline⟩)
  | cons _ h => exact ⟨_, rfl, h⟩

/-- Where a class without blank and line end stops, it still stops. -/
theorem stops {p : Char → Bool} (h : Cuts rest rest') (hblank : p ' ' = false)
    (hline : p '\n' = false) (hrest : ∀ c ∈ rest.head?, p c = false) :
    ∀ c ∈ rest'.head?, p c = false := by
  cases h with
  | stop hend => exact hend.stops hblank hline
  | cons c _ => exact hrest

theorem takeWhile_append {p : Char → Bool} {cs : List Char} (h : Cuts (cs.dropWhile p) rest')
    (hblank : p ' ' = false) (hline : p '\n' = false) :
    (cs.takeWhile p ++ rest').takeWhile p = cs.takeWhile p ∧
      (cs.takeWhile p ++ rest').dropWhile p = rest' := by
  have hword : ∀ c ∈ cs.takeWhile p, p c = true := fun c hc ↦ List.mem_takeWhile_imp hc
  have hstop : ∀ c ∈ rest'.head?, p c = false := by
    refine h.stops hblank hline fun c hc ↦ ?_
    have := List.head?_dropWhile_not p cs
    rw [hc] at this
    simpa using this
  exact ⟨takeWhile_append_stop hword hstop, dropWhile_append_stop hword hstop⟩

end Cuts

theorem count_takeWhile {p : Char → Bool} (hline : p '\n' = false) (cs : List Char) :
    (cs.takeWhile p).count '\n' = 0 := by
  refine List.count_eq_zero.mpr fun hmem ↦ ?_
  rw [List.mem_takeWhile_imp hmem] at hline
  cases hline

/-- Of the characters `cs` those before `rest` are taken, with `breaks` line breaks among them, and
so they are whatever `rest` is cut to. -/
def Takes {ρ : Type} (read result : List Char → ρ) (cs rest : List Char) (breaks : Nat) : Prop :=
  ∃ w, cs = w ++ rest ∧ w.count '\n' = breaks ∧
    ∀ rest', Cuts rest rest' → read (w ++ rest') = result rest'

theorem Takes.of_eq {ρ : Type} {read read' result : List Char → ρ} {cs rest : List Char}
    {breaks : Nat} (h : Takes read result cs rest breaks) (heq : ∀ cs, read' cs = read cs) :
    Takes read' result cs rest breaks := by
  obtain ⟨w, hw, hcount, hread⟩ := h
  exact ⟨w, hw, hcount, fun rest' hrest ↦ (heq _).trans (hread rest' hrest)⟩

/-! ## Exponents and fractions -/

variable {cs cs' rest : List Char}

/-- Where there are no digits, there are none after a cut. -/
theorem scanExponentDigits_of_cuts {negative : Bool} (h : Cuts cs cs')
    (hnone : scanExponentDigits negative cs = none) :
    scanExponentDigits negative cs' = none := by
  have hstop : ∀ c ∈ cs.head?, c.isDigit = false := by
    cases cs with
    | nil => simp
    | cons c cs =>
      rintro _ ⟨⟩
      by_contra hc
      rw [scanExponentDigits, if_pos (by simpa using hc)] at hnone
      cases hnone
  have hstop' := h.stops (by decide) (by decide) hstop
  cases cs' with
  | nil => rfl
  | cons c cs' => rw [scanExponentDigits, if_neg (by simp [hstop' c rfl])]

theorem exists_of_scanExponentDigits {negative : Bool} {v : Int}
    (h : scanExponentDigits negative cs = some (v, rest)) :
    ∃ d w, cs = d :: (w ++ rest) ∧ d.isDigit = true ∧ w.count '\n' = 0 ∧
      ∀ rest', Cuts rest rest' →
        scanExponentDigits negative (d :: (w ++ rest')) = some (v, rest') := by
  cases cs with
  | nil => cases h
  | cons d more =>
    rw [scanExponentDigits] at h
    split at h
    · next hd =>
      cases h
      refine ⟨d, more.takeWhile Char.isDigit, ?_, hd, count_takeWhile (by decide) more,
        fun rest' hrest ↦ ?_⟩
      · rw [List.takeWhile_append_dropWhile]
      · obtain ⟨htake, hdrop⟩ := hrest.takeWhile_append (by decide) (by decide)
        rw [scanExponentDigits, if_pos hd, htake, hdrop]
    · cases h

def isExponentMark (c : Char) : Bool := c == 'e' || c == 'E'

theorem scanExponent_plus (c : Char) (cs : List Char) :
    scanExponent (c :: '+' :: cs) =
      if isExponentMark c then scanExponentDigits false cs else none := rfl

theorem scanExponent_minus (c : Char) (cs : List Char) :
    scanExponent (c :: '-' :: cs) =
      if isExponentMark c then scanExponentDigits true cs else none := rfl

theorem scanExponent_of_isDigit (c : Char) {d : Char} (hd : d.isDigit = true) (cs : List Char) :
    scanExponent (c :: d :: cs) =
      if isExponentMark c then scanExponentDigits false (d :: cs) else none := by
  have hplus : d ≠ '+' := by rintro rfl; cases hd
  have hminus : d ≠ '-' := by rintro rfl; cases hd
  rw [scanExponent.eq_def]
  simp [hplus, hminus, isExponentMark]

/-- An exponent is a mark, perhaps a sign, and digits. -/
theorem scanExponent_cases {v : Int} (h : scanExponent cs = some (v, rest)) :
    ∃ c, isExponentMark c = true ∧
      ((∃ more, cs = c :: '+' :: more ∧ scanExponentDigits false more = some (v, rest)) ∨
        (∃ more, cs = c :: '-' :: more ∧ scanExponentDigits true more = some (v, rest)) ∨
        ∃ more, cs = c :: more ∧ scanExponentDigits false more = some (v, rest)) := by
  cases cs with
  | nil => cases h
  | cons c cs =>
    rw [scanExponent.eq_def] at h
    dsimp only at h
    split at h
    · next hc =>
      refine ⟨c, hc, ?_⟩
      split at h
      · exact .inl ⟨_, rfl, h⟩
      · exact .inr (.inl ⟨_, rfl, h⟩)
      · exact .inr (.inr ⟨_, rfl, h⟩)
    · cases h

/-- An exponent is read from the same characters whatever comes after it. -/
theorem takes_scanExponent {v : Int} (h : scanExponent cs = some (v, rest)) :
    Takes scanExponent (fun r ↦ some (v, r)) cs rest 0 := by
  obtain ⟨c, hc, ⟨more, rfl, hmore⟩ | ⟨more, rfl, hmore⟩ | ⟨more, rfl, hmore⟩⟩ :=
    scanExponent_cases h
  all_goals
    have hmark : c ≠ '\n' := by rintro rfl; cases hc
    obtain ⟨d, w, rfl, hd, hcount, hread⟩ := exists_of_scanExponentDigits hmore
    have hdigit : d ≠ '\n' := by rintro rfl; cases hd
  · refine ⟨c :: '+' :: d :: w, rfl, by simp [hmark, hdigit, hcount], fun rest' hrest ↦ ?_⟩
    show scanExponent (c :: '+' :: d :: (w ++ rest')) = _
    rw [scanExponent_plus, if_pos hc, hread rest' hrest]
  · refine ⟨c :: '-' :: d :: w, rfl, by simp [hmark, hdigit, hcount], fun rest' hrest ↦ ?_⟩
    show scanExponent (c :: '-' :: d :: (w ++ rest')) = _
    rw [scanExponent_minus, if_pos hc, hread rest' hrest]
  · refine ⟨c :: d :: w, rfl, by simp [hmark, hdigit, hcount], fun rest' hrest ↦ ?_⟩
    show scanExponent (c :: d :: (w ++ rest')) = _
    rw [scanExponent_of_isDigit c hd, if_pos hc, hread rest' hrest]

/-- Where there is no exponent, there is none in what is left of it. -/
theorem scanExponent_of_cuts (h : Cuts cs cs') (hnone : scanExponent cs = none) :
    scanExponent cs' = none := by
  by_contra hsome
  obtain ⟨⟨v, rest⟩, hv⟩ := Option.ne_none_iff_exists'.mp hsome
  obtain ⟨c, hc, hshape⟩ := scanExponent_cases hv
  have hmark : c ≠ ' ' ∧ c ≠ '\n' := by constructor <;> (rintro rfl; cases hc)
  obtain ⟨more, rfl, hmore⟩ | ⟨more, rfl, hmore⟩ | ⟨more, rfl, hmore⟩ := hshape
  all_goals obtain ⟨cs₁, rfl, h₁⟩ := h.of_cons hmark.1 hmark.2
  · obtain ⟨cs₂, rfl, h₂⟩ := h₁.of_cons (by decide) (by decide)
    rw [scanExponent_plus, if_pos hc] at hnone
    rw [scanExponentDigits_of_cuts h₂ hnone] at hmore
    cases hmore
  · obtain ⟨cs₂, rfl, h₂⟩ := h₁.of_cons (by decide) (by decide)
    rw [scanExponent_minus, if_pos hc] at hnone
    rw [scanExponentDigits_of_cuts h₂ hnone] at hmore
    cases hmore
  · obtain ⟨d, w, rfl, hd, -, -⟩ := exists_of_scanExponentDigits hmore
    have hdigit : d ≠ ' ' ∧ d ≠ '\n' := by constructor <;> (rintro rfl; cases hd)
    obtain ⟨cs₂, rfl, h₂⟩ := h₁.of_cons hdigit.1 hdigit.2
    rw [scanExponent_of_isDigit c hd, if_pos hc] at hnone
    rw [scanExponentDigits_of_cuts (.cons d h₂) hnone] at hmore
    cases hmore

def HasFraction (cs : List Char) : Prop := ∃ d more, cs = '.' :: d :: more ∧ d.isDigit = true

theorem scanFraction_of_not (h : ¬ HasFraction cs) : scanFraction cs = (none, cs) := by
  fun_cases scanFraction cs with
  | case1 d more hd => exact absurd ⟨d, more, rfl, hd⟩ h
  | case2 d more hd => rfl
  | case3 => rfl

/-- A fraction is read from the same characters whatever comes after it. -/
theorem takes_scanFraction (cs : List Char) :
    Takes scanFraction (fun r ↦ ((scanFraction cs).1, r)) cs (scanFraction cs).2 0 := by
  by_cases h : HasFraction cs
  · obtain ⟨d, more, rfl, hd⟩ := h
    have hdigit : d ≠ '\n' := by rintro rfl; cases hd
    have hscan : ∀ cs, scanFraction ('.' :: d :: cs) =
        (some (d :: cs.takeWhile Char.isDigit), cs.dropWhile Char.isDigit) := fun cs ↦ by
      rw [scanFraction, if_pos hd]
    rw [hscan]
    refine ⟨'.' :: d :: more.takeWhile Char.isDigit, ?_, ?_, fun rest' hrest ↦ ?_⟩
    · simp only [List.cons_append, List.takeWhile_append_dropWhile]
    · simp [hdigit, count_takeWhile (p := Char.isDigit) (by decide) more]
    · obtain ⟨htake, hdrop⟩ := hrest.takeWhile_append (by decide) (by decide)
      show scanFraction ('.' :: d :: (_ ++ rest')) = _
      rw [hscan, htake, hdrop]
  · rw [scanFraction_of_not h]
    refine ⟨[], rfl, rfl, fun rest' hrest ↦ scanFraction_of_not ?_⟩
    rintro ⟨d, more', rfl, hd⟩
    have hdigit : d ≠ ' ' ∧ d ≠ '\n' := by constructor <;> (rintro rfl; cases hd)
    obtain ⟨cs₁, rfl, h₁⟩ := hrest.of_cons (by decide) (by decide)
    obtain ⟨cs₂, rfl, -⟩ := h₁.of_cons hdigit.1 hdigit.2
    exact h ⟨d, cs₂, rfl, hd⟩

/-! ## Numbers and names -/

/-- What may come after the digits of a number: a fraction and an exponent. -/
def scanTail (cs : List Char) : (Option (List Char) × Option Int) × List Char :=
  match scanExponent (scanFraction cs).2 with
  | none => (((scanFraction cs).1, none), (scanFraction cs).2)
  | some (exponent, rest) => (((scanFraction cs).1, some exponent), rest)

def numberToken? (negative : Bool) (digits : List Char) :
    Option (List Char) × Option Int → Option Token
  | (none, none) => integerToken? negative 10 digits
  | (places, exponent) =>
    some (floatToken negative digits (places.getD []) (exponent.getD 0))

/-- Whether the characters after digits make a name of them. -/
def namesDigits (negative : Bool) (cs : List Char) : Bool :=
  !negative && atName cs && (scanExponent cs).isNone

theorem scanTail_of_none (h : scanExponent (scanFraction cs).2 = none) :
    scanTail cs = (((scanFraction cs).1, none), (scanFraction cs).2) := by
  rw [scanTail, h]

theorem scanTail_of_some {v : Int} (h : scanExponent (scanFraction cs).2 = some (v, rest)) :
    scanTail cs = (((scanFraction cs).1, some v), rest) := by
  rw [scanTail, h]

theorem takes_scanTail (cs : List Char) :
    Takes scanTail (fun r ↦ ((scanTail cs).1, r)) cs (scanTail cs).2 0 := by
  obtain ⟨w, hcs, hcount, hread⟩ := takes_scanFraction cs
  cases hexp : scanExponent (scanFraction cs).2 with
  | none =>
    rw [scanTail_of_none hexp]
    refine ⟨w, hcs, hcount, fun rest' hrest ↦ ?_⟩
    have hnone := scanExponent_of_cuts hrest hexp
    have hfraction := hread rest' hrest
    rw [scanTail_of_none (by rw [hfraction]; exact hnone), hfraction]
  | some found =>
    obtain ⟨v, rest⟩ := found
    obtain ⟨w', hrest, hcount', hread'⟩ := takes_scanExponent hexp
    rw [scanTail_of_some hexp]
    refine ⟨w ++ w', ?_, by simp [hcount, hcount'], fun rest' hcuts ↦ ?_⟩
    · rw [List.append_assoc, ← hrest, ← hcs]
    · have hfraction := hread (w' ++ rest') (hrest ▸ hcuts.append_left w')
      rw [List.append_assoc, scanTail_of_some (by rw [hfraction]; exact hread' rest' hcuts),
        hfraction]

theorem scanInteger_eq_ok {negative : Bool} {base : Nat} {mark digits rest' : List Char}
    {t : Token} : scanInteger negative base mark digits rest = .ok (t, rest') ↔
      integerToken? negative base digits = some t ∧ rest = rest' := by
  unfold scanInteger
  cases integerToken? negative base digits with
  | none => simp
  | some t' => simp

/-- Digits are a name if what follows makes one of them, and else a number with what follows. -/
theorem scanDecimal_eq_ok {negative : Bool} {t : Token} :
    scanDecimal negative cs = .ok (t, rest) ↔
      if namesDigits negative (cs.dropWhile Char.isDigit) then
        scanName (cs.takeWhile Char.isDigit) (cs.dropWhile Char.isDigit) = (t, rest)
      else
        numberToken? negative (cs.takeWhile Char.isDigit)
            (scanTail (cs.dropWhile Char.isDigit)).1 = some t ∧
          (scanTail (cs.dropWhile Char.isDigit)).2 = rest := by
  unfold scanDecimal namesDigits
  dsimp only
  split
  · exact ⟨Except.ok.inj, congrArg Except.ok⟩
  · split
    · next hplaces hexp =>
      rw [scanTail_of_none hexp, hplaces, scanInteger_eq_ok]
      rfl
    · next hplaces hexp =>
      rw [scanTail_of_none hexp, hplaces]
      simp [numberToken?]
    · next hplaces hexp =>
      rw [scanTail_of_some hexp, hplaces]
      simp [numberToken?]
    · next hplaces hexp =>
      rw [scanTail_of_some hexp, hplaces]
      simp [numberToken?]

theorem atName_of_cuts (h : Cuts cs cs') (hname : atName cs' = true) : atName cs = true := by
  cases cs' with
  | nil => cases hname
  | cons c cs' =>
    have hc : startsName c = true := hname
    obtain ⟨more, rfl, -⟩ := h.of_cons (by rintro rfl; cases hc) (by rintro rfl; cases hc)
    exact hname

theorem scanFraction_of_atName (h : atName cs = true) : scanFraction cs = (none, cs) := by
  refine scanFraction_of_not ?_
  rintro ⟨d, more, rfl, -⟩
  cases h

/-- What does not make a name of digits does not after a cut behind the number. -/
theorem namesDigits_of_cuts {negative : Bool} {w rest' : List Char}
    (hcuts : Cuts cs (w ++ rest')) (hread : scanTail (w ++ rest') = ((scanTail cs).1, rest'))
    (h : namesDigits negative cs = false) : namesDigits negative (w ++ rest') = false := by
  by_contra hnames
  simp only [namesDigits, Bool.not_eq_false, Bool.and_eq_true, Option.isNone_iff_eq_none] at hnames
  obtain ⟨⟨hnegative, hname'⟩, hnone⟩ := hnames
  have hname := atName_of_cuts hcuts hname'
  obtain ⟨⟨v, rest⟩, hv⟩ : ∃ found, scanExponent cs = some found := by
    rw [← Option.isSome_iff_exists, ← Option.not_isNone]
    simpa [namesDigits, hnegative, hname] using h
  rw [scanTail_of_none (by rwa [scanFraction_of_atName hname']),
    scanTail_of_some (by rwa [scanFraction_of_atName hname])] at hread
  cases congrArg (·.1.2) hread

/-- What makes a name of digits does so after a cut behind the name. -/
theorem namesDigits_takeWhile {negative : Bool} {rest' : List Char}
    (hrest : Cuts (cs.dropWhile continuesName) rest') (h : namesDigits negative cs = true) :
    namesDigits negative (cs.takeWhile continuesName ++ rest') = true := by
  simp only [namesDigits, Bool.and_eq_true, Option.isNone_iff_eq_none] at h ⊢
  obtain ⟨⟨hnegative, hname⟩, hnone⟩ := h
  have hcuts := hrest.append_left (cs.takeWhile continuesName)
  rw [List.takeWhile_append_dropWhile] at hcuts
  refine ⟨⟨hnegative, ?_⟩, scanExponent_of_cuts hcuts hnone⟩
  cases cs with
  | nil => cases hname
  | cons c cs =>
    rw [List.takeWhile_cons_of_pos (continuesName_of_startsName hname)]
    exact hname

/-- A decimal number, or a name that begins with digits, is read from the same characters after a
cut. -/
theorem takes_scanDecimal {negative : Bool} {t : Token}
    (h : scanDecimal negative cs = .ok (t, rest)) :
    Takes (scanDecimal negative) (fun r ↦ .ok (t, r)) cs rest 0 := by
  have hcount := count_takeWhile (p := Char.isDigit) (by decide) cs
  have hcs := List.takeWhile_append_dropWhile (p := Char.isDigit) (l := cs)
  rw [scanDecimal_eq_ok] at h
  split at h
  · next hnames =>
    obtain ⟨htoken, hrest⟩ := Prod.mk.inj h
    have hmore := List.takeWhile_append_dropWhile (p := continuesName)
      (l := cs.dropWhile Char.isDigit)
    refine ⟨cs.takeWhile Char.isDigit ++ (cs.dropWhile Char.isDigit).takeWhile continuesName,
      ?_, ?_, fun rest' hcuts ↦ ?_⟩
    · rw [List.append_assoc, ← hrest, hmore, hcs]
    · rw [List.count_append, hcount, count_takeWhile (by decide)]
    · rw [← hrest] at hcuts
      have hcuts' := hcuts.append_left ((cs.dropWhile Char.isDigit).takeWhile continuesName)
      rw [hmore] at hcuts'
      obtain ⟨htake, hdrop⟩ := hcuts'.takeWhile_append (by decide) (by decide)
      obtain ⟨htake', hdrop'⟩ := hcuts.takeWhile_append (by decide) (by decide)
      rw [List.append_assoc, scanDecimal_eq_ok, htake, hdrop,
        if_pos (namesDigits_takeWhile hcuts hnames), scanName, htake', hdrop', ← htoken]
  · next hnames =>
    obtain ⟨htoken, rfl⟩ := h
    obtain ⟨w, hw, hcount', hread⟩ := takes_scanTail (cs.dropWhile Char.isDigit)
    refine ⟨cs.takeWhile Char.isDigit ++ w, ?_, by simp [hcount, hcount'], fun rest' hrest ↦ ?_⟩
    · rw [List.append_assoc, ← hw, hcs]
    · have hcuts : Cuts (cs.dropWhile Char.isDigit) (w ++ rest') := by
        have := hrest.append_left w
        rwa [← hw] at this
      obtain ⟨htake, hdrop⟩ := hcuts.takeWhile_append (by decide) (by decide)
      have hstill := namesDigits_of_cuts hcuts (hread rest' hrest) (Bool.not_eq_true _ ▸ hnames)
      rw [List.append_assoc, scanDecimal_eq_ok, htake, hdrop, if_neg (by simp [hstill]),
        hread rest' hrest]
      exact ⟨htoken, rfl⟩

/-- A hexadecimal number begins with a zero and a mark. -/
def HasMark (cs : List Char) : Prop := ∃ x more, cs = '0' :: x :: more ∧ (x = 'x' ∨ x = 'X')

theorem scanNumber_of_not (negative : Bool) (h : ¬ HasMark cs) :
    scanNumber negative cs = scanDecimal negative cs := by
  unfold scanNumber
  split
  · next x more =>
    rw [if_neg]
    exact fun hx ↦ h ⟨x, more, rfl, by simpa using hx⟩
  · rfl

theorem takes_scanNumber {negative : Bool} {t : Token}
    (h : scanNumber negative cs = .ok (t, rest)) :
    Takes (scanNumber negative) (fun r ↦ .ok (t, r)) cs rest 0 := by
  by_cases hmark : HasMark cs
  · obtain ⟨x, more, rfl, hx⟩ := hmark
    have hscan : ∀ cs, scanNumber negative ('0' :: x :: cs) =
        scanInteger negative 16 ['0', x] (cs.takeWhile (Numeral.isDigit 16))
          (cs.dropWhile (Numeral.isDigit 16)) := fun cs ↦ by
      rw [scanNumber, if_pos (by simpa using hx)]
    rw [hscan, scanInteger_eq_ok] at h
    obtain ⟨htoken, rfl⟩ := h
    have hline : x ≠ '\n' := by rcases hx with rfl | rfl <;> decide
    refine ⟨'0' :: x :: more.takeWhile (Numeral.isDigit 16), ?_, ?_, fun rest' hrest ↦ ?_⟩
    · simp only [List.cons_append, List.takeWhile_append_dropWhile]
    · simp [hline, count_takeWhile (p := Numeral.isDigit 16) (by decide) more]
    · obtain ⟨htake, hdrop⟩ := hrest.takeWhile_append (by decide) (by decide)
      show scanNumber negative ('0' :: x :: (_ ++ rest')) = _
      rw [hscan, htake, hdrop, scanInteger_eq_ok]
      exact ⟨htoken, rfl⟩
  · rw [scanNumber_of_not negative hmark] at h
    obtain ⟨w, rfl, hcount, hread⟩ := takes_scanDecimal h
    refine ⟨w, rfl, hcount, fun rest' hrest ↦ ?_⟩
    rw [scanNumber_of_not, hread rest' hrest]
    rintro ⟨x, more, heq, hx⟩
    have hcuts := hrest.append_left w
    rw [heq] at hcuts
    obtain ⟨cs₁, hcs₁, h₁⟩ := hcuts.of_cons (by decide) (by decide)
    obtain ⟨cs₂, hcs₂, -⟩ := h₁.of_cons (by rcases hx with rfl | rfl <;> decide)
      (by rcases hx with rfl | rfl <;> decide)
    exact hmark ⟨x, cs₂, by rw [hcs₁, hcs₂], hx⟩

/-! ## Strings -/

/-- A string takes what is up to its closing quote, whatever comes after it. -/
theorem exists_of_unquote? {text : List Char} (h : Text.unquote? cs = some (text, rest)) :
    ∃ w, cs = w ++ rest ∧ w ≠ [] ∧ w.count '\n' = text.count '\n' ∧
      ∀ rest', Text.unquote? (w ++ rest') = some (text, rest') := by
  fun_induction Text.unquote? cs generalizing text with
  | case1 => cases h
  | case2 more =>
    cases h
    exact ⟨['"'], rfl, by simp, by simp, fun rest' ↦ rfl⟩
  | case3 cs ih =>
    obtain ⟨⟨text', rest'⟩, h', heq⟩ := Option.map_eq_some_iff.1 h
    cases heq
    obtain ⟨w, rfl, -, hcount, hread⟩ := ih h'
    refine ⟨'\\' :: '"' :: w, rfl, by simp, by simpa using hcount, fun rest' ↦ ?_⟩
    show Text.unquote? ('\\' :: '"' :: (w ++ rest')) = _
    rw [Text.unquote?, hread]
    rfl
  | case4 c cs hquote hescape ih =>
    obtain ⟨⟨text', rest'⟩, h', heq⟩ := Option.map_eq_some_iff.1 h
    cases heq
    obtain ⟨w, rfl, hne, hcount, hread⟩ := ih h'
    refine ⟨c :: w, rfl, by simp, ?_, fun rest' ↦ ?_⟩
    · rw [List.count_cons, List.count_cons, hcount]
    · show Text.unquote? (c :: (w ++ rest')) = _
      rw [Text.unquote?.eq_4 _ _ hquote, hread]
      · rfl
      · intro more hc heq
        obtain ⟨d, w, rfl⟩ := List.exists_cons_of_ne_nil hne
        obtain rfl := (List.cons.inj heq).1
        exact hescape _ hc rfl

/-- A string is read up to its closing quote, over all line breaks in it. -/
theorem takes_scanString {t : Token} (h : scanString cs = .ok (t, rest)) :
    Takes scanString (fun r ↦ .ok (t, r)) cs rest t.lineBreaks := by
  unfold scanString at h
  split at h
  · next text rest' htext =>
    cases h
    obtain ⟨w, hcs, -, hcount, hread⟩ := exists_of_unquote? htext
    refine ⟨w, hcs, by simpa [Token.lineBreaks] using hcount, fun rest'' _ ↦ ?_⟩
    simp only [scanString, hread]
  · cases h

theorem takes_scanId {t : Token} (h : scanId cs = .ok (t, rest)) :
    Takes scanId (fun r ↦ .ok (t, r)) cs rest t.lineBreaks := by
  unfold scanId at h
  dsimp only at h
  split at h
  · next number hnumber =>
    cases h
    refine ⟨cs.takeWhile Char.isDigit, List.takeWhile_append_dropWhile.symm,
      count_takeWhile (by decide) cs, fun rest' hrest ↦ ?_⟩
    obtain ⟨htake, hdrop⟩ := hrest.takeWhile_append (by decide) (by decide)
    simp only [scanId, htake, hdrop, hnumber]
  · cases h

theorem lineBreaks_of_integerToken? {negative : Bool} {base : Nat} {digits : List Char} {t : Token}
    (h : integerToken? negative base digits = some t) : t.lineBreaks = 0 := by
  obtain ⟨-, hint⟩ := Option.ite_none_right_eq_some.mp h
  cases hint
  rfl

theorem lineBreaks_of_scanDecimal {negative : Bool} {t : Token}
    (h : scanDecimal negative cs = .ok (t, rest)) : t.lineBreaks = 0 := by
  rw [scanDecimal_eq_ok] at h
  split at h
  · cases h
    rfl
  · unfold numberToken? at h
    split at h
    · exact lineBreaks_of_integerToken? h.1
    · cases h.1
      rfl

/-- No number goes over a line break. -/
theorem lineBreaks_of_scanNumber {negative : Bool} {t : Token}
    (h : scanNumber negative cs = .ok (t, rest)) : t.lineBreaks = 0 := by
  unfold scanNumber at h
  split at h
  · split at h
    · exact lineBreaks_of_integerToken? (scanInteger_eq_ok.mp h).1
    · exact lineBreaks_of_scanDecimal h
  · exact lineBreaks_of_scanDecimal h

/-- A number takes its first digit. -/
theorem takes_scanNumber_cons {negative : Bool} {d : Char} {more : List Char} {t : Token}
    (hd : d.isDigit = true) (h : scanNumber negative (d :: more) = .ok (t, rest)) :
    Takes (fun cs ↦ scanNumber negative (d :: cs)) (fun r ↦ .ok (t, r)) more rest t.lineBreaks := by
  obtain ⟨w, hw, hcount, hread⟩ := takes_scanNumber h
  have hlt := length_scanNumber_lt (by simp [hd]) h
  cases w with
  | nil =>
    rw [hw] at hlt
    exact absurd hlt (Nat.lt_irrefl _)
  | cons d' w =>
    cases hw
    have hline : d ≠ '\n' := by rintro rfl; cases hd
    rw [List.count_cons_of_ne hline] at hcount
    exact ⟨w, rfl, hcount.trans (lineBreaks_of_scanNumber h).symm, hread⟩

/-- A token is decided by the characters that it takes, with its line breaks among them. -/
theorem takes_scan {c : Char} {t : Token} (h : scan c cs = .ok (t, rest)) :
    Takes (scan c) (fun r ↦ .ok (t, r)) cs rest t.lineBreaks := by
  unfold scan at h
  split at h
  · next hid => exact (takes_scanId h).of_eq fun cs ↦ by rw [scan.eq_def, if_pos hid]
  next hid =>
  split at h
  · next hstring =>
    exact (takes_scanString h).of_eq fun cs ↦ by rw [scan.eq_def, if_neg hid, if_pos hstring]
  next hstring =>
  split at h
  · next hminus =>
    split at h
    · next d more =>
      split at h
      · next hd =>
        obtain ⟨w, rfl, hcount, hread⟩ := takes_scanNumber_cons hd h
        have hline : d ≠ '\n' := by rintro rfl; cases hd
        refine ⟨d :: w, rfl, by rw [List.count_cons_of_ne hline, hcount], fun rest' hrest ↦ ?_⟩
        rw [scan.eq_def, if_neg hid, if_neg hstring, if_pos hminus]
        exact (if_pos hd).trans (hread rest' hrest)
      · cases h
    · cases h
  next hminus =>
  split at h
  · next hd =>
    refine (takes_scanNumber_cons hd h).of_eq fun cs ↦ ?_
    rw [scan.eq_def, if_neg hid, if_neg hstring, if_neg hminus, if_pos hd]
  next hd =>
  split at h
  · next hname =>
    cases h
    refine ⟨cs.takeWhile continuesName, List.takeWhile_append_dropWhile.symm,
      count_takeWhile (by decide) cs, fun rest' hrest ↦ ?_⟩
    obtain ⟨htake, hdrop⟩ := hrest.takeWhile_append (by decide) (by decide)
    rw [scan.eq_def, if_neg hid, if_neg hstring, if_neg hminus, if_neg hd, if_pos hname, scanName,
      htake, hdrop]
  · cases h

end Lexer

end SpirvText
