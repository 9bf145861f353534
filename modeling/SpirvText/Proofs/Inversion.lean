import SpirvText.Transcript

/-!
# Runs that end in a value

A computation made of stages ends in a value just if every stage does.  The lemmas here take a run
apart into the runs of its stages, and say where a value that was looked up comes from.
-/

namespace SpirvText

variable {ω ε α β : Type}

theorem bind_eq_ok {x : Except ε α} {k : α → Except ε β} {b : β} :
    x >>= k = .ok b ↔ ∃ a, x = .ok a ∧ k a = .ok b := by
  cases x with
  | error e => simp [bind, Except.bind]
  | ok a => simp [bind, Except.bind]

theorem map_eq_ok {x : Except ε α} {f : α → β} {b : β} :
    f <$> x = .ok b ↔ ∃ a, x = .ok a ∧ f a = b := by
  cases x with
  | error e => simp [Functor.map, Except.map]
  | ok a => simp [Functor.map, Except.map]

theorem mem_of_lookup_eq_some [BEq α] [LawfulBEq α] {entries : List (α × β)} {a : α} {b : β}
    (h : entries.lookup a = some b) : (a, b) ∈ entries := by
  obtain ⟨front, back, rfl, -⟩ := List.lookup_eq_some_iff.mp h
  exact List.mem_append_right front List.mem_cons_self

namespace Transcript

theorem eq_ok_iff {x : Transcript ω ε α} {entries : List ω} {a : α} :
    x = ⟨entries, .ok a⟩ ↔ x.entries = entries ∧ x.result = .ok a := by
  obtain ⟨_, _⟩ := x
  simp

/-- A run of two stages is a run of the first and then a run of the second. -/
theorem bind_eq_ok {x : Transcript ω ε α} {k : α → Transcript ω ε β} {entries : List ω} {b : β} :
    x >>= k = ⟨entries, .ok b⟩ ↔
      ∃ front a back, x = ⟨front, .ok a⟩ ∧ k a = ⟨back, .ok b⟩ ∧ entries = front ++ back := by
  obtain ⟨front, result⟩ := x
  cases result with
  | error e =>
    constructor
    · intro h
      cases congrArg Transcript.result h
    · rintro ⟨_, _, _, h, -⟩
      cases congrArg Transcript.result h
  | ok a =>
    have hbind : (⟨front, .ok a⟩ : Transcript ω ε α) >>= k =
        ⟨front ++ (k a).entries, (k a).result⟩ := rfl
    rw [hbind, eq_ok_iff]
    constructor
    · rintro ⟨rfl, hk⟩
      exact ⟨front, a, (k a).entries, rfl, eq_ok_iff.mpr ⟨rfl, hk⟩, rfl⟩
    · rintro ⟨_, _, back, h, hk, rfl⟩
      cases h
      exact ⟨by rw [hk], by rw [hk]⟩

/-- What puts nothing out before it goes on leaves no entries of its own. -/
theorem liftM_bind_eq_ok {x : Except ε α} {k : α → Transcript ω ε β} {entries : List ω} {b : β} :
    (liftM x : Transcript ω ε α) >>= k = ⟨entries, .ok b⟩ ↔
      ∃ a, x = .ok a ∧ k a = ⟨entries, .ok b⟩ := by
  rw [bind_eq_ok]
  constructor
  · rintro ⟨front, a, back, hx, hk, rfl⟩
    cases hx
    exact ⟨a, rfl, hk⟩
  · rintro ⟨a, rfl, hk⟩
    exact ⟨[], a, entries, rfl, hk, rfl⟩

/-- An entry that is put out stands before those that follow. -/
theorem put_bind_eq_ok {entry : ω} {k : Unit → Transcript ω ε β} {entries : List ω} {b : β} :
    put entry >>= k = ⟨entries, .ok b⟩ ↔
      ∃ back, k () = ⟨back, .ok b⟩ ∧ entries = entry :: back := by
  rw [bind_eq_ok]
  constructor
  · rintro ⟨front, a, back, hx, hk, rfl⟩
    cases hx
    exact ⟨back, hk, rfl⟩
  · rintro ⟨back, hk, rfl⟩
    exact ⟨[entry], (), back, rfl, hk, rfl⟩

theorem pure_eq_ok {a b : α} {entries : List ω} :
    (pure a : Transcript ω ε α) = ⟨entries, .ok b⟩ ↔ entries = [] ∧ a = b := by
  constructor
  · intro h
    cases h
    exact ⟨rfl, rfl⟩
  · rintro ⟨rfl, rfl⟩
    rfl

theorem put_pure_eq_ok {entry : ω} {a b : α} {entries : List ω} :
    ((put entry : Transcript ω ε Unit) >>= fun _ ↦ pure a) = ⟨entries, .ok b⟩ ↔
      entries = [entry] ∧ a = b := by
  rw [put_bind_eq_ok]
  constructor
  · rintro ⟨back, hpure, rfl⟩
    obtain ⟨rfl, rfl⟩ := pure_eq_ok.mp hpure
    exact ⟨rfl, rfl⟩
  · rintro ⟨rfl, rfl⟩
    exact ⟨[], rfl, rfl⟩

theorem fail_ne_ok {e : ε} {entries : List ω} {a : α} :
    (fail e : Transcript ω ε α) ≠ ⟨entries, .ok a⟩ := by
  intro h
  cases h

end Transcript

end SpirvText
