/-!
# Computations with a record

`Transcript ω ε α` is a computation that puts out entries of type `ω` as it goes and ends in a
value or an error.  What was put out before an error is kept, which is what tells it apart from
`Except ε (List ω × α)`: a line that breaks off half way has still been written so far, and a run
that fails has still reported what it did.

The result of a bind is the bind of the results (`result_bind`), so a statement that is only about
results never has to mention the record.
-/

namespace SpirvText

/-- A computation that puts out entries and ends in a value or an error. -/
@[ext]
structure Transcript (ω ε α : Type) where
  /-- What was put out, in order. -/
  entries : List ω
  /-- How the computation ended. -/
  result : Except ε α

namespace Transcript

variable {ω ε α β : Type}

def put (entry : ω) : Transcript ω ε Unit := ⟨[entry], .ok ()⟩

def putAll (entries : List ω) : Transcript ω ε Unit := ⟨entries, .ok ()⟩

def fail (error : ε) : Transcript ω ε α := ⟨[], .error error⟩

/-- A computation that puts nothing out. -/
def ofExcept (result : Except ε α) : Transcript ω ε α := ⟨[], result⟩

/-- The continuation only runs, and only puts anything out, if the first stage has a value. -/
instance instMonad : Monad (Transcript ω ε) where
  pure a := ⟨[], .ok a⟩
  bind x k :=
    match x.result with
    | .ok a =>
      let y := k a
      ⟨x.entries ++ y.entries, y.result⟩
    | .error e => ⟨x.entries, .error e⟩

instance instMonadLift : MonadLift (Except ε) (Transcript ω ε) := ⟨ofExcept⟩

@[simp] theorem result_put (entry : ω) : (put entry : Transcript ω ε Unit).result = .ok () := rfl

@[simp] theorem entries_put (entry : ω) : (put entry : Transcript ω ε Unit).entries = [entry] :=
  rfl

@[simp] theorem result_putAll (entries : List ω) :
    (putAll entries : Transcript ω ε Unit).result = .ok () := rfl

@[simp] theorem entries_putAll (entries : List ω) :
    (putAll entries : Transcript ω ε Unit).entries = entries := rfl

@[simp] theorem result_fail (e : ε) : (fail e : Transcript ω ε α).result = .error e := rfl

@[simp] theorem entries_fail (e : ε) : (fail e : Transcript ω ε α).entries = [] := rfl

@[simp] theorem result_ofExcept (r : Except ε α) : (ofExcept r : Transcript ω ε α).result = r := rfl

@[simp] theorem entries_ofExcept (r : Except ε α) :
    (ofExcept r : Transcript ω ε α).entries = [] := rfl

@[simp] theorem result_pure (a : α) : (pure a : Transcript ω ε α).result = .ok a := rfl

@[simp] theorem entries_pure (a : α) : (pure a : Transcript ω ε α).entries = [] := rfl

/-- The result of a bind is the bind of the results. -/
@[simp] theorem result_bind (x : Transcript ω ε α) (k : α → Transcript ω ε β) :
    (x >>= k).result = x.result >>= fun a ↦ (k a).result := by
  obtain ⟨entries, _ | _⟩ := x <;> rfl

end Transcript

end SpirvText
