import SpirvText.ExtSet
import SpirvText.Operand

/-!
# Imported instruction sets

Which extended set each import handle stands for, as far as a module has been read or written.
-/

namespace SpirvText

/-- The extended sets that have been imported, each handle once. -/
structure Registry where
  sets : List (Reg × ExtSet) := []
  deriving DecidableEq, Repr

namespace Registry

def empty : Registry := {}

def find? (registry : Registry) (handle : Reg) : Option ExtSet := registry.sets.lookup handle

def contains (registry : Registry) (handle : Reg) : Bool := (registry.find? handle).isSome

def size (registry : Registry) : Nat := registry.sets.length

/-- Lets a handle stand for the set called `name`, whatever it stood for before. -/
def bind (registry : Registry) (handle : Reg) (name : String) : Registry :=
  ⟨(handle, .ofName name) :: registry.sets.filter (·.1 != handle)⟩

end Registry

end SpirvText
