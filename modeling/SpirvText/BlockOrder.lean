import SpirvText.FlowGraph.Dominators

/-!
# Block order

Blocks are put in an order in which none comes after a block that it dominates, and as few as
possible are moved: they are placed one after the other as they come, each in front of the first
placed block that it dominates, or at the end if it dominates none.
-/

namespace SpirvText

namespace BlockOrder

variable {α : Type}

/-- Places `x` in front of the first element that it dominates, or at the end. -/
def place (dominates : α → α → Bool) (x : α) (placed : List α) : List α :=
  match placed.findIdx? (dominates x) with
  | some i => placed.insertIdx i x
  | none => placed ++ [x]

def arrange (dominates : α → α → Bool) (xs : List α) : List α :=
  xs.foldl (fun placed x ↦ place dominates x placed) []

/-- Takes what is in the slots at the given positions, one after the other.  A slot is empty after
that. -/
def takeSlots : List (Option α) → List Nat → List α
  | _, [] => []
  | slots, i :: is =>
    match slots[i]?.join with
    | some x => x :: takeSlots (slots.set i none) is
    | none => takeSlots slots is

end BlockOrder

namespace Function

def dominatesAt (f : Function) (dominates : Reg → Reg → Bool) (i j : Nat) : Bool :=
  match f.blocks[i]?, f.blocks[j]? with
  | some a, some b => dominates a.label b.label
  | _, _ => false

/-- The old positions of the blocks in their new order. -/
def linearOrder (f : Function) (dominates : Reg → Reg → Bool) : List Nat :=
  BlockOrder.arrange (f.dominatesAt dominates) (List.range f.blocks.length)

/-- Puts the blocks in order, and tells whether any of them moved. -/
def linearize (f : Function) (dominates : Reg → Reg → Bool) : Function × Bool :=
  let order := f.linearOrder dominates
  if order = List.range order.length then (f, false)
  else ({ f with blocks := BlockOrder.takeSlots (f.blocks.map some) order }, true)

/-- Puts the blocks in the order of dominance, and tells whether any of them moved. -/
def orderBlocks (f : Function) : Function × Bool := f.linearize f.dominatorTree.dominates

def orderEvents (f : Function) : List Event :=
  let (ordered, changed) := f.orderBlocks
  f.dominatorEvents
    ++ if changed then [.blocksReordered ordered.displayName ordered.labels] else []

end Function

namespace Module

/-- Puts the blocks of every function in order, and tells whether any of them moved. -/
def orderBlocks (m : Module) : Module × Bool :=
  let ordered := m.functions.map Function.orderBlocks
  ({ m with functions := ordered.map (·.1) }, ordered.any (·.2))

def orderEvents (m : Module) : List Event := m.functions.flatMap Function.orderEvents

end Module

end SpirvText
