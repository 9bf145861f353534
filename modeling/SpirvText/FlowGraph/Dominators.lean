import SpirvText.Event
import SpirvText.FlowGraph

/-!
# Dominators

A label dominates another if every path from the entry to the other goes through it.  The tree of
immediate dominators is worked out by rounds over the labels in reverse postorder: each label's
dominator becomes the nearest one that the dominators known for its predecessors have in common,
until a round changes nothing.

The rounds handle labels by their positions in reverse postorder.  The dominator of a label stands
before it, so that the way up the tree descends in positions and ends at the entry, which is
position zero and its own dominator.

The tree itself has labels again.  It keeps the depth of each, so that whether one dominates another
is settled by going up from the other as many levels as the two are apart.
-/

namespace SpirvText

/-- For each position, that of the immediate dominator as far as it is known. -/
abbrev Idoms := Array (Option Nat)

namespace Idoms

/-- The dominator of a position, if it is known and stands before it. -/
def up? (idoms : Idoms) (i : Nat) : Option { d : Nat // d < i } :=
  match idoms[i]? with
  | some (some d) => if h : d < i then some ⟨d, h⟩ else none
  | _ => none

/-- The nearest position that is above both, found by going up from the later one.  There is none
if the way up meets a position whose dominator is not known. -/
def meet? (idoms : Idoms) (i j : Nat) : Option Nat :=
  if i = j then some i
  else if i < j then
    match idoms.up? j with
    | some ⟨d, _⟩ => meet? idoms i d
    | none => none
  else
    match idoms.up? i with
    | some ⟨d, _⟩ => meet? idoms d j
    | none => none
termination_by i + j

def isKnown (idoms : Idoms) (i : Nat) : Bool := (idoms[i]?.join).isSome

/-- What the predecessors whose dominators are known have in common: nothing if there are none. -/
def common? (idoms : Idoms) (preds : List Nat) : Option (Option Nat) :=
  (preds.filter idoms.isKnown).foldlM (fun best p ↦
    match best with
    | none => some (some p)
    | some i => (idoms.meet? p i).map some) none

/-- Works out the dominator of one position. -/
def improve? (preds : Array (List Nat)) (idoms : Idoms) (i : Nat) : Option Idoms := do
  match ← idoms.common? (preds[i]?.getD []) with
  | some d => return idoms.setIfInBounds i (some d)
  | none => return idoms

/-- Works out the dominators of all positions after the entry once. -/
def round? (preds : Array (List Nat)) (idoms : Idoms) : Option Idoms :=
  (List.range' 1 (preds.size - 1)).foldlM (improve? preds) idoms

/-- Goes on until a round changes nothing, for at most `fuel` rounds. -/
def settle? (preds : Array (List Nat)) : Nat → Idoms → Option Idoms
  | 0, _ => none
  | fuel + 1, idoms => do
    let next ← round? preds idoms
    if next = idoms then return idoms else settle? preds fuel next

end Idoms

/-- The immediate dominators of the labels that can be reached. -/
structure DominatorTree where
  entry? : Option Reg := none
  /-- The immediate dominator of each label that can be reached, the entry apart. -/
  idoms : List (Reg × Reg) := []
  /-- The depth of each label that can be reached.  That of the entry is zero. -/
  levels : List (Reg × Nat) := []
  deriving DecidableEq, Repr

namespace DominatorTree

/-- Hangs the label at position `i` below its dominator, if that is known. -/
def attach (order : Array Reg) (table : Idoms) (t : DominatorTree) (i : Nat) : DominatorTree :=
  match order[i]?, table[i]?.join.bind (order[·]?) with
  | some label, some parent =>
    { t with
      idoms := (label, parent) :: t.idoms
      levels := (label, (t.levels.lookup parent).getD 0 + 1) :: t.levels }
  | _, _ => t

/-- Hangs labels below their dominators in the order of their positions, up to position `k`. -/
def grow (entry : Reg) (order : Array Reg) (table : Idoms) (k : Nat) : DominatorTree :=
  (List.range' 1 (k - 1)).foldl (attach order table)
    { entry? := some entry, levels := [(entry, 0)] }

/-- The immediate dominator of a label.  The entry has none. -/
def idom? (t : DominatorTree) (label : Reg) : Option Reg := t.idoms.lookup label

def level? (t : DominatorTree) (label : Reg) : Option Nat := t.levels.lookup label

def isReachable (t : DominatorTree) (label : Reg) : Bool := (t.level? label).isSome

/-- Goes up from a label by a number of levels. -/
def climb? (t : DominatorTree) : Nat → Reg → Option Reg
  | 0, label => some label
  | n + 1, label => (t.idom? label).bind (climb? t n)

/-- Whether a label dominates another.  Every label dominates itself, and one that cannot be reached
only itself. -/
def dominates (t : DominatorTree) (a b : Reg) : Bool :=
  a == b ||
    match t.level? a, t.level? b with
    | some la, some lb => la < lb && t.climb? (lb - la) b == some a
    | _, _ => false

end DominatorTree

namespace FlowGraph

/-- For each position, those of its predecessors, each as often as it branches there. -/
def predecessors (g : FlowGraph) (order : Array Reg) : Array (List Nat) :=
  let targets := order.map g.edges.targets
  order.map fun label ↦ (List.range order.size).flatMap fun p ↦
    List.replicate ((targets[p]?.getD []).count label) p

/-- Only the entry is known at first: it is its own dominator. -/
def initialIdoms (size : Nat) : Idoms := (Array.replicate size none).setIfInBounds 0 (some 0)

/-- The immediate dominators by position.  A position's dominator only ever moves up, so that the
rounds that change something are no more than the square of the number of positions. -/
def idoms? (g : FlowGraph) (order : Array Reg) : Option Idoms :=
  Idoms.settle? (g.predecessors order) (order.size * order.size + 2) (initialIdoms order.size)

def dominatorTree (g : FlowGraph) : DominatorTree :=
  let order := g.reversePostorder.toArray
  .grow g.entry order ((g.idoms? order).getD #[]) order.size

end FlowGraph

namespace Function

/-- The dominator tree of a function, empty for a declaration. -/
def dominatorTree (f : Function) : DominatorTree :=
  match f.flowGraph? with
  | some g => g.dominatorTree
  | none => {}

def dominatorEvents (f : Function) : List Event :=
  match f.flowGraph? with
  | some g => [.dominatorsFound f.displayName g.reversePostorder.length f.blocks.length]
  | none => []

end Function

end SpirvText
