import SpirvText.Module

/-!
# Control flow

The control-flow graph of a function has its blocks' labels as nodes.  A depth-first walk from the
entry numbers the labels that can be reached: in reverse postorder, every label but the entry comes
after one that leads to it.
-/

namespace SpirvText

/-- The targets that control may pass to from each label.  Of several entries for one label the
first counts. -/
abbrev Edges := List (Reg × List Reg)

def Edges.targets (edges : Edges) (label : Reg) : List Reg := (edges.lookup label).getD []

structure FlowGraph where
  entry : Reg
  edges : Edges
  deriving DecidableEq, Repr

/-- The edges of a function.  Of several blocks with one label the last counts, and what is not a
label of the function is no target. -/
def Function.edges (f : Function) : Edges :=
  (f.blocks.map fun b ↦ (b.label, b.successors.filter (f.labels.contains ·))).reverse

def Function.flowGraph? (f : Function) : Option FlowGraph :=
  f.entry?.map fun entry ↦ ⟨entry.label, f.edges⟩

namespace FlowGraph

/-- Walks depth first.  `stack` holds the labels that lead to where the walk stands, the innermost
first, each with the number of its targets that have been looked at; `visited` holds the labels that
the walk has come to, and `done` those that it has left, the latest first.  Every step takes one
unit of fuel. -/
def walk (edges : Edges) : Nat → List (Reg × Nat) → List Reg → List Reg → List Reg
  | 0, _, _, done => done
  | _ + 1, [], _, done => done
  | fuel + 1, (label, next) :: stack, visited, done =>
    match (edges.targets label)[next]? with
    | some target =>
      let stack := (label, next + 1) :: stack
      if visited.contains target then walk edges fuel stack visited done
      else walk edges fuel ((target, 0) :: stack) (target :: visited) done
    | none => walk edges fuel stack visited (label :: done)

/-- Enough fuel to walk all edges: one unit for each label that is left, and one for each target
that is looked at. -/
def walkFuel (edges : Edges) : Nat :=
  2 + edges.length + 2 * (edges.flatMap (·.2)).length

/-- The labels that can be reached from the entry, in reverse postorder. -/
def reversePostorder (g : FlowGraph) : List Reg :=
  walk g.edges (walkFuel g.edges) [(g.entry, 0)] [g.entry] []

end FlowGraph

end SpirvText
