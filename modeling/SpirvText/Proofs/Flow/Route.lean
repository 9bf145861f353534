import Mathlib.Data.List.Nodup
import SpirvText.FlowGraph

/-!
# Routes and dominance

A route leads from a start to a node along steps, and is kept as the list of the nodes on it, the
last one first.  A node dominates another that can be reached if it is on every route to it.  None
of this knows what the nodes are: the same definitions serve for the labels of a function and for
their positions in reverse postorder.

At the end stands what the routes of a function are.  There the steps are read off the blocks
themselves, not off the table of edges that the dominator tree is made from; `mem_targets_edges_iff`
says that the two agree.
-/

namespace SpirvText

section Routes

variable {α : Type} {start : α → Prop} {step : α → α → Prop}

/-- `Route start step b l`: the nodes `l`, the last one first, lead from a start to `b`. -/
inductive Route (start : α → Prop) (step : α → α → Prop) : α → List α → Prop
  | start {a : α} : start a → Route start step a [a]
  | step {a b : α} {l : List α} : Route start step a l → step a b → Route start step b (b :: l)

def Reaches (start : α → Prop) (step : α → α → Prop) (b : α) : Prop :=
  ∃ l, Route start step b l

/-- `b` can be reached, and every route to it goes through `a`. -/
def Dominates (start : α → Prop) (step : α → α → Prop) (a b : α) : Prop :=
  Reaches start step b ∧ ∀ l, Route start step b l → a ∈ l

namespace Route

theorem mem_self {b : α} {l : List α} (h : Route start step b l) : b ∈ l := by
  cases h with
  | start => exact List.mem_singleton_self b
  | step _ _ => exact List.mem_cons_self

/-- A route to a node that is not a start arrives there by a step. -/
theorem exists_step {b : α} {l : List α} (h : Route start step b l) (hb : ¬ start b) :
    ∃ a r, Route start step a r ∧ step a b ∧ l = b :: r := by
  cases h with
  | start hs => exact absurd hs hb
  | step hr hs => exact ⟨_, _, hr, hs, rfl⟩

/-- The nodes of a route up to one of them are a route to that node. -/
theorem exists_suffix {a b : α} {l : List α} (h : Route start step b l) (ha : a ∈ l) :
    ∃ r, Route start step a r ∧ r <:+ l := by
  induction h with
  | start hs =>
    obtain rfl := List.mem_singleton.mp ha
    exact ⟨_, .start hs, List.suffix_refl _⟩
  | step hr hs ih =>
    rcases List.mem_cons.mp ha with rfl | ha
    · exact ⟨_, .step hr hs, List.suffix_refl _⟩
    · obtain ⟨r, hroute, hsuffix⟩ := ih ha
      exact ⟨r, hroute, hsuffix.trans (List.suffix_cons _ _)⟩

/-- A route can be cut short until no node is on it twice. -/
theorem exists_nodup {b : α} {l : List α} (h : Route start step b l) :
    ∃ r, Route start step b r ∧ r.Nodup ∧ r ⊆ l := by
  induction h with
  | start hs => exact ⟨_, .start hs, List.nodup_singleton _, List.Subset.refl _⟩
  | @step a b l hr hs ih =>
    obtain ⟨r, hroute, hnodup, hsub⟩ := ih
    by_cases hb : b ∈ r
    · obtain ⟨q, hq, hsuffix⟩ := hroute.exists_suffix hb
      exact ⟨q, hq, hsuffix.sublist.nodup hnodup,
        List.Subset.trans (List.Subset.trans hsuffix.subset hsub) (List.subset_cons_self _ _)⟩
    · exact ⟨b :: r, .step hroute hs, List.nodup_cons.mpr ⟨hb, hnodup⟩,
        List.cons_subset_cons b hsub⟩

/-- What holds of every start and is kept by every step holds along a route. -/
theorem forall_mem {P : α → Prop} (hstart : ∀ a, start a → P a)
    (hstep : ∀ a b, P a → step a b → P b) {b : α} {l : List α} (h : Route start step b l) :
    ∀ x ∈ l, P x := by
  induction h with
  | start hs =>
    intro x hx
    obtain rfl := List.mem_singleton.mp hx
    exact hstart x hs
  | step hr hs ih =>
    intro x hx
    rcases List.mem_cons.mp hx with rfl | hx
    · exact hstep _ _ (ih _ hr.mem_self) hs
    · exact ih x hx

/-- Routes go over into others along with their starts and steps. -/
theorem map {β : Type} {start' : β → Prop} {step' : β → β → Prop} (f : α → β)
    (hstart : ∀ a, start a → start' (f a)) (hstep : ∀ a b, step a b → step' (f a) (f b))
    {b : α} {l : List α} (h : Route start step b l) : Route start' step' (f b) (l.map f) := by
  induction h with
  | start hs => exact .start (hstart _ hs)
  | step _ hs ih => exact .step ih (hstep _ _ hs)

end Route

namespace Dominates

/-- A node that dominates another can be reached itself. -/
theorem reaches {a b : α} (h : Dominates start step a b) : Reaches start step a := by
  obtain ⟨⟨l, hl⟩, hall⟩ := h
  obtain ⟨r, hr, _⟩ := hl.exists_suffix (hall l hl)
  exact ⟨r, hr⟩

/-- Dominance is transitive: a route that goes through `b` goes through what every route to `b`
does. -/
theorem trans {a b c : α} (hab : Dominates start step a b) (hbc : Dominates start step b c) :
    Dominates start step a c := by
  refine ⟨hbc.1, fun l hl ↦ ?_⟩
  obtain ⟨r, hr, hsuffix⟩ := hl.exists_suffix (hbc.2 l hl)
  exact hsuffix.subset (hab.2 r hr)

/-- Two nodes that dominate each other are the same.  On a route without repetitions each of them
would have to stand before the other. -/
theorem antisymm {a b : α} (hab : Dominates start step a b) (hba : Dominates start step b a) :
    a = b := by
  obtain ⟨l, hl⟩ := hab.1
  obtain ⟨r, hr, hnodup, -⟩ := hl.exists_nodup
  obtain ⟨q, hq, hqr⟩ := hr.exists_suffix (hab.2 r hr)
  cases hr with
  | start _ =>
    exact List.mem_singleton.mp (hqr.subset hq.mem_self)
  | step hp _ =>
    rcases List.suffix_cons_iff.mp hqr with rfl | hqp
    · cases hq with
      | start _ => rfl
      | step _ _ => rfl
    · exact absurd (hqp.subset (hba.2 q hq)) (List.nodup_cons.mp hnodup).1

/-- What dominates a node, other than itself, dominates every node that has a step to it. -/
theorem of_step {a p b : α} (h : Dominates start step a b) (hne : a ≠ b)
    (hp : Reaches start step p) (hs : step p b) : Dominates start step a p := by
  refine ⟨hp, fun l hl ↦ ?_⟩
  rcases List.mem_cons.mp (h.2 _ (hl.step hs)) with rfl | hmem
  · exact absurd rfl hne
  · exact hmem

end Dominates

end Routes

namespace Function

def IsEntry (f : Function) (a : Reg) : Prop := ∃ b, f.blocks.head? = some b ∧ b.label = a

/-- Control may pass from `a` to `b`: the last block labelled `a` branches to `b`, and the function
has a block labelled `b`. -/
def Passes (f : Function) (a b : Reg) : Prop :=
  ∃ before block after, f.blocks = before ++ block :: after ∧ block.label = a ∧
    (∀ later ∈ after, later.label ≠ a) ∧ b ∈ block.successors ∧ b ∈ f.labels

abbrev Path (f : Function) : Reg → List Reg → Prop := Route f.IsEntry f.Passes

/-- The last block with a label decides the targets that the table of edges has for it. -/
theorem mem_targets_edges_iff (f : Function) (a b : Reg) :
    b ∈ f.edges.targets a ↔ f.Passes a b := by
  have key : b ∈ f.edges.targets a ↔ ∃ ts, f.edges.lookup a = some ts ∧ b ∈ ts := by
    unfold Edges.targets
    cases f.edges.lookup a <;> simp
  rw [key]
  constructor
  · rintro ⟨ts, hts, hb⟩
    obtain ⟨l₁, l₂, hedges, hl₁⟩ := List.lookup_eq_some_iff.mp hts
    -- what stands before the entry in the table comes after the block in the function
    have hmap := congrArg List.reverse hedges
    rw [edges, List.reverse_reverse, List.reverse_append, List.reverse_cons, List.append_assoc,
      List.singleton_append] at hmap
    obtain ⟨before, rest, hblocks, -, hrest⟩ := List.map_eq_append_iff.mp hmap
    obtain ⟨block, after, rfl, hblock, hafter⟩ := List.map_eq_cons_iff.mp hrest
    obtain ⟨rfl, rfl⟩ := Prod.mk.inj hblock
    obtain ⟨hsucc, hlabel⟩ := List.mem_filter.mp hb
    refine ⟨before, block, after, hblocks, rfl, fun later hlater ↦ ?_, hsucc, by simpa using hlabel⟩
    have hmem := List.mem_map_of_mem (f := fun b : Block ↦
      (b.label, b.successors.filter (f.labels.contains ·))) hlater
    rw [hafter, List.mem_reverse] at hmem
    exact (bne_iff_ne.mp (hl₁ _ hmem)).symm
  · rintro ⟨before, block, after, hblocks, rfl, hafter, hsucc, hlabel⟩
    refine ⟨block.successors.filter (f.labels.contains ·), List.lookup_eq_some_iff.mpr
      ⟨(after.map fun b ↦ (b.label, b.successors.filter (f.labels.contains ·))).reverse,
        (before.map fun b ↦ (b.label, b.successors.filter (f.labels.contains ·))).reverse, ?_, ?_⟩,
      List.mem_filter.mpr ⟨hsucc, by simpa using hlabel⟩⟩
    · rw [edges]
      conv_lhs => rw [hblocks]
      simp
    · intro p hp
      obtain ⟨later, hlater, rfl⟩ := List.mem_map.mp (List.mem_reverse.mp hp)
      exact bne_iff_ne.mpr (hafter later hlater).symm

end Function

end SpirvText
