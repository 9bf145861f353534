import SpirvText.Proofs.Flow.Postorder

/-!
# Depth first

Reverse postorder has the labels that can be reached, each once, the entry first and every other
label after one that leads to it.  A walk breadth first would give all of that too.  What tells the
depth-first walk apart is the edges that lead back in its order: it leaves a label only when all its
targets have been left, except for those that it is still below, and from these there is a way to
the label.  So an edge leads on in the order, or it closes a cycle.
-/

namespace SpirvText

abbrev Edges.Leads (edges : Edges) (a b : Reg) : Prop :=
  Reaches (· = a) (fun x y ↦ y ∈ edges.targets x) b

namespace Edges.Leads

variable {edges : Edges} {a b c : Reg}

theorem refl (edges : Edges) (a : Reg) : edges.Leads a a := ⟨[a], .start rfl⟩

theorem step (h : edges.Leads a b) (hc : c ∈ edges.targets b) : edges.Leads a c := by
  obtain ⟨l, hl⟩ := h
  exact ⟨c :: l, hl.step hc⟩

end Edges.Leads

namespace FlowGraph

variable {g : FlowGraph} {label target : Reg} {targets : List Reg}
  {path : List (Reg × List Reg)} {done all : List Reg}

/-- What a walk keeps true by going depth first. -/
structure DepthFirst (edges : Edges) (path : List (Reg × List Reg)) (done : List Reg) : Prop where
  /-- From each label on the path there is a way to those further in. -/
  inward : path.Pairwise fun inner outer ↦ edges.Leads outer.1 inner.1
  /-- Targets of a label that the walk has left come after it, or there is a way back from them. -/
  onward : ∀ before a after, done = before ++ a :: after →
    ∀ t ∈ edges.targets a, t ∈ after ∨ edges.Leads t a

/-- Nothing has been left when the walk begins. -/
theorem depthFirst_start (edges : Edges) (entry : Reg) :
    DepthFirst edges [(entry, edges.targets entry)] [] where
  inward := List.pairwise_singleton _ _
  onward before a after h := by simp at h

/-- From a label that the walk has come to and not left there is a way to where it stands. -/
theorem DepthFirst.leads_of_mem_path (h : DepthFirst g.edges ((label, targets) :: path) done)
    {t : Reg} (ht : t ∈ ((label, targets) :: path).map (·.1)) : g.edges.Leads t label := by
  obtain ⟨e, he, rfl⟩ := List.mem_map.mp ht
  rcases List.mem_cons.mp he with rfl | he
  · exact .refl _ _
  · exact List.rel_of_pairwise_cons h.inward he

/-- A label without any more targets is left for good. -/
theorem DepthFirst.leave (h : DepthFirst g.edges ((label, []) :: path) done)
    (hinv : WalkInvariant g ((label, []) :: path) done) :
    DepthFirst g.edges path (label :: done) := by
  refine ⟨h.inward.of_cons, fun before a after heq t ht ↦ ?_⟩
  cases before with
  | nil =>
    -- the label that is left now: what has been come to is on the path or has been left
    obtain ⟨rfl, rfl⟩ := List.cons.inj heq
    have hseen := (hinv.onPath _ List.mem_cons_self t ht).resolve_left List.not_mem_nil
    rcases mem_seen.mp hseen with hpath | hdone
    · exact .inr (h.leads_of_mem_path hpath)
    · exact .inl hdone
  | cons first before =>
    exact h.onward before a after (List.cons.inj heq).2 t ht

/-- A target that has been come to before is passed over. -/
theorem DepthFirst.pass (h : DepthFirst g.edges ((label, target :: targets) :: path) done) :
    DepthFirst g.edges ((label, targets) :: path) done :=
  ⟨List.pairwise_cons.mpr (List.pairwise_cons.mp h.inward), h.onward⟩

/-- A target that has not been come to is entered, and the label stays on the path. -/
theorem DepthFirst.enter (h : DepthFirst g.edges ((label, target :: targets) :: path) done)
    (hinv : WalkInvariant g ((label, target :: targets) :: path) done) :
    DepthFirst g.edges ((target, g.edges.targets target) :: (label, targets) :: path) done := by
  refine ⟨List.pairwise_cons.mpr ⟨fun e he ↦ ?_, h.pass.inward⟩, h.onward⟩
  have hlabel : g.edges.Leads e.1 label := h.pass.leads_of_mem_path (List.mem_map_of_mem he)
  exact hlabel.step (hinv.pending _ List.mem_cons_self List.mem_cons_self)

/-- What every step keeps true is true in the end. -/
theorem Walks.depthFirst (h : Walks g.edges path done all) (hinv : WalkInvariant g path done)
    (hdepth : DepthFirst g.edges path done) : DepthFirst g.edges [] all := by
  induction h with
  | stop => exact hdepth
  | leave _ ih => exact ih hinv.leave (hdepth.leave hinv)
  | pass hmem _ ih => exact ih (hinv.pass hmem) hdepth.pass
  | enter hmem _ ih => exact ih (hinv.enter hmem) (hdepth.enter hinv)

theorem depthFirst_reversePostorder (g : FlowGraph) :
    DepthFirst g.edges [] g.reversePostorder :=
  (walks_reversePostorder g).depthFirst (walkInvariant_start g) (depthFirst_start _ _)

/-- A label other than the entry comes after one that leads to it. -/
theorem Ordered.exists_predecessor {order before after : List Reg} {a : Reg} (h : Ordered g order)
    (heq : order = before ++ a :: after) (ha : a ≠ g.entry) :
    ∃ p ∈ before, a ∈ g.edges.targets p := by
  refine h.preceded before a after heq ?_
  rintro rfl
  have hhead := h.head
  rw [heq] at hhead
  exact ha (Option.some.inj hhead)

/-- Whatever the entry and the edges are: no label is there twice in reverse postorder, the labels
are those that a way leads to from the entry, the entry is the first of them, every other one comes
after a label that leads to it, and every edge leads on unless it closes a cycle. -/
theorem reversePostorder_depth_first (g : FlowGraph) :
    g.reversePostorder.Nodup ∧
      (∀ a, a ∈ g.reversePostorder ↔ g.edges.Leads g.entry a) ∧
      g.reversePostorder.head? = some g.entry ∧
      ∀ before a after, g.reversePostorder = before ++ a :: after →
        (a ≠ g.entry → ∃ p ∈ before, a ∈ g.edges.targets p) ∧
          ∀ t ∈ g.edges.targets a, t ∈ after ∨ g.edges.Leads t a := by
  have hordered := ordered_reversePostorder g
  refine ⟨hordered.nodup, mem_reversePostorder_iff g, hordered.head, fun before a after heq ↦ ?_⟩
  exact ⟨hordered.exists_predecessor heq,
    (depthFirst_reversePostorder g).onward before a after heq⟩

-- breadth first, the label `2` would come before `3`, which leads to it
example : reversePostorder ⟨⟨0⟩, [(⟨0⟩, [⟨1⟩, ⟨2⟩]), (⟨1⟩, [⟨3⟩]), (⟨3⟩, [⟨2⟩, ⟨1⟩])]⟩ =
    [⟨0⟩, ⟨1⟩, ⟨3⟩, ⟨2⟩] := by decide

end FlowGraph

end SpirvText
