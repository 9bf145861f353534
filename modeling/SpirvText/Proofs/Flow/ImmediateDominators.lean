import SpirvText.Proofs.Flow.DominatorTree

/-!
# Immediate dominators

The immediate dominator of a node is the last of the nodes that all routes to it have in common, the
node itself apart: whatever else dominates the node dominates this one too.  Dominance is
antisymmetric, so there is at most one.  Once the rounds have come to rest the table of dominators
has it for every position but the entry, because nothing that dominates a position is left out of
the way up from its entry in the table (`Idoms.Invariant.sound`).
-/

namespace SpirvText

section Routes

variable {α : Type} {start : α → Prop} {step : α → α → Prop} {b d d' : α}

/-- `d` dominates `b`, and is itself dominated by all else that does. -/
structure ImmediatelyDominates (start : α → Prop) (step : α → α → Prop) (d b : α) : Prop where
  dominates : Dominates start step d b
  ne : d ≠ b
  last : ∀ a, a ≠ b → Dominates start step a b → Dominates start step a d

/-- There is one immediate dominator at most. -/
theorem ImmediatelyDominates.unique (h : ImmediatelyDominates start step d b)
    (h' : ImmediatelyDominates start step d' b) : d = d' :=
  (h'.last d h.ne h.dominates).antisymm (h.last d' h'.ne h'.dominates)

/-- Only a start dominates itself alone. -/
theorem ImmediatelyDominates.not_start (h : ImmediatelyDominates start step d b) : ¬ start b := by
  intro hb
  exact h.ne (List.mem_singleton.mp (h.dominates.2 [b] (.start hb)))

end Routes

/-- The table has the immediate dominators of positions. -/
theorem Idoms.Invariant.immediatelyDominates {preds : Array (List Nat)} {idoms : Idoms}
    (hn : Numbered preds) {k : Nat} (h : Invariant preds (fun _ ↦ k) idoms) (hk : preds.size ≤ k)
    {i : Nat} (hi : i < preds.size) {d : { d : Nat // d < i }} (hup : idoms.up? i = some d) :
    ImmediatelyDominates (· = 0) (Steps preds) d.1 i where
  dominates := by
    apply (h.mem_ancestors_iff hn hk hi).mp
    rw [ancestors_of_up? hup]
    exact .tail _ (mem_ancestors_self _ _)
  ne := d.2.ne
  last := by
    intro a hne ha
    exact h.sound i d.1 a (Nat.zero_lt_of_lt d.2) (getElem?_of_up? hup) ha hne

namespace FlowGraph

variable {g : FlowGraph} {b d : Reg}

/-- Immediate dominators of positions are those of their labels. -/
theorem immediatelyDominates_of_positions {i j : Nat} (hi : g.order[i]? = some d)
    (hj : g.order[j]? = some b)
    (h : ImmediatelyDominates (· = 0) (Idoms.Steps (g.predecessors g.order)) i j) :
    ImmediatelyDominates (· = g.entry) g.Leads d b where
  dominates := (posDominates_iff hi hj).mp h.dominates
  ne := by
    rintro rfl
    exact h.ne (order_inj hi hj)
  last := by
    intro a hne ha
    obtain ⟨k, hk⟩ := exists_getElem?_order ha.reaches
    apply (posDominates_iff hk hi).mp
    apply h.last k
    · rintro rfl
      exact hne (Option.some.inj (hk.symm.trans hj))
    · exact (posDominates_iff hk hj).mpr ha

theorem immediatelyDominates_of_idom? (h : g.dominatorTree.idom? b = some d) :
    ImmediatelyDominates (· = g.entry) g.Leads d b := by
  obtain ⟨i, hi⟩ : ∃ i : Nat, g.order[i]? = some b := by
    by_contra hb
    obtain ⟨-, hnone⟩ := (grown_dominatorTree g).absent b fun i _ hi ↦ hb ⟨i, hi⟩
    cases hnone.symm.trans h
  rw [idom?_of_getElem? hi] at h
  obtain ⟨up, hup, hd⟩ := Option.bind_eq_some_iff.mp h
  apply immediatelyDominates_of_positions hd hi
  exact (invariant_table g).immediatelyDominates (numbered_predecessors g)
    (size_predecessors g g.order).le (lt_size_predecessors hi) hup

/-- Every label that can be reached has an immediate dominator, the entry apart. -/
theorem exists_idom? (hb : Reaches (· = g.entry) g.Leads b) (hne : b ≠ g.entry) :
    ∃ d, g.dominatorTree.idom? b = some d := by
  obtain ⟨i, hi⟩ := exists_getElem?_order hb
  have hpos : 0 < i := by
    apply Nat.pos_of_ne_zero
    rintro rfl
    exact hne (Option.some.inj (hi.symm.trans (order_zero g)))
  obtain ⟨up, parent, hup, hparent⟩ := exists_up?_table hi hpos
  refine ⟨parent, ?_⟩
  rw [idom?_of_getElem? hi, hup]
  exact hparent

/-- The tree holds the immediate dominators and nothing else. -/
theorem idom?_dominatorTree_iff :
    g.dominatorTree.idom? b = some d ↔ ImmediatelyDominates (· = g.entry) g.Leads d b := by
  constructor
  · exact immediatelyDominates_of_idom?
  · intro h
    obtain ⟨d', hd'⟩ := exists_idom? h.dominates.1 h.not_start
    rw [hd', (immediatelyDominates_of_idom? hd').unique h]

/-- Only the entry, and what cannot be reached, has no parent in the tree. -/
theorem idom?_dominatorTree_eq_none_iff :
    g.dominatorTree.idom? b = none ↔ ¬ Reaches (· = g.entry) g.Leads b ∨ b = g.entry := by
  constructor
  · intro hnone
    by_contra h
    rw [not_or, not_not] at h
    obtain ⟨d, hd⟩ := exists_idom? h.1 h.2
    cases hnone.symm.trans hd
  · intro h
    apply Option.eq_none_iff_forall_ne_some.mpr
    intro d hd
    have hidom := immediatelyDominates_of_idom? hd
    rcases h with h | h
    · exact h hidom.dominates.1
    · exact hidom.not_start h

/-- The tree holds the labels that can be reached. -/
theorem isReachable_dominatorTree_iff :
    g.dominatorTree.isReachable b = true ↔ Reaches (· = g.entry) g.Leads b := by
  rw [DominatorTree.isReachable, Option.isSome_iff_exists]
  constructor
  · rintro ⟨level, hlevel⟩
    obtain ⟨i, hi, -⟩ := exists_getElem?_of_level? hlevel
    rw [getElem?_order] at hi
    exact (mem_reversePostorder_iff g b).mp (List.mem_of_getElem? hi)
  · intro h
    obtain ⟨i, hi⟩ := exists_getElem?_order h
    exact ⟨_, level?_of_getElem? hi⟩

end FlowGraph

namespace Function

/-- What the tree of a graph knows, the tree of a function does; that of a declaration is empty. -/
theorem idom?_dominatorTree (f : Function) (b : Reg) :
    (f.dominatorTree.isReachable b = true ↔ Reaches f.IsEntry f.Passes b) ∧
    (∀ d, f.dominatorTree.idom? b = some d ↔ ImmediatelyDominates f.IsEntry f.Passes d b) ∧
    (f.dominatorTree.idom? b = none ↔ ¬ Reaches f.IsEntry f.Passes b ∨ f.IsEntry b) := by
  cases hg : f.flowGraph? with
  | none =>
    have hblocks := flowGraph?_eq_none_iff.mp hg
    have hnot := not_reaches_of_blocks_eq_nil hblocks b
    have hidom : DominatorTree.idom? {} b = none := rfl
    have hreach : DominatorTree.isReachable {} b = false := rfl
    rw [dominatorTree_of_blocks_eq_nil hblocks, hidom, hreach]
    refine ⟨iff_of_false Bool.false_ne_true hnot, fun d ↦ iff_of_false ?_ ?_,
      iff_of_true rfl (.inl hnot)⟩
    · intro h
      cases h
    · exact fun h ↦ hnot h.dominates.1
  | some g =>
    rw [dominatorTree_of_flowGraph? hg, isEntry_eq_of_flowGraph? hg, passes_eq_of_flowGraph? hg]
    exact ⟨FlowGraph.isReachable_dominatorTree_iff, fun _ ↦ FlowGraph.idom?_dominatorTree_iff,
      FlowGraph.idom?_dominatorTree_eq_none_iff⟩

/-- The dominator tree of a function knows what can be reached, and the immediate dominator of each
label that can, the entry apart: the label, other than the one in question, that is on every path to
it, and to which every other such label is on every path.  All other labels have none. -/
theorem idom_iff_last_on_every_path (f : Function) (b : Reg) :
    (f.dominatorTree.isReachable b = true ↔ ∃ path, f.Path b path) ∧
    (∀ d, f.dominatorTree.idom? b = some d ↔
      (∃ path, f.Path b path) ∧ ¬ f.IsEntry b ∧ d ≠ b ∧ (∀ path, f.Path b path → d ∈ path) ∧
        ∀ a, a ≠ b → (∀ path, f.Path b path → a ∈ path) → ∀ path, f.Path d path → a ∈ path) ∧
    (f.dominatorTree.idom? b = none ↔ (¬ ∃ path, f.Path b path) ∨ f.IsEntry b) := by
  obtain ⟨hreach, hidom, hnone⟩ := f.idom?_dominatorTree b
  refine ⟨hreach, fun d ↦ ?_, hnone⟩
  rw [hidom]
  constructor
  · intro h
    refine ⟨h.dominates.1, h.not_start, h.ne, h.dominates.2, fun a hne ha ↦ ?_⟩
    exact (h.last a hne ⟨h.dominates.1, ha⟩).2
  · rintro ⟨hb, -, hne, hd, hlast⟩
    have hdom : Dominates f.IsEntry f.Passes d b := ⟨hb, hd⟩
    exact ⟨hdom, hne, fun a hne' ha ↦ ⟨hdom.reaches, hlast a hne' ha.2⟩⟩

end Function

end SpirvText
