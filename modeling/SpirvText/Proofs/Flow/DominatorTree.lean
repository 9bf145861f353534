import SpirvText.Proofs.Flow.Idoms
import SpirvText.Proofs.Flow.Postorder

/-!
# The dominator tree

The rounds work on positions in reverse postorder; here their result is carried over to labels.  A
route of positions is a route of labels, and the other way round, because the order holds every
label that can be reached, and none of them twice.

The tree keeps immediate dominators and depths by label.  A label is hung into it after its
dominator, whose depth is therefore known (`FlowGraph.grown_grow`), and going up from a label leads
along the ancestors of its position (`FlowGraph.climb?_dominatorTree`).
-/

namespace SpirvText

namespace FlowGraph

variable {g : FlowGraph}

/-- Control passes to the targets that the table has. -/
abbrev Leads (g : FlowGraph) (a b : Reg) : Prop := b ∈ g.edges.targets a

def order (g : FlowGraph) : Array Reg := g.reversePostorder.toArray

theorem size_predecessors (g : FlowGraph) (order : Array Reg) :
    (g.predecessors order).size = order.size := by
  simp [predecessors]

/-- The predecessors of a position are the positions of the labels that lead to its label. -/
theorem steps_predecessors_iff {order : Array Reg} {p i : Nat} :
    Idoms.Steps (g.predecessors order) p i ↔
      ∃ a b, order[p]? = some a ∧ order[i]? = some b ∧ g.Leads a b := by
  unfold Idoms.Steps predecessors
  rw [Array.getElem?_map]
  cases hi : order[i]? with
  | none => simp
  | some b =>
    cases hp : order[p]? with
    | none =>
      have hp' : ¬ p < order.size := by simpa using hp
      simp [hp']
    | some a =>
      obtain ⟨hp', rfl⟩ := Array.getElem?_eq_some_iff.mp hp
      simp [hp', Leads, List.count_eq_zero]

theorem getElem?_order (g : FlowGraph) (i : Nat) : g.order[i]? = g.reversePostorder[i]? := by
  simp [order]

/-- The entry is at position zero. -/
theorem order_zero (g : FlowGraph) : g.order[0]? = some g.entry := by
  rw [getElem?_order, ← List.head?_eq_getElem?]
  exact (ordered_reversePostorder g).head

/-- No label is in the order twice. -/
theorem order_inj {i j : Nat} {a : Reg} (hi : g.order[i]? = some a) (hj : g.order[j]? = some a) :
    i = j := by
  rw [getElem?_order] at hi hj
  obtain ⟨hlt, -⟩ := List.getElem?_eq_some_iff.mp hi
  exact (List.getElem?_inj hlt (ordered_reversePostorder g).nodup).mp (hi.trans hj.symm)

/-- In reverse postorder every position but the entry has a predecessor before it. -/
theorem numbered_predecessors (g : FlowGraph) : Idoms.Numbered (g.predecessors g.order) where
  pos := by
    rw [size_predecessors]
    exact (Array.getElem?_eq_some_iff.mp (order_zero g)).1
  bound := by
    intro i p hs
    obtain ⟨a, b, ha, -, -⟩ := steps_predecessors_iff.mp hs
    rw [size_predecessors]
    exact (Array.getElem?_eq_some_iff.mp ha).1
  earlier := by
    intro i hpos hi
    rw [size_predecessors] at hi
    have hlen : i < g.reversePostorder.length := by simpa [order] using hi
    have hcut := (List.take_append_drop i g.reversePostorder).symm
    rw [List.drop_eq_getElem_cons hlen] at hcut
    have hne : g.reversePostorder.take i ≠ [] := by
      intro hnil
      have := congrArg List.length hnil
      rw [List.length_take, List.length_nil] at this
      omega
    obtain ⟨a, ha, hlead⟩ := (ordered_reversePostorder g).preceded _ _ _ hcut hne
    obtain ⟨p, hp, hget⟩ := List.mem_take_iff_getElem.mp ha
    refine ⟨p, by omega, steps_predecessors_iff.mpr ⟨a, g.reversePostorder[i], ?_, ?_, hlead⟩⟩
    · rw [getElem?_order, List.getElem?_eq_some_iff]
      exact ⟨by omega, hget⟩
    · rw [getElem?_order, List.getElem?_eq_getElem hlen]

def labelAt (g : FlowGraph) (i : Nat) : Reg := g.order[i]?.getD g.entry

theorem labelAt_of_getElem? {i : Nat} {a : Reg} (h : g.order[i]? = some a) : g.labelAt i = a := by
  simp [labelAt, h]

/-- A route of positions is a route of labels. -/
theorem route_labelAt {i : Nat} {l : List Nat}
    (h : Idoms.PosRoute (g.predecessors g.order) i l) :
    Route (· = g.entry) g.Leads (g.labelAt i) (l.map g.labelAt) := by
  refine h.map g.labelAt ?_ ?_
  · rintro _ rfl
    exact labelAt_of_getElem? (order_zero g)
  · intro p i hs
    obtain ⟨a, b, ha, hb, hlead⟩ := steps_predecessors_iff.mp hs
    rwa [labelAt_of_getElem? ha, labelAt_of_getElem? hb]

/-- A route of labels is one of positions. -/
theorem exists_posRoute {b : Reg} {l : List Reg} (h : Route (· = g.entry) g.Leads b l) :
    ∃ i r, g.order[i]? = some b ∧ Idoms.PosRoute (g.predecessors g.order) i r ∧
      r.map g.labelAt = l := by
  induction h with
  | start hs =>
    subst hs
    exact ⟨0, [0], order_zero g, .start rfl, by simp [labelAt_of_getElem? (order_zero g)]⟩
  | @step a b l hr hs ih =>
    obtain ⟨p, r, hp, hroute, rfl⟩ := ih
    have hmem : b ∈ g.reversePostorder := by
      refine mem_reversePostorder_of_mem_targets ?_ hs
      rw [getElem?_order] at hp
      exact List.mem_of_getElem? hp
    obtain ⟨i, hi⟩ := List.mem_iff_getElem?.mp hmem
    rw [← getElem?_order] at hi
    refine ⟨i, i :: r, hi, hroute.step (steps_predecessors_iff.mpr ⟨a, b, hp, hi, hs⟩), ?_⟩
    rw [List.map_cons, labelAt_of_getElem? hi]

/-- Positions dominate each other as their labels do. -/
theorem posDominates_iff {i j : Nat} {a b : Reg} (hi : g.order[i]? = some a)
    (hj : g.order[j]? = some b) :
    Idoms.PosDominates (g.predecessors g.order) i j ↔ Dominates (· = g.entry) g.Leads a b := by
  constructor
  · rintro ⟨⟨r, hr⟩, hall⟩
    refine ⟨⟨_, labelAt_of_getElem? hj ▸ route_labelAt hr⟩, fun l hl ↦ ?_⟩
    obtain ⟨j', r', hj', hr', rfl⟩ := exists_posRoute hl
    obtain rfl := order_inj hj hj'
    exact List.mem_map.mpr ⟨i, hall r' hr', labelAt_of_getElem? hi⟩
  · rintro ⟨⟨l, hl⟩, hall⟩
    obtain ⟨j', r', hj', hr', -⟩ := exists_posRoute hl
    obtain rfl := order_inj hj hj'
    refine ⟨⟨r', hr'⟩, fun r hr ↦ ?_⟩
    have hmem := hall _ (labelAt_of_getElem? hj ▸ route_labelAt hr)
    obtain ⟨x, hx, hlabel⟩ := List.mem_map.mp hmem
    have hlt := (numbered_predecessors g).lt_of_route hr x hx
    rw [size_predecessors] at hlt
    have hget : g.order[x]? = some (g.labelAt x) := by
      rw [labelAt, Array.getElem?_eq_getElem hlt, Option.getD_some]
    rw [hlabel] at hget
    exact order_inj hi hget ▸ hx

/-- The table of dominators of a graph is found, and takes all routes into account. -/
theorem exists_idoms (g : FlowGraph) :
    ∃ idoms, g.idoms? g.order = some idoms ∧
      Idoms.Invariant (g.predecessors g.order) (fun _ ↦ g.order.size) idoms := by
  obtain ⟨idoms, hidoms, h⟩ := Idoms.settle?_initialIdoms (numbered_predecessors g)
  rw [size_predecessors] at hidoms h
  exact ⟨idoms, hidoms, h⟩

/-- The table that the rounds come to rest at. -/
def table (g : FlowGraph) : Idoms := (g.idoms? g.order).getD #[]

/-- The table takes all routes into account, for none without a detour has more nodes than there are
positions. -/
theorem invariant_table (g : FlowGraph) :
    Idoms.Invariant (g.predecessors g.order) (fun _ ↦ g.order.size) g.table := by
  obtain ⟨idoms, hidoms, h⟩ := exists_idoms g
  rwa [table, hidoms, Option.getD_some]

/-- A label that can be reached has a position. -/
theorem exists_getElem?_order {a : Reg} (h : Reaches (· = g.entry) g.Leads a) :
    ∃ i : Nat, g.order[i]? = some a := by
  obtain ⟨l, hl⟩ := h
  obtain ⟨i, -, hi, -, -⟩ := exists_posRoute hl
  exact ⟨i, hi⟩

theorem lt_size_predecessors {i : Nat} {a : Reg} (h : g.order[i]? = some a) :
    i < (g.predecessors g.order).size := by
  rw [size_predecessors]
  exact (Array.getElem?_eq_some_iff.mp h).1

/-- Every position but that of the entry has a dominator before it. -/
theorem exists_up?_table {i : Nat} {a : Reg} (hi : g.order[i]? = some a) (hpos : 0 < i) :
    ∃ (d : { d : Nat // d < i }) (parent : Reg), g.table.up? i = some d ∧
      g.order[d.1]? = some parent := by
  have hinv := invariant_table g
  have hknown := hinv.isKnown (numbered_predecessors g) (size_predecessors g g.order).le
    (lt_size_predecessors hi)
  obtain ⟨d, hd, -⟩ := hinv.exists_up? hknown hpos
  have hlt : d.1 < g.order.size := d.2.trans (Array.getElem?_eq_some_iff.mp hi).1
  exact ⟨d, _, hd, Array.getElem?_eq_getElem hlt⟩

/-! ## From positions to labels -/

/-- A tree that has the labels before position `k`, with their dominators and depths. -/
structure Grown (g : FlowGraph) (k : Nat) (t : DominatorTree) : Prop where
  entry : t.entry? = some g.entry
  level : ∀ i b, g.order[i]? = some b → i < k → t.level? b = some (g.table.depth i)
  idom : ∀ i b, g.order[i]? = some b → i < k →
    t.idom? b = (g.table.up? i).bind fun d ↦ g.order[d.1]?
  absent : ∀ b, (∀ i < k, g.order[i]? ≠ some b) → t.level? b = none ∧ t.idom? b = none

/-- The tree begins with the entry, at level zero. -/
theorem grown_one (g : FlowGraph) :
    Grown g 1 { entry? := some g.entry, levels := [(g.entry, 0)] } where
  entry := rfl
  level := by
    intro i b hi hlt
    obtain rfl := Nat.lt_one_iff.mp hlt
    obtain rfl := Option.some.inj (hi.symm.trans (order_zero g))
    rw [Idoms.depth_zero]
    exact List.lookup_cons_self
  idom := by
    intro i b hi hlt
    obtain rfl := Nat.lt_one_iff.mp hlt
    rw [Idoms.up?_zero]
    rfl
  absent := by
    intro b hb
    have hne : b ≠ g.entry := by
      rintro rfl
      exact hb 0 Nat.one_pos (order_zero g)
    exact ⟨by simp [DominatorTree.level?, List.lookup_cons, beq_false_of_ne hne], rfl⟩

/-- A label is hung one level below its dominator, which is in the tree already. -/
theorem Grown.attach_eq {k : Nat} {t : DominatorTree} (h : Grown g k t) {label parent : Reg}
    {d : { d : Nat // d < k }} (hlabel : g.order[k]? = some label)
    (hup : g.table.up? k = some d) (hparent : g.order[d.1]? = some parent) :
    t.attach g.order g.table k =
      { t with
        idoms := (label, parent) :: t.idoms
        levels := (label, g.table.depth k) :: t.levels } := by
  have hlevel : t.levels.lookup parent = some (g.table.depth d.1) :=
    h.level d.1 parent hparent d.2
  have hbound : g.table[k]?.join.bind (g.order[·]?) = some parent := by
    rw [Idoms.getElem?_of_up? hup]
    exact hparent
  rw [DominatorTree.attach, hlabel, hbound, Idoms.depth_of_up? hup]
  simp only [hlevel, Option.getD_some]

theorem Grown.attach {k : Nat} {t : DominatorTree} (h : Grown g k t) (hpos : 0 < k)
    (hk : k < g.order.size) : Grown g (k + 1) (t.attach g.order g.table k) := by
  obtain ⟨label, hlabel⟩ : ∃ label, g.order[k]? = some label :=
    ⟨_, Array.getElem?_eq_getElem hk⟩
  obtain ⟨d, parent, hup, hparent⟩ := exists_up?_table hlabel hpos
  have hother : ∀ i b, g.order[i]? = some b → i < k → b ≠ label := by
    rintro i _ hi hlt rfl
    exact hlt.ne (order_inj hi hlabel)
  rw [h.attach_eq hlabel hup hparent]
  refine ⟨h.entry, fun i b hi hlt ↦ ?_, fun i b hi hlt ↦ ?_, fun b hb ↦ ?_⟩
  · rcases Nat.lt_succ_iff_lt_or_eq.mp hlt with hlt | rfl
    · rw [← h.level i b hi hlt, DominatorTree.level?, List.lookup_cons,
        beq_false_of_ne (hother i b hi hlt)]
      rfl
    · obtain rfl := Option.some.inj (hi.symm.trans hlabel)
      exact List.lookup_cons_self
  · rcases Nat.lt_succ_iff_lt_or_eq.mp hlt with hlt | rfl
    · rw [← h.idom i b hi hlt, DominatorTree.idom?, List.lookup_cons,
        beq_false_of_ne (hother i b hi hlt)]
      rfl
    · obtain rfl := Option.some.inj (hi.symm.trans hlabel)
      rw [hup, Option.bind_some, hparent]
      exact List.lookup_cons_self
  · have hne : b ≠ label := by
      rintro rfl
      exact hb k (Nat.lt_succ_self k) hlabel
    obtain ⟨hlevel, hidom⟩ := h.absent b fun i hi ↦ hb i (Nat.lt_succ_of_lt hi)
    rw [← hlevel, ← hidom, DominatorTree.level?, DominatorTree.idom?, List.lookup_cons,
      List.lookup_cons, beq_false_of_ne hne]
    exact ⟨rfl, rfl⟩

/-- Hanging labels below their dominators makes a tree of those that have been taken. -/
theorem grown_grow (g : FlowGraph) {k : Nat} (hpos : 0 < k) (hk : k ≤ g.order.size) :
    Grown g k (.grow g.entry g.order g.table k) := by
  induction k, hpos using Nat.le_induction with
  | base => exact grown_one g
  | succ k hpos ih =>
    have hgrow : DominatorTree.grow g.entry g.order g.table (k + 1) =
        (DominatorTree.grow g.entry g.order g.table k).attach g.order g.table k := by
      obtain ⟨k, rfl⟩ := Nat.exists_eq_add_of_le' hpos
      rw [DominatorTree.grow, Nat.add_sub_cancel, List.range'_1_concat, List.foldl_concat,
        Nat.add_comm 1 k]
      rfl
    rw [hgrow]
    exact (ih (Nat.le_of_succ_le hk)).attach hpos hk

/-- The tree of a graph has all labels of the order, and no others. -/
theorem grown_dominatorTree (g : FlowGraph) : Grown g g.order.size g.dominatorTree :=
  grown_grow g (Array.getElem?_eq_some_iff.mp (order_zero g)).1 (Nat.le_refl _)

/-- The level of a label is the number of positions above its own. -/
theorem level?_of_getElem? {i : Nat} {b : Reg} (hi : g.order[i]? = some b) :
    g.dominatorTree.level? b = some (g.table.depth i) :=
  (grown_dominatorTree g).level i b hi (Array.getElem?_eq_some_iff.mp hi).1

/-- The parent of a label is the label at the position that the table has for it. -/
theorem idom?_of_getElem? {i : Nat} {b : Reg} (hi : g.order[i]? = some b) :
    g.dominatorTree.idom? b = (g.table.up? i).bind fun d ↦ g.order[d.1]? :=
  (grown_dominatorTree g).idom i b hi (Array.getElem?_eq_some_iff.mp hi).1

/-- What the tree knows has a position. -/
theorem exists_getElem?_of_level? {b : Reg} {level : Nat}
    (h : g.dominatorTree.level? b = some level) :
    ∃ i : Nat, g.order[i]? = some b ∧ level = g.table.depth i := by
  by_cases hb : ∃ i : Nat, g.order[i]? = some b
  · obtain ⟨i, hi⟩ := hb
    exact ⟨i, hi, Option.some.inj (h.symm.trans (level?_of_getElem? hi))⟩
  · obtain ⟨hnone, -⟩ := (grown_dominatorTree g).absent b fun i _ hi ↦ hb ⟨i, hi⟩
    cases hnone.symm.trans h

/-- Going up from a label leads along the ancestors of its position. -/
theorem climb?_dominatorTree {i : Nat} {b : Reg} (hi : g.order[i]? = some b) (n : Nat) :
    g.dominatorTree.climb? n b = (g.table.ancestors i)[n]?.bind (g.order[·]?) := by
  induction n generalizing i b with
  | zero =>
    rw [Idoms.ancestors]
    exact hi.symm
  | succ n ih =>
    rw [DominatorTree.climb?, idom?_of_getElem? hi]
    cases hup : g.table.up? i with
    | none =>
      rw [Idoms.ancestors_of_up?_none hup]
      rfl
    | some d =>
      have hlt : d.1 < g.order.size := d.2.trans (Array.getElem?_eq_some_iff.mp hi).1
      rw [Idoms.ancestors_of_up? hup, List.getElem?_cons_succ, Option.bind_some,
        Array.getElem?_eq_getElem hlt, Option.bind_some]
      exact ih (Array.getElem?_eq_getElem hlt)

/-- Labels dominate each other in the tree as the ancestors of their positions say. -/
theorem dominates_iff_mem_ancestors (g : FlowGraph) (a b : Reg) :
    g.dominatorTree.dominates a b = true ↔ a = b ∨ ∃ i j : Nat, g.order[i]? = some a ∧
      g.order[j]? = some b ∧ i ∈ g.table.ancestors j := by
  rw [DominatorTree.dominates, Bool.or_eq_true, beq_iff_eq]
  constructor
  · refine Or.imp_right fun h ↦ ?_
    split at h
    · next la lb ha hb =>
      obtain ⟨i, hi, rfl⟩ := exists_getElem?_of_level? ha
      obtain ⟨j, hj, rfl⟩ := exists_getElem?_of_level? hb
      obtain ⟨-, hclimb⟩ := Bool.and_eq_true_iff.mp h
      rw [beq_iff_eq, climb?_dominatorTree hj] at hclimb
      obtain ⟨k, hmem, hk⟩ := Option.bind_eq_some_iff.mp hclimb
      obtain rfl := order_inj hi hk
      exact ⟨i, j, hi, hj, List.mem_of_getElem? hmem⟩
    · cases h
  · rintro (rfl | ⟨i, j, hi, hj, hmem⟩)
    · exact .inl rfl
    · rcases eq_or_ne i j with rfl | hne
      · exact .inl (Option.some.inj (hi.symm.trans hj))
      · right
        rw [level?_of_getElem? hi, level?_of_getElem? hj]
        refine Bool.and_eq_true_iff.mpr
          ⟨decide_eq_true (Idoms.depth_lt_of_mem_ancestors hmem hne), ?_⟩
        rw [beq_iff_eq, climb?_dominatorTree hj, Idoms.getElem?_ancestors_of_mem hmem]
        exact hi

/-- The tree of a graph answers whether a label dominates another. -/
theorem dominates_dominatorTree_iff (g : FlowGraph) (a b : Reg) :
    g.dominatorTree.dominates a b = true ↔ a = b ∨ Dominates (· = g.entry) g.Leads a b := by
  have hmem : ∀ {i j : Nat}, g.order[i]? = some a → g.order[j]? = some b →
      (i ∈ g.table.ancestors j ↔ Dominates (· = g.entry) g.Leads a b) := by
    intro i j hi hj
    rw [← posDominates_iff hi hj]
    exact (invariant_table g).mem_ancestors_iff (numbered_predecessors g)
      (size_predecessors g g.order).le (lt_size_predecessors hj)
  rw [dominates_iff_mem_ancestors]
  refine or_congr_right ⟨?_, fun h ↦ ?_⟩
  · rintro ⟨i, j, hi, hj, h⟩
    exact (hmem hi hj).mp h
  · obtain ⟨i, hi⟩ := exists_getElem?_order h.reaches
    obtain ⟨j, hj⟩ := exists_getElem?_order h.1
    exact ⟨i, j, hi, hj, (hmem hi hj).mpr h⟩

end FlowGraph

namespace Function

/-- Of a function with a body, the entry and the steps are those of its graph. -/
theorem isEntry_iff_of_flowGraph? {f : Function} {g : FlowGraph} (h : f.flowGraph? = some g)
    (a : Reg) : f.IsEntry a ↔ a = g.entry := by
  obtain ⟨b, hb, rfl⟩ := Option.map_eq_some_iff.mp h
  constructor
  · rintro ⟨b', hb', rfl⟩
    rw [Option.some.inj (hb.symm.trans hb')]
  · rintro rfl
    exact ⟨b, hb, rfl⟩

/-- Control passes along the edges of the graph of a function. -/
theorem passes_iff_of_flowGraph? {f : Function} {g : FlowGraph} (h : f.flowGraph? = some g)
    (a b : Reg) : f.Passes a b ↔ g.Leads a b := by
  obtain ⟨_, _, rfl⟩ := Option.map_eq_some_iff.mp h
  exact (mem_targets_edges_iff f a b).symm

/-- Without a body there are no routes. -/
theorem not_reaches_of_blocks_eq_nil {f : Function} (h : f.blocks = []) (b : Reg) :
    ¬ Reaches f.IsEntry f.Passes b := by
  rintro ⟨l, hl⟩
  refine (hl.forall_mem (P := fun _ ↦ False) ?_ fun _ _ hf _ ↦ hf) b hl.mem_self
  rintro a ⟨_, hhead, -⟩
  rw [h] at hhead
  cases hhead

theorem isEntry_eq_of_flowGraph? {f : Function} {g : FlowGraph} (h : f.flowGraph? = some g) :
    f.IsEntry = (· = g.entry) :=
  funext fun a ↦ propext (isEntry_iff_of_flowGraph? h a)

theorem passes_eq_of_flowGraph? {f : Function} {g : FlowGraph} (h : f.flowGraph? = some g) :
    f.Passes = g.Leads :=
  funext fun a ↦ funext fun b ↦ propext (passes_iff_of_flowGraph? h a b)

theorem dominatorTree_of_flowGraph? {f : Function} {g : FlowGraph} (h : f.flowGraph? = some g) :
    f.dominatorTree = g.dominatorTree := by
  rw [dominatorTree, h]

/-- Only a declaration has no graph. -/
theorem flowGraph?_eq_none_iff {f : Function} : f.flowGraph? = none ↔ f.blocks = [] := by
  simp [flowGraph?, entry?]

theorem dominatorTree_of_blocks_eq_nil {f : Function} (h : f.blocks = []) :
    f.dominatorTree = {} := by
  rw [dominatorTree, flowGraph?_eq_none_iff.mpr h]

/-- The dominator tree of a function answers whether a label dominates another. -/
theorem dominates_dominatorTree_iff (f : Function) (a b : Reg) :
    f.dominatorTree.dominates a b = true ↔ a = b ∨ Dominates f.IsEntry f.Passes a b := by
  cases hg : f.flowGraph? with
  | none =>
    have hblocks := flowGraph?_eq_none_iff.mp hg
    rw [dominatorTree_of_blocks_eq_nil hblocks,
      or_iff_left fun h ↦ not_reaches_of_blocks_eq_nil hblocks b h.1]
    simp [DominatorTree.dominates, DominatorTree.level?]
  | some g =>
    rw [dominatorTree_of_flowGraph? hg, isEntry_eq_of_flowGraph? hg, passes_eq_of_flowGraph? hg]
    exact g.dominates_dominatorTree_iff a b

/-- The dominator tree of a function holds its dominance: a label is found to dominate another
exactly if the two are the same, or the other can be reached and the first is on every path to it.
In a function without blocks every label dominates only itself. -/
theorem dominates_iff_mem_every_path (f : Function) (a b : Reg) :
    (f.dominatorTree.dominates a b = true ↔
      a = b ∨ (∃ path, f.Path b path) ∧ ∀ path, f.Path b path → a ∈ path) ∧
    (f.blocks = [] → (f.dominatorTree.dominates a b = true ↔ a = b)) := by
  refine ⟨f.dominates_dominatorTree_iff a b, fun h ↦ ?_⟩
  rw [f.dominates_dominatorTree_iff a b]
  exact or_iff_left fun hd ↦ not_reaches_of_blocks_eq_nil h b hd.1

end Function

end SpirvText
