import SpirvText.Proofs.Flow.DominatorTree

/-!
# The search for dominators comes to its end

The definitions that work out dominators give nothing if the rounds do not come to rest, or if the
way up from a position breaks off; and where they look something up they go on with an empty list if
it is not there.  Here the search is followed step by step, with every look-up finding what it looks
for: `Meets` for two fingers that go up until they meet, `Joins` for the predecessors of a position
one after the other, `Updates` for one position, `Sweeps` for a round and `Settles` for all rounds.
Each is inductive, so that it says of a search that it ends.  Nothing is asked of the entries that
fingers go by: that they lead upwards is what makes the search end, not a part of it.

Whatever the definitions give is what such a search gives (`Idoms.settles_of_settle?`), and they
always give something (`Idoms.settle?_initialIdoms`).
-/

namespace SpirvText

namespace Idoms

variable {preds : Array (List Nat)} {idoms : Idoms}

/-- Two fingers meet: the later one goes to its entry in the table, until both are in one place. -/
inductive Meets (idoms : Idoms) : Nat → Nat → Nat → Prop
  | here {i : Nat} : Meets idoms i i i
  | left {i j d m : Nat} : j < i → idoms[i]? = some (some d) → Meets idoms d j m → Meets idoms i j m
  | right {i j d m : Nat} : i < j → idoms[j]? = some (some d) → Meets idoms i d m → Meets idoms i j m

/-- Predecessors are taken one after the other.  Those without an entry yet are passed over, the
first other one is taken as it is, and each later one meets what those before it have in common. -/
inductive Joins (idoms : Idoms) : Option Nat → List Nat → Option Nat → Prop
  | done {best : Option Nat} : Joins idoms best [] best
  | pass {best best' : Option Nat} {p : Nat} {ps : List Nat} :
    idoms[p]? = some none → Joins idoms best ps best' → Joins idoms best (p :: ps) best'
  | first {best : Option Nat} {p d : Nat} {ps : List Nat} :
    idoms[p]? = some (some d) → Joins idoms (some p) ps best → Joins idoms none (p :: ps) best
  | meet {best : Option Nat} {p d i m : Nat} {ps : List Nat} :
    idoms[p]? = some (some d) → Meets idoms p i m → Joins idoms (some m) ps best →
      Joins idoms (some i) (p :: ps) best

/-- The dominator of position `i` is worked out from its predecessors. -/
structure Updates (preds : Array (List Nat)) (idoms : Idoms) (i : Nat) (next : Idoms) : Prop where
  computed : improve? preds idoms i = some next
  entry : i < idoms.size
  joined : ∃ ps best, preds[i]? = some ps ∧ idoms.common? ps = some best ∧ Joins idoms none ps best

inductive Sweeps (preds : Array (List Nat)) : List Nat → Idoms → Idoms → Prop
  | done {idoms : Idoms} : Sweeps preds [] idoms idoms
  | next {i : Nat} {is : List Nat} {idoms idoms' last : Idoms} :
    Updates preds idoms i idoms' → Sweeps preds is idoms' last → Sweeps preds (i :: is) idoms last

/-- Rounds over all positions after the entry follow one another, `n` of them, up to one that
changes nothing. -/
inductive Settles (preds : Array (List Nat)) : Nat → Idoms → Idoms → Prop
  | rest {idoms : Idoms} :
    Sweeps preds (List.range' 1 (preds.size - 1)) idoms idoms → Settles preds 1 idoms idoms
  | again {n : Nat} {idoms next last : Idoms} :
    Sweeps preds (List.range' 1 (preds.size - 1)) idoms next → next ≠ idoms →
      Settles preds n next last → Settles preds (n + 1) idoms last

/-! ## What is computed is found -/

/-- A search for a meeting that has a result is one that two fingers go through. -/
theorem meets_of_meet? {i j m : Nat} (h : idoms.meet? i j = some m) : Meets idoms i j m := by
  fun_induction meet? idoms i j with
  | case1 i =>
    cases h
    exact .here
  | case2 i j hne hlt d hd hup ih => exact .right hlt (getElem?_of_up? hup) (ih h)
  | case3 => cases h
  | case4 i j hne hle d hd hup ih =>
    exact .left (by omega) (getElem?_of_up? hup) (ih h)
  | case5 => cases h

/-- What has been found in common is had by taking all predecessors one after the other. -/
theorem joins_of_foldlM {ps : List Nat} {best best' : Option Nat}
    (hps : ∀ p ∈ ps, p < idoms.size)
    (h : (ps.filter idoms.isKnown).foldlM (fun best p ↦
        match best with
        | none => some (some p)
        | some i => (idoms.meet? p i).map some) best = some best') :
    Joins idoms best ps best' := by
  induction ps generalizing best with
  | nil =>
    cases h
    exact .done
  | cons p ps ih =>
    have hmore : ∀ q ∈ ps, q < idoms.size := fun q hq ↦ hps q (.tail _ hq)
    obtain ⟨entry, hp⟩ : ∃ entry, idoms[p]? = some entry :=
      ⟨_, Array.getElem?_eq_getElem (hps p List.mem_cons_self)⟩
    cases entry with
    | none =>
      have hunknown : ¬ idoms.isKnown p = true := by simp [isKnown, hp]
      rw [List.filter_cons_of_neg hunknown] at h
      exact .pass hp (ih hmore h)
    | some d =>
      have hknown : idoms.isKnown p = true := isKnown_iff.mpr ⟨d, hp⟩
      rw [List.filter_cons_of_pos hknown, List.foldlM_cons] at h
      cases best with
      | none => exact .first hp (ih hmore h)
      | some i =>
        obtain ⟨_, hmeet, hrest⟩ := Option.bind_eq_some_iff.mp h
        obtain ⟨m, hm, rfl⟩ := Option.map_eq_some_iff.mp hmeet
        exact .meet hp (meets_of_meet? hm) (ih hmore hrest)

theorem size_of_improve? {i : Nat} {next : Idoms} (h : improve? preds idoms i = some next) :
    next.size = idoms.size := by
  obtain ⟨best, -, hnext⟩ := Option.bind_eq_some_iff.mp h
  cases best with
  | none =>
    cases hnext
    rfl
  | some d =>
    cases hnext
    exact Array.size_setIfInBounds

/-- The dominator that has been worked out is the one that the predecessors have in common. -/
theorem updates_of_improve? (hn : Numbered preds) (hsize : idoms.size = preds.size) {i : Nat}
    (hi : i < preds.size) {next : Idoms} (h : improve? preds idoms i = some next) :
    Updates preds idoms i next := by
  refine ⟨h, hsize ▸ hi, ?_⟩
  obtain ⟨ps, hps⟩ : ∃ ps, preds[i]? = some ps := ⟨_, Array.getElem?_eq_getElem hi⟩
  obtain ⟨best, hbest, -⟩ := Option.bind_eq_some_iff.mp h
  rw [hps, Option.getD_some] at hbest
  refine ⟨ps, best, hps, hbest, joins_of_foldlM (fun p hp ↦ ?_) hbest⟩
  rw [hsize]
  apply hn.bound i p
  rwa [Steps, hps]

theorem sweeps_of_foldlM (hn : Numbered preds) {is : List Nat} (his : ∀ i ∈ is, i < preds.size)
    {next : Idoms} (hsize : idoms.size = preds.size)
    (h : is.foldlM (improve? preds) idoms = some next) :
    Sweeps preds is idoms next ∧ next.size = preds.size := by
  induction is generalizing idoms with
  | nil =>
    cases h
    exact ⟨.done, hsize⟩
  | cons i is ih =>
    obtain ⟨idoms', hstep, hrest⟩ := Option.bind_eq_some_iff.mp h
    obtain ⟨hsweeps, hlast⟩ := ih (fun j hj ↦ his j (.tail _ hj))
      ((size_of_improve? hstep).trans hsize) hrest
    exact ⟨.next (updates_of_improve? hn hsize (his i List.mem_cons_self) hstep) hsweeps, hlast⟩

/-- A round goes over all positions after the entry. -/
theorem sweeps_of_round? (hn : Numbered preds) {next : Idoms} (hsize : idoms.size = preds.size)
    (h : round? preds idoms = some next) :
    Sweeps preds (List.range' 1 (preds.size - 1)) idoms next ∧ next.size = preds.size := by
  refine sweeps_of_foldlM hn (fun i hi ↦ ?_) hsize h
  have := hn.pos
  rw [List.mem_range'_1] at hi
  omega

/-- Rounds that have a result end with one that changes nothing. -/
theorem settles_of_settle? (hn : Numbered preds) {fuel : Nat} {last : Idoms}
    (hsize : idoms.size = preds.size) (h : settle? preds fuel idoms = some last) :
    ∃ n ≤ fuel, Settles preds n idoms last := by
  induction fuel generalizing idoms with
  | zero => cases h
  | succ fuel ih =>
    obtain ⟨next, hnext, hrest⟩ := Option.bind_eq_some_iff.mp h
    obtain ⟨hsweeps, hsize'⟩ := sweeps_of_round? hn hsize hnext
    by_cases heq : next = idoms
    · rw [if_pos heq] at hrest
      cases hrest
      exact ⟨1, Nat.succ_le_succ (Nat.zero_le _), .rest (heq ▸ hsweeps)⟩
    · rw [if_neg heq] at hrest
      obtain ⟨n, hn', hsettles⟩ := ih hsize' hrest
      exact ⟨n + 1, Nat.succ_le_succ hn', .again hsweeps heq hsettles⟩

/-- No more rounds are needed than there are positions. -/
theorem exists_settles (hn : Numbered preds) :
    ∃ n ≤ preds.size, ∃ table, Settles preds n (FlowGraph.initialIdoms preds.size) table ∧
      Invariant preds (fun _ ↦ preds.size) table := by
  obtain ⟨table, htable, hinv⟩ := Invariant.settle? hn preds.size 1 _ (.initial hn) (by omega) hn.pos
  obtain ⟨n, hle, hsettles⟩ := settles_of_settle? hn (Invariant.initial hn).size htable
  exact ⟨n, hle, table, hsettles, hinv⟩

end Idoms

/-! ## The search in a graph -/

namespace FlowGraph

variable {g : FlowGraph}

/-- The search for the dominators of a graph comes to its end with a table, and finds everything
that it looks up. -/
structure Finds (g : FlowGraph) (table : Idoms) : Prop where
  /-- The walk that numbers the labels leaves every label it comes to. -/
  walked : Walks g.edges [(g.entry, g.edges.targets g.entry)] [] g.reversePostorder
  /-- A label that the walk comes to has targets, and each of these has a position, where the
  label's own is among the predecessors. -/
  targets : ∀ a ∈ g.reversePostorder, ∃ ts p, g.edges.lookup a = some ts ∧
    g.order.idxOf? a = some p ∧ ∀ b ∈ ts, ∃ i ps,
      g.order.idxOf? b = some i ∧ (g.predecessors g.order)[i]? = some ps ∧ p ∈ ps
  /-- The predecessors of a position are positions of labels. -/
  predecessors : ∀ i p, Idoms.Steps (g.predecessors g.order) p i →
    ∃ a, g.order[p]? = some a ∧ g.order.idxOf? a = some p
  /-- The table has a place for the entry. -/
  entry : (initialIdoms g.order.size)[0]? = some (some 0)
  /-- The rounds come to rest, in no more rounds than there are labels. -/
  settled : ∃ n ≤ g.order.size,
    Idoms.Settles (g.predecessors g.order) n (initialIdoms g.order.size) table
  /-- The table that the rounds come to rest at is the one that is computed. -/
  computed : g.idoms? g.order = some table
  /-- Every label after the entry has an immediate dominator, which is a label again, and has a
  level when the label is hung below it. -/
  found : ∀ i, 0 < i → i < g.order.size → ∃ d a level, table[i]? = some (some d) ∧
    g.order[d]? = some a ∧ (DominatorTree.grow g.entry g.order table i).level? a = some level

/-- The number of a label is where it stands. -/
theorem idxOf?_order_eq_some_iff {a : Reg} {i : Nat} :
    g.order.idxOf? a = some i ↔ g.order[i]? = some a := by
  have hsound : ∀ {k : Nat}, g.order.idxOf? a = some k → g.order[k]? = some a := by
    intro k h
    rw [Array.idxOf?_eq_map_finIdxOf?_val] at h
    obtain ⟨k', hk, rfl⟩ := Option.map_eq_some_iff.mp h
    obtain ⟨hget, -⟩ := Array.finIdxOf?_eq_some_iff.mp hk
    exact Array.getElem?_eq_some_iff.mpr ⟨k'.2, hget⟩
  refine ⟨hsound, fun h ↦ ?_⟩
  cases hidx : g.order.idxOf? a with
  | none => exact absurd (Array.mem_of_getElem? h) (Array.idxOf?_eq_none_iff.mp hidx)
  | some k => rw [order_inj (hsound hidx) h]

/-- A label that the walk comes to has a position. -/
theorem exists_position? {a : Reg} (h : a ∈ g.reversePostorder) :
    ∃ i, g.order.idxOf? a = some i ∧ g.order[i]? = some a := by
  obtain ⟨i, hi⟩ := exists_getElem?_order ((mem_reversePostorder_iff g a).mp h)
  exact ⟨i, idxOf?_order_eq_some_iff.mpr hi, hi⟩

/-- An edge between labels is one between their positions. -/
theorem exists_mem_predecessors {a b : Reg} {p : Nat} (hp : g.order[p]? = some a)
    (hb : b ∈ g.edges.targets a) : ∃ i ps, g.order.idxOf? b = some i ∧
      (g.predecessors g.order)[i]? = some ps ∧ p ∈ ps := by
  rw [getElem?_order] at hp
  obtain ⟨i, hposition, hi⟩ :=
    exists_position? (mem_reversePostorder_of_mem_targets (List.mem_of_getElem? hp) hb)
  obtain ⟨ps, hps⟩ : ∃ ps, (g.predecessors g.order)[i]? = some ps :=
    ⟨_, Array.getElem?_eq_getElem (lt_size_predecessors hi)⟩
  refine ⟨i, ps, hposition, hps, ?_⟩
  have hstep := steps_predecessors_iff.mpr ⟨a, b, (getElem?_order g p).trans hp, hi, hb⟩
  rwa [Idoms.Steps, hps] at hstep

/-- The search ends with a table if every label that can be reached has an entry among the edges. -/
theorem exists_finds (hlookup : ∀ a ∈ g.reversePostorder, ∃ ts, g.edges.lookup a = some ts) :
    ∃ table, g.Finds table ∧
      g.dominatorTree = .grow g.entry g.order table g.order.size := by
  have hn := numbered_predecessors g
  have hsize := size_predecessors g g.order
  obtain ⟨n, hle, table, hsettles, hinv⟩ := Idoms.exists_settles hn
  obtain ⟨table', hcomputed, hinv'⟩ := exists_idoms g
  rw [← hsize] at hinv'
  obtain rfl : table' = table := hinv.unique hn hinv' (Nat.le_refl _) (Nat.le_refl _)
  rw [hsize] at hle hsettles
  have htable : g.table = table' := by rw [table, hcomputed, Option.getD_some]
  have htree : g.dominatorTree = .grow g.entry g.order table' g.order.size := by
    rw [← htable]
    rfl
  refine ⟨table', ⟨walks_reversePostorder g, ?_, ?_, ?_, ⟨n, hle, hsettles⟩, hcomputed, ?_⟩, htree⟩
  · intro a ha
    obtain ⟨ts, hts⟩ := hlookup a ha
    obtain ⟨p, hposition, hp⟩ := exists_position? ha
    refine ⟨ts, p, hts, hposition, fun b hb ↦ exists_mem_predecessors hp ?_⟩
    rwa [Edges.targets, hts]
  · intro i p hstep
    obtain ⟨a, b, ha, -, -⟩ := steps_predecessors_iff.mp hstep
    exact ⟨a, ha, idxOf?_order_eq_some_iff.mpr ha⟩
  · rw [← hsize]
    exact (Idoms.Invariant.initial hn).entry
  · intro i hpos hi
    obtain ⟨d, a, hup, ha⟩ := exists_up?_table (Array.getElem?_eq_getElem hi) hpos
    have hlevel := (grown_grow g hpos hi.le).level d.1 a ha d.2
    rw [htable] at hup hlevel
    exact ⟨d.1, a, _, Idoms.getElem?_of_up? hup, ha, hlevel⟩

end FlowGraph

namespace Function

variable {f : Function} {g : FlowGraph}

/-- The labels of a function are those that its table of edges has targets for. -/
theorem exists_lookup_edges {a : Reg} (h : a ∈ f.labels) : ∃ ts, f.edges.lookup a = some ts := by
  obtain ⟨b, hb, rfl⟩ := List.mem_map.mp h
  cases hlookup : f.edges.lookup b.label with
  | some ts => exact ⟨ts, rfl⟩
  | none =>
    rw [List.lookup_eq_none_iff] at hlookup
    have hentry : (b.label, b.successors.filter (f.labels.contains ·)) ∈ f.edges :=
      List.mem_reverse.mpr (List.mem_map_of_mem hb)
    exact absurd rfl (bne_iff_ne.mp (hlookup _ hentry))

/-- Only labels of a function can be reached in it. -/
theorem mem_labels_of_mem_reversePostorder (h : f.flowGraph? = some g) {a : Reg}
    (ha : a ∈ g.reversePostorder) : a ∈ f.labels := by
  obtain ⟨l, hl⟩ := (FlowGraph.mem_reversePostorder_iff g a).mp ha
  refine hl.forall_mem (P := (· ∈ f.labels)) ?_ ?_ a hl.mem_self
  · intro b hb
    obtain ⟨entry, hentry, rfl⟩ := (isEntry_iff_of_flowGraph? h b).mpr hb
    exact List.mem_map_of_mem (List.mem_of_mem_head? hentry)
  · intro b c _ hc
    obtain ⟨_, _, _, _, _, _, _, hlabel⟩ := (passes_iff_of_flowGraph? h b c).mpr hc
    exact hlabel

/-- The dominators of a function are always found: the walk and the rounds come to their ends,
fingers that go up the tree always meet, and nothing that is looked up on the way is missing.  In a
function without blocks there is nothing to find. -/
theorem dominators_always_found (f : Function) :
    f.blocks = [] ∧ f.dominatorTree = {} ∨
      ∃ g table, f.flowGraph? = some g ∧ g.Finds table ∧
        f.dominatorTree = .grow g.entry g.order table g.order.size := by
  cases hg : f.flowGraph? with
  | none =>
    have hblocks := flowGraph?_eq_none_iff.mp hg
    exact .inl ⟨hblocks, dominatorTree_of_blocks_eq_nil hblocks⟩
  | some g =>
    obtain ⟨table, hfinds, htree⟩ : ∃ table, g.Finds table ∧
        g.dominatorTree = .grow g.entry g.order table g.order.size := by
      apply FlowGraph.exists_finds
      intro a ha
      obtain ⟨_, _, rfl⟩ := Option.map_eq_some_iff.mp hg
      exact exists_lookup_edges (mem_labels_of_mem_reversePostorder hg ha)
    exact .inr ⟨g, table, rfl, hfinds, (dominatorTree_of_flowGraph? hg).trans htree⟩

end Function

end SpirvText
