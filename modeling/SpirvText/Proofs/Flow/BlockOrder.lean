import SpirvText.Proofs.Flow.DominatorTree
import SpirvText.Proofs.Flow.Linearization

/-!
# Blocks in the order of dominance

Dominance in a flow graph is an order (`Function.ordersLabels_dominatorTree`), and so no block is
put after one that it dominates.  For a function whose labels are distinct the new order keeps the
entry in front and the graph as it is, so that a second run finds the same dominance, and nothing to
do (`Function.orderBlocks_orderBlocks`).  Where labels are repeated, the last block with the label
of the entry comes to the front (`Function.head?_orderBlocks_of_head?`).
-/

namespace SpirvText

namespace BlockOrder

variable {α : Type} {dominates : α → α → Bool}

/-- If just the elements of one kind dominate those of this kind, the one of them that is placed
last comes to the front. -/
theorem head?_foldl_place {isFront : α → Bool}
    (h : ∀ y z, isFront z = true → dominates y z = isFront y) {z : α} (hz : isFront z = true)
    (rest placed : List α) :
    (rest.foldl (fun placed x ↦ place dominates x placed) (z :: placed)).head? =
      (rest.reverse.find? isFront).or (some z) := by
  induction rest generalizing z placed with
  | nil => rfl
  | cons x rest ih =>
    rw [List.foldl_cons, List.reverse_cons, List.find?_append, Option.or_assoc, place_cons,
      h x z hz]
    cases hx : isFront x with
    | true =>
      rw [if_pos rfl, ih hx, List.find?_singleton, hx]
      rfl
    | false =>
      rw [if_neg Bool.false_ne_true, ih hz, List.find?_singleton, hx]
      rfl

/-- Behind one element of this kind, the last one of the kind comes to the front. -/
theorem head?_arrange {isFront : α → Bool}
    (h : ∀ y z, isFront z = true → dominates y z = isFront y) {x : α} (hx : isFront x = true)
    (xs : List α) :
    (arrange dominates (x :: xs)).head? = (x :: xs).reverse.find? isFront := by
  rw [arrange, List.foldl_cons, place_nil, head?_foldl_place h hx, List.reverse_cons,
    List.find?_append, List.find?_singleton, hx]
  rfl

end BlockOrder

namespace Function

variable {f f' : Function}

/-! ### Graphs of functions with the same blocks -/

/-- With distinct labels it does not matter in which order the blocks are. -/
theorem passes_iff_of_nodup (h : f.labels.Nodup) (a b : Reg) :
    f.Passes a b ↔ ∃ block ∈ f.blocks, block.label = a ∧ b ∈ block.successors ∧ b ∈ f.labels := by
  constructor
  · rintro ⟨before, block, after, hblocks, hlabel, -, hsucc, hb⟩
    exact ⟨block, by rw [hblocks]; simp, hlabel, hsucc, hb⟩
  · rintro ⟨block, hmem, hlabel, hsucc, hb⟩
    obtain ⟨before, after, hblocks⟩ := List.append_of_mem hmem
    refine ⟨before, block, after, hblocks, hlabel, fun later hlater heq ↦ ?_, hsucc, hb⟩
    rw [labels, hblocks, List.map_append, List.map_cons] at h
    have hnot := (List.nodup_cons.mp (List.nodup_append.mp h).2.1).1
    exact hnot (List.mem_map.mpr ⟨later, hlater, heq.trans hlabel.symm⟩)

/-- Without labels that are there twice, the order of the blocks does not matter to where control
may pass. -/
theorem passes_congr (hperm : f'.blocks.Perm f.blocks) (h : f.labels.Nodup) :
    f'.Passes = f.Passes := by
  have hlabels : f'.labels.Perm f.labels := hperm.map _
  funext a b
  apply propext
  rw [passes_iff_of_nodup h, passes_iff_of_nodup (hlabels.nodup_iff.mpr h)]
  simp only [hperm.mem_iff, hlabels.mem_iff]

theorem isEntry_congr (hhead : f'.blocks.head? = f.blocks.head?) : f'.IsEntry = f.IsEntry := by
  unfold IsEntry
  rw [hhead]

/-- The same graph has the same dominance. -/
theorem dominates_congr (hpasses : f'.Passes = f.Passes) (hentry : f'.IsEntry = f.IsEntry) :
    f'.dominatorTree.dominates = f.dominatorTree.dominates := by
  funext a b
  rw [Bool.eq_iff_iff, dominates_dominatorTree_iff, dominates_dominatorTree_iff, hpasses, hentry]

/-- Only the entry dominates the entry. -/
theorem dominates_entry {a b : Reg} (hb : f.IsEntry b) (hne : a ≠ b) :
    f.dominatorTree.dominates a b = false := by
  rw [← Bool.not_eq_true, dominates_dominatorTree_iff]
  rintro (rfl | ⟨-, hall⟩)
  · exact hne rfl
  · exact hne (List.mem_singleton.mp (hall [b] (.start hb)))

/-- Dominance is transitive, and antisymmetric. -/
theorem dominates_trans {a b c : Reg} (hab : f.dominatorTree.dominates a b = true)
    (hbc : f.dominatorTree.dominates b c = true) : f.dominatorTree.dominates a c = true := by
  rw [dominates_dominatorTree_iff] at *
  rcases hab with rfl | hab
  · exact hbc
  · rcases hbc with rfl | hbc
    · exact .inr hab
    · exact .inr (hab.trans hbc)

/-- Two blocks that dominate each other have the same label. -/
theorem dominates_antisymm {a b : Reg} (hab : f.dominatorTree.dominates a b = true)
    (hba : f.dominatorTree.dominates b a = true) : a = b := by
  rw [dominates_dominatorTree_iff] at *
  rcases hab with hab | hab
  · exact hab
  · rcases hba with hba | hba
    · exact hba.symm
    · exact hab.antisymm hba

/-! ### The new order -/

/-- Putting the blocks in order neither loses a block nor adds one. -/
theorem perm_blocks_orderBlocks (f : Function) : f.orderBlocks.1.blocks.Perm f.blocks :=
  f.perm_blocks_linearize f.dominatorTree.dominates

/-- Dominance by the tree is an order. -/
theorem ordersLabels_dominatorTree (f : Function) :
    f.OrdersLabels f.dominatorTree.dominates where
  refl _ _ := (f.dominates_dominatorTree_iff _ _).mpr (.inl rfl)
  trans _ _ _ _ _ _ := dominates_trans
  antisymm _ _ _ _ := dominates_antisymm

/-- In the new order no block dominates an earlier one. -/
theorem pairwise_orderBlocks (h : f.labels.Nodup) :
    f.orderBlocks.1.blocks.Pairwise fun u v ↦
      f.dominatorTree.dominates v.label u.label = false :=
  pairwise_linearize h f.ordersLabels_dominatorTree

def lastBlock? (f : Function) (label : Reg) : Option Block :=
  f.blocks.reverse.find? (·.label == label)

/-- The last block with the label of the entry is found behind the entry, or is the entry. -/
theorem lastBlock?_of_cons {entry : Block} {rest : List Block} (h : f.blocks = entry :: rest) :
    f.lastBlock? entry.label =
      (rest.reverse.find? (·.label == entry.label)).or (some entry) := by
  rw [lastBlock?, h, List.reverse_cons, List.find?_append, List.find?_singleton, beq_self_eq_true]
  rfl

theorem label_of_lastBlock? {entry : Block} (h : f.blocks.head? = some entry) :
    (f.lastBlock? entry.label).map Block.label = some entry.label := by
  obtain ⟨rest, hblocks⟩ := List.head?_eq_some_iff.mp h
  rw [lastBlock?_of_cons hblocks]
  cases hfind : rest.reverse.find? (·.label == entry.label) with
  | none => rfl
  | some b =>
    have hlabel : b.label = entry.label := by simpa using List.find?_some hfind
    rw [Option.some_or, Option.map_some, hlabel]

theorem lastBlock?_of_forall_ne {entry : Block} (h : f.blocks.head? = some entry)
    (hother : ∀ b ∈ f.blocks.tail, b.label ≠ entry.label) :
    f.lastBlock? entry.label = some entry := by
  obtain ⟨rest, hblocks⟩ := List.head?_eq_some_iff.mp h
  rw [hblocks, List.tail_cons] at hother
  have hnone : rest.reverse.find? (·.label == entry.label) = none := by
    rw [List.find?_eq_none]
    intro b hb
    rw [beq_iff_eq]
    exact hother b (List.mem_reverse.mp hb)
  rw [lastBlock?_of_cons hblocks, hnone, Option.none_or]

/-- Nothing but the entry dominates the entry. -/
theorem dominates_of_isEntry {a b : Reg} (hb : f.IsEntry b) :
    f.dominatorTree.dominates a b = (a == b) := by
  by_cases ha : a = b
  · rw [ha, beq_self_eq_true, dominates_dominatorTree_iff]
    exact .inl rfl
  · rw [dominates_entry hb ha, beq_false_of_ne ha]

/-- Only blocks with the label of the entry dominate it, and of these the last comes to the
front. -/
theorem head?_orderBlocks_of_head? {entry : Block} (h : f.blocks.head? = some entry) :
    f.orderBlocks.1.blocks.head? = f.lastBlock? entry.label := by
  obtain ⟨rest, hblocks⟩ := List.head?_eq_some_iff.mp h
  let isFront (block? : Option Block) : Bool := block?.any (·.label == entry.label)
  have hdominates : ∀ i j : Nat, isFront f.blocks[j]? = true →
      f.dominatesAt f.dominatorTree.dominates i j = isFront f.blocks[i]? := by
    intro i j hj
    obtain ⟨b, hb, hlabel⟩ := (Option.any_eq_true _ _).mp hj
    cases ha : f.blocks[i]? with
    | none =>
      rw [dominatesAt, ha]
      rfl
    | some a =>
      rw [dominatesAt_of_getElem? ha hb, beq_iff_eq.mp hlabel]
      exact dominates_of_isEntry ⟨entry, h, rfl⟩
  have hhead : (f.linearOrder f.dominatorTree.dominates).head? =
      (List.range f.blocks.length).reverse.find? fun i ↦ isFront f.blocks[i]? := by
    have hrange : List.range f.blocks.length = 0 :: (List.range rest.length).map Nat.succ := by
      rw [hblocks, List.length_cons, List.range_succ_eq_map]
    have hfirst : isFront f.blocks[0]? = true := by
      rw [hblocks]
      exact beq_self_eq_true entry.label
    rw [linearOrder, hrange]
    exact BlockOrder.head?_arrange hdominates hfirst _
  refine Option.map_injective (fun _ _ ↦ Option.some.inj) ?_
  calc f.orderBlocks.1.blocks.head?.map some
      = ((f.linearOrder f.dominatorTree.dominates).head?).map (f.blocks[·]?) := by
        rw [← List.head?_map, orderBlocks, blocks_linearize, List.head?_map]
    _ = (f.blocks.map some).reverse.find? isFront := by
        rw [hhead, BlockOrder.map_some_eq_map_range, ← List.map_reverse, List.find?_map]
        rfl
    _ = (f.lastBlock? entry.label).map some := by
        rw [← List.map_reverse, List.find?_map]
        rfl

/-- The entry stays where it is. -/
theorem head?_orderBlocks (h : f.labels.Nodup) :
    f.orderBlocks.1.blocks.head? = f.blocks.head? := by
  cases hblocks : f.blocks with
  | nil =>
    have hperm := f.perm_blocks_orderBlocks
    rw [hblocks, List.perm_nil] at hperm
    rw [hperm]
  | cons entry rest =>
    have hentry : f.blocks.head? = some entry := by rw [hblocks, List.head?_cons]
    rw [labels, hblocks, List.map_cons, List.nodup_cons] at h
    rw [head?_orderBlocks_of_head? hentry, List.head?_cons]
    apply lastBlock?_of_forall_ne hentry
    intro b hb heq
    rw [hblocks, List.tail_cons] at hb
    exact h.1 (heq ▸ List.mem_map_of_mem hb)

/-- The graph stays as it is. -/
theorem passes_orderBlocks (h : f.labels.Nodup) : f.orderBlocks.1.Passes = f.Passes :=
  passes_congr f.perm_blocks_orderBlocks h

/-- Control enters by the same block after the blocks have been put in order. -/
theorem isEntry_orderBlocks (h : f.labels.Nodup) : f.orderBlocks.1.IsEntry = f.IsEntry :=
  isEntry_congr (head?_orderBlocks h)

/-- In the order of dominance nothing is moved. -/
theorem orderBlocks_of_pairwise
    (h : f.blocks.Pairwise fun u v ↦ f.dominatorTree.dominates v.label u.label = false) :
    f.orderBlocks = (f, false) :=
  linearize_of_linearOrder (linearOrder_of_forall fun _ _ ↦ dominatesAt_of_pairwise h)

/-- Putting blocks in order a second time finds nothing to do. -/
theorem orderBlocks_orderBlocks (h : f.labels.Nodup) :
    f.orderBlocks.1.orderBlocks = (f.orderBlocks.1, false) := by
  refine orderBlocks_of_pairwise ?_
  rw [dominates_congr (passes_orderBlocks h) (isEntry_orderBlocks h)]
  exact pairwise_orderBlocks h

/-- A block comes before the others that it dominates. -/
theorem lt_of_dominates (h : f.labels.Nodup) {i j : Nat} {a b : Block}
    (hi : f.orderBlocks.1.blocks[i]? = some a) (hj : f.orderBlocks.1.blocks[j]? = some b)
    (hne : a ≠ b) (hd : Dominates f.IsEntry f.Passes a.label b.label) : i < j := by
  rcases Nat.lt_trichotomy i j with hlt | rfl | hgt
  · exact hlt
  · exact absurd (Option.some.inj (hi.symm.trans hj)) hne
  · obtain ⟨hi', hia⟩ := List.getElem?_eq_some_iff.mp hi
    obtain ⟨hj', hjb⟩ := List.getElem?_eq_some_iff.mp hj
    have hfalse := List.pairwise_iff_getElem.mp (pairwise_orderBlocks h) j i hj' hi' hgt
    rw [hia, hjb, ← Bool.not_eq_true, dominates_dominatorTree_iff] at hfalse
    exact absurd (.inr hd) hfalse

end Function

/-- No block comes after another one that it dominates: if every path to a block that can be reached
goes through another block, that other one comes first. -/
def Function.InDominanceOrder (f : Function) : Prop :=
  ∀ (i j : Nat) (a b : Block), f.blocks[i]? = some a → f.blocks[j]? = some b → a ≠ b →
    (∃ path, f.Path b.label path) → (∀ path, f.Path b.label path → a.label ∈ path) → i < j

namespace Module

/-- Putting the blocks of a module in order only moves blocks within their functions.  If the labels
of each function are distinct its paths are as before, and its blocks are then in the order of
dominance. -/
theorem block_order_respects_dominance (m : Module) (h : ∀ f ∈ m.functions, f.labels.Nodup) :
    ∃ ordered changed, (Pass.blockOrder.run m).result = .ok (ordered, changed) ∧
      List.Forall₂ (fun f f' : Function ↦
        f'.blocks.Perm f.blocks ∧ f'.Path = f.Path ∧ f'.InDominanceOrder)
        m.functions ordered.functions := by
  refine ⟨m.orderBlocks.1, m.orderBlocks.2, rfl, ?_⟩
  rw [functions_orderBlocks, List.forall₂_map_right_iff, List.forall₂_same]
  intro f hf
  have hpath : f.orderBlocks.1.Path = f.Path := by
    unfold Function.Path
    rw [Function.passes_orderBlocks (h f hf), Function.isEntry_orderBlocks (h f hf)]
  refine ⟨f.perm_blocks_orderBlocks, hpath, fun i j a b hi hj hne hreach hall ↦ ?_⟩
  rw [hpath] at hreach hall
  exact Function.lt_of_dominates (h f hf) hi hj hne ⟨hreach, hall⟩

/-- A function of three blocks, the last of which dominates the second. -/
def outOfOrder : Module where
  name := "out of order"
  functions :=
    [{ header := ⟨.opFunction, [.reg ⟨0⟩, .reg ⟨1⟩, .imm 0, .reg ⟨2⟩], .integer⟩
       blocks :=
        [⟨⟨3⟩, [⟨.opBranch, [.reg ⟨5⟩], .integer⟩]⟩,
         ⟨⟨4⟩, [⟨.opReturn, [], .integer⟩]⟩,
         ⟨⟨5⟩, [⟨.opBranch, [.reg ⟨4⟩], .integer⟩]⟩] }]

/-- The last block of `outOfOrder` goes before the second. -/
theorem orderBlocks_outOfOrder :
    outOfOrder.orderBlocks.1.functions.map Function.labels = [[⟨3⟩, ⟨5⟩, ⟨4⟩]] ∧
      outOfOrder.orderBlocks.2 = true := by
  decide +kernel

/-- The last block of `outOfOrder` is moved in front of the second. -/
theorem block_order_respects_dominance_outOfOrder :
    (∀ f ∈ outOfOrder.functions, f.labels.Nodup) ∧
      outOfOrder.functions.map Function.labels = [[⟨3⟩, ⟨4⟩, ⟨5⟩]] ∧
      ∃ ordered, (Pass.blockOrder.run outOfOrder).result = .ok (ordered, true) ∧
        ordered.functions.map Function.labels = [[⟨3⟩, ⟨5⟩, ⟨4⟩]] ∧
        List.Forall₂ (fun f f' : Function ↦
          f'.blocks.Perm f.blocks ∧ f'.Path = f.Path ∧ f'.InDominanceOrder)
          outOfOrder.functions ordered.functions := by
  have hlabels : ∀ f ∈ outOfOrder.functions, f.labels.Nodup := by decide
  obtain ⟨ordered, changed, hrun, hall⟩ := block_order_respects_dominance outOfOrder hlabels
  have hresult : outOfOrder.orderBlocks = (ordered, changed) := Except.ok.inj hrun
  obtain ⟨hmoved, hflag⟩ := orderBlocks_outOfOrder
  rw [hresult] at hmoved hflag
  obtain rfl : changed = true := hflag
  exact ⟨hlabels, rfl, ordered, hrun, hmoved, hall⟩

/-! ### A second time -/

/-- Putting the blocks of a module in order a second time finds nothing to do. -/
theorem orderBlocks_orderBlocks {m : Module} (h : ∀ f ∈ m.functions, f.labels.Nodup) :
    m.orderBlocks.1.orderBlocks = (m.orderBlocks.1, false) := by
  have hflag : m.orderBlocks.1.orderBlocks.2 = false := by
    have hall : ∀ f ∈ m.orderBlocks.1.functions, f.orderBlocks.2 = false := by
      rw [functions_orderBlocks, List.forall_mem_map]
      intro f hf
      rw [Function.orderBlocks_orderBlocks (h f hf)]
    generalize m.orderBlocks.1 = ordered at hall
    simpa [orderBlocks] using hall
  exact Prod.ext (orderBlocks_fst_of_snd hflag) hflag

/-- Putting the blocks of a module in order a second time changes nothing, and says so, if the
labels of each function are distinct.  The first time says that something has changed just if it
has. -/
theorem block_order_idempotent (m : Module) (h : ∀ f ∈ m.functions, f.labels.Nodup) :
    ∃ ordered changed, (Pass.blockOrder.run m).result = .ok (ordered, changed) ∧
      (Pass.blockOrder.run ordered).result = .ok (ordered, false) ∧
      (changed = false ↔ ordered = m) := by
  have hagain := orderBlocks_orderBlocks h
  refine ⟨m.orderBlocks.1, m.orderBlocks.2, rfl, congrArg Except.ok hagain, ?_⟩
  constructor
  · exact orderBlocks_fst_of_snd
  · intro hsame
    rw [hsame] at hagain
    exact congrArg Prod.snd hagain

/-- The first run moves a block of `outOfOrder`, and the second moves none. -/
theorem block_order_idempotent_outOfOrder :
    (∀ f ∈ outOfOrder.functions, f.labels.Nodup) ∧
      ∃ ordered, (Pass.blockOrder.run outOfOrder).result = .ok (ordered, true) ∧
        ordered ≠ outOfOrder ∧ (Pass.blockOrder.run ordered).result = .ok (ordered, false) := by
  have hlabels : ∀ f ∈ outOfOrder.functions, f.labels.Nodup := by decide
  obtain ⟨ordered, changed, hrun, hagain, hsame⟩ := block_order_idempotent outOfOrder hlabels
  have hresult : outOfOrder.orderBlocks = (ordered, changed) := Except.ok.inj hrun
  have hflag := orderBlocks_outOfOrder.2
  rw [hresult] at hflag
  obtain rfl : changed = true := hflag
  refine ⟨hlabels, ordered, hrun, ?_, hagain⟩
  exact fun h ↦ Bool.noConfusion (hsame.mpr h)

/-! ## The entry -/

/-- The last block with the label of a function's entry comes to the front.  So the first block
keeps the label of the entry, and it is the entry if no other block has this label. -/
theorem entry_block_after_ordering (m : Module) :
    ∃ ordered changed, (Pass.blockOrder.run m).result = .ok (ordered, changed) ∧
      List.Forall₂ (fun f f' : Function ↦ ∀ entry, f.blocks.head? = some entry →
        f'.blocks.head? = f.lastBlock? entry.label ∧
          f'.blocks.head?.map Block.label = some entry.label ∧
          ((∀ b ∈ f.blocks.tail, b.label ≠ entry.label) → f'.blocks.head? = some entry))
        m.functions ordered.functions := by
  refine ⟨m.orderBlocks.1, m.orderBlocks.2, rfl, ?_⟩
  rw [functions_orderBlocks, List.forall₂_map_right_iff, List.forall₂_same]
  intro f _ entry hentry
  rw [Function.head?_orderBlocks_of_head? hentry]
  exact ⟨rfl, Function.label_of_lastBlock? hentry, Function.lastBlock?_of_forall_ne hentry⟩

/-- A function with two blocks that have the same label. -/
def repeatedEntry : Module where
  name := "repeated entry"
  functions := [
    { header := ⟨.opFunction, [.reg ⟨0⟩, .reg ⟨1⟩, .imm 0, .reg ⟨0⟩], .integer⟩
      blocks := [
        ⟨⟨2⟩, [⟨.opReturn, [], .integer⟩]⟩,
        ⟨⟨2⟩, [⟨.opUnreachable, [], .integer⟩]⟩] }]

/-- In a module that was accepted the entry can end up behind another block. -/
theorem not_entry_kept_repeatedEntry :
    (Pass.validate.run repeatedEntry).result = .ok (repeatedEntry, false) ∧
      ∃ ordered, (Pass.blockOrder.run repeatedEntry).result = .ok (ordered, true) ∧
        repeatedEntry.functions.map (·.blocks.head?) =
          [some ⟨⟨2⟩, [⟨.opReturn, [], .integer⟩]⟩] ∧
        ordered.functions.map (·.blocks.head?) =
          [some ⟨⟨2⟩, [⟨.opUnreachable, [], .integer⟩]⟩] := by
  refine ⟨rfl, repeatedEntry.orderBlocks.1, ?_, rfl, ?_⟩
  · decide +kernel
  · decide +kernel

end Module

end SpirvText
