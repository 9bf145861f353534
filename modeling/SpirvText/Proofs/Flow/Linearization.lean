import Mathlib.Data.List.Forall2
import Mathlib.Data.List.Induction
import Mathlib.Data.List.Nodup
import Mathlib.Data.List.Sort
import SpirvText.Pipeline

/-!
# Blocks one after the other

Blocks are placed one after the other, each in front of the first placed one that it dominates.
This is insertion sort (`BlockOrder.arrange_eq_insertionSort`), and so it moves blocks and does
nothing else, whatever relation dominance is.  What is placed later leaves the order of those placed
before as it is, so which of two comes first is settled when the second of them is placed: it goes
before the other just if it dominates it, or one that comes before it
(`BlockOrder.precedes_arrange_iff`).

If dominance is an order, none is put after one that it dominates (`BlockOrder.pairwise_arrange`):
what comes after the first one that a new element dominates does not dominate the new element, for
it would then dominate that first one too.

For a function all this is said of the positions of its blocks, which are distinct even where labels
are not.  So a slot is full when the block in it is taken, and the blocks that are taken are those
at the positions of the new order (`Function.blocks_linearize`).
-/

namespace SpirvText

namespace BlockOrder

variable {α : Type} {dominates : α → α → Bool} {u v x y z : α} {xs ys order : List α}

/-! ## Placing one element -/

theorem place_nil (dominates : α → α → Bool) (x : α) : place dominates x [] = [x] := rfl

theorem place_cons (dominates : α → α → Bool) (x y : α) (ys : List α) :
    place dominates x (y :: ys) =
      if dominates x y = true then x :: y :: ys else y :: place dominates x ys := by
  rw [place, List.findIdx?_cons, place]
  by_cases hy : dominates x y = true
  · rw [if_pos hy, if_pos hy]
    rfl
  · rw [if_neg hy, if_neg hy]
    cases ys.findIdx? (dominates x) <;> rfl

/-- An element is placed where the library inserts it. -/
theorem place_eq_orderedInsert (dominates : α → α → Bool) (x : α) (ys : List α) :
    place dominates x ys = ys.orderedInsert (fun a b ↦ dominates a b = true) x := by
  induction ys with
  | nil => rfl
  | cons y ys ih => rw [place_cons, List.orderedInsert_cons, ih]

/-- What dominates nothing goes to the end. -/
theorem place_of_forall (h : ∀ y ∈ ys, dominates x y = false) :
    place dominates x ys = ys ++ [x] := by
  rw [place, List.findIdx?_eq_none_iff.mpr h]

/-- Placing an element keeps an order in which none dominates an earlier one. -/
theorem pairwise_place
    (htrans : ∀ y ∈ ys, ∀ z ∈ ys, dominates z x = true → dominates x y = true →
      dominates z y = true)
    (hanti : ∀ y ∈ ys, dominates x y = true → dominates y x = false)
    (h : ys.Pairwise fun u v ↦ dominates v u = false) :
    (place dominates x ys).Pairwise fun u v ↦ dominates v u = false := by
  induction ys with
  | nil => exact List.pairwise_singleton _ _
  | cons y ys ih =>
    obtain ⟨hy, hys⟩ := List.pairwise_cons.mp h
    rw [place_cons]
    split
    · next hxy =>
      refine List.pairwise_cons.mpr ⟨fun z hz ↦ ?_, h⟩
      rcases List.mem_cons.mp hz with rfl | hzys
      · exact hanti z List.mem_cons_self hxy
      · rw [← Bool.not_eq_true]
        intro hzx
        have hzy := htrans y List.mem_cons_self z (.tail _ hzys) hzx hxy
        rw [hy z hzys] at hzy
        cases hzy
    · next hxy =>
      refine List.pairwise_cons.mpr ⟨fun z hz ↦ ?_, ?_⟩
      · rw [place_eq_orderedInsert, List.mem_orderedInsert] at hz
        rcases hz with rfl | hz
        · exact Bool.not_eq_true _ ▸ hxy
        · exact hy z hz
      · exact ih (fun u hu v hv ↦ htrans u (.tail _ hu) v (.tail _ hv))
          (fun u hu ↦ hanti u (.tail _ hu)) hys

/-! ### Which comes first -/

def Precedes (order : List α) (x y : α) : Prop :=
  ∃ front back, order = front ++ x :: back ∧ y ∈ back

theorem precedes_cons :
    Precedes (z :: order) x y ↔ (z = x ∧ y ∈ order) ∨ Precedes order x y := by
  constructor
  · rintro ⟨front, back, horder, hy⟩
    cases front with
    | nil =>
      obtain ⟨rfl, rfl⟩ := List.cons.inj horder
      exact .inl ⟨rfl, hy⟩
    | cons w front =>
      obtain ⟨-, rfl⟩ := List.cons.inj horder
      exact .inr ⟨front, back, rfl, hy⟩
  · rintro (⟨rfl, hy⟩ | ⟨front, back, rfl, hy⟩)
    · exact ⟨[], order, rfl, hy⟩
    · exact ⟨z :: front, back, rfl, hy⟩

theorem Precedes.mem_right (h : Precedes order x y) : y ∈ order := by
  obtain ⟨front, back, rfl, hy⟩ := h
  exact List.mem_append_right front (.tail _ hy)

theorem not_precedes_head (h : y ∉ order) : ¬Precedes (y :: order) x y := by
  rw [precedes_cons]
  rintro (⟨-, hy⟩ | hxy)
  · exact h hy
  · exact h hxy.mem_right

/-- Placing an element does not change which of two others comes first. -/
theorem precedes_place_of_ne (hu : u ≠ x) (hv : v ≠ x) :
    Precedes (place dominates x ys) u v ↔ Precedes ys u v := by
  induction ys with
  | nil =>
    rw [place_nil, precedes_cons, or_iff_right]
    rintro ⟨rfl, -⟩
    exact hu rfl
  | cons y ys ih =>
    rw [place_cons]
    split
    · rw [precedes_cons, or_iff_right]
      rintro ⟨rfl, -⟩
      exact hu rfl
    · rw [precedes_cons, precedes_cons, ih, place_eq_orderedInsert, List.mem_orderedInsert,
        or_iff_right hv]

/-- A new element comes before another just if it dominates it, or one that comes before it. -/
theorem precedes_place_iff (hnodup : (x :: ys).Nodup) (hy : y ∈ ys) :
    Precedes (place dominates x ys) x y ↔
      ∃ z ∈ ys, dominates x z = true ∧ (z = y ∨ Precedes ys z y) := by
  induction ys with
  | nil => cases hy
  | cons w ys ih =>
    obtain ⟨hx, hw, hys⟩ : x ∉ w :: ys ∧ w ∉ ys ∧ ys.Nodup := by
      simpa only [List.nodup_cons] using hnodup
    have hxw : w ≠ x := fun h ↦ hx (h ▸ List.mem_cons_self)
    have hxys : x ∉ ys := fun h ↦ hx (.tail _ h)
    rw [place_cons]
    split
    · next hd =>
      refine iff_of_true (precedes_cons.mpr (.inl ⟨rfl, hy⟩)) ⟨w, List.mem_cons_self, hd, ?_⟩
      rcases List.mem_cons.mp hy with rfl | hy
      · exact .inl rfl
      · exact .inr (precedes_cons.mpr (.inl ⟨rfl, hy⟩))
    · next hd =>
      rcases List.mem_cons.mp hy with rfl | hy
      · refine iff_of_false (not_precedes_head ?_) ?_
        · rw [place_eq_orderedInsert, List.mem_orderedInsert, not_or]
          exact ⟨hxw, hw⟩
        · rintro ⟨z, hz, hdz, rfl | hzy⟩
          · exact hd hdz
          · exact not_precedes_head hw hzy
      · rw [precedes_cons, or_iff_right fun h ↦ hxw h.1, ih (List.nodup_cons.mpr ⟨hxys, hys⟩) hy]
        constructor
        · rintro ⟨z, hz, hdz, h⟩
          exact ⟨z, .tail _ hz, hdz, h.imp_right fun h ↦ precedes_cons.mpr (.inr h)⟩
        · rintro ⟨z, hz, hdz, h⟩
          have hzw : w ≠ z := by
            rintro rfl
            exact hd hdz
          refine ⟨z, List.mem_of_ne_of_mem hzw.symm hz, hdz, h.imp_right fun h ↦ ?_⟩
          exact (precedes_cons.mp h).resolve_left fun h ↦ hzw h.1

/-! ## Placing all elements -/

theorem arrange_concat (dominates : α → α → Bool) (xs : List α) (x : α) :
    arrange dominates (xs ++ [x]) = place dominates x (arrange dominates xs) :=
  List.foldl_concat ..

/-- Placing elements one after the other is insertion sort. -/
theorem arrange_eq_insertionSort (dominates : α → α → Bool) (xs : List α) :
    arrange dominates xs = xs.reverse.insertionSort fun a b ↦ dominates a b = true := by
  rw [arrange, List.foldl_eq_foldr_reverse, List.insertionSort]
  congr 1
  funext x ys
  exact place_eq_orderedInsert dominates x ys

/-- Arranging moves elements, and nothing else. -/
theorem perm_arrange (dominates : α → α → Bool) (xs : List α) :
    (arrange dominates xs).Perm xs := by
  rw [arrange_eq_insertionSort]
  exact (List.perm_insertionSort _ _).trans xs.reverse_perm

/-- Elements of which none dominates an earlier one are left as they are. -/
theorem arrange_of_pairwise (h : xs.Pairwise fun u v ↦ dominates v u = false) :
    arrange dominates xs = xs := by
  induction xs using List.reverseRec with
  | nil => rfl
  | append_singleton xs x ih =>
    obtain ⟨hxs, -, hx⟩ := List.pairwise_append.mp h
    rw [arrange_concat, ih hxs, place_of_forall fun y hy ↦ hx y hy x List.mem_cons_self]

/-- Arranging puts elements in an order in which none dominates an earlier one. -/
theorem pairwise_arrange (hnodup : xs.Nodup)
    (htrans : ∀ a ∈ xs, ∀ b ∈ xs, ∀ c ∈ xs, dominates a b = true → dominates b c = true →
      dominates a c = true)
    (hanti : ∀ a ∈ xs, ∀ b ∈ xs, dominates a b = true → dominates b a = true → a = b) :
    (arrange dominates xs).Pairwise fun u v ↦ dominates v u = false := by
  induction xs using List.reverseRec with
  | nil => exact List.Pairwise.nil
  | append_singleton xs x ih =>
    have hlast : x ∈ xs ++ [x] := List.mem_concat_self
    have hfront : ∀ {y}, y ∈ xs → y ∈ xs ++ [x] := fun hy ↦ List.mem_append_left _ hy
    have hplaced : ∀ {y}, y ∈ arrange dominates xs → y ∈ xs ++ [x] :=
      fun hy ↦ hfront ((perm_arrange dominates xs).mem_iff.mp hy)
    obtain ⟨hxs, -, hnew⟩ := List.nodup_append.mp hnodup
    rw [arrange_concat]
    refine pairwise_place ?_ ?_ (ih hxs ?_ ?_)
    · intro y hy z hz hzx hxy
      exact htrans z (hplaced hz) x hlast y (hplaced hy) hzx hxy
    · intro y hy hxy
      rw [← Bool.not_eq_true]
      intro hyx
      exact hnew y ((perm_arrange dominates xs).mem_iff.mp hy) x List.mem_cons_self
        (hanti y (hplaced hy) x hlast hyx hxy)
    · exact fun a ha b hb c hc ↦ htrans a (hfront ha) b (hfront hb) c (hfront hc)
    · exact fun a ha b hb ↦ hanti a (hfront ha) b (hfront hb)

/-- What is placed later does not change which of two comes first. -/
theorem precedes_foldl_place (hu : u ∉ xs) (hv : v ∉ xs) (placed : List α) :
    Precedes (xs.foldl (fun placed x ↦ place dominates x placed) placed) u v ↔
      Precedes placed u v := by
  induction xs generalizing placed with
  | nil => rfl
  | cons x xs ih =>
    obtain ⟨hux, huxs⟩ := not_or.mp (List.mem_cons.not.mp hu)
    obtain ⟨hvx, hvxs⟩ := not_or.mp (List.mem_cons.not.mp hv)
    rw [List.foldl_cons, ih huxs hvxs, precedes_place_of_ne hux hvx]

/-- Of two elements the later comes first just if it dominates the other, or an earlier one than
itself that comes before the other. -/
theorem precedes_arrange_iff {front back : List α} (hnodup : (front ++ x :: back).Nodup)
    (hy : y ∈ front) :
    Precedes (arrange dominates (front ++ x :: back)) x y ↔
      ∃ z ∈ front, dominates x z = true ∧
        (z = y ∨ Precedes (arrange dominates (front ++ x :: back)) z y) := by
  have hfront := perm_arrange dominates front
  obtain ⟨hxback, hdisjoint⟩ : x ∉ back ∧ ∀ z ∈ front, z ∉ x :: back := by
    obtain ⟨-, hback, hne⟩ := List.nodup_append.mp hnodup
    exact ⟨(List.nodup_cons.mp hback).1, fun z hz hmem ↦ hne z hz z hmem rfl⟩
  have hlater : ∀ {z}, z ∈ front → z ≠ x ∧ z ∉ back :=
    fun hz ↦ not_or.mp (List.mem_cons.not.mp (hdisjoint _ hz))
  have harrange : arrange dominates (front ++ x :: back) = back.foldl
      (fun placed x ↦ place dominates x placed) (place dominates x (arrange dominates front)) := by
    rw [arrange, List.foldl_append]
    rfl
  have hnew : (x :: arrange dominates front).Nodup := by
    rw [(hfront.cons x).nodup_iff, List.nodup_cons]
    exact ⟨fun hx ↦ (hlater hx).1 rfl, (List.nodup_append.mp hnodup).1⟩
  rw [harrange, precedes_foldl_place hxback (hlater hy).2,
    precedes_place_iff hnew (hfront.mem_iff.mpr hy)]
  refine exists_congr fun z ↦ ?_
  rw [hfront.mem_iff]
  refine and_congr_right fun hz ↦ ?_
  rw [precedes_foldl_place (hlater hz).2 (hlater hy).2,
    precedes_place_of_ne (hlater hz).1 (hlater hy).1]

/-! ## Taking what is in slots -/

/-- If no slot is asked for twice, each is as it was when it is its turn. -/
theorem takeSlots_eq_filterMap {slots : List (Option α)} {positions : List Nat}
    (hnodup : positions.Nodup) :
    takeSlots slots positions = positions.filterMap (slots[·]?.join) := by
  induction positions generalizing slots with
  | nil => rfl
  | cons i positions ih =>
    obtain ⟨hi, hpositions⟩ := List.nodup_cons.mp hnodup
    rw [takeSlots, List.filterMap_cons]
    cases slots[i]?.join with
    | none => exact ih hpositions
    | some x =>
      refine congrArg (x :: ·) ((ih hpositions).trans ?_)
      refine List.filterMap_congr fun j hj ↦ ?_
      have hne : i ≠ j := by
        rintro rfl
        exact hi hj
      rw [List.getElem?_set_ne hne]

/-- From full slots every position is taken, if none is asked for twice. -/
theorem takeSlots_map_some (xs : List α) {positions : List Nat} (hnodup : positions.Nodup) :
    takeSlots (xs.map some) positions = positions.filterMap (xs[·]?) := by
  rw [takeSlots_eq_filterMap hnodup]
  refine List.filterMap_congr fun i _ ↦ ?_
  rw [List.getElem?_map]
  cases xs[i]? <;> rfl

theorem map_some_eq_map_range (xs : List α) :
    xs.map some = (List.range xs.length).map (xs[·]?) := by
  refine List.ext_getElem (by simp) fun i _ _ ↦ ?_
  simp

theorem filterMap_range (xs : List α) : (List.range xs.length).filterMap (xs[·]?) = xs := by
  have h := congrArg (List.filterMap id) (map_some_eq_map_range xs)
  rw [List.filterMap_map, List.filterMap_map] at h
  exact h.symm.trans List.filterMap_some

end BlockOrder

/-! ## The blocks of a function -/

namespace Function

open BlockOrder

variable {f : Function} {dominates : Reg → Reg → Bool} {i j : Nat}

theorem dominatesAt_of_getElem? {a b : Block} (ha : f.blocks[i]? = some a)
    (hb : f.blocks[j]? = some b) :
    f.dominatesAt dominates i j = dominates a.label b.label := by
  rw [dominatesAt, ha, hb]

/-- Every position stands in the new order, and stands there once. -/
theorem perm_linearOrder (f : Function) (dominates : Reg → Reg → Bool) :
    (f.linearOrder dominates).Perm (List.range f.blocks.length) :=
  perm_arrange _ _

theorem exists_block_of_mem_range (hi : i ∈ List.range f.blocks.length) :
    ∃ a, f.blocks[i]? = some a ∧ a.label ∈ f.labels := by
  have hi := List.mem_range.mp hi
  exact ⟨f.blocks[i], List.getElem?_eq_getElem hi, List.mem_map_of_mem (List.getElem_mem hi)⟩

/-! ### What becomes of the blocks -/

/-- A function whose order does not change is left as it is. -/
theorem linearize_of_linearOrder (h : f.linearOrder dominates = List.range f.blocks.length) :
    f.linearize dominates = (f, false) := by
  rw [linearize, if_pos (by rw [h, List.length_range])]

/-- Otherwise its blocks are taken in the new order. -/
theorem linearize_of_linearOrder_ne (h : f.linearOrder dominates ≠ List.range f.blocks.length) :
    f.linearize dominates =
      ({ f with blocks := takeSlots (f.blocks.map some) (f.linearOrder dominates) }, true) := by
  have hlength := (f.perm_linearOrder dominates).length_eq
  rw [List.length_range] at hlength
  rw [linearize, if_neg (by rwa [hlength])]

/-- That blocks have moved is reported just if the order changes. -/
theorem linearize_snd (f : Function) (dominates : Reg → Reg → Bool) :
    (f.linearize dominates).2 = true ↔
      f.linearOrder dominates ≠ List.range f.blocks.length := by
  by_cases h : f.linearOrder dominates = List.range f.blocks.length
  · rw [linearize_of_linearOrder h]
    exact iff_of_false Bool.false_ne_true (not_not.mpr h)
  · rw [linearize_of_linearOrder_ne h]
    exact iff_of_true rfl h

/-- Nothing but the blocks becomes another. -/
theorem linearize_fst (f : Function) (dominates : Reg → Reg → Bool) :
    (f.linearize dominates).1 =
      { f with blocks := (f.linearOrder dominates).filterMap (f.blocks[·]?) } := by
  by_cases h : f.linearOrder dominates = List.range f.blocks.length
  · rw [linearize_of_linearOrder h, h, filterMap_range]
  · have hnodup := (f.perm_linearOrder dominates).nodup_iff.mpr List.nodup_range
    rw [linearize_of_linearOrder_ne h, takeSlots_map_some f.blocks hnodup]

/-- No block is lost, and none is there twice. -/
theorem perm_blocks_linearize (f : Function) (dominates : Reg → Reg → Bool) :
    (f.linearize dominates).1.blocks.Perm f.blocks := by
  have h := (f.perm_linearOrder dominates).filterMap (f.blocks[·]?)
  rw [filterMap_range] at h
  rwa [linearize_fst]

/-- The blocks in their new order are those at the positions of this order. -/
theorem blocks_linearize (f : Function) (dominates : Reg → Reg → Bool) :
    (f.linearize dominates).1.blocks.map some =
      (f.linearOrder dominates).map (f.blocks[·]?) := by
  rw [linearize_fst, List.map_filterMap, ← List.filterMap_eq_map']
  refine List.filterMap_congr fun i hi ↦ ?_
  obtain ⟨a, ha, -⟩ := exists_block_of_mem_range ((f.perm_linearOrder dominates).mem_iff.mp hi)
  rw [ha, Option.map_some]

/-- Where nothing is reported to move, nothing has moved. -/
theorem linearize_fst_of_snd (h : (f.linearize dominates).2 = false) :
    (f.linearize dominates).1 = f := by
  have horder : f.linearOrder dominates = List.range f.blocks.length := by
    by_contra hne
    rw [(linearize_snd f dominates).mpr hne] at h
    cases h
  exact congrArg Prod.fst (linearize_of_linearOrder horder)

/-- Distinct blocks are as they were only if their order is. -/
theorem linearOrder_of_linearize (hnodup : f.blocks.Nodup)
    (h : (f.linearize dominates).1.blocks = f.blocks) :
    f.linearOrder dominates = List.range f.blocks.length := by
  have hlength := (f.perm_linearOrder dominates).length_eq
  have hmap : (f.linearOrder dominates).map (f.blocks[·]?) =
      (List.range f.blocks.length).map (f.blocks[·]?) := by
    rw [← blocks_linearize, h, map_some_eq_map_range]
  refine List.ext_getElem hlength fun p hp hp' ↦ ?_
  have hblock : f.blocks[(List.range f.blocks.length)[p]]? =
      f.blocks[(f.linearOrder dominates)[p]]? := by
    have hget := List.getElem_of_eq hmap ((List.length_map _).symm ▸ hp)
    rw [List.getElem_map, List.getElem_map] at hget
    exact hget.symm
  refine ((List.getElem?_inj ?_ hnodup).mp hblock).symm
  exact List.mem_range.mp (List.getElem_mem hp')

/-- For a function whose labels are distinct the flag tells whether it has changed. -/
theorem linearize_snd_of_nodup (hlabels : f.labels.Nodup) :
    (f.linearize dominates).2 = true ↔ (f.linearize dominates).1 ≠ f := by
  rw [linearize_snd, not_iff_not]
  constructor
  · exact fun h ↦ congrArg Prod.fst (linearize_of_linearOrder h)
  · exact fun h ↦ linearOrder_of_linearize hlabels.of_map (congrArg Function.blocks h)

/-! ### Where dominance is an order -/

/-- Dominance is an order on the labels of a function. -/
structure OrdersLabels (f : Function) (dominates : Reg → Reg → Bool) : Prop where
  refl : ∀ a ∈ f.labels, dominates a a = true
  trans : ∀ a ∈ f.labels, ∀ b ∈ f.labels, ∀ c ∈ f.labels,
    dominates a b = true → dominates b c = true → dominates a c = true
  antisymm : ∀ a ∈ f.labels, ∀ b ∈ f.labels, dominates a b = true → dominates b a = true → a = b

/-- In the new order no block dominates one before it. -/
theorem pairwise_linearOrder (hlabels : f.labels.Nodup)
    (horder : f.OrdersLabels dominates) :
    (f.linearOrder dominates).Pairwise fun i j ↦ f.dominatesAt dominates j i = false := by
  rw [linearOrder]
  refine pairwise_arrange List.nodup_range ?_ ?_
  · intro i hi j hj k hk
    obtain ⟨a, ha, hamem⟩ := exists_block_of_mem_range hi
    obtain ⟨b, hb, hbmem⟩ := exists_block_of_mem_range hj
    obtain ⟨c, hc, hcmem⟩ := exists_block_of_mem_range hk
    rw [dominatesAt_of_getElem? ha hb, dominatesAt_of_getElem? hb hc, dominatesAt_of_getElem? ha hc]
    exact horder.trans _ hamem _ hbmem _ hcmem
  · intro i hi j hj hij hji
    obtain ⟨a, ha, hamem⟩ := exists_block_of_mem_range hi
    obtain ⟨b, hb, hbmem⟩ := exists_block_of_mem_range hj
    rw [dominatesAt_of_getElem? ha hb] at hij
    rw [dominatesAt_of_getElem? hb ha] at hji
    have hlabel : f.labels[i]? = f.labels[j]? := by
      rw [labels, List.getElem?_map, List.getElem?_map, ha, hb, Option.map_some, Option.map_some,
        horder.antisymm _ hamem _ hbmem hij hji]
    refine (List.getElem?_inj ?_ hlabels).mp hlabel
    rw [labels, List.length_map]
    exact List.mem_range.mp hi

/-- In the new order no block dominates an earlier one. -/
theorem pairwise_linearize (hlabels : f.labels.Nodup)
    (horder : f.OrdersLabels dominates) :
    (f.linearize dominates).1.blocks.Pairwise fun a b ↦ dominates b.label a.label = false := by
  have h : ((f.linearize dominates).1.blocks.map some).Pairwise fun x y ↦
      ∀ a ∈ x, ∀ b ∈ y, dominates b.label a.label = false := by
    rw [blocks_linearize, List.pairwise_map]
    refine (pairwise_linearOrder hlabels horder).imp fun hij a ha b hb ↦ ?_
    exact (dominatesAt_of_getElem? hb ha).symm.trans hij
  rw [List.pairwise_map] at h
  exact h.imp fun hab ↦ hab _ rfl _ rfl

/-- Where labels are distinct and dominance is an order on them, no block comes after another one
that it dominates. -/
theorem linearOrder_respects_dominance (f : Function) (dominates : Reg → Reg → Bool)
    (hlabels : f.labels.Nodup)
    (horder : f.OrdersLabels dominates) :
    ∀ p q i j : Nat, p < q → (f.linearOrder dominates)[p]? = some i →
      (f.linearOrder dominates)[q]? = some j →
        ∃ a b : Block, f.blocks[i]? = some a ∧ f.blocks[j]? = some b ∧
          dominates b.label a.label = false := by
  intro p q i j hpq hp hq
  have hperm := f.perm_linearOrder dominates
  obtain ⟨a, ha, -⟩ := exists_block_of_mem_range (hperm.mem_iff.mp (List.mem_of_getElem? hp))
  obtain ⟨b, hb, -⟩ := exists_block_of_mem_range (hperm.mem_iff.mp (List.mem_of_getElem? hq))
  refine ⟨a, b, ha, hb, ?_⟩
  obtain ⟨hp', rfl⟩ := List.getElem?_eq_some_iff.mp hp
  obtain ⟨hq', rfl⟩ := List.getElem?_eq_some_iff.mp hq
  refine (dominatesAt_of_getElem? hb ha).symm.trans ?_
  exact List.pairwise_iff_getElem.mp (pairwise_linearOrder hlabels horder) p q hp' hq' hpq

/-- A function of five blocks, of which the fourth branches to the second. -/
def forked : Function where
  header := ⟨.opFunction, [.reg ⟨0⟩, .reg ⟨2⟩, .imm 0, .reg ⟨0⟩], .integer⟩
  blocks := [
    ⟨⟨1⟩, [⟨.opBranchConditional, [.reg ⟨7⟩, .reg ⟨4⟩, .reg ⟨5⟩], .integer⟩]⟩,
    ⟨⟨3⟩, [⟨.opReturn, [], .integer⟩]⟩,
    ⟨⟨4⟩, [⟨.opBranch, [.reg ⟨6⟩], .integer⟩]⟩,
    ⟨⟨5⟩, [⟨.opBranch, [.reg ⟨3⟩], .integer⟩]⟩,
    ⟨⟨6⟩, [⟨.opReturn, [], .integer⟩]⟩]

/-- The first block of `forked` before all others, and the fourth before the second. -/
def forkedOrder (a b : Reg) : Bool := a == b || a == ⟨1⟩ || a == ⟨5⟩ && b == ⟨3⟩

theorem ordersLabels_forked : forked.OrdersLabels forkedOrder :=
  ⟨by decide, by decide, by decide⟩

theorem linearOrder_respects_dominance_forked :
    forked.labels.Nodup ∧ forked.OrdersLabels forkedOrder ∧
      forked.linearOrder forkedOrder = [0, 3, 1, 2, 4] ∧
      ∃ a b : Block, forked.blocks[3]? = some a ∧ forked.blocks[1]? = some b ∧
        forkedOrder b.label a.label = false := by
  have hlabels : forked.labels.Nodup := by decide
  refine ⟨hlabels, ordersLabels_forked, by decide, ?_⟩
  exact linearOrder_respects_dominance forked forkedOrder hlabels ordersLabels_forked 1 2 3 1
    (by decide) (by decide) (by decide)

/-! ### Which blocks move -/

theorem exists_range_eq (h : j < i) :
    ∃ back, List.range i = List.range j ++ j :: back := by
  obtain ⟨m, rfl⟩ := Nat.exists_eq_add_of_lt h
  refine ⟨(List.range m).map fun k ↦ j + (k + 1), ?_⟩
  rw [Nat.add_assoc, List.range_add, List.range_succ_eq_map, List.map_cons, List.map_map]
  rfl

/-- Of two blocks the later comes first just if it dominates the other, or an earlier one than
itself that comes before the other. -/
theorem precedes_linearOrder_iff (f : Function) (dominates : Reg → Reg → Bool) (hij : i < j)
    (hj : j < f.blocks.length) :
    Precedes (f.linearOrder dominates) j i ↔
      ∃ k < j, f.dominatesAt dominates j k = true ∧
        (k = i ∨ Precedes (f.linearOrder dominates) k i) := by
  obtain ⟨back, hrange⟩ := exists_range_eq hj
  have hnodup : (List.range j ++ j :: back).Nodup := hrange ▸ List.nodup_range
  rw [linearOrder, hrange, precedes_arrange_iff hnodup (List.mem_range.mpr hij)]
  simp only [List.mem_range]

/-- An order in which no block dominates one before it stays as it is. -/
theorem linearOrder_of_forall (h : ∀ i j, i < j → f.dominatesAt dominates j i = false) :
    f.linearOrder dominates = List.range f.blocks.length := by
  rw [linearOrder]
  exact arrange_of_pairwise (List.pairwise_lt_range.imp (h _ _))

theorem dominatesAt_of_pairwise
    (h : f.blocks.Pairwise fun a b ↦ dominates b.label a.label = false) (hij : i < j) :
    f.dominatesAt dominates j i = false := by
  unfold dominatesAt
  split
  · next b a hb ha =>
    obtain ⟨hj, rfl⟩ := List.getElem?_eq_some_iff.mp hb
    obtain ⟨hi, rfl⟩ := List.getElem?_eq_some_iff.mp ha
    exact List.pairwise_iff_getElem.mp h i j hi hj hij
  · rfl

/-- Only blocks that have to move do, whatever relation dominance is: of two blocks the later comes
first just if it dominates the other, or an earlier one than itself that comes before the other.  So
nothing moves if no block dominates an earlier one. -/
theorem only_forced_blocks_move (f : Function) (dominates : Reg → Reg → Bool) :
    (∀ i j, i < j → j < f.blocks.length →
      (Precedes (f.linearOrder dominates) j i ↔
        ∃ k < j, f.dominatesAt dominates j k = true ∧
          (k = i ∨ Precedes (f.linearOrder dominates) k i))) ∧
      ((∀ i j, i < j → f.dominatesAt dominates j i = false) →
        f.linearOrder dominates = List.range f.blocks.length ∧
          f.linearize dominates = (f, false)) := by
  constructor
  · exact fun i j hij hj ↦ precedes_linearOrder_iff f dominates hij hj
  · intro h
    have horder := linearOrder_of_forall h
    exact ⟨horder, linearize_of_linearOrder horder⟩

theorem only_forced_blocks_move_forked :
    Precedes (forked.linearOrder forkedOrder) 3 1 ∧ Precedes (forked.linearOrder forkedOrder) 3 2 ∧
      forked.linearize (fun a b ↦ a == b) = (forked, false) := by
  have hmoves := (only_forced_blocks_move forked forkedOrder).1
  have hnext : Precedes (forked.linearOrder forkedOrder) 1 2 := ⟨[0, 3], [2, 4], by decide, by decide⟩
  refine ⟨?_, ?_, ?_⟩
  · exact (hmoves 1 3 (by decide) (by decide)).mpr ⟨1, by decide, by decide, .inl rfl⟩
  · exact (hmoves 2 3 (by decide) (by decide)).mpr ⟨1, by decide, by decide, .inr hnext⟩
  · exact ((only_forced_blocks_move forked fun a b ↦ a == b).2 fun i j ↦
      dominatesAt_of_pairwise (by decide)).2

end Function

/-! ## The functions of a module -/

namespace Module

variable {m : Module}

theorem functions_orderBlocks (m : Module) :
    m.orderBlocks.1.functions = m.functions.map fun f ↦ f.orderBlocks.1 := by
  simp [orderBlocks]

/-- A module is reported to change just if one of its functions is. -/
theorem orderBlocks_snd (m : Module) :
    m.orderBlocks.2 = true ↔ ∃ f ∈ m.functions, f.orderBlocks.2 = true := by
  simp [orderBlocks]

/-- A module stays as it is just if all of its functions do. -/
theorem orderBlocks_fst_eq_iff :
    m.orderBlocks.1 = m ↔ ∀ f ∈ m.functions, f.orderBlocks.1 = f := by
  constructor
  · intro h
    have hfunctions : m.functions.map (fun f ↦ f.orderBlocks.1) = m.functions.map id := by
      rw [← functions_orderBlocks, h, List.map_id]
    exact List.map_inj_left.mp hfunctions
  · intro h
    have hfunctions : m.orderBlocks.1.functions = m.functions := by
      rw [functions_orderBlocks]
      exact (List.map_congr_left h).trans (List.map_id' _)
    exact congrArg (fun functions ↦ { m with functions := functions }) hfunctions

/-- A module of which no block is said to have moved is as it was. -/
theorem orderBlocks_fst_of_snd (h : m.orderBlocks.2 = false) : m.orderBlocks.1 = m := by
  refine orderBlocks_fst_eq_iff.mpr fun f hf ↦ Function.linearize_fst_of_snd ?_
  rw [← Bool.not_eq_true] at h ⊢
  exact fun hmoved ↦ h ((orderBlocks_snd m).mpr ⟨f, hf, hmoved⟩)

/-- A module whose functions have distinct labels is said to have changed just if it has. -/
theorem orderBlocks_snd_of_nodup (h : ∀ f ∈ m.functions, f.labels.Nodup) :
    m.orderBlocks.2 = true ↔ m.orderBlocks.1 ≠ m := by
  rw [orderBlocks_snd, Ne, orderBlocks_fst_eq_iff, not_forall]
  refine exists_congr fun f ↦ ?_
  rw [Classical.not_imp]
  exact and_congr_right fun hf ↦ Function.linearize_snd_of_nodup (h f hf)

end Module

/-- Putting blocks in line moves them, and does nothing else.  For a function and any dominance the
new order has every position once, the blocks are those at these positions, and the flag tells
whether the order is another one.  Of a module it changes nothing but the order of the blocks in
each function, and if labels are distinct the flag tells whether the module is another one. -/
theorem linearization_only_permutes :
    (∀ (f : Function) (dominates : Reg → Reg → Bool),
      (f.linearOrder dominates).Perm (List.range f.blocks.length) ∧
      (∃ blocks, (f.linearize dominates).1 = { f with blocks } ∧
        blocks.map some = (f.linearOrder dominates).map (f.blocks[·]?)) ∧
      ((f.linearize dominates).2 = true ↔
        f.linearOrder dominates ≠ List.range f.blocks.length)) ∧
    ∀ m : Module, ∃ ordered changed, (Pass.blockOrder.run m).result = .ok (ordered, changed) ∧
      ordered.name = m.name ∧ ordered.globals = m.globals ∧
      List.Forall₂ (fun f f' : Function ↦
        ∃ blocks, f' = { f with blocks } ∧ blocks.Perm f.blocks) m.functions ordered.functions ∧
      ((∀ f ∈ m.functions, f.labels.Nodup) → (changed = true ↔ ordered ≠ m)) := by
  constructor
  · intro f dominates
    have hblocks := f.blocks_linearize dominates
    rw [Function.linearize_fst] at hblocks
    exact ⟨f.perm_linearOrder dominates, ⟨_, f.linearize_fst dominates, hblocks⟩,
      f.linearize_snd dominates⟩
  · intro m
    refine ⟨m.orderBlocks.1, m.orderBlocks.2, rfl, rfl, rfl, ?_, Module.orderBlocks_snd_of_nodup⟩
    rw [Module.functions_orderBlocks, List.forall₂_map_right_iff, List.forall₂_same]
    intro f _
    have hperm := f.perm_blocks_linearize f.dominatorTree.dominates
    rw [Function.linearize_fst] at hperm
    exact ⟨_, f.linearize_fst f.dominatorTree.dominates, hperm⟩

theorem linearization_only_permutes_forked :
    Function.forked.labels.Nodup ∧ ∃ ordered,
      (Pass.blockOrder.run ⟨"forked", [], [.forked]⟩).result = .ok (ordered, true) ∧
      ordered ≠ ⟨"forked", [], [.forked]⟩ := by
  have hlabels : Function.forked.labels.Nodup := by decide
  obtain ⟨ordered, changed, hrun, -, -, -, hchanged⟩ :=
    linearization_only_permutes.2 ⟨"forked", [], [.forked]⟩
  have hflag : changed = true := by
    have heval : (Module.orderBlocks ⟨"forked", [], [.forked]⟩).2 = true := by decide +kernel
    exact (congrArg Prod.snd (Except.ok.inj hrun)).symm.trans heval
  rw [hflag] at hrun
  exact ⟨hlabels, ordered, hrun, (hchanged (List.forall_mem_singleton.mpr hlabels)).mp hflag⟩

end SpirvText
