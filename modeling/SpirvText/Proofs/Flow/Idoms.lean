import Mathlib.Data.List.Range
import SpirvText.FlowGraph.Dominators
import SpirvText.Proofs.Flow.Route

/-!
# The rounds that find immediate dominators

Here nodes are positions, the entry is position zero, and all that is known of their order is that
every other position has a predecessor before it (`Numbered`).  The table of dominators found so far
is a forest, `ancestors` being the way up.  Two facts about it are kept true:

* whatever dominates a position, other than itself, dominates its entry in the table (`sound`), so
  that dominators are always among the ancestors;
* after `k` rounds the ancestors of a position are on every route to it that has at most `k + 1`
  nodes (`near`).

A single update moves the ancestors of everything below the position, and not always up; but if `i`
is an ancestor of `j` then it is on each short route to `j`, and what becomes of the ancestors of
`i` is on that route as well.  This is why the second fact speaks of routes and not of the table of
the round before.

A route need not be longer than the number of positions, so after that many rounds ancestors and
dominators are the same, and the next round changes nothing.
-/

namespace SpirvText.Idoms

variable {preds : Array (List Nat)} {idoms : Idoms}

def Steps (preds : Array (List Nat)) (p i : Nat) : Prop := p ∈ preds[i]?.getD []

abbrev PosRoute (preds : Array (List Nat)) : Nat → List Nat → Prop := Route (· = 0) (Steps preds)

abbrev PosDominates (preds : Array (List Nat)) : Nat → Nat → Prop :=
  Dominates (· = 0) (Steps preds)

/-- The positions of a graph in an order in which every one but the entry has a predecessor before
it. -/
structure Numbered (preds : Array (List Nat)) : Prop where
  pos : 0 < preds.size
  bound : ∀ i p, Steps preds p i → p < preds.size
  earlier : ∀ i, 0 < i → i < preds.size → ∃ p, p < i ∧ Steps preds p i

theorem Steps.lt_size {p i : Nat} (h : Steps preds p i) : i < preds.size := by
  by_contra hi
  simp [Steps, Array.getElem?_eq_none (Nat.not_lt.mp hi)] at h

namespace Numbered

theorem lt_of_route (h : Numbered preds) {i : Nat} {l : List Nat}
    (hl : PosRoute preds i l) : ∀ x ∈ l, x < preds.size := by
  refine hl.forall_mem (P := (· < preds.size)) ?_ ?_
  · rintro a rfl
    exact h.pos
  · intro a b _ hs
    exact hs.lt_size

/-- Every position has a route that only goes through positions up to it. -/
theorem exists_ascending (h : Numbered preds) {i : Nat} (hi : i < preds.size) :
    ∃ l, PosRoute preds i l ∧ ∀ x ∈ l, x ≤ i := by
  induction i using Nat.strongRecOn with
  | ind i ih =>
    rcases Nat.eq_zero_or_pos i with rfl | hpos
    · exact ⟨[0], .start rfl, by simp⟩
    · obtain ⟨p, hp, hs⟩ := h.earlier i hpos hi
      obtain ⟨l, hl, hle⟩ := ih p hp (hp.trans hi)
      refine ⟨i :: l, hl.step hs, fun x hx ↦ ?_⟩
      rcases List.mem_cons.mp hx with rfl | hx
      · exact Nat.le_refl _
      · exact (hle x hx).trans hp.le

/-- Every position can be reached, for it has a predecessor before it. -/
theorem reaches_iff (h : Numbered preds) {i : Nat} :
    Reaches (· = 0) (Steps preds) i ↔ i < preds.size := by
  constructor
  · rintro ⟨l, hl⟩
    exact h.lt_of_route hl i hl.mem_self
  · intro hi
    obtain ⟨l, hl, -⟩ := h.exists_ascending hi
    exact ⟨l, hl⟩

/-- A dominator stands before what it dominates. -/
theorem le_of_dominates (h : Numbered preds) {a i : Nat}
    (hd : PosDominates preds a i) : a ≤ i := by
  obtain ⟨l, hl, hle⟩ := h.exists_ascending (h.reaches_iff.mp hd.1)
  exact hle a (hd.2 l hl)

/-- No route need have more nodes than there are positions. -/
theorem exists_short (h : Numbered preds) {i : Nat} {l : List Nat}
    (hl : PosRoute preds i l) :
    ∃ r, PosRoute preds i r ∧ r.length ≤ preds.size ∧ r ⊆ l := by
  obtain ⟨r, hr, hnodup, hsub⟩ := hl.exists_nodup
  refine ⟨r, hr, ?_, hsub⟩
  have hrange : r ⊆ List.range preds.size := fun x hx ↦ List.mem_range.mpr (h.lt_of_route hr x hx)
  simpa using hnodup.length_le_of_subset hrange

end Numbered

/-! ## The way up -/

theorem isKnown_iff {i : Nat} : idoms.isKnown i = true ↔ ∃ d, idoms[i]? = some (some d) := by
  unfold isKnown
  cases idoms[i]? with
  | none => simp
  | some x => cases x <;> simp

/-- A dominator that is known stays known. -/
theorem isKnown_set {i j : Nat} (h : idoms.isKnown j = true) (d : Nat) :
    isKnown (idoms.setIfInBounds i (some d)) j = true := by
  obtain ⟨d', hd'⟩ := isKnown_iff.mp h
  by_cases hji : i = j
  · obtain ⟨hlt, -⟩ := Array.getElem?_eq_some_iff.mp hd'
    subst hji
    exact isKnown_iff.mpr ⟨d, Array.getElem?_setIfInBounds_self_of_lt hlt⟩
  · exact isKnown_iff.mpr ⟨d', (Array.getElem?_setIfInBounds_ne hji).trans hd'⟩

@[simp] theorem up?_zero (idoms : Idoms) : idoms.up? 0 = none := by
  unfold up?
  split <;> simp

theorem up?_of_lt {i d : Nat} (h : idoms[i]? = some (some d)) (hd : d < i) :
    idoms.up? i = some ⟨d, hd⟩ := by
  simp [up?, h, hd]

/-- The way up goes along the entries of the table. -/
theorem getElem?_of_up? {i : Nat} {d : { d : Nat // d < i }} (h : idoms.up? i = some d) :
    idoms[i]? = some (some d.1) := by
  unfold up? at h
  split at h
  · next e he =>
    split at h
    · cases h
      exact he
    · cases h
  · cases h

theorem up?_congr {idoms' : Idoms} {i : Nat} (h : idoms'[i]? = idoms[i]?) :
    idoms'.up? i = idoms.up? i := by
  unfold up?
  rw [h]

/-- The positions above and including `i`. -/
def ancestors (idoms : Idoms) (i : Nat) : List Nat :=
  i :: match idoms.up? i with
    | some ⟨d, _⟩ => ancestors idoms d
    | none => []
termination_by i

theorem mem_ancestors_self (idoms : Idoms) (i : Nat) : i ∈ idoms.ancestors i := by
  rw [ancestors]
  exact List.mem_cons_self

theorem ancestors_of_up? {i : Nat} {d : { d : Nat // d < i }} (h : idoms.up? i = some d) :
    idoms.ancestors i = i :: idoms.ancestors d.1 := by
  rw [ancestors, h]

theorem ancestors_of_up?_none {i : Nat} (h : idoms.up? i = none) : idoms.ancestors i = [i] := by
  rw [ancestors, h]

/-- The way up leads to smaller positions. -/
theorem le_of_mem_ancestors {a i : Nat} (h : a ∈ idoms.ancestors i) : a ≤ i := by
  induction i using Nat.strongRecOn with
  | ind i ih =>
    cases hup : idoms.up? i with
    | none =>
      rw [ancestors_of_up?_none hup] at h
      exact (List.mem_singleton.mp h).le
    | some d =>
      rw [ancestors_of_up? hup] at h
      rcases List.mem_cons.mp h with rfl | h
      · exact Nat.le_refl _
      · exact (ih d.1 d.2 h).trans d.2.le

/-- The way up from an ancestor is the end of the way up. -/
theorem suffix_ancestors {a i : Nat} (h : a ∈ idoms.ancestors i) :
    idoms.ancestors a <:+ idoms.ancestors i := by
  induction i using Nat.strongRecOn with
  | ind i ih =>
    cases hup : idoms.up? i with
    | none =>
      rw [ancestors_of_up?_none hup] at h
      obtain rfl := List.mem_singleton.mp h
      exact List.suffix_refl _
    | some d =>
      rw [ancestors_of_up? hup] at h
      rcases List.mem_cons.mp h with rfl | h
      · exact List.suffix_refl _
      · rw [ancestors_of_up? hup]
        exact (ih d.1 d.2 h).trans (List.suffix_cons _ _)

/-- What is above a position is above all that is below it. -/
theorem mem_ancestors_trans {a b c : Nat} (hab : a ∈ idoms.ancestors b)
    (hbc : b ∈ idoms.ancestors c) : a ∈ idoms.ancestors c :=
  (suffix_ancestors hbc).subset hab

def depth (idoms : Idoms) (i : Nat) : Nat := (idoms.ancestors i).length - 1

/-- A position has as many positions above it as its depth says. -/
theorem length_ancestors (idoms : Idoms) (i : Nat) :
    (idoms.ancestors i).length = idoms.depth i + 1 :=
  (Nat.sub_add_cancel (List.length_pos_of_mem (mem_ancestors_self idoms i))).symm

theorem depth_zero (idoms : Idoms) : idoms.depth 0 = 0 := by
  rw [depth, ancestors_of_up?_none (up?_zero idoms), List.length_singleton]

theorem depth_of_up? {i : Nat} {d : { d : Nat // d < i }} (h : idoms.up? i = some d) :
    idoms.depth i = idoms.depth d.1 + 1 := by
  rw [depth, ancestors_of_up? h, List.length_cons, Nat.add_sub_cancel, length_ancestors]

/-- An ancestor is as many steps up as the two are apart in depth. -/
theorem getElem?_ancestors_of_mem {a i : Nat} (h : a ∈ idoms.ancestors i) :
    (idoms.ancestors i)[idoms.depth i - idoms.depth a]? = some a := by
  obtain ⟨front, hfront⟩ := suffix_ancestors h
  have hlength := congrArg List.length hfront
  rw [List.length_append, length_ancestors, length_ancestors] at hlength
  have hsteps : idoms.depth i - idoms.depth a = front.length := by omega
  rw [← hfront, hsteps, List.getElem?_append_right (Nat.le_refl _), Nat.sub_self, ancestors]
  rfl

/-- The depth gets less on the way up. -/
theorem depth_lt_of_mem_ancestors {a i : Nat} (h : a ∈ idoms.ancestors i) (hne : a ≠ i) :
    idoms.depth a < idoms.depth i := by
  have hsuffix := suffix_ancestors h
  have hle := hsuffix.length_le
  rw [length_ancestors, length_ancestors] at hle
  refine Nat.lt_of_le_of_ne (Nat.le_of_succ_le_succ hle) fun heq ↦ hne ?_
  have hsame := hsuffix.eq_of_length (by rw [length_ancestors, length_ancestors, heq])
  rw [ancestors, ancestors.eq_def idoms i] at hsame
  exact (List.cons.inj hsame).1

/-- Setting a position leaves the way up from the positions before it as it is. -/
theorem ancestors_set_of_lt {i j : Nat} (v : Option Nat) (h : j < i) :
    ancestors (idoms.setIfInBounds i v) j = idoms.ancestors j := by
  induction j using Nat.strongRecOn with
  | ind j ih =>
    have hup : up? (idoms.setIfInBounds i v) j = idoms.up? j :=
      up?_congr (Array.getElem?_setIfInBounds_ne h.ne')
    cases hd : idoms.up? j with
    | none => rw [ancestors_of_up?_none hd, ancestors_of_up?_none (hup.trans hd)]
    | some d =>
      rw [ancestors_of_up? hd, ancestors_of_up? (hup.trans hd), ih d.1 d.2 (d.2.trans h)]

/-- After setting a position, the way up from `j` is the old one, or else it goes through that
position. -/
theorem mem_ancestors_set {i j a : Nat} (v : Option Nat)
    (h : a ∈ ancestors (idoms.setIfInBounds i v) j) :
    a ∈ idoms.ancestors j ∨
      i ∈ idoms.ancestors j ∧ a ∈ ancestors (idoms.setIfInBounds i v) i := by
  induction j using Nat.strongRecOn with
  | ind j ih =>
    by_cases hij : i = j
    · subst hij
      exact .inr ⟨mem_ancestors_self _ _, h⟩
    · have hup : up? (idoms.setIfInBounds i v) j = idoms.up? j :=
        up?_congr (Array.getElem?_setIfInBounds_ne hij)
      cases hd : idoms.up? j with
      | none =>
        rw [ancestors_of_up?_none (hup.trans hd)] at h
        exact .inl (List.mem_singleton.mp h ▸ mem_ancestors_self _ _)
      | some d =>
        rw [ancestors_of_up? (hup.trans hd)] at h
        rw [ancestors_of_up? hd]
        rcases List.mem_cons.mp h with rfl | h
        · exact .inl List.mem_cons_self
        · rcases ih d.1 d.2 h with h | ⟨hi, h⟩
          · exact .inl (.tail _ h)
          · exact .inr ⟨.tail _ hi, h⟩

/-! ## What the rounds keep true -/

/-- What holds of a table of dominators whose entries take routes into account that have at most
`bound i` nodes. -/
structure Invariant (preds : Array (List Nat)) (bound : Nat → Nat) (idoms : Idoms) : Prop where
  size : idoms.size = preds.size
  entry : idoms[0]? = some (some 0)
  up : ∀ i d, 0 < i → idoms[i]? = some (some d) → d < i ∧ idoms.isKnown d = true
  sound : ∀ i d a, 0 < i → idoms[i]? = some (some d) →
    PosDominates preds a i → a ≠ i → PosDominates preds a d
  near : ∀ i l, PosRoute preds i l → l.length ≤ bound i →
    idoms.isKnown i = true ∧ idoms.ancestors i ⊆ l

namespace Invariant

variable {bound : Nat → Nat}

/-- The way up from a known position does not break off before the entry. -/
theorem exists_up? (h : Invariant preds bound idoms) {i : Nat} (hi : idoms.isKnown i = true)
    (hpos : 0 < i) : ∃ d : { d : Nat // d < i }, idoms.up? i = some d ∧
      idoms.isKnown d.1 = true := by
  obtain ⟨d, hd⟩ := isKnown_iff.mp hi
  obtain ⟨hlt, hknown⟩ := h.up i d hpos hd
  exact ⟨⟨d, hlt⟩, up?_of_lt hd hlt, hknown⟩

/-- The way up from a position that is known goes through positions that are. -/
theorem isKnown_of_mem_ancestors (h : Invariant preds bound idoms) {a i : Nat}
    (hi : idoms.isKnown i = true) (ha : a ∈ idoms.ancestors i) : idoms.isKnown a = true := by
  induction i using Nat.strongRecOn with
  | ind i ih =>
    rcases Nat.eq_zero_or_pos i with rfl | hpos
    · rw [ancestors_of_up?_none (up?_zero _)] at ha
      exact List.mem_singleton.mp ha ▸ hi
    · obtain ⟨d, hup, hd⟩ := h.exists_up? hi hpos
      rw [ancestors_of_up? hup] at ha
      rcases List.mem_cons.mp ha with rfl | ha
      · exact hi
      · exact ih d.1 d.2 hd ha

/-- Dominators are ancestors. -/
theorem mem_ancestors_of_dominates (h : Invariant preds bound idoms) {a i : Nat}
    (hi : idoms.isKnown i = true) (hd : PosDominates preds a i) :
    a ∈ idoms.ancestors i := by
  induction i using Nat.strongRecOn with
  | ind i ih =>
    by_cases hne : a = i
    · exact hne ▸ mem_ancestors_self _ _
    · rcases Nat.eq_zero_or_pos i with rfl | hpos
      · exact absurd (List.mem_singleton.mp (hd.2 [0] (.start rfl))) hne
      · obtain ⟨d, hup, hknown⟩ := h.exists_up? hi hpos
        rw [ancestors_of_up? hup]
        exact .tail _ (ih d.1 d.2 hknown (h.sound i d.1 a hpos (getElem?_of_up? hup) hd hne))

/-! ### Common ancestors -/

/-- Two known positions meet in a common ancestor, which everything dominates that dominates both
of them. -/
theorem meet?_spec (hn : Numbered preds) (h : Invariant preds bound idoms) (i j : Nat)
    (hi : idoms.isKnown i = true) (hj : idoms.isKnown j = true) :
    ∃ m, idoms.meet? i j = some m ∧ m ∈ idoms.ancestors i ∧ m ∈ idoms.ancestors j ∧
      ∀ a, PosDominates preds a i → PosDominates preds a j →
        PosDominates preds a m := by
  induction hs : i + j using Nat.strongRecOn generalizing i j with
  | ind s ih =>
    subst hs
    rw [meet?]
    rcases Nat.lt_trichotomy i j with hlt | rfl | hgt
    · obtain ⟨d, hup, hknown⟩ := h.exists_up? hj (Nat.zero_lt_of_lt hlt)
      obtain ⟨m, hm, hmi, hmd, hdom⟩ := ih (i + d.1) (Nat.add_lt_add_left d.2 i) i d.1 hi hknown rfl
      rw [if_neg hlt.ne, if_pos hlt, hup]
      refine ⟨m, hm, hmi, ?_, fun a hai haj ↦ hdom a hai ?_⟩
      · rw [ancestors_of_up? hup]
        exact .tail _ hmd
      · have hne : a ≠ j := ((hn.le_of_dominates hai).trans_lt hlt).ne
        exact h.sound j d.1 a (Nat.zero_lt_of_lt hlt) (getElem?_of_up? hup) haj hne
    · rw [if_pos rfl]
      exact ⟨i, rfl, mem_ancestors_self _ _, mem_ancestors_self _ _, fun a hai _ ↦ hai⟩
    · obtain ⟨d, hup, hknown⟩ := h.exists_up? hi (Nat.zero_lt_of_lt hgt)
      obtain ⟨m, hm, hmd, hmj, hdom⟩ :=
        ih (d.1 + j) (Nat.add_lt_add_right d.2 j) d.1 j hknown hj rfl
      rw [if_neg hgt.ne', if_neg hgt.not_gt, hup]
      refine ⟨m, hm, ?_, hmj, fun a hai haj ↦ hdom a ?_ haj⟩
      · rw [ancestors_of_up? hup]
        exact .tail _ hmd
      · have hne : a ≠ i := ((hn.le_of_dominates haj).trans_lt hgt).ne
        exact h.sound i d.1 a (Nat.zero_lt_of_lt hgt) (getElem?_of_up? hup) hai hne

/-- Known positions that are taken one after the other have a common ancestor with `i`. -/
theorem foldlM_meet?_spec (hn : Numbered preds) (h : Invariant preds bound idoms) (ps : List Nat)
    (hps : ∀ p ∈ ps, idoms.isKnown p = true) (i : Nat) (hi : idoms.isKnown i = true) :
    ∃ m, ps.foldlM (fun best p ↦
        match best with
        | none => some (some p)
        | some i => (idoms.meet? p i).map some) (some i) = some (some m) ∧
      m ∈ idoms.ancestors i ∧ (∀ p ∈ ps, m ∈ idoms.ancestors p) ∧
      ∀ a, PosDominates preds a i →
        (∀ p ∈ ps, PosDominates preds a p) →
        PosDominates preds a m := by
  induction ps generalizing i with
  | nil => exact ⟨i, rfl, mem_ancestors_self _ _, by simp, fun a ha _ ↦ ha⟩
  | cons p ps ih =>
    obtain ⟨m, hm, hmp, hmi, hdom⟩ := h.meet?_spec hn p i (hps p List.mem_cons_self) hi
    obtain ⟨m', hm', hmem, hall, hdom'⟩ := ih (fun q hq ↦ hps q (.tail _ hq)) m
      (h.isKnown_of_mem_ancestors hi hmi)
    refine ⟨m', ?_, mem_ancestors_trans hmem hmi, ?_, ?_⟩
    · rw [List.foldlM_cons]
      simp only [hm, Option.map_some]
      exact hm'
    · intro q hq
      rcases List.mem_cons.mp hq with rfl | hq
      · exact mem_ancestors_trans hmem hmp
      · exact hall q hq
    · intro a hai hap
      exact hdom' a (hdom a (hap p List.mem_cons_self) hai) fun q hq ↦ hap q (.tail _ hq)

/-- The known predecessors of a position have a common ancestor, once there are any. -/
theorem common?_spec (hn : Numbered preds) (h : Invariant preds bound idoms) (ps : List Nat)
    (hps : ∃ p ∈ ps, idoms.isKnown p = true) :
    ∃ m, idoms.common? ps = some (some m) ∧
      (∀ p ∈ ps, idoms.isKnown p = true → m ∈ idoms.ancestors p) ∧
      ∀ a, (∀ p ∈ ps, PosDominates preds a p) →
        PosDominates preds a m := by
  unfold common?
  have hall : ∀ p ∈ ps.filter idoms.isKnown, p ∈ ps ∧ idoms.isKnown p = true := fun p hp ↦
    List.mem_filter.mp hp
  cases hfilter : ps.filter idoms.isKnown with
  | nil =>
    obtain ⟨p, hp, hknown⟩ := hps
    have : p ∈ ps.filter idoms.isKnown := List.mem_filter.mpr ⟨hp, hknown⟩
    rw [hfilter] at this
    exact absurd this List.not_mem_nil
  | cons q qs =>
    rw [hfilter] at hall
    obtain ⟨m, hm, hmq, hmqs, hdom⟩ := h.foldlM_meet?_spec hn qs
      (fun p hp ↦ (hall p (.tail _ hp)).2) q (hall q List.mem_cons_self).2
    refine ⟨m, ?_, fun p hp hknown ↦ ?_, fun a ha ↦ ?_⟩
    · rw [List.foldlM_cons]
      exact hm
    · have hmem : p ∈ q :: qs := hfilter ▸ List.mem_filter.mpr ⟨hp, hknown⟩
      rcases List.mem_cons.mp hmem with rfl | hmem
      · exact hmq
      · exact hmqs p hmem
    · exact hdom a (ha q (hall q List.mem_cons_self).1) fun p hp ↦ ha p (hall p (.tail _ hp)).1

end Invariant

/-! ### One round -/

namespace Invariant

variable {bound : Nat → Nat}

/-- The entry needs no rounds. -/
theorem raise_entry (h : Invariant preds bound idoms) (k : Nat) :
    Invariant preds (fun j ↦ if j < 1 then k else bound j) idoms where
  size := h.size
  entry := h.entry
  up := h.up
  sound := h.sound
  near := by
    intro i l hl hlen
    rcases Nat.eq_zero_or_pos i with rfl | hpos
    · refine ⟨isKnown_iff.mpr ⟨0, h.entry⟩, ?_⟩
      rw [ancestors_of_up?_none (up?_zero _)]
      exact List.cons_subset.mpr ⟨hl.mem_self, List.nil_subset _⟩
    · rw [if_neg (Nat.not_lt.mpr hpos)] at hlen
      exact h.near i l hl hlen

/-- Working out the dominator of a position takes routes to it into account that have one node more
than those to its predecessors. -/
theorem improve? (hn : Numbered preds) {k i : Nat}
    (h : Invariant preds (fun j ↦ if j < i then k + 1 else k) idoms)
    (hknown : ∀ j < i, idoms.isKnown j = true) (hpos : 0 < i) (hi : i < preds.size) :
    ∃ idoms', Idoms.improve? preds idoms i = some idoms' ∧
      Invariant preds (fun j ↦ if j < i + 1 then k + 1 else k) idoms' ∧
      ∀ j < i + 1, idoms'.isKnown j = true := by
  obtain ⟨p₀, hp₀, hs₀⟩ := hn.earlier i hpos hi
  obtain ⟨m, hm, hmem, hdom⟩ := h.common?_spec hn (preds[i]?.getD []) ⟨p₀, hs₀, hknown p₀ hp₀⟩
  have hmi : m < i := (le_of_mem_ancestors (hmem p₀ hs₀ (hknown p₀ hp₀))).trans_lt hp₀
  set idoms' : Idoms := idoms.setIfInBounds i (some m) with hidoms'
  have hself : idoms'[i]? = some (some m) := by
    rw [hidoms', Array.getElem?_setIfInBounds_self_of_lt (h.size ▸ hi)]
  have hother : ∀ j, j ≠ i → idoms'[j]? = idoms[j]? := fun j hj ↦
    Array.getElem?_setIfInBounds_ne hj.symm
  have hmono : ∀ j, idoms.isKnown j = true → idoms'.isKnown j = true := fun j hj ↦
    isKnown_set hj m
  -- the routes to `i` with at most `k + 1` nodes go through the new ancestors of `i`
  have hnear : ∀ l, PosRoute preds i l → l.length ≤ k + 1 → idoms'.ancestors i ⊆ l := by
    intro l hl hlen
    obtain ⟨p, r, hr, hs, rfl⟩ := hl.exists_step hpos.ne'
    have hrlen : r.length ≤ k := Nat.le_of_succ_le_succ hlen
    obtain ⟨hpknown, hsub⟩ := h.near p r hr (hrlen.trans (by split <;> omega))
    rw [ancestors_of_up? (up?_of_lt hself hmi), ancestors_set_of_lt _ hmi]
    refine List.cons_subset_cons i fun a ha ↦ hsub ?_
    exact mem_ancestors_trans ha (hmem p hs hpknown)
  refine ⟨idoms', by simp [Idoms.improve?, hm, hidoms'], ⟨?size, ?entry, ?up, ?sound, ?near⟩, ?_⟩
  case size => rw [hidoms', Array.size_setIfInBounds, h.size]
  case entry => rw [hother 0 hpos.ne, h.entry]
  case up =>
    intro j d hj hd
    by_cases hji : j = i
    · subst hji
      obtain rfl : m = d := by simpa [hself] using hd
      exact ⟨hmi, hmono m (hknown m hmi)⟩
    · obtain ⟨hlt, hk⟩ := h.up j d hj ((hother j hji).symm.trans hd)
      exact ⟨hlt, hmono d hk⟩
  case sound =>
    intro j d a hj hd ha hne
    by_cases hji : j = i
    · subst hji
      obtain rfl : m = d := by simpa [hself] using hd
      exact hdom a fun p hp ↦ ha.of_step hne (hn.reaches_iff.mpr (hn.bound j p hp)) hp
    · exact h.sound j d a hj ((hother j hji).symm.trans hd) ha hne
  case near =>
    intro j l hl hlen
    by_cases hji : j = i
    · subst hji
      refine ⟨isKnown_iff.mpr ⟨m, hself⟩, hnear l hl (hlen.trans ?_)⟩
      rw [if_pos (Nat.lt_succ_self j)]
    · have hold : l.length ≤ if j < i then k + 1 else k := by
        refine hlen.trans (Nat.le_of_eq ?_)
        simp only [Nat.lt_succ_iff, Nat.le_iff_lt_or_eq, hji, or_false]
      obtain ⟨hjknown, hsub⟩ := h.near j l hl hold
      refine ⟨hmono j hjknown, fun a ha ↦ ?_⟩
      rcases mem_ancestors_set (some m) ha with ha | ⟨hij, ha⟩
      · exact hsub ha
      · obtain ⟨r, hr, hsuffix⟩ := hl.exists_suffix (hsub hij)
        refine hsuffix.subset (hnear r hr ?_ ha)
        exact hsuffix.length_le.trans (hold.trans (by split <;> omega))
  · intro j hj
    rcases Nat.lt_succ_iff_lt_or_eq.mp hj with hj | rfl
    · exact hmono j (hknown j hj)
    · exact isKnown_iff.mpr ⟨m, hself⟩

/-- The positions from `i` on, one after the other. -/
theorem foldlM_improve? (hn : Numbered preds) {k : Nat} (n i : Nat) (idoms : Idoms)
    (h : Invariant preds (fun j ↦ if j < i then k + 1 else k) idoms)
    (hknown : ∀ j < i, idoms.isKnown j = true) (hpos : 0 < i) (hi : i + n = preds.size) :
    ∃ idoms', (List.range' i n).foldlM (Idoms.improve? preds) idoms = some idoms' ∧
      Invariant preds (fun _ ↦ k + 1) idoms' := by
  induction n generalizing i idoms with
  | zero =>
    refine ⟨idoms, rfl, h.size, h.entry, h.up, h.sound, fun j l hl hlen ↦ h.near j l hl ?_⟩
    have hj : j < preds.size := hn.lt_of_route hl j hl.mem_self
    rwa [if_pos (by omega)]
  | succ n ih =>
    obtain ⟨idoms₁, hstep, h₁, hknown₁⟩ := h.improve? hn hknown hpos (by omega)
    obtain ⟨idoms₂, hrest, h₂⟩ := ih (i + 1) idoms₁ h₁ hknown₁ (Nat.succ_pos i) (by omega)
    refine ⟨idoms₂, ?_, h₂⟩
    rw [List.range'_succ, List.foldlM_cons, hstep]
    exact hrest

/-- A round takes routes into account that have one node more. -/
theorem round? (hn : Numbered preds) {k : Nat} (h : Invariant preds (fun _ ↦ k) idoms) :
    ∃ idoms', Idoms.round? preds idoms = some idoms' ∧
      Invariant preds (fun _ ↦ k + 1) idoms' := by
  have hpos := hn.pos
  refine foldlM_improve? hn (preds.size - 1) 1 idoms (h.raise_entry (k + 1)) ?_ Nat.one_pos (by omega)
  intro j hj
  obtain rfl : j = 0 := by omega
  exact isKnown_iff.mpr ⟨0, h.entry⟩

end Invariant

/-! ### All rounds -/

namespace Invariant

/-- Only the entry is known before the first round. -/
theorem initial (hn : Numbered preds) :
    Invariant preds (fun _ ↦ 1) (FlowGraph.initialIdoms preds.size) := by
  have hentry : (FlowGraph.initialIdoms preds.size)[0]? = some (some 0) := by
    rw [FlowGraph.initialIdoms, Array.getElem?_setIfInBounds_self_of_lt (by simpa using hn.pos)]
  have hother : ∀ i d, 0 < i → (FlowGraph.initialIdoms preds.size)[i]? ≠ some (some d) := by
    intro i d hi
    rw [FlowGraph.initialIdoms, Array.getElem?_setIfInBounds_ne hi.ne, Array.getElem?_replicate]
    split <;> simp
  refine ⟨by simp [FlowGraph.initialIdoms], hentry, ?_, ?_, ?_⟩
  · intro i d hi hd
    exact absurd hd (hother i d hi)
  · intro i d a hi hd
    exact absurd hd (hother i d hi)
  · intro i l hl hlen
    cases hl with
    | start hi =>
      subst hi
      refine ⟨isKnown_iff.mpr ⟨0, hentry⟩, ?_⟩
      rw [ancestors_of_up?_none (up?_zero _)]
      exact List.Subset.refl _
    | step hr _ =>
      have := List.length_pos_of_mem hr.mem_self
      simp only [List.length_cons] at hlen
      omega

/-- Once all routes that matter have been taken into account, every position is known. -/
theorem isKnown (hn : Numbered preds) {k : Nat} (h : Invariant preds (fun _ ↦ k) idoms)
    (hk : preds.size ≤ k) {i : Nat} (hi : i < preds.size) : idoms.isKnown i = true := by
  obtain ⟨l, hl, -⟩ := hn.exists_ascending hi
  obtain ⟨r, hr, hlen, -⟩ := hn.exists_short hl
  exact (h.near i r hr (hlen.trans hk)).1

/-- Then the ancestors of a position are its dominators. -/
theorem mem_ancestors_iff (hn : Numbered preds) {k : Nat} (h : Invariant preds (fun _ ↦ k) idoms)
    (hk : preds.size ≤ k) {a i : Nat} (hi : i < preds.size) :
    a ∈ idoms.ancestors i ↔ PosDominates preds a i := by
  constructor
  · intro ha
    refine ⟨hn.reaches_iff.mpr hi, fun l hl ↦ ?_⟩
    obtain ⟨r, hr, hlen, hsub⟩ := hn.exists_short hl
    exact hsub ((h.near i r hr (hlen.trans hk)).2 ha)
  · exact h.mem_ancestors_of_dominates (h.isKnown hn hk hi)

/-- And the entries of the table are settled. -/
theorem unique (hn : Numbered preds) {k k' : Nat} {idoms' : Idoms}
    (h : Invariant preds (fun _ ↦ k) idoms) (h' : Invariant preds (fun _ ↦ k') idoms')
    (hk : preds.size ≤ k) (hk' : preds.size ≤ k') : idoms' = idoms := by
  -- an entry is the last of the dominators before the position
  have key : ∀ {t t' : Idoms} {k k' : Nat} (_ : Invariant preds (fun _ ↦ k) t)
      (_ : Invariant preds (fun _ ↦ k') t') (_ : preds.size ≤ k) (_ : preds.size ≤ k')
      (i : Nat) (d : { d : Nat // d < i }) (d' : { d : Nat // d < i }), i < preds.size →
      t.up? i = some d → t'.up? i = some d' → d.1 ≤ d'.1 := by
    intro t t' k k' ht ht' hk hk' i d d' hi hd hd'
    have hmem : d.1 ∈ t.ancestors i := by
      rw [ancestors_of_up? hd]
      exact .tail _ (mem_ancestors_self _ _)
    have hmem' : d.1 ∈ t'.ancestors i :=
      (ht'.mem_ancestors_iff hn hk' hi).mpr ((ht.mem_ancestors_iff hn hk hi).mp hmem)
    rw [ancestors_of_up? hd'] at hmem'
    rcases List.mem_cons.mp hmem' with heq | hmem'
    · exact absurd heq d.2.ne
    · exact le_of_mem_ancestors hmem'
  refine Array.ext_getElem? fun i ↦ ?_
  by_cases hi : i < preds.size
  · rcases Nat.eq_zero_or_pos i with rfl | hpos
    · rw [h.entry, h'.entry]
    · obtain ⟨d, hd, -⟩ := h.exists_up? (h.isKnown hn hk hi) hpos
      obtain ⟨d', hd', -⟩ := h'.exists_up? (h'.isKnown hn hk' hi) hpos
      have hle := key h h' hk hk' i d d' hi hd hd'
      have hge := key h' h hk' hk i d' d hi hd' hd
      rw [getElem?_of_up? hd, getElem?_of_up? hd', Nat.le_antisymm hge hle]
  · rw [Array.getElem?_eq_none (h'.size ▸ Nat.not_lt.mp hi),
      Array.getElem?_eq_none (h.size ▸ Nat.not_lt.mp hi)]

/-- A table that a round leaves as it is takes all routes into account. -/
theorem of_round?_eq (hn : Numbered preds) {k : Nat} (h : Invariant preds (fun _ ↦ k) idoms)
    (hround : Idoms.round? preds idoms = some idoms) (n : Nat) :
    Invariant preds (fun _ ↦ k + n) idoms := by
  induction n with
  | zero => exact h
  | succ n ih =>
    obtain ⟨idoms', hidoms', h'⟩ := ih.round? hn
    obtain rfl : idoms = idoms' := Option.some.inj (hround.symm.trans hidoms')
    exact h'

/-- The rounds come to an end before the fuel does. -/
theorem settle? (hn : Numbered preds) (fuel k : Nat) (idoms : Idoms)
    (h : Invariant preds (fun _ ↦ k) idoms) (hfuel : preds.size < k + fuel) (hpos : 0 < fuel) :
    ∃ idoms', Idoms.settle? preds fuel idoms = some idoms' ∧
      Invariant preds (fun _ ↦ preds.size) idoms' := by
  induction fuel generalizing k idoms with
  | zero => exact absurd hpos (Nat.lt_irrefl 0)
  | succ fuel ih =>
    obtain ⟨next, hnext, h'⟩ := h.round? hn
    have hunfold : Idoms.settle? preds (fuel + 1) idoms =
        if next = idoms then some idoms else Idoms.settle? preds fuel next := by
      rw [Idoms.settle?, hnext]
      rfl
    by_cases heq : next = idoms
    · subst heq
      refine ⟨next, by rw [hunfold, if_pos rfl], ?_⟩
      have hall := h.of_round?_eq hn hnext preds.size
      exact ⟨hall.size, hall.entry, hall.up, hall.sound, fun i l hl hlen ↦
        hall.near i l hl (hlen.trans (Nat.le_add_left _ _))⟩
    · have hk : k < preds.size := by
        by_contra hk
        exact heq (h.unique hn h' (Nat.not_lt.mp hk) ((Nat.not_lt.mp hk).trans (Nat.le_succ k)))
      rw [hunfold, if_neg heq]
      exact ih (k + 1) next h' (by omega) (by omega)

end Invariant

/-- The dominators that the rounds find are those of the graph. -/
theorem settle?_initialIdoms (hn : Numbered preds) :
    ∃ idoms, Idoms.settle? preds (preds.size * preds.size + 2)
        (FlowGraph.initialIdoms preds.size) = some idoms ∧
      Invariant preds (fun _ ↦ preds.size) idoms := by
  refine Invariant.settle? hn _ 1 _ (.initial hn) ?_ (Nat.succ_pos _)
  have := Nat.le_mul_self preds.size
  omega

end SpirvText.Idoms
