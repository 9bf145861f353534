import SpirvText.Proofs.Flow.Route

/-!
# Reverse postorder

The depth-first walk keeps the labels that it has come to in one sequence: those on its path, the
outermost first, and then those that it has left.  Leaving a label does not change the sequence, and
coming to a new one puts it right behind the path.  So the sequence starts with the entry at all
times, and every other label in it comes after one that leads to it.

Two more facts make the last sequence the one that is wanted: no target of a label that the walk has
left is missing from it, and the fuel is enough for the walk to leave every label, so that it is the
end of a whole walk (`Walks`) and not of one that was broken off.

The walk itself counts the targets that it has looked at, and keeps the labels that it has come to
in a set of their own.  `Walks` has the targets that are still to be looked at instead, and needs no
such set: it is what is on the path or has been left (`walks_walk`).
-/

namespace SpirvText.FlowGraph

variable {g : FlowGraph}

/-- What the labels of a graph in reverse postorder have in common with any sequence that the walk
goes through: they start with the entry, none is there twice, and every label but the entry comes
after one that leads to it. -/
structure Ordered (g : FlowGraph) (order : List Reg) : Prop where
  head : order.head? = some g.entry
  nodup : order.Nodup
  preceded : ∀ l x r, order = l ++ x :: r → l ≠ [] → ∃ p ∈ l, x ∈ g.edges.targets p

/-- The labels of a sequence in which every label comes after one that leads to it can be
reached. -/
theorem Ordered.reaches {order : List Reg} (h : Ordered g order) :
    ∀ x ∈ order, Reaches (· = g.entry) (fun a b ↦ b ∈ g.edges.targets a) x := by
  suffices H : ∀ n l x r, l.length = n → order = l ++ x :: r →
      Reaches (· = g.entry) (fun a b ↦ b ∈ g.edges.targets a) x by
    intro x hx
    obtain ⟨l, r, heq⟩ := List.append_of_mem hx
    exact H l.length l x r rfl heq
  intro n
  induction n using Nat.strongRecOn with
  | ind n ih =>
    intro l x r hn heq
    by_cases hl : l = []
    · subst hl
      have hhead := h.head
      rw [heq] at hhead
      obtain rfl := Option.some.inj hhead
      exact ⟨_, .start rfl⟩
    · obtain ⟨p, hp, hstep⟩ := h.preceded l x r heq hl
      obtain ⟨l', r', rfl⟩ := List.append_of_mem hp
      obtain ⟨route, hroute⟩ := ih l'.length (by rw [← hn]; simp) l' p (r' ++ x :: r) rfl
        (by rw [heq]; simp)
      exact ⟨_, hroute.step hstep⟩

/-- A new label may stand anywhere after one that leads to it. -/
theorem Ordered.insert {front back : List Reg} {label target : Reg}
    (h : Ordered g (front ++ back)) (hlabel : label ∈ front)
    (htarget : target ∈ g.edges.targets label) (hnew : target ∉ front ++ back) :
    Ordered g (front ++ target :: back) := by
  have hne : front ≠ [] := List.ne_nil_of_mem hlabel
  refine ⟨?_, List.nodup_middle.mpr (List.nodup_cons.mpr ⟨hnew, h.nodup⟩), ?_⟩
  · rw [List.head?_append_of_ne_nil _ hne, ← List.head?_append_of_ne_nil _ hne]
    exact h.head
  · intro l x r heq hl
    rcases List.append_eq_append_iff.mp heq with ⟨m, rfl, hm⟩ | ⟨m, hm, hr⟩
    · cases m with
      | nil =>
        obtain ⟨rfl, rfl⟩ := List.cons.inj hm
        exact ⟨label, List.mem_append_left [] hlabel, htarget⟩
      | cons y m =>
        obtain ⟨rfl, rfl⟩ := List.cons.inj hm
        obtain ⟨p, hp, hstep⟩ := h.preceded (front ++ m) x r (by simp)
          (List.append_ne_nil_of_left_ne_nil hne m)
        refine ⟨p, ?_, hstep⟩
        rw [List.mem_append] at hp ⊢
        exact hp.imp id (.tail _)
    · cases m with
      | nil =>
        obtain ⟨rfl, rfl⟩ := List.cons.inj hr
        rw [List.append_nil] at hm
        exact ⟨label, hm ▸ hlabel, htarget⟩
      | cons y m =>
        obtain ⟨rfl, rfl⟩ := List.cons.inj hr
        exact h.preceded l x (m ++ back) (by rw [hm]; simp) hl

/-! ## The walk -/

def seen (path : List (Reg × List Reg)) (done : List Reg) : List Reg :=
  (path.map (·.1)).reverse ++ done

/-- What the walk keeps true of its path and of the labels that it has left. -/
structure WalkInvariant (g : FlowGraph) (path : List (Reg × List Reg)) (done : List Reg) :
    Prop where
  ordered : Ordered g (seen path done)
  /-- What is still to be looked at are targets. -/
  pending : ∀ e ∈ path, e.2 ⊆ g.edges.targets e.1
  /-- Targets of a label on the path are still to be looked at, or have been come to. -/
  onPath : ∀ e ∈ path, ∀ t ∈ g.edges.targets e.1, t ∈ e.2 ∨ t ∈ seen path done
  /-- Targets of a label that the walk has left have been come to. -/
  left : ∀ a ∈ done, ∀ t ∈ g.edges.targets a, t ∈ seen path done

theorem mem_seen {path : List (Reg × List Reg)} {done : List Reg} {x : Reg} :
    x ∈ seen path done ↔ x ∈ path.map (·.1) ∨ x ∈ done := by
  simp [seen]

/-- The walk begins at the entry with nothing left behind. -/
theorem walkInvariant_start (g : FlowGraph) :
    WalkInvariant g [(g.entry, g.edges.targets g.entry)] [] where
  ordered :=
    { head := rfl
      nodup := List.nodup_singleton _
      preceded := by
        intro l x r heq hl
        cases l with
        | nil => exact absurd rfl hl
        | cons a l => simp [seen] at heq }
  pending := by simp
  onPath := by
    intro e he t ht
    obtain rfl := List.mem_singleton.mp he
    exact .inl ht
  left := by simp

/-- Leaving a label whose targets have all been looked at. -/
theorem WalkInvariant.leave {label : Reg} {path : List (Reg × List Reg)} {done : List Reg}
    (h : WalkInvariant g ((label, []) :: path) done) : WalkInvariant g path (label :: done) := by
  have hseen : seen path (label :: done) = seen ((label, []) :: path) done := by simp [seen]
  refine ⟨hseen ▸ h.ordered, fun e he ↦ h.pending e (.tail _ he), fun e he ↦ ?_, fun a ha t ht ↦ ?_⟩
  · rw [hseen]
    exact h.onPath e (.tail _ he)
  · rw [hseen]
    rcases List.mem_cons.mp ha with rfl | ha
    · exact (h.onPath _ List.mem_cons_self t ht).resolve_left List.not_mem_nil
    · exact h.left a ha t ht

/-- Passing over a target that has been come to. -/
theorem WalkInvariant.pass {label target : Reg} {targets : List Reg}
    {path : List (Reg × List Reg)} {done : List Reg}
    (h : WalkInvariant g ((label, target :: targets) :: path) done)
    (hmem : target ∈ seen ((label, targets) :: path) done) :
    WalkInvariant g ((label, targets) :: path) done := by
  have hseen :
      seen ((label, targets) :: path) done = seen ((label, target :: targets) :: path) done :=
    by simp [seen]
  refine ⟨hseen ▸ h.ordered, ?_, ?_, fun a ha t ht ↦ hseen ▸ h.left a ha t ht⟩
  · intro e he
    rcases List.mem_cons.mp he with rfl | he
    · exact List.Subset.trans (List.subset_cons_self _ _) (h.pending _ List.mem_cons_self)
    · exact h.pending e (.tail _ he)
  · intro e he t ht
    rcases List.mem_cons.mp he with rfl | he
    · rcases h.onPath _ List.mem_cons_self t ht with hin | hin
      · rcases List.mem_cons.mp hin with rfl | hin
        · exact .inr hmem
        · exact .inl hin
      · exact .inr (hseen ▸ hin)
    · exact (h.onPath e (.tail _ he) t ht).imp id fun hin ↦ hseen ▸ hin

/-- Coming to a target for the first time. -/
theorem WalkInvariant.enter {label target : Reg} {targets : List Reg}
    {path : List (Reg × List Reg)} {done : List Reg}
    (h : WalkInvariant g ((label, target :: targets) :: path) done)
    (hmem : target ∉ seen ((label, targets) :: path) done) :
    WalkInvariant g ((target, g.edges.targets target) :: (label, targets) :: path) done := by
  set front := (((label, targets) :: path).map (·.1)).reverse with hfront
  have hold : seen ((label, target :: targets) :: path) done = front ++ done := by
    simp [seen, hfront]
  have hnew : seen ((target, g.edges.targets target) :: (label, targets) :: path) done =
      front ++ target :: done := by simp [seen, hfront]
  have hsub : ∀ t, t ∈ front ++ done → t ∈ front ++ target :: done := by
    intro t ht
    rcases List.mem_append.mp ht with ht | ht
    · exact List.mem_append.mpr (.inl ht)
    · exact List.mem_append.mpr (.inr (.tail _ ht))
  refine ⟨?_, ?_, ?_, ?_⟩
  · rw [hnew]
    have hlabel : label ∈ front := by simp [hfront]
    exact (hold ▸ h.ordered).insert hlabel (h.pending _ List.mem_cons_self List.mem_cons_self) hmem
  · intro e he
    rcases List.mem_cons.mp he with rfl | he
    · exact List.Subset.refl _
    · rcases List.mem_cons.mp he with rfl | he
      · exact List.Subset.trans (List.subset_cons_self _ _) (h.pending _ List.mem_cons_self)
      · exact h.pending e (.tail _ he)
  · intro e he t ht
    rw [hnew]
    rcases List.mem_cons.mp he with rfl | he
    · exact .inl ht
    · rcases List.mem_cons.mp he with rfl | he
      · rcases h.onPath _ List.mem_cons_self t ht with hin | hin
        · rcases List.mem_cons.mp hin with rfl | hin
          · exact .inr (List.mem_append.mpr (.inr List.mem_cons_self))
          · exact .inl hin
        · exact .inr (hsub t (hold ▸ hin))
      · exact (h.onPath e (.tail _ he) t ht).imp id fun hin ↦ hsub t (hold ▸ hin)
  · intro a ha t ht
    rw [hnew]
    exact hsub t (hold ▸ h.left a ha t ht)

/-- The walk step by step: from a path, and the labels that have been left, to the labels that have
been left when nothing is on the path any more. -/
inductive Walks (edges : Edges) : List (Reg × List Reg) → List Reg → List Reg → Prop
  | stop {done : List Reg} : Walks edges [] done done
  | leave {label : Reg} {path : List (Reg × List Reg)} {done all : List Reg} :
    Walks edges path (label :: done) all → Walks edges ((label, []) :: path) done all
  | pass {label target : Reg} {targets : List Reg} {path : List (Reg × List Reg)}
      {done all : List Reg} :
    target ∈ seen ((label, targets) :: path) done →
      Walks edges ((label, targets) :: path) done all →
        Walks edges ((label, target :: targets) :: path) done all
  | enter {label target : Reg} {targets : List Reg} {path : List (Reg × List Reg)}
      {done all : List Reg} :
    target ∉ seen ((label, targets) :: path) done →
      Walks edges ((target, edges.targets target) :: (label, targets) :: path) done all →
        Walks edges ((label, target :: targets) :: path) done all

/-- What every step keeps true is true in the end. -/
theorem Walks.invariant {path : List (Reg × List Reg)} {done all : List Reg}
    (h : Walks g.edges path done all) (hinv : WalkInvariant g path done) :
    WalkInvariant g [] all := by
  induction h with
  | stop => exact hinv
  | leave _ ih => exact ih hinv.leave
  | pass hmem _ ih => exact ih (hinv.pass hmem)
  | enter hmem _ ih => exact ih (hinv.enter hmem)

/-! ## The fuel -/

/-- The steps that the targets of labels not come to yet may take: two for each target, one to look
at it and one to leave it. -/
def unseenWork (edges : Edges) (seen : List Reg) : Nat :=
  2 * (edges.flatMap fun e ↦ if e.1 ∈ seen then [] else e.2).length

/-- The steps that the labels on the path may take themselves. -/
def pathWork (path : List (Reg × List Reg)) : Nat :=
  path.length + 2 * (path.flatMap (·.2)).length

theorem pathWork_cons (label : Reg) (targets : List Reg) (path : List (Reg × List Reg)) :
    pathWork ((label, targets) :: path) = 1 + 2 * targets.length + pathWork path := by
  simp only [pathWork, List.flatMap_cons, List.length_append, List.length_cons]
  omega

/-- The more labels have been come to, the less is left to do. -/
theorem unseenWork_le (edges : Edges) {s t : List Reg} (h : s ⊆ t) :
    unseenWork edges t ≤ unseenWork edges s := by
  induction edges with
  | nil => exact Nat.le_refl _
  | cons e edges ih =>
    simp only [unseenWork, List.flatMap_cons, List.length_append] at ih ⊢
    by_cases hs : e.1 ∈ s
    · simpa only [hs, h hs, if_true, List.length_nil, Nat.zero_add] using ih
    · simp only [hs, if_false]
      split
      · rw [List.length_nil]
        omega
      · omega

/-- Coming to a label pays for its targets. -/
theorem unseenWork_add_le (edges : Edges) {s t : List Reg} {x : Reg} (hx : x ∉ s)
    (ht : ∀ y, y ∈ t ↔ y = x ∨ y ∈ s) :
    unseenWork edges t + 2 * (edges.targets x).length ≤ unseenWork edges s := by
  have hst : s ⊆ t := fun y hy ↦ (ht y).mpr (.inr hy)
  induction edges with
  | nil => exact Nat.le_refl _
  | cons e edges ih =>
    obtain ⟨label, targets⟩ := e
    simp only [unseenWork, Edges.targets, List.flatMap_cons, List.length_append,
      List.lookup_cons] at ih ⊢
    by_cases hl : x = label
    · subst hl
      have hmono := unseenWork_le edges hst
      simp only [unseenWork] at hmono
      simp only [beq_self_eq_true, hx, (ht x).mpr (.inl rfl), if_true, if_false,
        Option.getD_some, List.length_nil]
      omega
    · have hmem : label ∈ t ↔ label ∈ s := by
        rw [ht label]
        exact or_iff_right (Ne.symm hl)
      simp only [beq_eq_false_iff_ne.mpr hl, hmem]
      omega

theorem unseenWork_nil (edges : Edges) :
    unseenWork edges [] = 2 * (edges.flatMap (·.2)).length := by
  simp only [unseenWork, List.not_mem_nil, if_false]

/-- The path that a stack stands for: each label with the targets that are still to be looked
at. -/
def pathOf (edges : Edges) (stack : List (Reg × Nat)) : List (Reg × List Reg) :=
  stack.map fun e ↦ (e.1, (edges.targets e.1).drop e.2)

theorem pathOf_cons_of_none {edges : Edges} {label : Reg} {next : Nat} (stack : List (Reg × Nat))
    (h : (edges.targets label)[next]? = none) :
    pathOf edges ((label, next) :: stack) = (label, []) :: pathOf edges stack := by
  rw [pathOf, List.map_cons, List.drop_eq_nil_of_le (List.getElem?_eq_none_iff.mp h)]
  rfl

theorem pathOf_cons_of_some {edges : Edges} {label target : Reg} {next : Nat}
    (stack : List (Reg × Nat)) (h : (edges.targets label)[next]? = some target) :
    pathOf edges ((label, next) :: stack) =
      (label, target :: (edges.targets label).drop (next + 1)) :: pathOf edges stack := by
  obtain ⟨hlt, rfl⟩ := List.getElem?_eq_some_iff.mp h
  rw [pathOf, List.map_cons, List.drop_eq_getElem_cons hlt]
  rfl

/-- With enough fuel the walk leaves every label that it has come to, if the labels that it keeps as
visited are those on its path and those that it has left. -/
theorem walks_walk (edges : Edges) (fuel : Nat) (stack : List (Reg × Nat)) (visited done : List Reg)
    (hvisited : ∀ x, x ∈ visited ↔ x ∈ seen (pathOf edges stack) done)
    (hfuel : pathWork (pathOf edges stack) + unseenWork edges (seen (pathOf edges stack) done) <
      fuel) :
    Walks edges (pathOf edges stack) done (walk edges fuel stack visited done) := by
  induction fuel generalizing stack visited done with
  | zero => exact absurd hfuel (Nat.not_lt_zero _)
  | succ fuel ih =>
    match stack with
    | [] => exact .stop
    | (label, next) :: stack =>
      rw [walk]
      cases htarget : (edges.targets label)[next]? with
      | none =>
        rw [pathOf_cons_of_none stack htarget] at hvisited hfuel ⊢
        have hseen : seen (pathOf edges stack) (label :: done) =
            seen ((label, []) :: pathOf edges stack) done := by simp [seen]
        refine .leave (ih stack visited (label :: done) ?_ ?_)
        · rwa [hseen]
        · rw [pathWork_cons] at hfuel
          rw [hseen]
          omega
      | some target =>
        rw [pathOf_cons_of_some stack htarget] at hvisited hfuel ⊢
        have hpath : pathOf edges ((label, next + 1) :: stack) =
            (label, (edges.targets label).drop (next + 1)) :: pathOf edges stack := rfl
        have hwork : pathWork ((label, target :: (edges.targets label).drop (next + 1)) ::
            pathOf edges stack) = 2 + pathWork (pathOf edges ((label, next + 1) :: stack)) := by
          rw [hpath, pathWork_cons, pathWork_cons, List.length_cons]
          omega
        have hseen : seen ((label, target :: (edges.targets label).drop (next + 1)) ::
            pathOf edges stack) done = seen (pathOf edges ((label, next + 1) :: stack)) done := by
          simp [seen, hpath]
        rw [hseen] at hvisited hfuel
        rw [hwork] at hfuel
        by_cases hmem : target ∈ visited
        · simp only [List.contains_iff_mem.mpr hmem, if_true]
          exact .pass ((hvisited target).mp hmem) (ih _ visited done hvisited (by omega))
        · have hnew := (hvisited target).not.mp hmem
          have hgrown : ∀ y,
              y ∈ seen (pathOf edges ((target, 0) :: (label, next + 1) :: stack)) done ↔
              y = target ∨ y ∈ seen (pathOf edges ((label, next + 1) :: stack)) done := by
            intro y
            simp only [pathOf, mem_seen, List.map_cons, List.mem_cons, or_assoc]
          have hpay := unseenWork_add_le edges hnew hgrown
          have henter : pathWork (pathOf edges ((target, 0) :: (label, next + 1) :: stack)) =
              1 + 2 * (edges.targets target).length +
                pathWork (pathOf edges ((label, next + 1) :: stack)) := pathWork_cons ..
          simp only [List.contains_iff_mem, hmem, if_false]
          refine .enter hnew (ih ((target, 0) :: (label, next + 1) :: stack) (target :: visited)
            done (fun y ↦ ?_) (by omega))
          rw [List.mem_cons, hvisited, hgrown]

/-! ## The numbering -/

/-- The walk from the entry comes to its end. -/
theorem walks_reversePostorder (g : FlowGraph) :
    Walks g.edges [(g.entry, g.edges.targets g.entry)] [] g.reversePostorder := by
  refine walks_walk g.edges _ [(g.entry, 0)] [g.entry] [] (fun x ↦ .rfl) ?_
  have hpay := unseenWork_add_le g.edges (s := []) (t := [g.entry]) (x := g.entry)
    List.not_mem_nil (fun y ↦ by simp)
  have hpath : pathOf g.edges [(g.entry, 0)] = [(g.entry, g.edges.targets g.entry)] := rfl
  have hseen : seen [(g.entry, g.edges.targets g.entry)] [] = [g.entry] := rfl
  rw [unseenWork_nil] at hpay
  simp only [hpath, hseen, pathWork, walkFuel, List.flatMap_cons, List.flatMap_nil,
    List.append_nil, List.length_cons, List.length_nil]
  omega

/-- The labels in reverse postorder start with the entry, and every other one comes after one that
leads to it. -/
theorem walkInvariant_reversePostorder (g : FlowGraph) :
    WalkInvariant g [] g.reversePostorder :=
  (walks_reversePostorder g).invariant (walkInvariant_start g)

/-- The labels in reverse postorder are ordered, for the walk comes to its end. -/
theorem ordered_reversePostorder (g : FlowGraph) : Ordered g g.reversePostorder :=
  (walkInvariant_reversePostorder g).ordered

/-- No target of a label in reverse postorder is missing. -/
theorem mem_reversePostorder_of_mem_targets {a b : Reg} (ha : a ∈ g.reversePostorder)
    (hb : b ∈ g.edges.targets a) : b ∈ g.reversePostorder :=
  (walkInvariant_reversePostorder g).left a ha b hb

/-- The labels in reverse postorder are those that can be reached. -/
theorem mem_reversePostorder_iff (g : FlowGraph) (a : Reg) :
    a ∈ g.reversePostorder ↔ Reaches (· = g.entry) (fun a b ↦ b ∈ g.edges.targets a) a := by
  refine ⟨(ordered_reversePostorder g).reaches a, ?_⟩
  rintro ⟨l, hl⟩
  refine hl.forall_mem (P := (· ∈ g.reversePostorder)) ?_ ?_ a hl.mem_self
  · rintro a rfl
    exact List.mem_of_mem_head? (ordered_reversePostorder g).head
  · intro a b ha hb
    exact mem_reversePostorder_of_mem_targets ha hb

end SpirvText.FlowGraph
