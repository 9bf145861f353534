import SpirvText.Command

/-!
# The clauses of a command line

A command line is made of clauses: the path of a source, a switch, or an option and its value.
Reading a clause changes the settings and goes on behind it (`parseFrom_arguments`).  What the
settings are then depends only on which clauses have been read (`Describes`), as long as no two of
them rival for the same setting: so the clauses of such a command line may come in any order.
-/

namespace SpirvText.Command

/-- A part of a command line that says one thing. -/
inductive Clause where
  | input (path : String) (hpath : isPath path = true)
  | kind (kind : OutputKind)
  | output (file : String)
  | dumpAfter (pass : String)
  | noComments | noSort | noValidate
  deriving DecidableEq

namespace Clause

def arguments : Clause → List String
  | input path _ => [path]
  | kind .assembly => ["--emit", "asm"]
  | kind .blocks => ["--emit", "blocks"]
  | output file => ["-o", file]
  | dumpAfter pass => ["--dump-after", pass]
  | noComments => ["--no-comments"]
  | noSort => ["--no-sort"]
  | noValidate => ["--no-validate"]

/-- Whether both clauses give the same setting a value. -/
def rivals : Clause → Clause → Bool
  | input .., input .. | kind _, kind _ | output _, output _ | dumpAfter _, dumpAfter _ => true
  | _, _ => false

theorem rivals_comm (c d : Clause) : c.rivals d = d.rivals c := by
  cases c <;> cases d <;> rfl

end Clause

def Settings.after (s : Settings) : Clause → Settings
  | .input path _ => { s with path := some path }
  | .kind kind => { s with kind }
  | .output file => { s with output := some file }
  | .dumpAfter pass => { s with dumpAfter := some pass }
  | .noComments => { s with options := { s.options with comments := false } }
  | .noSort => { s with options := { s.options with sortBlocks := false } }
  | .noValidate => { s with options := { s.options with validate := false } }

/-! ## Reading a clause -/

/-- What begins like an option is no path. -/
theorem ne_of_isPath {path option : String} (hpath : isPath path = true)
    (hoption : isPath option = false) : path ≠ option := by
  rintro rfl
  rw [hpath] at hoption
  cases hoption

/-- A path is taken for none of the options. -/
theorem parseFrom_path {s : Settings} (hnone : s.path = none) {path : String}
    (hpath : isPath path = true) (rest : List String) :
    parseFrom s (path :: rest) = parseFrom { s with path := some path } rest := by
  have hne : ∀ option, isPath option = false → (path == option) = false :=
    fun option hoption ↦ beq_false_of_ne (ne_of_isPath hpath hoption)
  rw [parseFrom.eq_def]
  simp only [hne "--help" (by decide), hne "-h" (by decide), hne "--version" (by decide),
    hne "-V" (by decide), hne "--emit" (by decide), hne "-o" (by decide),
    hne "--dump-after" (by decide), hne "--no-comments" (by decide), hne "--no-sort" (by decide),
    hne "--no-validate" (by decide), hpath, hnone, Bool.or_self, Bool.false_eq_true, if_false,
    if_true]

/-- The clause at the front of a command line is read as what it says, whatever comes after it. -/
theorem parseFrom_arguments (s : Settings) (c : Clause)
    (hinput : ∀ path hpath, c = .input path hpath → s.path = none) (rest : List String) :
    parseFrom s (c.arguments ++ rest) = parseFrom (s.after c) rest := by
  cases c with
  | input path hpath => exact parseFrom_path (hinput path hpath rfl) hpath rest
  | kind kind => cases kind <;> rfl
  | output | dumpAfter => rfl
  | noComments | noSort | noValidate =>
    rw [Clause.arguments, List.singleton_append, parseFrom.eq_def]
    rfl

/-! ## What clauses say -/

/-- The settings are those that the clauses give, and the defaults where they give none. -/
structure Describes (clauses : List Clause) (s : Settings) : Prop where
  path : ∀ path, s.path = some path ↔ ∃ hpath, .input path hpath ∈ clauses
  kind : ∀ kind, .kind kind ∈ clauses → s.kind = kind
  noKind : (∀ kind, .kind kind ∉ clauses) → s.kind = .assembly
  output : ∀ file, s.output = some file ↔ .output file ∈ clauses
  dumpAfter : ∀ pass, s.dumpAfter = some pass ↔ .dumpAfter pass ∈ clauses
  comments : s.options.comments = true ↔ .noComments ∉ clauses
  sortBlocks : s.options.sortBlocks = true ↔ .noSort ∉ clauses
  validate : s.options.validate = true ↔ .noValidate ∉ clauses

namespace Describes

variable {clauses front : List Clause} {s s' : Settings} {c : Clause}

theorem nil : Describes [] {} := by
  constructor <;> simp

/-- What clauses say does not depend on their order. -/
theorem perm (h : Describes clauses s) {reordered : List Clause}
    (hperm : reordered.Perm clauses) : Describes reordered s where
  path path := (h.path path).trans (exists_congr fun _ ↦ hperm.mem_iff.symm)
  kind kind hmem := h.kind kind (hperm.mem_iff.mp hmem)
  noKind hnone := h.noKind fun kind hmem ↦ hnone kind (hperm.mem_iff.mpr hmem)
  output file := (h.output file).trans hperm.mem_iff.symm
  dumpAfter pass := (h.dumpAfter pass).trans hperm.mem_iff.symm
  comments := h.comments.trans (not_congr hperm.mem_iff.symm)
  sortBlocks := h.sortBlocks.trans (not_congr hperm.mem_iff.symm)
  validate := h.validate.trans (not_congr hperm.mem_iff.symm)

/-- Clauses leave nothing open. -/
theorem unique (h : Describes clauses s) (h' : Describes clauses s') : s = s' := by
  have hpath : s.path = s'.path := Option.ext fun path ↦ (h.path path).trans (h'.path path).symm
  have hkind : s.kind = s'.kind := by
    by_cases hsome : ∃ kind, .kind kind ∈ clauses
    · obtain ⟨kind, hmem⟩ := hsome
      rw [h.kind kind hmem, h'.kind kind hmem]
    · have hnone : ∀ kind, .kind kind ∉ clauses := fun kind hmem ↦ hsome ⟨kind, hmem⟩
      rw [h.noKind hnone, h'.noKind hnone]
  have houtput : s.output = s'.output :=
    Option.ext fun file ↦ (h.output file).trans (h'.output file).symm
  have hdump : s.dumpAfter = s'.dumpAfter :=
    Option.ext fun pass ↦ (h.dumpAfter pass).trans (h'.dumpAfter pass).symm
  have hcomments := Bool.eq_iff_iff.mpr (h.comments.trans h'.comments.symm)
  have hsort := Bool.eq_iff_iff.mpr (h.sortBlocks.trans h'.sortBlocks.symm)
  have hvalidate := Bool.eq_iff_iff.mpr (h.validate.trans h'.validate.symm)
  obtain ⟨path, kind, output, dumpAfter, ⟨comments, sortBlocks, validate⟩⟩ := s
  obtain ⟨path', kind', output', dumpAfter', ⟨comments', sortBlocks', validate'⟩⟩ := s'
  rw [Settings.mk.injEq, Options.mk.injEq]
  exact ⟨hpath, hkind, houtput, hdump, hcomments, hsort, hvalidate⟩

/-- Of the clauses that rival with the last one, there is only that one. -/
theorem mem_concat_of_rivals (hc : ∀ d ∈ front, d.rivals c = false) {d : Clause}
    (hd : d.rivals c = true) : d ∈ front ++ [c] ↔ d = c := by
  have hfront : d ∉ front := by
    intro hmem
    rw [hc d hmem] at hd
    cases hd
  simp [hfront]

/-- One more clause, which gives no setting a second value. -/
theorem after (h : Describes front s) (hc : ∀ d ∈ front, d.rivals c = false) :
    Describes (front ++ [c]) (s.after c) := by
  -- field by field: a clause that is about something else leaves the field as it was
  refine ⟨fun path ↦ ?_, fun kind hkind ↦ ?_, fun hnone ↦ ?_, fun file ↦ ?_, fun pass ↦ ?_,
    ?_, ?_, ?_⟩
  · cases c with
    | input new hnew =>
      have hmem (hpath) := mem_concat_of_rivals hc (d := .input path hpath) rfl
      simp only [hmem]
      constructor
      · rintro ⟨⟩
        exact ⟨hnew, rfl⟩
      · rintro ⟨_, ⟨⟩⟩
        rfl
    | _ => simp [Settings.after, h.path]
  · cases c with
    | kind new =>
      cases (mem_concat_of_rivals hc rfl).mp hkind
      rfl
    | _ => exact h.kind kind (by simpa using hkind)
  · cases c with
    | kind new => exact absurd (List.mem_append_right _ (List.mem_singleton_self _)) (hnone new)
    | _ => exact h.noKind (by simpa using hnone)
  · cases c with
    | output new =>
      rw [mem_concat_of_rivals hc (d := .output file) rfl]
      simp [Settings.after, eq_comm]
    | _ => simp [Settings.after, h.output]
  · cases c with
    | dumpAfter new =>
      rw [mem_concat_of_rivals hc (d := .dumpAfter pass) rfl]
      simp [Settings.after, eq_comm]
    | _ => simp [Settings.after, h.dumpAfter]
  · cases c <;> simp [Settings.after, h.comments]
  · cases c <;> simp [Settings.after, h.sortBlocks]
  · cases c <;> simp [Settings.after, h.validate]

/-- An input without a rival is the first one. -/
theorem path_eq_none (h : Describes front s) (hc : ∀ d ∈ front, d.rivals c = false)
    (path : String) (hpath : isPath path = true) (hinput : c = .input path hpath) :
    s.path = none := by
  refine Option.eq_none_iff_forall_not_mem.mpr fun first hfirst ↦ ?_
  obtain ⟨_, hmem⟩ := (h.path first).mp hfirst
  have hrival := hc _ hmem
  rw [hinput] at hrival
  cases hrival

end Describes

/-! ## Reading all clauses -/

def Compatible (clauses : List Clause) : Prop := clauses.Pairwise fun c d ↦ c.rivals d = false

instance instDecidableCompatible (clauses : List Clause) : Decidable (Compatible clauses) :=
  inferInstanceAs (Decidable (clauses.Pairwise _))

theorem Compatible.perm {clauses reordered : List Clause} (h : Compatible clauses)
    (hperm : reordered.Perm clauses) : Compatible reordered :=
  hperm.symm.pairwise h fun {c d} hcd ↦ (d.rivals_comm c).trans hcd

/-- Clauses that are compatible with each other and with those in front of them are read as what
they say together. -/
theorem exists_describes_parseFrom {front clauses : List Clause} {s : Settings}
    (hfront : Describes front s) (hcompatible : Compatible (front ++ clauses)) :
    ∃ s', Describes (front ++ clauses) s' ∧
      parseFrom s (clauses.flatMap Clause.arguments) = .normalize <$> s'.request := by
  induction clauses generalizing front s with
  | nil => exact ⟨s, by rwa [List.append_nil], rfl⟩
  | cons c clauses ih =>
    have hc : ∀ d ∈ front, d.rivals c = false := fun d hd ↦
      (List.pairwise_append.mp hcompatible).2.2 d hd c List.mem_cons_self
    rw [List.append_cons] at hcompatible ⊢
    obtain ⟨s', hs', hparse⟩ := ih (hfront.after hc) hcompatible
    refine ⟨s', hs', ?_⟩
    rw [List.flatMap_cons, parseFrom_arguments s c (hfront.path_eq_none hc), hparse]

def Request.settings (r : Request) : Settings :=
  ⟨some r.path, r.kind, r.output, r.dumpAfter, r.options⟩

/-- Settings that name a source make up a request, and nothing of them is lost. -/
theorem Settings.exists_request {s : Settings} {path : String} (h : s.path = some path) :
    ∃ request : Request, s.request = .ok request ∧ request.settings = s := by
  obtain ⟨_, kind, output, dumpAfter, options⟩ := s
  cases h
  exact ⟨⟨path, kind, output, dumpAfter, options⟩, rfl, rfl⟩

/-- Clauses of which one is an input, and of which no two give the same setting a value, are read in
any order as the request that they describe. -/
theorem clauses_in_any_order {clauses : List Clause} (hcompatible : Compatible clauses)
    (hinput : ∃ path hpath, .input path hpath ∈ clauses) :
    ∃ request : Request, Describes clauses request.settings ∧
      ∀ reordered : List Clause, reordered.Perm clauses →
        parse (reordered.flatMap Clause.arguments) = .ok (.normalize request) := by
  obtain ⟨path, hpath, hmem⟩ := hinput
  obtain ⟨s, hs, -⟩ := exists_describes_parseFrom .nil hcompatible
  obtain ⟨request, hrequest, rfl⟩ := Settings.exists_request ((hs.path path).mpr ⟨hpath, hmem⟩)
  refine ⟨request, hs, fun reordered hperm ↦ ?_⟩
  obtain ⟨s', hs', hparse⟩ := exists_describes_parseFrom .nil (hcompatible.perm hperm)
  obtain rfl : s' = request.settings := (hs'.perm hperm.symm).unique hs
  rw [parse, hparse, hrequest]
  rfl

/-- Values that look like options, and a switch that is there twice. -/
theorem clauses_in_any_order_lookalikes :
    ∃ request : Request,
      (request.path = "-" ∧ request.kind = .blocks ∧ request.output = some "--help" ∧
        request.dumpAfter = some "-o" ∧ request.options.sortBlocks = false) ∧
      parse ["--no-sort", "-o", "--help", "-", "--dump-after", "-o", "--emit", "blocks",
        "--no-sort"] = .ok (.normalize request) ∧
      parse ["--dump-after", "-o", "--no-sort", "--no-sort", "--emit", "blocks", "-", "-o",
        "--help"] = .ok (.normalize request) := by
  have hcompatible : Compatible [.noSort, .output "--help", .input "-" rfl, .dumpAfter "-o",
    .kind .blocks, .noSort] := by decide
  obtain ⟨request, hdescribed, hparse⟩ := clauses_in_any_order hcompatible ⟨"-", rfl, by simp⟩
  refine ⟨request, ⟨?_, hdescribed.kind .blocks (by simp), (hdescribed.output _).mpr (by simp),
    (hdescribed.dumpAfter _).mpr (by simp), ?_⟩, hparse _ (.refl _), ?_⟩
  · exact Option.some.inj ((hdescribed.path "-").mpr ⟨rfl, by simp⟩)
  · exact Bool.eq_false_iff.mpr fun hsort ↦ hdescribed.sortBlocks.mp hsort (by simp)
  · exact hparse [.dumpAfter "-o", .noSort, .noSort, .kind .blocks, .input "-" rfl,
      .output "--help"] (by decide)

end SpirvText.Command
