/-
  Rejected lines. Each gives one diagnostic at its location, no code, and returns the state
  unchanged (`compileLine_of_rejects`). By induction over the lines and the modules, the sources
  with the rejected lines emptied (`Text.emptyLines`) compile without diagnostics to the same code
  and the same final state (`rejected_lines_isolated`). Lines are identified by their places in
  `Nat`, which do not wrap. Pairs are not fused here, so that every significant line is a step.
-/
import Mathlib
import HackVM.Proofs.Pairs
import HackVM.Proofs.SourceLines

namespace HackVM

open Assembly Compile

/-! ## One line -/

namespace Compile

/-- The line is malformed, or its command is refused by `lower` in state `s`. -/
def rejects (moduleName : String) (s : State) (line : Line) : Bool :=
  match line.item moduleName with
  | .ok command => !(lower s command.opcode).isOk
  | .error _ => true

/-- `compileStep` of the item of a line. -/
def compileLine (options : Options) (moduleName : String) (s : State) (line : Line) :
    Emission × State :=
  compileStep options s (Step.ofItem (line.item moduleName))

/-- Severity and location of a diagnostic. -/
def place (diagnostic : Diagnostic) : Severity × Location :=
  (diagnostic.severity, diagnostic.location)

theorem place_diagnose {s : State} {command : Command} {refusal : Refusal}
    (h : lower s command.opcode = .error refusal) :
    place (diagnose refusal.fault (some command)) = (.error, command.location) := by
  have hfault := (of_lower_error h).2
  cases hkind : refusal.fault with
  | malformed location message => exact absurd hkind (hfault location message)
  | _ => rfl

theorem location_item {moduleName : String} {line : Line} {command : Command}
    (h : line.item moduleName = .ok command) : command.location = ⟨moduleName, line.number⟩ := by
  unfold Line.item at h
  dsimp only at h
  split at h
  · cases h
    rfl
  · cases h

theorem malformed_of_item {moduleName : String} {line : Line} {fault : Fault}
    (h : line.item moduleName = .error fault) :
    ∃ message, fault = .malformed ⟨moduleName, line.number⟩ message := by
  unfold Line.item at h
  dsimp only at h
  split at h
  · cases h
  · cases h
    exact ⟨_, rfl⟩

/-- A rejected line gives one error at its location, no code, and the state `s`. -/
theorem compileLine_of_rejects {options : Options} {moduleName : String} {s : State} {line : Line}
    (h : rejects moduleName s line = true) :
    (compileLine options moduleName s line).1.code = [] ∧
      (compileLine options moduleName s line).1.diagnostics.map place =
        [(.error, ⟨moduleName, line.number⟩)] ∧
      (compileLine options moduleName s line).2 = s := by
  unfold rejects at h
  unfold compileLine
  cases hitem : line.item moduleName with
  | error fault =>
    obtain ⟨message, rfl⟩ := malformed_of_item hitem
    exact ⟨rfl, rfl, rfl⟩
  | ok command =>
    rw [hitem] at h
    cases hlower : lower s command.opcode with
    | ok lowered =>
      simp only [hlower] at h
      cases h
    | error refusal =>
      rw [Step.ofItem, compileStep, compileCommand, hlower]
      refine ⟨rfl, ?_, (of_lower_error hlower).1⟩
      rw [← location_item hitem]
      exact congrArg ([·]) (place_diagnose hlower)

/-- A line that is not rejected gives no diagnostic. -/
theorem compileLine_of_not_rejects {options : Options} {moduleName : String} {s : State}
    {line : Line} (h : rejects moduleName s line = false) :
    (compileLine options moduleName s line).1.diagnostics = [] := by
  unfold rejects at h
  unfold compileLine
  cases hitem : line.item moduleName with
  | error fault =>
    rw [hitem] at h
    cases h
  | ok command =>
    rw [hitem] at h
    cases hlower : lower s command.opcode with
    | ok lowered =>
      rw [Step.ofItem, compileStep, compileCommand, hlower]
    | error refusal =>
      simp only [hlower] at h
      cases h

/-! ## The lines of a module -/

/-- `compileLine` along placed lines. -/
def compileLines (options : Options) (moduleName : String) (s : State) (lines : List (Nat × Line)) :
    List Emission × State :=
  sweep (fun s entry => compileLine options moduleName s entry.2) s lines

theorem compileLines_cons (options : Options) (moduleName : String) (s : State)
    (entry : Nat × Line) (lines : List (Nat × Line)) :
    compileLines options moduleName s (entry :: lines) =
      ((compileLine options moduleName s entry.2).1 ::
          (compileLines options moduleName (compileLine options moduleName s entry.2).2 lines).1,
        (compileLines options moduleName (compileLine options moduleName s entry.2).2 lines).2) :=
  sweep_cons ..

/-- The places of the rejected lines among `lines`, from state `s` on. -/
def rejectedLines (options : Options) (moduleName : String) : State → List (Nat × Line) → List Nat
  | _, [] => []
  | s, (n, line) :: lines =>
    let rest := rejectedLines options moduleName (compileLine options moduleName s line).2 lines
    if rejects moduleName s line then n :: rest else rest

variable {options : Options} {moduleName : String}

theorem rejectedLines_cons (s : State) (entry : Nat × Line) (lines : List (Nat × Line)) :
    rejectedLines options moduleName s (entry :: lines) =
      if rejects moduleName s entry.2 then
        entry.1 ::
          rejectedLines options moduleName (compileLine options moduleName s entry.2).2 lines
      else rejectedLines options moduleName (compileLine options moduleName s entry.2).2 lines :=
  rfl

theorem rejectedLines_sublist (s : State) (lines : List (Nat × Line)) :
    (rejectedLines options moduleName s lines).Sublist (lines.map Prod.fst) := by
  induction lines generalizing s with
  | nil => exact List.Sublist.refl _
  | cons entry lines ih =>
    rw [rejectedLines_cons, List.map_cons]
    split_ifs
    · exact (ih _).cons_cons _
    · exact (ih _).cons _

/-- The diagnostics of `lines` are one error per rejected line, in order. -/
theorem diagnostics_compileLines (s : State) {lines : List (Nat × Line)}
    (hnumbers : ∀ entry ∈ lines, entry.2.number = UInt32.ofNat entry.1) :
    ((compileLines options moduleName s lines).1.flatMap Emission.diagnostics).map place =
      (rejectedLines options moduleName s lines).map
        fun n => (.error, ⟨moduleName, UInt32.ofNat n⟩) := by
  induction lines generalizing s with
  | nil => rfl
  | cons entry lines ih =>
    rw [compileLines_cons, rejectedLines_cons, List.flatMap_cons, List.map_append,
      ih _ fun other hother => hnumbers other (List.mem_cons_of_mem _ hother)]
    cases hrejects : rejects moduleName s entry.2 with
    | true =>
      rw [(compileLine_of_rejects hrejects).2.1, hnumbers entry List.mem_cons_self]
      rfl
    | false =>
      rw [compileLine_of_not_rejects hrejects]
      rfl

/-- The lines whose places are not in `rejected`. -/
def accepted (rejected : List Nat) (lines : List (Nat × Line)) : List (Nat × Line) :=
  lines.filter fun entry => !rejected.contains entry.1

theorem accepted_cons_of_mem {rejected : List Nat} {entry : Nat × Line} {lines : List (Nat × Line)}
    (h : entry.1 ∉ lines.map Prod.fst) :
    accepted (entry.1 :: rejected) (entry :: lines) = accepted rejected lines := by
  rw [accepted, List.filter_cons_of_neg (by simp)]
  refine List.filter_congr fun other hother => ?_
  have hne : other.1 ≠ entry.1 := fun heq => h (heq ▸ List.mem_map_of_mem hother)
  rw [List.contains_cons, beq_eq_false_iff_ne.2 hne, Bool.false_or]

theorem accepted_cons_of_not_mem {rejected : List Nat} {entry : Nat × Line}
    {lines : List (Nat × Line)} (h : entry.1 ∉ rejected) :
    accepted rejected (entry :: lines) = entry :: accepted rejected lines := by
  rw [accepted, List.filter_cons_of_pos, accepted]
  rw [List.contains_eq_mem, decide_eq_false h]
  rfl

variable (options moduleName) in
/-- The accepted lines alone give the same code and state, and no diagnostics. -/
theorem compileLines_accepted (s : State) (lines : List (Nat × Line))
    (hnodup : (lines.map Prod.fst).Nodup) :
    let kept := accepted (rejectedLines options moduleName s lines) lines
    (compileLines options moduleName s kept).1.flatMap Emission.code =
        (compileLines options moduleName s lines).1.flatMap Emission.code ∧
      (compileLines options moduleName s kept).1.flatMap Emission.diagnostics = [] ∧
      (compileLines options moduleName s kept).2 = (compileLines options moduleName s lines).2 := by
  induction lines generalizing s with
  | nil => exact ⟨rfl, rfl, rfl⟩
  | cons entry lines ih =>
    obtain ⟨hnew, hrest⟩ := List.nodup_cons.1 hnodup
    obtain ⟨hcode, hclean, hstate⟩ := ih (compileLine options moduleName s entry.2).2 hrest
    intro kept
    cases hrejects : rejects moduleName s entry.2 with
    | true =>
      obtain ⟨hnone, -, hsame⟩ :
          (compileLine options moduleName s entry.2).1.code = [] ∧ _ :=
        compileLine_of_rejects hrejects
      have hkept : kept = accepted (rejectedLines options moduleName
          (compileLine options moduleName s entry.2).2 lines) lines := by
        simp only [kept, rejectedLines_cons, hrejects, if_true]
        exact accepted_cons_of_mem hnew
      rw [hkept, compileLines_cons, List.flatMap_cons, hnone, List.nil_append]
      rw [hsame] at hcode hclean hstate ⊢
      exact ⟨hcode, hclean, hstate⟩
    | false =>
      have hkept : kept = entry :: accepted (rejectedLines options moduleName
          (compileLine options moduleName s entry.2).2 lines) lines := by
        simp only [kept, rejectedLines_cons, hrejects, Bool.false_eq_true, if_false]
        exact accepted_cons_of_not_mem fun hmem => hnew ((rejectedLines_sublist _ _).subset hmem)
      rw [hkept, compileLines_cons, compileLines_cons, List.flatMap_cons, List.flatMap_cons,
        List.flatMap_cons, compileLine_of_not_rejects hrejects, hcode, hclean, hstate]
      exact ⟨rfl, rfl, rfl⟩

/-! ## Modules -/

/-- `source` with the lines at the places `rejected` empty. -/
def clearLines (rejected : List Nat) (source : String) : String :=
  String.ofList (Text.emptyLines rejected.contains 1 source.toList)

theorem placed_clearLines (rejected : List Nat) (source : String) :
    Line.placed (clearLines rejected source) = accepted rejected (Line.placed source) := by
  rw [Line.placed, clearLines, String.toList_ofList, Line.placedFrom_emptyLines]
  rfl

theorem Emission.code_append (first second : Emission) :
    (first ++ second).code = first.code ++ second.code := rfl

theorem Emission.diagnostics_append (first second : Emission) :
    (first ++ second).diagnostics = first.diagnostics ++ second.diagnostics := rfl

variable (moduleName) in
/-- Without fusing, `compileModule` is `compileLines` of the placed lines. -/
theorem compileModule_lines (hfuse : options.fuse = false) (s : State) (source : String) :
    (compileModule options s moduleName (readModule moduleName source)).1.code =
        (compileLines options moduleName (s.enter moduleName).1 (Line.placed source)).1.flatMap
          Emission.code ∧
      (compileModule options s moduleName (readModule moduleName source)).1.diagnostics =
        (compileLines options moduleName (s.enter moduleName).1 (Line.placed source)).1.flatMap
          Emission.diagnostics ∧
      (compileModule options s moduleName (readModule moduleName source)).2 =
        (compileLines options moduleName (s.enter moduleName).1 (Line.placed source)).2 := by
  have hsteps : sweep (compileStep options) (s.enter moduleName).1
      (Step.ofItems options.fuse (readModule moduleName source)) =
      compileLines options moduleName (s.enter moduleName).1 (Line.placed source) := by
    rw [hfuse, Step.ofItems_false, readModule, ← Line.map_snd_placed, List.map_map, List.map_map,
      sweep_map]
    rfl
  simp only [compileModule, hsteps, Emission.code_append, Emission.diagnostics_append,
    Emission.concat, List.nil_append, List.append_nil, and_self]

/-- The places of the rejected lines of each source, from state `s` on. -/
def rejectedIn (options : Options) : State → List (String × String) → List (String × List Nat)
  | _, [] => []
  | s, (name, source) :: sources =>
    (name, rejectedLines options name (s.enter name).1 (Line.placed source)) ::
      rejectedIn options (compileModule options s name (readModule name source)).2 sources

/-- `clearLines` of each source. -/
def clearSources (rejected : List (String × List Nat)) (sources : List (String × String)) :
    List (String × String) :=
  List.zipWith (fun entry source => (source.1, clearLines entry.2 source.2)) rejected sources

/-- Module and place of each rejected line, in order. -/
def places (rejected : List (String × List Nat)) : List (String × Nat) :=
  rejected.flatMap fun entry => entry.2.map (entry.1, ·)

/-- An error in module `found.1` at line `found.2`, in 32 bits. -/
def errorAt (found : String × Nat) : Severity × Location :=
  (.error, ⟨found.1, UInt32.ofNat found.2⟩)

theorem readModules_cons (name source : String) (sources : List (String × String)) :
    readModules ((name, source) :: sources) =
      (name, readModule name source) :: readModules sources := rfl

theorem places_cons (name : String) (numbers : List Nat) (rejected : List (String × List Nat)) :
    places ((name, numbers) :: rejected) = numbers.map (name, ·) ++ places rejected := rfl

theorem diagnostics_compileModules (hfuse : options.fuse = false) (s : State)
    (sources : List (String × String)) :
    ((compileModules options s (readModules sources)).1.flatMap Emission.diagnostics).map place =
      (places (rejectedIn options s sources)).map errorAt := by
  induction sources generalizing s with
  | nil => rfl
  | cons source sources ih =>
    obtain ⟨name, source⟩ := source
    have hnumbers : ∀ entry ∈ Line.placed source, entry.2.number = UInt32.ofNat entry.1 :=
      fun entry => Line.number_of_mem_placedFrom
    rw [readModules_cons, compileModules_cons, List.flatMap_cons, List.map_append, ih,
      (compileModule_lines name hfuse s source).2.1, diagnostics_compileLines _ hnumbers,
      rejectedIn, places_cons, List.map_append, List.map_map]
    rfl

/-- The cleared sources give the same code and state, and no diagnostics. -/
theorem compileModules_cleared (hfuse : options.fuse = false) (s : State)
    (sources : List (String × String)) :
    let cleared := compileModules options s
      (readModules (clearSources (rejectedIn options s sources) sources))
    let full := compileModules options s (readModules sources)
    cleared.1.flatMap Emission.code = full.1.flatMap Emission.code ∧
      cleared.1.flatMap Emission.diagnostics = [] ∧ cleared.2 = full.2 := by
  induction sources generalizing s with
  | nil => exact ⟨rfl, rfl, rfl⟩
  | cons source sources ih =>
    obtain ⟨name, source⟩ := source
    intro cleared full
    obtain ⟨hcode, hclean, hstate⟩ :=
      compileLines_accepted options name (s.enter name).1 (Line.placed source)
        (Line.nodup_places source)
    -- The cleared source is compiled as the accepted lines of the source are.
    rw [← placed_clearLines] at hcode hclean hstate
    obtain ⟨hcode', hclean', hstate'⟩ := compileModule_lines name hfuse s
      (clearLines (rejectedLines options name (s.enter name).1 (Line.placed source)) source)
    obtain ⟨hfull, -, hafter⟩ := compileModule_lines name hfuse s source
    rw [hcode, ← hfull] at hcode'
    rw [hclean] at hclean'
    rw [hstate, ← hafter] at hstate'
    obtain ⟨hrest, hcleanRest, hfinal⟩ :=
      ih (compileModule options s name (readModule name source)).2
    simp only [cleared, full, rejectedIn, clearSources, List.zipWith_cons_cons, readModules_cons,
      compileModules_cons, List.flatMap_cons, hcode', hclean', hstate']
    exact ⟨congrArg (_ ++ ·) hrest, hcleanRest, hfinal⟩

/-- The rejected places of a source are among those of `Line.placed`, in order. -/
theorem rejectedIn_sublist {s : State} {sources : List (String × String)}
    {entry : String × List Nat} (h : entry ∈ rejectedIn options s sources) :
    ∃ source, (entry.1, source) ∈ sources ∧
      entry.2.Sublist ((Line.placed source).map Prod.fst) := by
  induction sources generalizing s with
  | nil => cases h
  | cons source sources ih =>
    obtain ⟨name, source⟩ := source
    rcases List.mem_cons.1 h with rfl | h
    · exact ⟨source, List.mem_cons_self, rejectedLines_sublist ..⟩
    · obtain ⟨found, hfound, hsublist⟩ := ih h
      exact ⟨found, List.mem_cons_of_mem _ hfound, hsublist⟩

namespace Job

variable (job : Job)

/-- `rejectedIn` of the job's sources, from the state after the opening. -/
def rejected : List (String × List Nat) := rejectedIn job.options job.opening.2 job.sources

/-- The job with its rejected lines empty. -/
def cleared : Job := { job with sources := clearSources job.rejected job.sources }

variable {job}

theorem pairwise_of_mem_rejected {entry : String × List Nat} (h : entry ∈ job.rejected) :
    entry.2.Pairwise (· < ·) := by
  obtain ⟨source, -, hsublist⟩ := rejectedIn_sublist h
  exact (List.pairwise_map.2 (Line.pairwise_placedFrom 1 source.toList)).sublist hsublist

/-- If no source has `2 ^ 32` lines, the line number of a rejected line is its place. -/
theorem toNat_of_mem_places
    (h : ∀ source ∈ job.sources, (Text.lines source.2.toList).length < 2 ^ 32)
    {found : String × Nat} (hfound : found ∈ places job.rejected) :
    (UInt32.ofNat found.2).toNat = found.2 := by
  obtain ⟨entry, hentry, hmem⟩ := List.mem_flatMap.1 hfound
  obtain ⟨n, hn, rfl⟩ := List.mem_map.1 hmem
  obtain ⟨source, hsource, hsublist⟩ := rejectedIn_sublist hentry
  obtain ⟨placed, hplaced, rfl⟩ := List.mem_map.1 (hsublist.subset hn)
  have hlast := (Line.place_of_mem_placedFrom hplaced).2
  have hfew : (Text.lines source.toList).length < 2 ^ 32 := h _ hsource
  exact UInt32.toNat_ofNat_of_lt' (show placed.1 < 2 ^ 32 by omega)

/-- **Rejected lines.** Without fusing, the diagnostics of a job are one error per rejected line, in
order, at its module and at its place as a 32-bit line number; if no source has `2 ^ 32` lines, that
number is the place. `errors` is their number. The job with these lines empty has no diagnostics,
the same code and the same final state. -/
theorem rejected_lines_isolated (hfuse : job.options.fuse = false) :
    job.artifact.report.diagnostics.map place = (places job.rejected).map errorAt ∧
      ((∀ source ∈ job.sources, (Text.lines source.2.toList).length < 2 ^ 32) →
        job.artifact.report.diagnostics.map
            (fun found => (found.location.moduleName, found.location.line.toNat)) =
          places job.rejected) ∧
      (∀ entry ∈ job.rejected, entry.2.Pairwise (· < ·)) ∧
      job.artifact.report.errors = (places job.rejected).length ∧
      (job.artifact.report.hasErrors = true ↔ places job.rejected ≠ []) ∧
      job.cleared.artifact.report.diagnostics = [] ∧
      job.cleared.artifact.code = job.artifact.code ∧
      job.cleared.finalState = job.finalState := by
  have hplaces : job.artifact.report.diagnostics.map place =
      (places job.rejected).map errorAt := by
    rw [job.artifact_diagnostics_modules]
    exact diagnostics_compileModules hfuse job.opening.2 job.sources
  have herrors : job.artifact.report.errors = (places job.rejected).length := by
    have hcount :=
      congrArg (List.countP fun found : Severity × Location => found.1 = .error) hplaces
    rw [List.countP_map, List.countP_map] at hcount
    refine hcount.trans (List.countP_eq_length.2 fun location _ => ?_)
    rfl
  obtain ⟨hcode, hclean, hstate⟩ := compileModules_cleared hfuse job.opening.2 job.sources
  have hfinal : job.cleared.finalState = job.finalState := hstate
  refine ⟨hplaces, fun hfew => ?_, fun entry => pairwise_of_mem_rejected, herrors, ?_, ?_, ?_,
    hfinal⟩
  · have hlines := congrArg (List.map fun found : Severity × Location =>
      (found.2.moduleName, found.2.line.toNat)) hplaces
    rw [List.map_map, List.map_map] at hlines
    refine hlines.trans ((List.map_congr_left fun found hfound => ?_).trans (List.map_id _))
    exact congrArg (found.1, ·) (toNat_of_mem_places hfew hfound)
  · rw [Report.hasErrors, herrors, decide_eq_true_iff, List.length_pos_iff]
  · rw [artifact_diagnostics_modules]
    exact hclean
  · rw [artifact_code_modules, artifact_code_modules, hfinal]
    exact congrArg
      (fun code => job.opening.1.code ++ code ++ (compileEnd job.options job.finalState).code) hcode

end Job

/-- A program with a line of each kind that is rejected, among lines that are not. -/
def faultyJob : Job :=
  ⟨{ comments := true, fuse := false }, some {},
    [("A", "push static 3\npop constant 1 // no cell\npush nowhere 0\neq x\neq"),
      ("B", "call f 40000\nfoo\r\ncall f 1\npush static 65500\n\n" ++
        "push static 1 // kept\npush static -1")]⟩

theorem rejected_lines_isolated_faulty :
    faultyJob.options.fuse = false ∧ faultyJob.rejected = [("A", [2, 3, 4]), ("B", [1, 2, 4, 7])] ∧
      faultyJob.artifact.report.diagnostics.map
          (fun found => (found.location.moduleName, found.location.line.toNat)) =
        [("A", 2), ("A", 3), ("A", 4), ("B", 1), ("B", 2), ("B", 4), ("B", 7)] ∧
      faultyJob.artifact.report.errors = 7 ∧
      faultyJob.cleared.sources = [("A", "push static 3\n\n\n\neq"),
        ("B", "\n\ncall f 1\n\n\npush static 1 // kept\n")] ∧
      faultyJob.cleared.artifact.report.diagnostics = [] ∧
      faultyJob.cleared.artifact.code = faultyJob.artifact.code ∧
      faultyJob.cleared.finalState = faultyJob.finalState := by
  have hrejected : faultyJob.rejected = [("A", [2, 3, 4]), ("B", [1, 2, 4, 7])] := by decide +kernel
  have hsources : faultyJob.cleared.sources = [("A", "push static 3\n\n\n\neq"),
      ("B", "\n\ncall f 1\n\n\npush static 1 // kept\n")] := by
    rw [Job.cleared, hrejected]
    decide +kernel
  obtain ⟨-, hlines, -, herrors, -, hclean, hcode, hfinal⟩ :=
    Job.rejected_lines_isolated (show faultyJob.options.fuse = false from rfl)
  rw [hrejected] at hlines herrors
  exact ⟨rfl, hrejected, hlines (by decide +kernel), herrors, hsources, hclean, hcode, hfinal⟩

end Compile

end HackVM
