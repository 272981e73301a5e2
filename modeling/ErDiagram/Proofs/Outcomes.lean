import ErDiagram.Cli.Outcome
import ErDiagram.Proofs.Quoting
import ErDiagram.Proofs.Stops

/-!
What the program answers to a file that can be read. The exit code tells whether the bytes of the
file are a text that compiles; the graph goes to standard output and everything else to standard
error. The format of the output and the option to be quiet change how that is said, not what.

Main statement: `Cli.lawful_of_readable`. The answers to one file, over all formats and with and
without the option to be quiet, are as `Cli.Lawful` says: among other things the lines of standard
error in text format are, one for one, the diagnostics of the array in JSON format.
-/

namespace ErDiagram

/-- Lines that are ended each by a line feed, and nothing behind the last line feed. -/
theorem splitOn_flatMap_line {lines : List (List Char)} (h : ∀ line ∈ lines, '\n' ∉ line) :
    (lines.flatMap (· ++ ['\n'])).splitOn '\n' = lines ++ [[]] := by
  induction lines with
  | nil => rfl
  | cons line lines ih =>
      have hline : ∀ c ∈ line, (c == '\n') = false := fun c hc =>
        beq_false_of_ne fun heq => h line List.mem_cons_self (heq ▸ hc)
      have hlines := ih fun other hother => h other (List.mem_cons_of_mem _ hother)
      rw [List.flatMap_cons, List.append_assoc, List.singleton_append]
      show List.splitOnP (· == '\n') (line ++ '\n' :: _) = _
      rw [List.splitOnP_append_cons line _ (by decide), List.splitOnP_eq_singleton hline]
      exact congrArg (line :: ·) hlines

namespace Cli

/-! ### Text -/

theorem decodeText_eq_ok {bytes : ByteArray} {source : String} :
    decodeText bytes = .ok source ↔ source.toByteArray = bytes := by
  unfold decodeText String.fromUTF8?
  by_cases hvalid : bytes.IsValidUTF8
  · rw [dif_pos hvalid]
    constructor
    · rintro ⟨⟩
      rfl
    · rintro rfl
      rfl
  · rw [dif_neg hvalid]
    constructor
    · rintro ⟨⟩
    · rintro rfl
      exact absurd source.isValidUTF8 hvalid

theorem decodeText_eq_error {bytes : ByteArray} (h : ¬ ∃ source : String, source.toByteArray = bytes) :
    decodeText bytes = .error .notUtf8 := by
  cases hdecode : decodeText bytes with
  | ok source => exact absurd ⟨source, decodeText_eq_ok.1 hdecode⟩ h
  | error error =>
      unfold decodeText at hdecode
      split at hdecode
      · cases hdecode
      · exact hdecode.symm

/-- What the bytes of a file can lead to, whatever the options. -/
theorem Outcome.ofSource_cases (file : String) (bytes : ByteArray) :
    (∃ source graph, source.toByteArray = bytes ∧ compile source = .ok graph ∧
      ∀ format quiet, Outcome.ofSource ⟨file, format, quiet⟩ (decodeText bytes) =
        .ofGraph format graph) ∨
    (∃ source, source.toByteArray = bytes ∧
      compile source = .error (.rejected (diagnosticsOf source)) ∧
      ∀ format quiet, Outcome.ofSource ⟨file, format, quiet⟩ (decodeText bytes) =
        .ofDiagnostics format quiet (diagnosticsOf source)) ∨
    ((¬ ∃ source : String, source.toByteArray = bytes) ∧
      ∃ message, ∀ format quiet, Outcome.ofSource ⟨file, format, quiet⟩ (decodeText bytes) =
        .ofMessage format message) := by
  by_cases htext : ∃ source : String, source.toByteArray = bytes
  · obtain ⟨source, hsource⟩ := htext
    rw [decodeText_eq_ok.2 hsource]
    rcases compile_cases source with ⟨graph, hok⟩ | ⟨-, hrejected⟩
    · refine Or.inl ⟨source, graph, hsource, hok, fun format quiet => ?_⟩
      simp only [Outcome.ofSource, hok]
    · refine Or.inr (Or.inl ⟨source, hsource, hrejected, fun format quiet => ?_⟩)
      simp only [Outcome.ofSource, hrejected]
  · rw [decodeText_eq_error htext]
    refine Or.inr (Or.inr ⟨htext, ?_⟩)
    exact ⟨"error reading file '" ++ file ++ "': " ++ ReadError.notUtf8.message, fun _ _ => rfl⟩

/-! ### Answers -/

theorem Outcome.ofMessage_eq_failure (format : Format) (message : String) :
    ∃ stderr, Outcome.ofMessage format message = .failure stderr := by
  cases format <;> exact ⟨_, rfl⟩

theorem Outcome.ofDiagnostics_eq_failure (format : Format) (quiet : Bool)
    (diagnostics : List Diagnostic) :
    ∃ stderr, Outcome.ofDiagnostics format quiet diagnostics = .failure stderr := by
  cases format with
  | text => cases quiet <;> exact ⟨_, rfl⟩
  | json => exact ⟨_, rfl⟩

theorem Outcome.ofGraph_eq_success (format : Format) (graph : Graph) :
    ∃ stdout, Outcome.ofGraph format graph = .success stdout := by
  cases format <;> exact ⟨_, rfl⟩

/-- What is told of diagnostics: an array of them in JSON format, and in text format, in the same
order, a line for each, with nothing behind the last line feed. -/
def Tells (answer : Format → Bool → Outcome) (diagnostics : List Diagnostic) : Prop :=
  (∀ quiet, (answer .json quiet).stderr =
    (Json.array (diagnostics.map Diagnostic.toJson)).pretty ++ "\n") ∧
  (answer .text false).stderr.toList.splitOn '\n' = diagnostics.map (·.display.toList) ++ [[]]

theorem tells_ofDiagnostics {diagnostics : List Diagnostic}
    (h : ∀ diagnostic ∈ diagnostics, IsLine diagnostic.display) :
    Tells (fun format quiet => .ofDiagnostics format quiet diagnostics) diagnostics := by
  refine ⟨fun _ => rfl, ?_⟩
  have hstderr : (Outcome.ofDiagnostics .text false diagnostics).stderr.toList =
      (diagnostics.map (·.display.toList)).flatMap (· ++ ['\n']) := by
    show (String.join (diagnostics.map (·.display ++ "\n"))).toList = _
    rw [String.toList_join, List.flatMap_map, List.flatMap_map]
    simp only [String.toList_append]
    rfl
  rw [hstderr]
  refine splitOn_flatMap_line fun line hline => ?_
  obtain ⟨diagnostic, hdiagnostic, rfl⟩ := List.mem_map.1 hline
  exact h diagnostic hdiagnostic

/-- What holds of the answers to a file with some bytes, by the format of the output and by whether
the program is to be quiet. -/
structure Lawful (bytes : ByteArray) (answer : Format → Bool → Outcome) : Prop where
  /-- Success is the success of compiling a text that has these bytes. -/
  code_eq_zero : ∀ format quiet, (answer format quiet).code = 0 ↔
    ∃ source graph, source.toByteArray = bytes ∧ compile source = .ok graph
  /-- A graph is shown, as a table or as JSON, and nothing is told. -/
  accepted : ∀ source graph, source.toByteArray = bytes → compile source = .ok graph → ∀ quiet,
    answer .text quiet = ⟨0, Report.render graph, ""⟩ ∧
      answer .json quiet = ⟨0, graph.toJson.pretty ++ "\n", ""⟩
  /-- There is one way to fail, and it shows nothing. -/
  failed : ∀ format quiet, (answer format quiet).code ≠ 0 →
    (answer format quiet).code = 1 ∧ (answer format quiet).stdout = ""
  quiet_code : ∀ format, (answer format true).code = (answer format false).code
  quiet_stdout : ∀ format, (answer format true).stdout = (answer format false).stdout
  quiet_json : answer .json true = answer .json false
  /-- A text that does not compile is rejected with diagnostics, which are told. -/
  rejected : ∀ source, source.toByteArray = bytes → (∀ graph, compile source ≠ .ok graph) →
    ∃ diagnostics, compile source = .error (.rejected diagnostics) ∧ Tells answer diagnostics

namespace Lawful

variable {bytes : ByteArray} {answer : Format → Bool → Outcome}

theorem of_graph {source : String} {graph : Graph} (hsource : source.toByteArray = bytes)
    (hok : compile source = .ok graph)
    (h : ∀ format quiet, answer format quiet = .ofGraph format graph) : Lawful bytes answer := by
  have hcode : ∀ format quiet, (answer format quiet).code = 0 := by
    intro format quiet
    obtain ⟨stdout, hsuccess⟩ := Outcome.ofGraph_eq_success format graph
    rw [h, hsuccess]
    rfl
  have hsame : ∀ other : String, other.toByteArray = bytes → other = source := fun other hother =>
    String.toByteArray_inj.1 (hother.trans hsource.symm)
  constructor
  case code_eq_zero =>
    exact fun format quiet => iff_of_true (hcode format quiet) ⟨source, graph, hsource, hok⟩
  case accepted =>
    intro other graph' hother hok' quiet
    cases hsame other hother
    cases hok.symm.trans hok'
    exact ⟨h .text quiet, h .json quiet⟩
  case failed => exact fun format quiet hne => absurd (hcode format quiet) hne
  case quiet_code => exact fun format => by rw [h, h]
  case quiet_stdout => exact fun format => by rw [h, h]
  case quiet_json => rw [h, h]
  case rejected =>
    intro other hother hnot
    cases hsame other hother
    exact absurd hok (hnot graph)

/-- Where no graph can be shown, only what is told of a rejected text is left to be looked at. -/
theorem of_failure
    (hnone : ¬ ∃ source graph, source.toByteArray = bytes ∧ compile source = .ok graph)
    (hfailure : ∀ format quiet, ∃ stderr, answer format quiet = .failure stderr)
    (hjson : answer .json true = answer .json false)
    (hrejected : ∀ source, source.toByteArray = bytes →
      ∃ diagnostics, compile source = .error (.rejected diagnostics) ∧ Tells answer diagnostics) :
    Lawful bytes answer := by
  have hfailed : ∀ format quiet,
      (answer format quiet).code = 1 ∧ (answer format quiet).stdout = "" := by
    intro format quiet
    obtain ⟨stderr, h⟩ := hfailure format quiet
    rw [h]
    exact ⟨rfl, rfl⟩
  constructor
  case code_eq_zero =>
    intro format quiet
    rw [(hfailed format quiet).1]
    exact iff_of_false (by decide) hnone
  case accepted => exact fun source graph hsource hok => absurd ⟨source, graph, hsource, hok⟩ hnone
  case failed => exact fun format quiet _ => hfailed format quiet
  case quiet_code => exact fun format => (hfailed format true).1.trans (hfailed format false).1.symm
  case quiet_stdout => exact fun format => (hfailed format true).2.trans (hfailed format false).2.symm
  case quiet_json => exact hjson
  case rejected => exact fun source hsource _ => hrejected source hsource

end Lawful

theorem lawful_ofSource (file : String) (bytes : ByteArray) :
    Lawful bytes fun format quiet => .ofSource ⟨file, format, quiet⟩ (decodeText bytes) := by
  rcases Outcome.ofSource_cases file bytes with ⟨source, graph, hsource, hok, h⟩ |
    ⟨source, hsource, hrejected, h⟩ | ⟨htext, message, h⟩
  · exact .of_graph hsource hok h
  · have hsame : ∀ other : String, other.toByteArray = bytes → other = source :=
      fun other hother => String.toByteArray_inj.1 (hother.trans hsource.symm)
    simp only [h]
    refine .of_failure ?_ (fun _ _ => Outcome.ofDiagnostics_eq_failure ..) rfl ?_
    · rintro ⟨other, graph, hother, hok⟩
      cases hsame other hother
      cases hrejected.symm.trans hok
    · intro other hother
      cases hsame other hother
      exact ⟨_, hrejected, tells_ofDiagnostics fun _ => isLine_of_mem_diagnosticsOf⟩
  · simp only [h]
    refine .of_failure ?_ (fun _ _ => Outcome.ofMessage_eq_failure ..) rfl ?_
    · exact fun ⟨source, _, hsource, _⟩ => htext ⟨source, hsource⟩
    · exact fun source hsource => absurd ⟨source, hsource⟩ htext

/-- The answers to a file that can be read are lawful, whatever bytes it has and in whatever way the
arguments ask for it. -/
theorem lawful_of_readable {trail : List FileTree} {root : FileTree} {file : String}
    {bytes : ByteArray} {arguments : Format → Bool → List String}
    (hfile : FileTree.resolve trail root file = .ok (.file bytes))
    (harguments : ∀ format quiet,
      parse (arguments format quiet) = .ok (.compile ⟨file, format, quiet⟩)) :
    Lawful bytes fun format quiet =>
      Id.run (run (FileTree.readText trail root) (arguments format quiet)) := by
  have hread : FileTree.readText trail root file = decodeText bytes := by
    rw [FileTree.readText, hfile]
  have hrun : ∀ format quiet, Id.run (run (FileTree.readText trail root) (arguments format quiet)) =
      .ofSource ⟨file, format, quiet⟩ (decodeText bytes) := by
    intro format quiet
    rw [run, harguments, ← hread]
    rfl
  simp only [hrun]
  exact lawful_ofSource file bytes

/-- A file with a repeated attribute, and behind it a character that starts no token. -/
theorem lawful_of_readable_rejected :
    let source := "(entity a (attr x) (attr x)) \u0000"
    let root := FileTree.directory [("a", .file source.toByteArray)]
    let arguments (format : Format) (quiet : Bool) : List String :=
      (match format with
        | .text => ["a"]
        | .json => ["--output", "json", "a"]) ++ if quiet then ["--quiet"] else []
    (diagnosticsOf source).map (·.category) = [.duplicateDefinition, .lexical] ∧
      FileTree.resolve [] root "a" = .ok (.file source.toByteArray) ∧
      (∀ format quiet, parse (arguments format quiet) = .ok (.compile ⟨"a", format, quiet⟩)) ∧
      Lawful source.toByteArray fun format quiet =>
        Id.run (run (FileTree.readText [] root) (arguments format quiet)) := by
  intro source root arguments
  have hdiagnostics : (diagnosticsOf source).map (·.category) =
      [.duplicateDefinition, .lexical] := by
    decide +kernel
  have hfile : FileTree.resolve [] root "a" = .ok (.file source.toByteArray) := by
    have hparts : "a".splitOn "/" = ["a"] := by
      unfold String.splitOn
      rw [if_neg (by decide), String.splitOnAux, if_neg (by decide), if_neg (by decide),
        String.splitOnAux, if_pos (by decide)]
      rfl
    show FileTree.follow [] root ("a".splitOn "/") = _
    rw [hparts]
    rfl
  have harguments : ∀ format quiet,
      parse (arguments format quiet) = .ok (.compile ⟨"a", format, quiet⟩) := by
    intro format quiet
    cases format <;> cases quiet <;> decide
  exact ⟨hdiagnostics, hfile, harguments, lawful_of_readable hfile harguments⟩

end Cli

end ErDiagram
