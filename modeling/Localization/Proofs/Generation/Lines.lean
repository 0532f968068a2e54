import Localization.Proofs.Generation.Accounting
import Localization.Proofs.Generation.Recovery

namespace Localization.Generation

variable {σ : Type} {w : Writer σ} {written : σ → String}

/-- A place where no operation fails and nothing that is written gets lost. -/
structure Writer.Reliable (w : Writer σ) (written : σ → String) : Prop where
  write : ∀ s text, ∃ s', w.write s text = (.ok (), s') ∧ written s' = written s ++ text
  flush : ∀ s, ∃ s', w.flush s = (.ok (), s') ∧ written s' = written s

/-- A text that everything is written to the end of. -/
def Writer.inMemory : Writer String where
  write s text := (.ok (), s ++ text)
  flush s := (.ok (), s)

theorem Writer.reliable_inMemory : Writer.inMemory.Reliable id where
  write s text := ⟨s ++ text, rfl, rfl⟩
  flush s := ⟨s, rfl, rfl⟩

theorem Writer.Reliable.writeLine (hw : w.Reliable written) (s : σ) (text : String) :
    ∃ s', w.writeLine s text = (.ok (), s') ∧ written s' = written s ++ text ++ "\n" := by
  obtain ⟨s₁, hwrite, htext⟩ := hw.write s text
  obtain ⟨s₂, hend, hline⟩ := hw.write s₁ "\n"
  obtain ⟨s₃, hflush, hkept⟩ := hw.flush s₂
  refine ⟨s₃, ?_, by rw [hkept, hline, htext]⟩
  simp [Writer.writeLine, Writer.writeAll, hwrite, hend, hflush]

/-- The line that is written for an artifact, without its end. -/
def Artifact.line (a : Artifact) : String :=
  a.toJson.render

theorem Artifact.not_mem_line (a : Artifact) : '\n' ∉ a.line.toList :=
  a.standard_toJson.not_mem_render

theorem Artifact.parse?_line (a : Artifact) : Json.parse? a.line = some a.toJson :=
  a.standard_toJson.parse?_render

/-- The line of an artifact tells everything about it. -/
theorem Artifact.told_eq_of_line_eq {a b : Artifact} (h : a.line = b.line) :
    ToldArtifact.of a = .of b := by
  have hjson : a.toJson = b.toJson :=
    Option.some.inj (a.parse?_line.symm.trans (h ▸ b.parse?_line))
  have htold := ToldArtifact.ofJson?_toJson a
  rw [hjson, ToldArtifact.ofJson?_toJson] at htold
  exact (Option.some.inj htold).symm

/-- What an emitter keeps after some artifacts. -/
def Emitter.keptAfter (emitter : Emitter σ) (kept : σ) (artifacts : List Artifact) : σ :=
  artifacts.foldl (fun kept a => (emitter.emit kept a).2) kept

/-- A reliable writer gets the line of an artifact. -/
theorem Writer.Reliable.emit (hw : w.Reliable written) (s : σ) (a : Artifact) :
    ∃ s', (Emitter.jsonLines w).emit s a = (.ok (), s') ∧
      written s' = written s ++ a.line ++ "\n" := by
  obtain ⟨s', hwrite, htext⟩ := hw.writeLine s a.line
  rw [Artifact.line] at hwrite
  refine ⟨s', ?_, htext⟩
  simp only [Emitter.jsonLines, hwrite]
  rfl

/-- A reliable writer gets the lines of all artifacts, in their order. -/
theorem Writer.Reliable.emit_all (hw : w.Reliable written) (s : σ) (artifacts : List Artifact) :
    (Emitter.jsonLines w).answers s artifacts = artifacts.map (fun _ => .ok ()) ∧
      written ((Emitter.jsonLines w).keptAfter s artifacts) = written s ++
        String.ofList ((artifacts.map (·.line.toList)).flatMap (· ++ ['\n'])) := by
  induction artifacts generalizing s with
  | nil => simp [Emitter.answers, Emitter.keptAfter]
  | cons a rest ih =>
    obtain ⟨s', hemit, htext⟩ := hw.emit s a
    obtain ⟨hanswers, hwritten⟩ := ih s'
    refine ⟨?_, ?_⟩
    · rw [Emitter.answers, hemit, hanswers, List.map_cons]
    · rw [Emitter.keptAfter, List.foldl_cons, hemit, ← Emitter.keptAfter, hwritten, htext]
      simp [← String.toList_inj]

/-- Lines that end with a separator and have no other in them are the pieces between the
separators, with nothing after the last one. -/
theorem splitOn_flatMap_concat {α : Type} [BEq α] [LawfulBEq α] {sep : α} {lines : List (List α)}
    (h : ∀ line ∈ lines, sep ∉ line) :
    (lines.flatMap (· ++ [sep])).splitOn sep = lines ++ [[]] := by
  induction lines with
  | nil => simp
  | cons line lines ih =>
    obtain ⟨hline, hlines⟩ := List.forall_mem_cons.1 h
    have hpiece : ∀ a ∈ line, (a == sep) = false := fun a ha =>
      beq_eq_false_iff_ne.2 fun hsame => hline (hsame ▸ ha)
    rw [List.flatMap_cons, List.append_assoc, List.singleton_append, List.splitOn,
      List.splitOnP_append_cons_of_forall_mem hpiece sep (beq_self_eq_true sep), ← List.splitOn,
      ih hlines, List.cons_append]

/-- Where nothing fails and nothing gets lost, the text that is written for some artifacts has a
line for each of them, in their order, and nothing else. Each line is an object that the interface,
the kind, both locales, the class and the methods with what they are bound to can be recovered from,
so artifacts that differ in any of these have different lines. -/
theorem jsonLines_recoverable (hw : w.Reliable written) (s : σ) (artifacts : List Artifact) :
    (Emitter.jsonLines w).answers s artifacts = artifacts.map (fun _ => .ok ()) ∧
      (∃ text, written ((Emitter.jsonLines w).keptAfter s artifacts) = written s ++ text ∧
        text.toList.splitOn '\n' = artifacts.map (·.line.toList) ++ [[]]) ∧
      (∀ a : Artifact, ∃ members, Json.parse? a.line = some (.object members) ∧
        ToldArtifact.ofJson? (.object members) = some (.of a)) ∧
      ∀ a b : Artifact, a.line = b.line → ToldArtifact.of a = .of b := by
  obtain ⟨hanswers, hwritten⟩ := hw.emit_all s artifacts
  refine ⟨hanswers, ⟨_, hwritten, ?_⟩, fun a => ?_, fun a b => Artifact.told_eq_of_line_eq⟩
  · rw [String.toList_ofList, splitOn_flatMap_concat]
    exact List.forall_mem_map.2 fun a _ => a.not_mem_line
  · exact ⟨_, a.parse?_line, ToldArtifact.ofJson?_toJson a⟩

/-- A line end, a quote, the character 0 and one beyond the first plane are told as they are. -/
theorem jsonLines_recoverable_controls :
    let value : BoundValue := .resolved ⟨.text "a\n\"\x00𝄞", { language := "az" }, some ⟨"one"⟩⟩
    let a : Artifact :=
      ⟨⟨"Menu"⟩, .constants, { language := "az" }, .root, "Menu_az", [⟨"title", "title", value⟩]⟩
    Writer.inMemory.Reliable id ∧
      (Emitter.jsonLines Writer.inMemory).answers "" [a, a] = [.ok (), .ok ()] ∧
      (∃ text, (Emitter.jsonLines Writer.inMemory).keptAfter "" [a, a] = text ∧
        text.toList.splitOn '\n' = [a.line.toList, a.line.toList, []]) ∧
      (∃ members, Json.parse? a.line = some (.object members) ∧
        ToldArtifact.ofJson? (.object members) = some ⟨"Menu", .constants, "az", "root", "Menu_az",
          [⟨"title", "title", .resolved ⟨.text "a\n\"\x00𝄞", "az", some "one"⟩⟩]⟩) ∧
      ∀ b : Artifact, a.line = b.line → ToldArtifact.of a = .of b := by
  intro value a
  obtain ⟨hanswers, ⟨text, htext, hlines⟩, htold, hdiffer⟩ :=
    jsonLines_recoverable Writer.reliable_inMemory "" [a, a]
  exact ⟨Writer.reliable_inMemory, hanswers, ⟨text, by simpa using htext, hlines⟩, htold a,
    hdiffer a⟩

end Localization.Generation
