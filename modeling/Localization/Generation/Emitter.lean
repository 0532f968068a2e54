import Localization.Generation.Artifact
import Localization.Generation.Error
import Localization.Json.Token

namespace Localization.Generation

/-- A receiver of artifacts, with what it keeps between them. -/
structure Emitter (σ : Type) where
  emit : σ → Artifact → Except Error Unit × σ

/-- Keeps every artifact, in the order of their arrival. -/
def Emitter.collecting : Emitter (List Artifact) where
  emit kept artifact := (.ok (), kept ++ [artifact])

/-- The artifacts by the names of their classes; equal names keep their order. -/
def sortByClass (artifacts : List Artifact) : List Artifact :=
  artifacts.mergeSort fun a b => a.className ≤ b.className

/-- A place that text is written to. Both operations say why they fail. -/
structure Writer (σ : Type) where
  write : σ → String → Except String Unit × σ
  flush : σ → Except String Unit × σ

namespace Writer

variable {σ : Type}

/-- Writes the texts until one fails. -/
def writeAll (w : Writer σ) (s : σ) : List String → Except String Unit × σ
  | [] => (.ok (), s)
  | text :: rest =>
    match w.write s text with
    | (.ok (), s) => w.writeAll s rest
    | failed => failed

/-- Writes the texts and, if none fails, flushes. -/
def writeLine (w : Writer σ) (s : σ) (text : String) : Except String Unit × σ :=
  match w.writeAll s [text, "\n"] with
  | (.ok (), s) => w.flush s
  | failed => failed

end Writer

/-- Writes every artifact as an object on a line of its own. -/
def Emitter.jsonLines {σ : Type} (w : Writer σ) : Emitter σ where
  emit s artifact :=
    let (result, s) := w.writeLine s artifact.toJson.render
    (result.mapError (.notEmitted artifact.className), s)

end Localization.Generation
