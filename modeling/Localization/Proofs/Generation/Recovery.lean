import Localization.Generation.Artifact
import Localization.Proofs.Json.Fields

namespace Localization

theorem Value.ofJson?_toJson (v : Value) : Value.ofJson? v.toJson = some v := by
  cases v with
  | text t => rfl
  | list items => exact congrArg (Option.map list) (Json.texts?_map_ofString items)

theorem Value.standard_toJson (v : Value) : v.toJson.Standard := by
  cases v with
  | text t => exact Json.standard_ofString t
  | list items => exact Json.standard_array_map Json.standard_ofString items

theorem Locale.text?_toJson (t : Locale) : t.toJson.text? = some t.name :=
  rfl

theorem Binding.toJson_ne_null (b : Binding) : b.toJson ≠ .null :=
  nofun

theorem Binding.standard_members (b : Binding) : ∀ m ∈ b.members, m.2.Standard := by
  have hform := Json.standard_getD (fun form => Json.standard_ofString form.text) b.form?
  simp [members, b.value.standard_toJson, Locale.toJson, Json.standard_ofString, hform]

theorem Binding.standard_toJson (b : Binding) : b.toJson.Standard :=
  Json.standard_ofMembers b.standard_members

theorem FormTable.standard_members (t : FormTable) : ∀ m ∈ t.members, m.2.Standard := by
  have hdefault := Json.standard_getD Binding.standard_toJson t.default?
  have hforms := Json.standard_entries_map (fun entry => entry.2.standard_toJson)
    (fun entry => entry.1.text) t.forms.entries
  simp [members, Json.standard_ofString, hdefault, hforms]

namespace Generation

theorem Kind.ofJson?_toJson (k : Kind) : ofJson? k.toJson = some k := by
  cases k <;> rfl

theorem BoundValue.standard_toJson (value : BoundValue) : value.toJson.Standard := by
  have hsource (source : String) {members : List (String × Json)}
      (h : ∀ m ∈ members, m.2.Standard) :
      (Json.ofMembers (("source", .ofString source) :: members)).Standard :=
    Json.standard_ofMembers (List.forall_mem_cons.2 ⟨Json.standard_ofString source, h⟩)
  cases value with
  | resolved binding => exact hsource _ binding.standard_members
  | selectable table => exact hsource _ table.standard_members
  | declared value => exact hsource _ (List.forall_mem_singleton.2 value.standard_toJson)
  | absent => exact hsource _ (List.forall_mem_nil _)

theorem BoundMethod.standard_toJson (m : BoundMethod) : m.toJson.Standard := by
  refine Json.standard_ofMembers ?_
  simp [Json.standard_ofString, m.value.standard_toJson]

theorem Artifact.standard_toJson (a : Artifact) : a.toJson.Standard := by
  have hmethods := Json.standard_array_map BoundMethod.standard_toJson a.methods
  refine Json.standard_ofMembers ?_
  simp [Json.standard_ofString, Kind.toJson, Locale.toJson, hmethods]

/-- What is written about a binding: its locale and its form are told by their texts. -/
structure ToldBinding where
  value : Value
  locale : String
  form? : Option String
deriving DecidableEq

namespace ToldBinding

def of (b : Binding) : ToldBinding where
  value := b.value
  locale := b.locale.name
  form? := b.form?.map (·.text)

def ofJson? (v : Json) : Option ToldBinding := do
  return {
    value := ← v.field? "value" Value.ofJson?
    locale := ← v.field? "locale" Json.text?
    form? := ← v.field? "form" (Json.orNull? Json.text?) }

/-- A binding is recovered from any object that holds its members. -/
theorem ofJson?_of_holds {v : Json} {b : Binding} (h : v.Holds b.members) :
    ofJson? v = some (of b) := by
  simp only [Binding.members, Json.holds_cons] at h
  obtain ⟨hvalue, hlocale, hform, -⟩ := h
  have hform? := Json.orNull?_getD (fun form : Selector => Json.ofString_ne_null form.text)
    (fun form => Json.text?_ofString form.text) b.form?
  rw [ofJson?, hvalue, hlocale, hform, b.value.ofJson?_toJson, b.locale.text?_toJson, hform?]
  rfl

theorem ofJson?_toJson (b : Binding) : ofJson? b.toJson = some (of b) :=
  ofJson?_of_holds (Json.holds_ofMembers (by simp [Binding.members]))

end ToldBinding

inductive ToldValue where
  | resolved (binding : ToldBinding)
  | selectable (key : String) (default? : Option ToldBinding) (forms : List (String × ToldBinding))
  | declared (value : Value)
  | absent
deriving DecidableEq

namespace ToldValue

def of : BoundValue → ToldValue
  | .resolved binding => resolved (.of binding)
  | .selectable table => selectable table.key (table.default?.map .of)
      (table.forms.entries.map fun (form, b) => (form.text, .of b))
  | .declared value => declared value
  | .absent => absent

def ofJson? (v : Json) : Option ToldValue := do
  match ← v.field? "source" Json.text? with
  | "resolved" => (ToldBinding.ofJson? v).map resolved
  | "selectable" =>
    return selectable (← v.field? "key" Json.text?)
      (← v.field? "default" (Json.orNull? ToldBinding.ofJson?))
      (← v.field? "forms" (Json.entries? ToldBinding.ofJson?))
  | "declared" => (v.field? "value" Value.ofJson?).map declared
  | "absent" => some absent
  | _ => none

theorem ofJson?_toJson (value : BoundValue) : ofJson? value.toJson = some (of value) := by
  cases value with
  | resolved binding =>
    have hholds : (BoundValue.resolved binding).toJson.Holds _ :=
      Json.holds_ofMembers (by simp [Binding.members])
    obtain ⟨hsource, hbinding⟩ := Json.holds_cons.1 hholds
    rw [ofJson?, hsource, Json.text?_ofString, ToldBinding.ofJson?_of_holds hbinding]
    rfl
  | selectable table =>
    have hholds : (BoundValue.selectable table).toJson.Holds _ :=
      Json.holds_ofMembers (by simp [FormTable.members])
    simp only [FormTable.members, Json.holds_cons] at hholds
    obtain ⟨hsource, hkey, hdefault, hforms, -⟩ := hholds
    have hdefault? := Json.orNull?_getD Binding.toJson_ne_null ToldBinding.ofJson?_toJson
      table.default?
    have hforms? := Json.entries?_map (fun entry => ToldBinding.ofJson?_toJson entry.2)
      (fun entry => entry.1.text) table.forms.entries
    simp [ofJson?, hsource, hkey, hdefault, hforms, hdefault?, hforms?, Json.text?_ofString, of]
  | declared value =>
    have hholds : (BoundValue.declared value).toJson.Holds _ := Json.holds_ofMembers (by simp)
    simp only [Json.holds_cons] at hholds
    obtain ⟨hsource, hvalue, -⟩ := hholds
    simp [ofJson?, hsource, hvalue, value.ofJson?_toJson, Json.text?_ofString, of]
  | absent => rfl

end ToldValue

structure ToldMethod where
  method : String
  key : String
  value : ToldValue
deriving DecidableEq

namespace ToldMethod

def of (m : BoundMethod) : ToldMethod where
  method := m.method
  key := m.key
  value := .of m.value

def ofJson? (v : Json) : Option ToldMethod := do
  return {
    method := ← v.field? "method" Json.text?
    key := ← v.field? "key" Json.text?
    value := ← v.field? "value" ToldValue.ofJson? }

theorem ofJson?_toJson (m : BoundMethod) : ofJson? m.toJson = some (of m) := by
  have hholds : m.toJson.Holds _ := Json.holds_ofMembers (by simp)
  simp only [Json.holds_cons] at hholds
  obtain ⟨hmethod, hkey, hvalue, -⟩ := hholds
  rw [ofJson?, hmethod, hkey, hvalue, ToldValue.ofJson?_toJson]
  rfl

end ToldMethod

/-- What is written about an artifact. -/
structure ToldArtifact where
  interface : String
  kind : Kind
  requested : String
  effective : String
  className : String
  methods : List ToldMethod
deriving DecidableEq

namespace ToldArtifact

def of (a : Artifact) : ToldArtifact where
  interface := a.interface.name
  kind := a.kind
  requested := a.requested.name
  effective := a.effective.name
  className := a.className
  methods := a.methods.map .of

def ofJson? (v : Json) : Option ToldArtifact := do
  return {
    interface := ← v.field? "interface" Json.text?
    kind := ← v.field? "kind" Kind.ofJson?
    requested := ← v.field? "requested" Json.text?
    effective := ← v.field? "effective" Json.text?
    className := ← v.field? "class_name" Json.text?
    methods := ← v.field? "methods" (Json.items? ToldMethod.ofJson?) }

theorem ofJson?_toJson (a : Artifact) : ofJson? a.toJson = some (of a) := by
  have hholds : a.toJson.Holds _ := Json.holds_ofMembers (by simp)
  simp only [Json.holds_cons] at hholds
  obtain ⟨hinterface, hkind, hrequested, heffective, hclass, hmethods, -⟩ := hholds
  have hmethods? := Json.items?_map ToldMethod.ofJson?_toJson a.methods
  rw [ofJson?, hinterface, hkind, hrequested, heffective, hclass, hmethods, hmethods?,
    a.kind.ofJson?_toJson]
  rfl

end ToldArtifact

end Generation

end Localization
