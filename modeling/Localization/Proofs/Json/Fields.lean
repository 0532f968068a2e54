import Localization.Json.Encoding
import Localization.Proofs.Json.RoundTrip

namespace Localization.Json

variable {α β : Type} {members : List (String × Json)} {encode : α → Json}
  {decode : Json → Option β} {told : α → β}

/-- Decodes the value that has this name in an object. -/
def field? (v : Json) (name : String) (decode : Json → Option β) : Option β :=
  match v with
  | object members => (member? name (fun v => (decode v).map some) none members).join
  | _ => none

/-- Null, or a value to decode. -/
def orNull? (decode : Json → Option β) : Json → Option (Option β)
  | null => some none
  | v => (decode v).map some

/-- The decoded items of an array. -/
def items? (decode : Json → Option β) : Json → Option (List β)
  | array items => items.mapM decode
  | _ => none

/-- The names and the decoded values of an object. -/
def entries? (decode : Json → Option β) : Json → Option (List (String × β))
  | object members => members.mapM fun m => do return (← m.1, ← decode m.2)
  | _ => none

/-- Whether the value of each of these members is found under its name. -/
def Holds (v : Json) (members : List (String × Json)) : Prop :=
  ∀ m ∈ members, ∀ {β : Type} (decode : Json → Option β), v.field? m.1 decode = decode m.2

theorem holds_cons {v : Json} {m : String × Json} : v.Holds (m :: members) ↔
    (∀ {β : Type} (decode : Json → Option β), v.field? m.1 decode = decode m.2) ∧
      v.Holds members :=
  List.forall_mem_cons

/-- An object in which no name occurs twice holds its members. -/
theorem holds_ofMembers (hnodup : (members.map Prod.fst).Nodup) :
    (ofMembers members).Holds members := by
  intro m hm β decode
  obtain ⟨before, after, rfl⟩ := List.append_of_mem hm
  have hother (other : String × Json) (h : other ∈ before ++ after) : other.1 ≠ m.1 := by
    rw [List.map_append, List.map_cons, List.nodup_middle, List.nodup_cons, ← List.map_append]
      at hnodup
    exact fun hsame => hnodup.1 (List.mem_map.2 ⟨other, h, hsame⟩)
  have hbefore : before.filter (·.1 = m.1) = [] :=
    List.filter_eq_nil_iff.2 fun other h => by simpa using hother other (List.mem_append_left _ h)
  have hafter : after.filter (·.1 = m.1) = [] :=
    List.filter_eq_nil_iff.2 fun other h => by simpa using hother other (List.mem_append_right _ h)
  have hfound : (ofMembers (before ++ m :: after)).field? m.1 decode =
      ((decode m.2).map some).join := by
    simp [ofMembers, field?, member?, List.filter_map, Function.comp_def, hbefore, hafter]
  rw [hfound]
  cases decode m.2 <;> rfl

theorem mapM_map_eq_some {γ : Type} {encode : α → γ} {decode : γ → Option β}
    (h : ∀ a, decode (encode a) = some (told a)) (l : List α) :
    (l.map encode).mapM decode = some (l.map told) := by
  induction l with
  | nil => rfl
  | cons a l ih => simp [List.mapM_cons, h, ih]

theorem ofString_ne_null (text : String) : ofString text ≠ .null :=
  nofun

theorem text?_ofString (text : String) : (ofString text).text? = some text :=
  rfl

theorem texts?_map_ofString (items : List String) :
    (array (items.map ofString)).texts? = some items := by
  have htexts := mapM_map_eq_some text?_ofString items
  rwa [List.map_id'] at htexts

theorem items?_map (h : ∀ a, decode (encode a) = some (told a)) (l : List α) :
    (array (l.map encode)).items? decode = some (l.map told) :=
  mapM_map_eq_some h l

theorem entries?_map (h : ∀ a, decode (encode a) = some (told a)) (name : α → String)
    (l : List α) : (ofMembers (l.map fun a => (name a, encode a))).entries? decode =
      some (l.map fun a => (name a, told a)) := by
  rw [ofMembers, List.map_map, entries?]
  exact mapM_map_eq_some (fun a => by simp [h]) l

theorem orNull?_getD (hnull : ∀ a, encode a ≠ .null) (h : ∀ a, decode (encode a) = some (told a))
    (a? : Option α) : ((a?.map encode).getD .null).orNull? decode = some (a?.map told) := by
  cases a? with
  | none => rfl
  | some a =>
    have hsome : (encode a).orNull? decode = (decode (encode a)).map some := by
      cases hv : encode a with
      | null => exact absurd hv (hnull a)
      | _ => rfl
    rw [Option.map_some, Option.getD_some, hsome, h]
    rfl

theorem standard_ofString (text : String) : (ofString text).Standard :=
  .string (some text)

theorem standard_array_map (h : ∀ a, (encode a).Standard) (l : List α) :
    (array (l.map encode)).Standard :=
  .array <| List.forall_mem_map.2 fun a _ => h a

theorem standard_ofMembers (h : ∀ m ∈ members, m.2.Standard) : (ofMembers members).Standard :=
  .object <| List.forall_mem_map.2 h

theorem standard_entries_map (h : ∀ a, (encode a).Standard) (name : α → String) (l : List α) :
    (ofMembers (l.map fun a => (name a, encode a))).Standard :=
  standard_ofMembers <| List.forall_mem_map.2 fun a _ => h a

theorem standard_getD (h : ∀ a, (encode a).Standard) (a? : Option α) :
    ((a?.map encode).getD .null).Standard := by
  cases a? with
  | none => exact .null
  | some a => exact h a

end Localization.Json
