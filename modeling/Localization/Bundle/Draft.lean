import Localization.Bundle

namespace Localization

/-- One declaration of a bundle: the default value of a key, or its value for a form. -/
inductive Declaration where
  | default (key : String) (value : Value)
  | form (key : String) (form : Selector) (value : Value)
deriving DecidableEq

/-- Two values declared for one key and form. -/
structure Conflict where
  key : String
  form : Selector
  first : Value
  second : Value
deriving DecidableEq

namespace Entry

def ofDefault (value : Value) : Entry where
  default? := some value
  forms := .empty
  declared := .inl rfl

def setDefault (e : Entry) (value : Value) : Entry where
  default? := some value
  forms := e.forms
  declared := .inl rfl

private theorem insert_entries_ne_nil (forms : SortedMap Selector Value) (form : Selector)
    (value : Value) : (forms.insert form value).entries ≠ [] := by
  intro h
  have hget := SortedMap.get?_insert_self forms form value
  simp [SortedMap.get?, h, SortedMap.lookupEntry] at hget

def ofForm (form : Selector) (value : Value) : Entry where
  default? := none
  forms := SortedMap.empty.insert form value
  declared := .inr (insert_entries_ne_nil _ _ _)

def addForm (e : Entry) (form : Selector) (value : Value) : Entry where
  default? := e.default?
  forms := e.forms.insert form value
  declared := .inr (insert_entries_ne_nil _ _ _)

end Entry

/-- The entries declared so far, and the first conflict among them. -/
structure Draft where
  entries : SortedMap String Entry := .empty
  conflict? : Option Conflict := none
deriving DecidableEq

namespace Draft

/-- A later default value of a key replaces the earlier one. -/
def addDefault (d : Draft) (key : String) (value : Value) : Draft :=
  let entry :=
    match d.entries.get? key with
    | some entry => entry.setDefault value
    | none => .ofDefault value
  { d with entries := d.entries.insert key entry }

/-- The first value of a key and form stays; one that differs from it is a conflict. -/
def addForm (d : Draft) (key : String) (form : Selector) (value : Value) : Draft :=
  match d.entries.get? key with
  | none => { d with entries := d.entries.insert key (.ofForm form value) }
  | some entry =>
    match entry.forms.get? form with
    | none => { d with entries := d.entries.insert key (entry.addForm form value) }
    | some first =>
      if first = value then d
      else { d with conflict? := d.conflict?.or (some ⟨key, form, first, value⟩) }

def add (d : Draft) : Declaration → Draft
  | .default key value => d.addDefault key value
  | .form key form value => d.addForm key form value

def ofDeclarations (declarations : List Declaration) : Draft :=
  declarations.foldl add {}

end Draft

/-- The bundle of some declarations; it exists unless two of them conflict. -/
def Bundle.ofDeclarations (interface : Interface) (locale : Locale) (source? : Option String)
    (declarations : List Declaration) : Except Error Bundle :=
  let draft := Draft.ofDeclarations declarations
  match draft.conflict? with
  | some c => .error (.ambiguousSelector c.key c.form locale c.first c.second)
  | none => .ok { interface, locale, source?, entries := draft.entries }

end Localization
