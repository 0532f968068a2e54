import Localization.Resolution

namespace Localization

/-- Where the search goes when the nearest bundle has no value for a form. -/
inductive Fallback where
  /-- To the default value in the same bundle, then to the next bundle. -/
  | sameLocaleDefault
  /-- To the form in the other bundles, then to the default value in every bundle. -/
  | acrossChainFirst
deriving DecidableEq, Inhabited

structure LookupSettings where
  selectorFallback : Fallback := .sameLocaleDefault
deriving DecidableEq

/-- A value found in a chain, with its bundle's locale and the form that matched, if one did. -/
structure Binding where
  value : Value
  locale : Locale
  form? : Option Selector
deriving DecidableEq

/-- Every value a key can take in one chain. -/
structure FormTable where
  key : String
  default? : Option Binding
  forms : SortedMap Selector Binding
deriving DecidableEq

namespace Bundle

def defaultBinding? (b : Bundle) (key : String) : Option Binding :=
  (b.default? key).map fun value => ⟨value, b.locale, none⟩

def formBinding? (b : Bundle) (key : String) (form : Selector) : Option Binding :=
  (b.form? key form).map fun value => ⟨value, b.locale, some form⟩

end Bundle

namespace Resolution

def missingKey (r : Resolution) (key : String) : MissingKey where
  key
  tried := r.locales
  chain := r.chain

/-- The first default value along the chain. -/
def findDefault? (r : Resolution) (key : String) : Option Binding :=
  r.bundles.findSome? (·.defaultBinding? key)

/-- The first value for a form along the chain. -/
def findForm? (r : Resolution) (key : String) (form : Selector) : Option Binding :=
  r.bundles.findSome? (·.formBinding? key form)

/-- The value for the first of some forms, earlier forms preferred, or else the default value. -/
def select? (r : Resolution) (policy : Fallback) (key : String) (forms : List Selector) :
    Option Binding :=
  match policy with
  | .sameLocaleDefault =>
    r.bundles.findSome? fun b =>
      (forms.findSome? (b.formBinding? key ·)).or (b.defaultBinding? key)
  | .acrossChainFirst => (forms.findSome? (r.findForm? key ·)).or (r.findDefault? key)

/-- The value of a key that may be absent, for a form if one is asked for. -/
def lookup? (r : Resolution) (policy : Fallback) (key : String) (form? : Option Selector) :
    Option Binding :=
  match form? with
  | none => r.findDefault? key
  | some form => r.select? policy key [form]

/-- The value of a required key, for a form if one is asked for. -/
def lookup (r : Resolution) (policy : Fallback) (key : String) (form? : Option Selector) :
    Except MissingKey Binding :=
  match r.lookup? policy key form? with
  | some found => .ok found
  | none => .error (r.missingKey key)

/-- The plural category of a count in the requested locale. -/
def category (r : Resolution) (count : Int) : PluralCategory :=
  (PluralRule.ofLocale r.requested).categorize count

/-- The value of a required key for a count: a form for just this count comes before the form of
its plural category. -/
def lookupCount (r : Resolution) (policy : Fallback) (key : String) (count : Int) :
    Except MissingKey Binding :=
  match r.select? policy key [.exact count, .ofCategory (r.category count)] with
  | some found => .ok found
  | none => .error (r.missingKey key)

/-- The forms that any bundle of the chain declares for a key. -/
def declaredForms (r : Resolution) (key : String) : List Selector :=
  r.bundles.flatMap (·.forms key)

/-- The key's default value and its value for every form declared in the chain. -/
def formTable (r : Resolution) (policy : Fallback) (key : String) :
    Except MissingKey FormTable :=
  let default? := r.lookup? policy key none
  let forms := SortedMap.ofList <| (r.declaredForms key).filterMap fun form =>
    (r.lookup? policy key (some form)).map (form, ·)
  if default? = none ∧ forms.entries = [] then .error (r.missingKey key)
  else .ok { key, default?, forms }

end Resolution

end Localization
