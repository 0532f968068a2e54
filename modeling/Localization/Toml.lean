namespace Localization

/-- A TOML value. Floats and date-times are kept as they are written. -/
inductive Toml where
  | string (text : String)
  | integer (n : Int)
  | float (numeral : String)
  | boolean (b : Bool)
  | dateTime (text : String)
  | array (items : List Toml)
  | table (members : List (String × Toml))
deriving Inhabited

end Localization
