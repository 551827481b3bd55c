import SearchLang.Json.Print
import SearchLang.Token.Basic

/-!
# Tokens as JSON

A token is an object with the name of its kind and its value, if it has one.
-/

namespace SearchLang

/-- The JSON value of a literal. -/
def Literal.toJson : Literal → Json
  | number n => .number n
  | text s => .string s

/-- The JSON value of a token. -/
def Token.toJson (t : Token) : Json :=
  .object (("type".toList, .string t.kind.name.toList) ::
    match t.literal with
    | some l => [("value".toList, l.toJson)]
    | none => [])

/-- The JSON text of some tokens. -/
def Token.print (style : Json.Style) (tokens : List Token) : Text :=
  (Json.array (tokens.map Token.toJson)).print style

end SearchLang
