import SearchLang.Json.Print
import SearchLang.Json.Read
import SearchLang.Node.Basic

/-!
# Trees as JSON

A node is an object whose `type` names its content. The fields of the content
come first, then the modifiers it has. Reading takes fields in any order, passes
over unknown ones, and lets missing modifiers be missing.
-/

namespace SearchLang

/-! ## Writing -/

/-- The name of a sign. -/
def Sign.name : Sign → String
  | .required => "required"
  | .prohibited => "prohibited"

/-- The name of a comparison. -/
def Comparison.name : Comparison → String
  | .eq => "eq"
  | .gt => "gt"
  | .gte => "gte"
  | .lt => "lt"
  | .lte => "lte"

namespace Json

/-- A string value. -/
def ofName (name : String) : Json :=
  .string name.toList

/-- A field that is left out when it has no value. -/
def field? (key : String) : Option Json → List (Text × Json)
  | some value => [(key.toList, value)]
  | none => []

/-- A field. -/
def field (key : String) (value : Json) : Text × Json :=
  (key.toList, value)

end Json

open Json in
/-- The fields of a range. -/
def Range.fields {α : Type} (bound : α → Json) (r : Range α) : List (Text × Json) :=
  field? "lower" (r.lower.map bound) ++ field? "upper" (r.upper.map bound) ++
    [field "exclusive" (.bool r.exclusive)]

open Json in
/-- The fields of modifiers. -/
def Modifiers.fields (m : Modifiers) : List (Text × Json) :=
  field? "bool_operator" (m.sign.map fun s => ofName s.name) ++
    field? "boost" (m.boost.map .number) ++ field? "fuzzy" (m.fuzzy.map .number)

open Json in
/-- The fields of a leaf. -/
def Leaf.fields : Leaf → List (Text × Json)
  | word value wildcard =>
    field "value" (.string value) ::
      field? "trailing_wildcard" (if wildcard then some (.bool true) else none)
  | number value => [field "value" (.number value)]
  | text _ value => [field "value" (.string value)]

/-- The fields of a range by the type of its bounds. -/
def Interval.fields : Interval → List (Text × Json)
  | words r => r.fields .string
  | numbers r => r.fields .number
  | dates r => r.fields .string

open Json in
/-- The object of a node, given the fields of its content. -/
def nodeObject (tag : Tag) (content : List (Text × Json)) (m : Modifiers) : Json :=
  .object (field "type" (ofName tag.name) :: content ++ m.fields)

mutual

/-- The JSON value of a node. -/
def Node.toJson : Node → Json
  | .leaf l m => nodeObject l.tag l.fields m
  | .range i m => nodeObject i.tag i.fields m
  | .filter f c value m =>
    nodeObject .filter
      (Json.field "field" (.string f) :: Json.field? "comparison" (c.map fun c => .ofName c.name) ++
        [Json.field "value" value.toJson]) m
  | .subquery nodes m =>
    nodeObject .subquery [Json.field "nodes" (.array (Node.listToJson nodes))] m

/-- The JSON values of some nodes. -/
def Node.listToJson : List Node → List Json
  | [] => []
  | n :: rest => n.toJson :: Node.listToJson rest

end

/-! ## Reading -/

namespace Json

/-- A field that may be missing or null, read by `read?`. -/
def optional? {α : Type} (key : String) (read? : Json → Option α) (j : Json) :
    Option (Option α) :=
  match j.get? key.toList with
  | none => some none
  | some .null => some none
  | some value => (read? value).map some

/-- A field that may be missing but not null. -/
def defaulting? {α : Type} (key : String) (default : α) (read? : Json → Option α) (j : Json) :
    Option α :=
  match j.get? key.toList with
  | none => some default
  | some value => read? value

/-- A field that must be there. -/
def required? {α : Type} (key : String) (read? : Json → Option α) (j : Json) : Option α :=
  (j.get? key.toList).bind read?

/-- The name that a value chooses from some names: a string, or an object whose only field has
that name and is null. -/
def choice? : Json → Option Text
  | string s => some s
  | object [(key, null)] => some key
  | _ => none

/-- A sign; `none` names its absence. -/
def sign? (j : Json) : Option (Option Sign) :=
  match choice? j with
  | some name =>
    if name = "none".toList then some none
    else if name = "required".toList then some (some .required)
    else if name = "prohibited".toList then some (some .prohibited)
    else none
  | none => none

/-- A comparison. -/
def comparison? (j : Json) : Option Comparison :=
  match choice? j with
  | some name =>
    [Comparison.eq, .gt, .gte, .lt, .lte].find? fun c => c.name.toList == name
  | none => none

/-- The modifiers of an object. -/
def modifiers? (j : Json) : Option Modifiers := do
  let sign ← j.defaulting? "bool_operator" none sign?
  let boost ← j.optional? "boost" number?
  let fuzzy ← j.optional? "fuzzy" number?
  pure ⟨sign, boost, fuzzy⟩

/-- The range of an object. It may have no bound at all. -/
def range? {α : Type} (bound? : Json → Option α) (j : Json) : Option (Range α) := do
  let lower ← j.optional? "lower" bound?
  let upper ← j.optional? "upper" bound?
  let exclusive ← j.defaulting? "exclusive" false bool?
  pure ⟨lower, upper, exclusive⟩

/-- The type of an object: its name, or its place among all types. -/
def tag? (j : Json) : Option Tag :=
  match j.get? "type".toList with
  | some (.string name) => Tag.ofName? name
  | some (.number n) => n.whole?.bind fun place => Tag.all[place]?
  | _ => none

/-- The leaf of an object with a type. -/
def leaf? (tag : Tag) (j : Json) : Option Leaf :=
  match tag with
  | .word => do
    let value ← j.required? "value" text?
    let wildcard ← j.defaulting? "trailing_wildcard" false bool?
    pure (.word value wildcard)
  | .number => (j.required? "value" number?).map .number
  | .text form => (j.required? "value" text?).map (.text form)
  | _ => none

/-- The range of an object with a type. -/
def interval? (tag : Tag) (j : Json) : Option Interval :=
  match tag with
  | .wordRange => (j.range? text?).map .words
  | .numberRange => (j.range? number?).map .numbers
  | .dateRange => (j.range? text?).map .dates
  | _ => none

/-- The node of a value, of which no more than `depth` levels are looked at. -/
def toNode? : Nat → Json → Option Node
  | 0, _ => none
  | depth + 1, j => do
    let tag ← j.tag?
    let modifiers ← j.modifiers?
    match tag with
    | .filter =>
      let field ← j.required? "field" text?
      let comparison ← j.optional? "comparison" comparison?
      let value ← j.required? "value" (toNode? depth)
      pure (.filter field comparison value modifiers)
    | .subquery =>
      let items ← j.required? "nodes" items?
      let nodes ← items.mapM (toNode? depth)
      pure (.subquery nodes modifiers)
    | .wordRange | .numberRange | .dateRange =>
      (j.interval? tag).map fun i => .range i modifiers
    | _ => (j.leaf? tag).map fun l => .leaf l modifiers

/-- The node of a value. -/
def node? (j : Json) : Option Node :=
  j.toNode? maxDepth

/-- The nodes of an array. -/
def nodes? (j : Json) : Option (List Node) :=
  j.items?.bind fun items => items.mapM node?

end Json

/-- The JSON text of some nodes. -/
def Node.print (style : Json.Style) (nodes : List Node) : Text :=
  (Json.array (Node.listToJson nodes)).print style

/-- Reads the JSON text of some nodes. -/
def Node.read? (s : Text) : Option (List Node) :=
  (Json.read? s).bind Json.nodes?

end SearchLang
