import SearchLang.Limits
import SearchLang.Settings.Block
import SearchLang.Text.Space

/-!
# Limits from a settings text

The fields of a settings text are the limits by name. A missing field has its
default, an unknown one is passed over, and a field may not come twice.
-/

namespace SearchLang.Settings

/-- The texts for numbers without digits. -/
def special? (s : Text) : Option Number :=
  let unsigned := if s.head? = some '+' then s.drop 1 else s
  if [".inf", ".Inf", ".INF"].any (·.toList == unsigned) then some (.infinite false)
  else if ["-.inf", "-.Inf", "-.INF"].any (·.toList == s) then some (.infinite true)
  else if [".nan", ".NaN", ".NAN"].any (·.toList == s) then some .nan
  else none

/-- The number that a plain scalar writes. A literal must be within reach. -/
def number? (s : Text) : Option Number :=
  (special? s).or <|
    match s with
    | '+' :: '-' :: _ => none
    | '+' :: '+' :: _ => none
    | _ => (Number.ofLiteral? s).filter Number.isFinite

/-- The number that digits of a base write, if there are any. -/
def ofDigits? (base : Nat) (s : Text) : Option Nat :=
  if s.isEmpty then none
  else s.foldlM (fun n c =>
    match ofHex? [c] with
    | some d => if d < base then some (n * base + d) else none
    | none => none) 0

/-- The whole number that a plain scalar writes: decimal without idle zeros, or with a mark for
base sixteen, eight or two. It must fit in 64 bits. -/
def length? (s : Text) : Option Nat :=
  let unsigned := if s.head? = some '+' then s.drop 1 else s
  let n? := match unsigned with
    | '0' :: 'x' :: digits => ofDigits? 16 digits
    | '0' :: 'o' :: digits => ofDigits? 8 digits
    | '0' :: 'b' :: digits => ofDigits? 2 digits
    | '0' :: _ :: _ => none
    | digits => ofDigits? 10 digits
  n?.filter fun n => n < UInt64.size

/-- The names of the fields. -/
inductive Field where
  | maxInputLength
  | maxBoost
  | defaultBoost
  | maxFuzzy
  | defaultFuzzy
  deriving DecidableEq, Repr

namespace Field

/-- All fields. -/
def all : List Field := [maxInputLength, maxBoost, defaultBoost, maxFuzzy, defaultFuzzy]

/-- The name of a field. -/
def name : Field → String
  | maxInputLength => "max_input_len"
  | maxBoost => "max_boost"
  | defaultBoost => "default_boost"
  | maxFuzzy => "max_fuzzy"
  | defaultFuzzy => "default_fuzzy"

/-- The field with a name. -/
def ofName? (name : Text) : Option Field :=
  all.find? fun f => f.name.toList == name

/-- The limits with another value for a field. -/
def set? (f : Field) (s : Text) (l : Limits) : Option Limits :=
  match f with
  | maxInputLength => (length? s).map fun n => { l with maxInputLength := n }
  | maxBoost => (number? s).map fun n => { l with maxBoost := n }
  | defaultBoost => (number? s).map fun n => { l with defaultBoost := n }
  | maxFuzzy => (number? s).map fun n => { l with maxFuzzy := n }
  | defaultFuzzy => (number? s).map fun n => { l with defaultFuzzy := n }

end Field

/-- Takes one entry in; `seen` are the fields that have come. -/
def addEntry? (seen : List Field) (l : Limits) (key value : Value) :
    Option (List Field × Limits) :=
  match key with
  | .other => none
  | .plain name | .quoted name =>
    match Field.ofName? name with
    | none => some (seen, l)
    | some f =>
      if seen.contains f then none
      else match value with
        | .plain s => (f.set? s l).map fun l => (f :: seen, l)
        | _ => none

/-- Takes some entries in. -/
def addEntries? (seen : List Field) (l : Limits) : List (Value × Value) → Option Limits
  | [] => some l
  | (key, value) :: rest =>
    match addEntry? seen l key value with
    | some (seen, l) => addEntries? seen l rest
    | none => none

/-- The limits of a settings text, repaired; none if the text is malformed. A blank text leaves all
defaults. -/
def read? (s : Text) : Option Limits :=
  if (Text.trimSpace s).isEmpty then some ({} : Limits).validate
  else ((readDocument? s).bind (addEntries? [] {})).map Limits.validate

end SearchLang.Settings
