import SearchLang.Number.Layout

/-!
# JSON values

The values that trees and tokens are exchanged as. An object keeps its fields
in order, and a key stands in it once.
-/

namespace SearchLang

/-- A JSON value. -/
inductive Json where
  | null
  | bool (b : Bool)
  | number (n : Number)
  | string (s : Text)
  | array (items : List Json)
  | object (fields : List (Text × Json))
  deriving Repr

namespace Json

/-- Drops each field whose key comes again later. -/
def lastOfEachKey : List (Text × Json) → List (Text × Json)
  | [] => []
  | (key, value) :: rest =>
    if rest.any fun field => field.1 == key then lastOfEachKey rest
    else (key, value) :: lastOfEachKey rest

/-- The value of a field; an absent field and a value that is no object have none. -/
def get? (key : Text) : Json → Option Json
  | object fields => fields.lookup key
  | _ => none

/-- The text of a string. -/
def text? : Json → Option Text
  | string s => some s
  | _ => none

/-- The number that a value is. -/
def number? : Json → Option Number
  | number n => some n
  | _ => none

/-- The truth value that a value is. -/
def bool? : Json → Option Bool
  | bool b => some b
  | _ => none

/-- The items of an array. -/
def items? : Json → Option (List Json)
  | array items => some items
  | _ => none

mutual

/-- How deep arrays and objects nest in a value. -/
def depth : Json → Nat
  | array items => itemsDepth items + 1
  | object fields => fieldsDepth fields + 1
  | _ => 0

/-- The greatest depth of some values. -/
def itemsDepth : List Json → Nat
  | [] => 0
  | item :: rest => max item.depth (itemsDepth rest)

/-- The depth of the value of a field. -/
def fieldDepth : Text × Json → Nat
  | (_, value) => value.depth

/-- The greatest depth of the values of some fields. -/
def fieldsDepth : List (Text × Json) → Nat
  | [] => 0
  | field :: rest => max (fieldDepth field) (fieldsDepth rest)

end

theorem itemsDepth_le_iff {items : List Json} {k : Nat} :
    itemsDepth items ≤ k ↔ ∀ item ∈ items, item.depth ≤ k := by
  induction items with
  | nil => simp [itemsDepth]
  | cons item rest ih => rw [itemsDepth, Nat.max_le, ih, List.forall_mem_cons]

theorem fieldsDepth_le_iff {fields : List (Text × Json)} {k : Nat} :
    fieldsDepth fields ≤ k ↔ ∀ field ∈ fields, field.2.depth ≤ k := by
  induction fields with
  | nil => simp [fieldsDepth]
  | cons field rest ih =>
    obtain ⟨key, value⟩ := field
    rw [fieldsDepth, fieldDepth, Nat.max_le, ih, List.forall_mem_cons]

theorem lastOfEachKey_of_nodup {fields : List (Text × Json)}
    (h : (fields.map Prod.fst).Nodup) : lastOfEachKey fields = fields := by
  induction fields with
  | nil => rfl
  | cons field rest ih =>
    obtain ⟨key, value⟩ := field
    simp only [List.map_cons, List.nodup_cons, List.mem_map, not_exists, not_and] at h
    rw [lastOfEachKey, if_neg, ih h.2]
    simp only [List.any_eq_true, beq_iff_eq, not_exists, not_and]
    exact h.1

end Json

end SearchLang
