import SearchLang.Node.Finite
import SearchLang.Node.Json
import SearchLang.Proofs.Json.ReadBack

/-!
# Trees read back from JSON

A tree is read back from its JSON value (`Node.toNode?_toJson`), and that from
its text if the numbers of the tree are finite (`Node.isReadable_toJson`). Each
field is looked up by its key, so it matters that the keys of an object differ,
and that a field which was left out is read as one that has no value.
-/

namespace SearchLang

namespace Json

/-! ## Fields -/

theorem mem_field? {key : String} {value : Option Json} {f : Text × Json} :
    f ∈ field? key value ↔ ∃ v ∈ value, f = field key v := by
  cases value <;> simp [field?, field]

/-- Fields whose keys are some of certain keys, in their order, and whose values can be read. -/
structure AreFields (keys : List String) (fields : List (Text × Json)) : Prop where
  keys : (fields.map Prod.fst).Sublist (keys.map String.toList)
  values : ∀ field ∈ fields, IsReadable field.2

variable {keys keys' : List String} {fields fields' : List (Text × Json)}

theorem areFields_field (key : String) {value : Json} (h : IsReadable value) :
    AreFields [key] [field key value] :=
  ⟨List.Sublist.refl _, by simpa [field] using h⟩

theorem areFields_field? (key : String) {value : Option Json}
    (h : ∀ v ∈ value, IsReadable v) : AreFields [key] (field? key value) := by
  cases value with
  | none => exact ⟨List.nil_sublist _, by simp [field?]⟩
  | some v => exact areFields_field key (h v rfl)

theorem areFields_map {α : Type} (key : String) {value : Option α} {write : α → Json}
    (h : ∀ a ∈ value, IsReadable (write a)) : AreFields [key] (field? key (value.map write)) :=
  areFields_field? key (by simpa using h)

theorem AreFields.mono (h : AreFields keys fields) (hkeys : keys.Sublist keys') :
    AreFields keys' fields :=
  ⟨h.keys.trans (hkeys.map String.toList), h.values⟩

theorem AreFields.append (h : AreFields keys fields) (h' : AreFields keys' fields') :
    AreFields (keys ++ keys') (fields ++ fields') where
  keys := by simpa only [List.map_append] using h.keys.append h'.keys
  values field hf := (List.mem_append.mp hf).elim (h.values field) (h'.values field)

theorem AreFields.isReadable (h : AreFields keys fields) (hkeys : keys.Nodup) :
    IsReadable (.object fields) := by
  have htexts : (keys.map String.toList).Nodup :=
    List.Pairwise.map String.toList (fun _ _ hne heq => hne (String.toList_inj.mp heq)) hkeys
  exact isReadable_object (h.keys.nodup htexts) h.values

/-! ## Looking up -/

/-- The value of the first field with a key. -/
def valueOf? (fields : List (Text × Json)) (key : String) : Option Json :=
  fields.lookup key.toList

@[simp] theorem valueOf?_cons (key other : String) (value : Json) (rest : List (Text × Json)) :
    valueOf? (field other value :: rest) key =
      if key = other then some value else valueOf? rest key := by
  by_cases h : key = other
  · simp [valueOf?, field, h]
  · have hne : key.toList ≠ other.toList := fun hl => h (String.toList_inj.mp hl)
    simp [valueOf?, field, List.lookup_cons, h, beq_eq_false_iff_ne.mpr hne]

@[simp] theorem valueOf?_nil (key : String) : valueOf? [] key = none := rfl

@[simp] theorem valueOf?_field? (key other : String) (value : Option Json) :
    valueOf? (field? other value) key = if key = other then value else none := by
  cases value with
  | none => simp [field?]
  | some v => exact valueOf?_cons key other v []

@[simp] theorem valueOf?_append (key : String) (fields rest : List (Text × Json)) :
    valueOf? (fields ++ rest) key = (valueOf? fields key).or (valueOf? rest key) :=
  List.lookup_append

/-- A field that may be left out is read as it was written. -/
theorem optional?_of_get? {α : Type} {key : String} {read? : Json → Option α} (write : α → Json)
    {j : Json} {value : Option α} (hread : ∀ a, read? (write a) = some a)
    (hnull : read? .null = none) (hget : j.get? key.toList = value.map write) :
    j.optional? key read? = some value := by
  rw [optional?, hget]
  cases value with
  | none => rfl
  | some a =>
    simp only [Option.map_some]
    split
    · rename_i heq
      simp at heq
    · rename_i heq
      rw [← Option.some.inj heq, hread] at hnull
      simp at hnull
    · rename_i heq
      rw [← Option.some.inj heq, hread]
      rfl

end Json

/-! ## Values that can be read -/

section

open Json

/-- The keys of modifiers. -/
def Modifiers.keys : List String :=
  ["bool_operator", "boost", "fuzzy"]

theorem Modifiers.areFields_fields {m : Modifiers} (h : m.isFinite = true) :
    AreFields keys m.fields := by
  simp only [isFinite, Bool.and_eq_true, Option.all_eq_true] at h
  exact ((areFields_map "bool_operator" fun s _ => isReadable_string _).append
    (areFields_map "boost" fun n hn => isReadable_number (h.1 n hn))).append
    (areFields_map "fuzzy" fun n hn => isReadable_number (h.2 n hn))

theorem Range.areFields_fields {α : Type} {bound : α → Json} {r : Range α}
    (h : ∀ a ∈ r.bounds, IsReadable (bound a)) :
    AreFields ["lower", "upper", "exclusive"] (r.fields bound) :=
  ((areFields_map "lower" fun a ha =>
    h a (List.mem_append_left _ (Option.mem_toList.mpr ha))).append
    (areFields_map "upper" fun a ha =>
      h a (List.mem_append_right _ (Option.mem_toList.mpr ha)))).append
    (areFields_field "exclusive" (isReadable_bool _))

theorem Interval.areFields_fields {i : Interval} (h : i.isFinite = true) :
    AreFields ["lower", "upper", "exclusive"] i.fields := by
  cases i with
  | words r => exact r.areFields_fields fun s _ => isReadable_string s
  | numbers r =>
    exact r.areFields_fields fun n hn => isReadable_number (List.all_eq_true.mp h n hn)
  | dates r => exact r.areFields_fields fun s _ => isReadable_string s

theorem Leaf.areFields_fields {l : Leaf} (h : l.isFinite = true) :
    AreFields ["value", "trailing_wildcard"] l.fields := by
  have hvalue : ["value"].Sublist ["value", "trailing_wildcard"] := by simp
  cases l with
  | word value wildcard =>
    refine (areFields_field "value" (isReadable_string value)).append (areFields_field? _ ?_)
    cases wildcard <;> simp [isReadable_bool]
  | number value => exact (areFields_field "value" (isReadable_number h)).mono hvalue
  | text form value => exact (areFields_field "value" (isReadable_string value)).mono hvalue

theorem isReadable_nodeObject {tag : Tag} {keys : List String} {content : List (Text × Json)}
    {m : Modifiers} (hcontent : AreFields keys content) (hm : m.isFinite = true)
    (hkeys : ("type" :: keys ++ Modifiers.keys).Nodup) :
    IsReadable (nodeObject tag content m) :=
  (((areFields_field "type" (isReadable_string _)).append hcontent).append
    (Modifiers.areFields_fields hm)).isReadable hkeys

theorem Node.listToJson_eq_map (nodes : List Node) :
    Node.listToJson nodes = nodes.map Node.toJson := by
  induction nodes with
  | nil => rw [Node.listToJson]; rfl
  | cons n rest ih => rw [Node.listToJson, ih]; rfl

/-- **The JSON value of a tree of finite numbers can be read.** -/
theorem Node.isReadable_toJson {n : Node} (h : n.isFinite = true) : IsReadable n.toJson := by
  induction n with
  | leaf l m =>
    simp only [isFinite, Bool.and_eq_true] at h
    rw [toJson]
    exact isReadable_nodeObject (Leaf.areFields_fields h.1) h.2 (by decide)
  | range i m =>
    simp only [isFinite, Bool.and_eq_true] at h
    rw [toJson]
    exact isReadable_nodeObject (Interval.areFields_fields h.1) h.2 (by decide)
  | filter f c value m ih =>
    simp only [isFinite, Bool.and_eq_true] at h
    rw [toJson]
    exact isReadable_nodeObject (((areFields_field "field" (isReadable_string f)).append
      (areFields_map "comparison" fun c _ => isReadable_string _)).append
      (areFields_field "value" (ih h.1))) h.2 (by decide)
  | subquery nodes m ih =>
    simp only [isFinite, areFinite_eq_all, Bool.and_eq_true, List.all_eq_true] at h
    have hitems : IsReadable (.array (Node.listToJson nodes)) := by
      refine isReadable_array fun item hitem => ?_
      rw [Node.listToJson_eq_map] at hitem
      obtain ⟨n, hn, rfl⟩ := List.mem_map.mp hitem
      exact ih n hn (h.1 n hn)
    rw [toJson]
    exact isReadable_nodeObject (areFields_field "nodes" hitems) h.2 (by decide)

/-! ## Values read back -/

theorem Tag.ofName?_name (t : Tag) : ofName? t.name.toList = some t := by
  cases t with
  | text form => cases form <;> decide
  | _ => decide

section

variable (tag : Tag) (content : List (Text × Json)) (m : Modifiers)

theorem get?_nodeObject (key : String) :
    (nodeObject tag content m).get? key.toList =
      if key = "type" then some (ofName tag.name)
      else (valueOf? content key).or (valueOf? m.fields key) := by
  show valueOf? (field "type" (ofName tag.name) :: content ++ m.fields) key = _
  rw [List.cons_append, valueOf?_cons, valueOf?_append]

theorem tag?_nodeObject : (nodeObject tag content m).tag? = some tag := by
  rw [tag?, get?_nodeObject, if_pos rfl]
  exact Tag.ofName?_name tag

/-- A key that is neither that of the type nor that of a modifier belongs to the content. -/
theorem get?_content {key : String} (h : key ∉ "type" :: Modifiers.keys) :
    (nodeObject tag content m).get? key.toList = valueOf? content key := by
  simp only [Modifiers.keys, List.mem_cons, List.not_mem_nil, or_false, not_or] at h
  simp [get?_nodeObject, Modifiers.fields, h]

variable {tag content m} {key : String}

theorem required?_nodeObject {α : Type} {read? : Json → Option α}
    (h : key ∉ "type" :: Modifiers.keys) :
    (nodeObject tag content m).required? key read? = (valueOf? content key).bind read? := by
  rw [required?, get?_content _ _ _ h]

theorem optional?_nodeObject {α : Type} {read? : Json → Option α} (write : α → Json)
    {value : Option α} (h : key ∉ "type" :: Modifiers.keys)
    (hread : ∀ a, read? (write a) = some a) (hnull : read? .null = none)
    (hvalue : valueOf? content key = value.map write) :
    (nodeObject tag content m).optional? key read? = some value :=
  optional?_of_get? write hread hnull (by rw [get?_content _ _ _ h, hvalue])

/-- The modifiers are read if no field of the content has a key of theirs. -/
theorem modifiers?_nodeObject
    (h : ∀ key ∈ Modifiers.keys, valueOf? content key = none) :
    (nodeObject tag content m).modifiers? = some m := by
  have hget {key : String} (hkey : key ∈ Modifiers.keys) (hne : key ≠ "type") :
      (nodeObject tag content m).get? key.toList = valueOf? m.fields key := by
    rw [get?_nodeObject, if_neg hne, h key hkey, Option.none_or]
  have hsign : (nodeObject tag content m).defaulting? "bool_operator" none sign? = some m.sign := by
    rw [defaulting?, hget (by decide) (by decide)]
    rcases m with ⟨_ | _ | _, boost, fuzzy⟩ <;> simp [Modifiers.fields] <;> rfl
  have hboost : (nodeObject tag content m).optional? "boost" number? = some m.boost :=
    optional?_of_get? .number (fun _ => rfl) rfl
      (by rw [hget (by decide) (by decide)]; simp [Modifiers.fields])
  have hfuzzy : (nodeObject tag content m).optional? "fuzzy" number? = some m.fuzzy :=
    optional?_of_get? .number (fun _ => rfl) rfl
      (by rw [hget (by decide) (by decide)]; simp [Modifiers.fields])
  simp only [modifiers?, hsign, hboost, hfuzzy, Option.bind_eq_bind, Option.bind_some,
    Option.pure_def]

theorem range?_nodeObject {α : Type} {write : α → Json} {bound? : Json → Option α} (r : Range α)
    (hread : ∀ a, bound? (write a) = some a) (hnull : bound? .null = none) :
    (nodeObject tag (r.fields write) m).range? bound? = some r := by
  have hlower : (nodeObject tag (r.fields write) m).optional? "lower" bound? = some r.lower :=
    optional?_nodeObject write (by decide) hread hnull (by simp [Range.fields])
  have hupper : (nodeObject tag (r.fields write) m).optional? "upper" bound? = some r.upper :=
    optional?_nodeObject write (by decide) hread hnull (by simp [Range.fields])
  have hexclusive : (nodeObject tag (r.fields write) m).defaulting? "exclusive" false bool? =
      some r.exclusive := by
    rw [defaulting?, get?_content _ _ _ (by decide)]
    simp [Range.fields, bool?]
  simp only [range?, hlower, hupper, hexclusive, Option.bind_eq_bind, Option.bind_some,
    Option.pure_def]

theorem interval?_nodeObject (i : Interval) :
    (nodeObject i.tag i.fields m).interval? i.tag = some i := by
  cases i with
  | words r =>
    rw [Interval.tag, interval?, Interval.fields, range?_nodeObject r (fun _ => rfl) rfl]
    rfl
  | numbers r =>
    rw [Interval.tag, interval?, Interval.fields, range?_nodeObject r (fun _ => rfl) rfl]
    rfl
  | dates r =>
    rw [Interval.tag, interval?, Interval.fields, range?_nodeObject r (fun _ => rfl) rfl]
    rfl

theorem leaf?_nodeObject (l : Leaf) : (nodeObject l.tag l.fields m).leaf? l.tag = some l := by
  cases l with
  | word value wildcard =>
    have hvalue : (nodeObject .word (Leaf.word value wildcard).fields m).required? "value" text? =
        some value := by
      rw [required?_nodeObject (by decide)]
      simp [Leaf.fields, text?]
    have hwildcard : (nodeObject .word (Leaf.word value wildcard).fields m).defaulting?
        "trailing_wildcard" false bool? = some wildcard := by
      rw [defaulting?, get?_content _ _ _ (by decide)]
      cases wildcard <;> simp [Leaf.fields, bool?]
    simp only [Leaf.tag, leaf?, hvalue, hwildcard, Option.bind_eq_bind, Option.bind_some,
      Option.pure_def]
  | number value =>
    rw [Leaf.tag, leaf?, required?_nodeObject (by decide)]
    simp [Leaf.fields, number?]
  | text form value =>
    rw [Leaf.tag, leaf?, required?_nodeObject (by decide)]
    simp [Leaf.fields, text?]

theorem comparison?_ofName (c : Comparison) : comparison? (ofName c.name) = some c := by
  cases c <;> decide

theorem depth_lt_nodeObject (key : String) {value : Json} (h : field key value ∈ content) :
    value.depth < (nodeObject tag content m).depth := by
  rw [nodeObject, depth]
  have hfield : field key value ∈ field "type" (ofName tag.name) :: content ++ m.fields := by
    simp [h]
  exact Nat.lt_succ_of_le (fieldsDepth_le_iff.mp (Nat.le_refl _) _ hfield)

end

theorem Leaf.valueOf?_fields (l : Leaf) :
    ∀ key ∈ Modifiers.keys, valueOf? l.fields key = none := by
  cases l <;> simp [Modifiers.keys, Leaf.fields]

theorem Interval.valueOf?_fields (i : Interval) :
    ∀ key ∈ Modifiers.keys, valueOf? i.fields key = none := by
  cases i <;> simp [Modifiers.keys, Interval.fields, Range.fields]

/-- Items are read as they were written if each is. -/
theorem mapM_map_of_forall {α β : Type} {write : α → β} {read? : β → Option α} {xs : List α}
    (h : ∀ x ∈ xs, read? (write x) = some x) : (xs.map write).mapM read? = some xs := by
  induction xs with
  | nil => rfl
  | cons x xs ih =>
    rw [List.map_cons, List.mapM_cons, h x (by simp), ih fun y hy => h y (by simp [hy])]
    rfl

namespace Node

/-! ### One case for each kind of node -/

theorem toNode?_leaf (l : Leaf) (m : Modifiers) (k : Nat) :
    (leaf l m).toJson.toNode? (k + 1) = some (.leaf l m) := by
  have hleaf := leaf?_nodeObject (m := m) l
  rw [toJson, toNode?, tag?_nodeObject, modifiers?_nodeObject l.valueOf?_fields]
  cases l <;> simp_all [Leaf.tag]

theorem toNode?_range (i : Interval) (m : Modifiers) (k : Nat) :
    (range i m).toJson.toNode? (k + 1) = some (.range i m) := by
  have hinterval := interval?_nodeObject (m := m) i
  rw [toJson, toNode?, tag?_nodeObject, modifiers?_nodeObject i.valueOf?_fields]
  cases i <;> simp_all [Interval.tag]

/-- A filter is read if its value is. -/
theorem toNode?_filter (f : Text) (c : Option Comparison) {value : Node} (m : Modifiers) {k : Nat}
    (h : value.toJson.toNode? k = some value) :
    (filter f c value m).toJson.toNode? (k + 1) = some (.filter f c value m) := by
  rw [toJson]
  generalize hcontent : field "field" (.string f) ::
    field? "comparison" (c.map fun c => ofName c.name) ++ [field "value" value.toJson] = content
  have hown : ∀ key ∈ Modifiers.keys, valueOf? content key = none := by
    simp [Modifiers.keys, ← hcontent]
  have hfield : (nodeObject .filter content m).required? "field" Json.text? = some f := by
    rw [required?_nodeObject (by decide)]
    simp [← hcontent, Json.text?]
  have hcomparison : (nodeObject .filter content m).optional? "comparison" comparison? = some c :=
    optional?_nodeObject (fun c => ofName c.name) (by decide) comparison?_ofName rfl
      (by simp [← hcontent])
  have hvalue : (nodeObject .filter content m).required? "value" (toNode? k) = some value := by
    rw [required?_nodeObject (by decide)]
    simp [← hcontent, h]
  simp only [toNode?, tag?_nodeObject, modifiers?_nodeObject hown, hfield, hcomparison, hvalue,
    Option.bind_eq_bind, Option.bind_some, Option.pure_def]

/-- A subquery is read if its nodes are. -/
theorem toNode?_subquery {nodes : List Node} (m : Modifiers) {k : Nat}
    (h : ∀ n ∈ nodes, n.toJson.toNode? k = some n) :
    (subquery nodes m).toJson.toNode? (k + 1) = some (.subquery nodes m) := by
  have hown : ∀ key ∈ Modifiers.keys,
      valueOf? [field "nodes" (.array (nodes.map toJson))] key = none := by
    simp [Modifiers.keys]
  have hitems : (nodeObject .subquery [field "nodes" (.array (nodes.map toJson))] m).required?
      "nodes" items? = some (nodes.map toJson) := by
    rw [required?_nodeObject (by decide)]
    simp [items?]
  rw [toJson, listToJson_eq_map]
  simp only [toNode?, tag?_nodeObject, modifiers?_nodeObject hown, hitems, mapM_map_of_forall h,
    Option.bind_eq_bind, Option.bind_some, Option.pure_def]

/-- The value of a node nests at least once. -/
theorem exists_eq_add_one {n : Node} {k : Nat} (hk : n.toJson.depth ≤ k) : ∃ j, k = j + 1 := by
  have hpos : 0 < n.toJson.depth := by
    cases n <;> simp [toJson, nodeObject, depth]
  exact Nat.exists_eq_add_one_of_ne_zero (Nat.ne_zero_of_lt (Nat.lt_of_lt_of_le hpos hk))

theorem depth_lt_filter (f : Text) (c : Option Comparison) (value : Node) (m : Modifiers) :
    value.toJson.depth < (filter f c value m).toJson.depth := by
  rw [toJson]
  exact depth_lt_nodeObject "value" (by simp)

theorem depth_lt_subquery {nodes : List Node} (m : Modifiers) {n : Node} (h : n ∈ nodes) :
    n.toJson.depth < (subquery nodes m).toJson.depth := by
  have hitem := itemsDepth_le_iff.mp (Nat.le_refl _) n.toJson (List.mem_map_of_mem h)
  rw [toJson, listToJson_eq_map]
  refine Nat.lt_trans ?_ (depth_lt_nodeObject "nodes" (List.mem_singleton_self _))
  rw [depth]
  exact Nat.lt_succ_of_le hitem

/-- **A tree is read back from its JSON value.** -/
theorem toNode?_toJson (n : Node) {k : Nat} (hk : n.toJson.depth ≤ k) :
    n.toJson.toNode? k = some n := by
  induction n generalizing k with
  | leaf l m =>
    obtain ⟨k, rfl⟩ := exists_eq_add_one hk
    exact toNode?_leaf l m k
  | range i m =>
    obtain ⟨k, rfl⟩ := exists_eq_add_one hk
    exact toNode?_range i m k
  | filter f c value m ih =>
    obtain ⟨k, rfl⟩ := exists_eq_add_one hk
    have hvalue := Nat.lt_of_lt_of_le (depth_lt_filter f c value m) hk
    exact toNode?_filter f c m (ih (Nat.le_of_lt_succ hvalue))
  | subquery nodes m ih =>
    obtain ⟨k, rfl⟩ := exists_eq_add_one hk
    refine toNode?_subquery m fun n hn => ih n hn ?_
    exact Nat.le_of_lt_succ (Nat.lt_of_lt_of_le (depth_lt_subquery m hn) hk)

end Node

/-! ## Lists of trees -/

/-- **Trees of finite numbers are read back from their JSON text**, in either style, unless they
nest too deep for the reader. -/
theorem Node.read?_print {nodes : List Node} (h : Node.areFinite nodes = true)
    (hdepth : (Json.array (Node.listToJson nodes)).depth ≤ maxDepth) (style : Style) :
    Node.read? (Node.print style nodes) = some nodes := by
  rw [Node.areFinite_eq_all, List.all_eq_true] at h
  rw [Node.listToJson_eq_map] at hdepth
  have hreadable : IsReadable (.array (nodes.map Node.toJson)) := by
    refine isReadable_array fun item hitem => ?_
    obtain ⟨n, hn, rfl⟩ := List.mem_map.mp hitem
    exact Node.isReadable_toJson (h n hn)
  have hitems : (nodes.map Node.toJson).mapM node? = some nodes := by
    refine mapM_map_of_forall fun n hn => Node.toNode?_toJson n ?_
    have hn := itemsDepth_le_iff.mp (Nat.le_refl _) n.toJson (List.mem_map_of_mem hn)
    rw [depth] at hdepth
    omega
  rw [Node.read?, Node.print, Node.listToJson_eq_map, (hreadable maxDepth hdepth).read?_print style,
    Option.bind_some, nodes?, items?, Option.bind_some, hitems]

end

end SearchLang
