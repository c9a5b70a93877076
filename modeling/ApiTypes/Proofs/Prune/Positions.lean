import ApiTypes.Proofs.Compile.Cleaned
import ApiTypes.Proofs.Document
import ApiTypes.Proofs.Prune.Again

/-!
  What a cleanup does to the schemas of a document.

  * `StandsAt` says **where** the parts of a document stand: the tables `singles`, `maps` and
    `lists` name the keywords, and three kinds of part stand under names that may be extensions.
  * `SchemaCleaned` says **what** becomes of a schema: it loses example values and the extensions
    that are not allowed, its properties keep their names, and the rest stays.

  At every place where a schema stands the cleanup does just that (`clean_exact`). A part that stands
  somewhere stands in the same place afterwards, cleaned as what it is
  (`StandsAt.cleansTo`), because no key on the way there goes.
-/

namespace ApiTypes.Prune

variable {allowed : List String} {document value : Json} {part : Part} {path : List String}

/-! ## 1. Where parts stand -/

/-- The keywords of a part that hold another part. -/
def singles : List (Part × List String × Part) :=
  [(.document, ["components"], .components),
    (.pathItem, httpMethods, .operation),
    (.operation, ["requestBody"], .requestBody),
    (.parameter, ["schema"], .schema),
    (.mediaType, ["schema"], .schema),
    (.schema, ["items", "additionalProperties", "not"], .schema)]

/-- The keywords of a part that hold other parts by names. -/
def maps : List (Part × List String × Part) :=
  [(.components, ["schemas"], .schema),
    (.components, ["parameters", "headers"], .parameter),
    (.components, ["requestBodies"], .requestBody),
    (.components, ["responses"], .response),
    (.components, ["callbacks"], .callback),
    (.operation, ["callbacks"], .callback),
    (.requestBody, ["content"], .mediaType),
    (.response, ["content"], .mediaType),
    (.response, ["headers"], .parameter),
    (.parameter, ["content"], .mediaType),
    (.mediaType, ["encoding"], .encoding),
    (.encoding, ["headers"], .parameter),
    (.schema, ["properties"], .schema)]

/-- The keywords of a part that hold a list of other parts. -/
def lists : List (Part × List String × Part) :=
  [(.pathItem, ["parameters"], .parameter),
    (.operation, ["parameters"], .parameter),
    (.schema, ["allOf", "anyOf", "oneOf"], .schema)]

/-- By a table, a part holds another one under a key. -/
def Holds (table : List (Part × List String × Part)) (part : Part) (key : String) (inner : Part) :
    Prop :=
  ∃ row ∈ table, row.1 = part ∧ key ∈ row.2.1 ∧ row.2.2 = inner

instance (table : List (Part × List String × Part)) (part : Part) (key : String) (inner : Part) :
    Decidable (Holds table part key inner) :=
  inferInstanceAs (Decidable (∃ row ∈ table, row.1 = part ∧ key ∈ row.2.1 ∧ row.2.2 = inner))

/-- Whether a key is no extension, or an allowed one. -/
def isAllowedKey (allowed : List String) (key : String) : Bool :=
  !Schema.isExtensionKey key || allowed.contains key

/-- Where the parts of a document stand. Paths, responses and what a callback calls stand beside
    extensions, and those that are not allowed are none of them. -/
inductive StandsAt (allowed : List String) (document : Json) :
    Part → List String → Json → Prop where
  | document : StandsAt allowed document .document [] document
  | single {part inner : Part} {path : List String} {key : String} {node child : Json}
    (h : StandsAt allowed document part path node) (hkey : Holds singles part key inner)
    (hchild : node.get? key = some child) : StandsAt allowed document inner (path ++ [key]) child
  | entry {part inner : Part} {path : List String} {key name : String}
    {node collection child : Json} (h : StandsAt allowed document part path node)
    (hkey : Holds maps part key inner) (hcollection : node.get? key = some collection)
    (hchild : collection.get? name = some child) :
    StandsAt allowed document inner (path ++ [key, name]) child
  | item {part inner : Part} {path : List String} {key : String} {index : Nat}
    {node child : Json} {items : List Json} (h : StandsAt allowed document part path node)
    (hkey : Holds lists part key inner) (hitems : node.get? key = some (.arr items))
    (hchild : items[index]? = some child) :
    StandsAt allowed document inner (path ++ [key, toString index]) child
  | pathItem {name : String} {paths child : Json} (hpaths : document.get? "paths" = some paths)
    (hname : isAllowedKey allowed name = true) (hchild : paths.get? name = some child) :
    StandsAt allowed document .pathItem ["paths", name] child
  | response {path : List String} {code : String} {node responses child : Json}
    (h : StandsAt allowed document .operation path node)
    (hresponses : node.get? "responses" = some responses)
    (hcode : isAllowedKey allowed code = true) (hchild : responses.get? code = some child) :
    StandsAt allowed document .response (path ++ ["responses", code]) child
  | called {path : List String} {name : String} {node child : Json}
    (h : StandsAt allowed document .callback path node) (hname : isAllowedKey allowed name = true)
    (hchild : node.get? name = some child) :
    StandsAt allowed document .pathItem (path ++ [name]) child

/-! ## 2. Cleaned in place -/

section Tables

variable {key : String} {inner : Part}

/-- What is true of every row of a table is true of every part that holds another one by it. -/
theorem Holds.of_rows {table : List (Part × List String × Part)}
    {P : Part → String → Part → Prop}
    (hrows : ∀ row ∈ table, ∀ key ∈ row.2.1, P row.1 key row.2.2)
    (h : Holds table part key inner) : P part key inner := by
  obtain ⟨row, hrow, rfl, hkey, rfl⟩ := h
  exact hrows row hrow key hkey

theorem childPart_of_singles (h : Holds singles part key inner) :
    childPart part key = inner ∧ isLasting part key = true :=
  Holds.of_rows (P := fun part key inner => childPart part key = inner ∧
    isLasting part key = true) (by decide) h

theorem childPart_of_maps (h : Holds maps part key inner) :
    childPart part key = .mapOf inner ∧ isLasting part key = true :=
  Holds.of_rows (P := fun part key inner => childPart part key = .mapOf inner ∧
    isLasting part key = true) (by decide) h

theorem childPart_of_lists (h : Holds lists part key inner) :
    childPart part key = .listOf inner ∧ isLasting part key = true :=
  Holds.of_rows (P := fun part key inner => childPart part key = .listOf inner ∧
    isLasting part key = true) (by decide) h

end Tables

/-- A path leads to a child that a cleanup leaves there, cleaned as another part. -/
structure CleansTo (allowed : List String) (part : Part) (value : Json) (path : List String)
    (inner : Part) (child : Json) : Prop where
  before : value.at? path = some child
  after : (clean allowed part value).at? path = some (clean allowed inner child)

namespace CleansTo

variable {inner : Part} {child : Json}

theorem trans {innermost : Part} {more : List String} {last : Json}
    (h : CleansTo allowed part value path inner child)
    (hmore : CleansTo allowed inner child more innermost last) :
    CleansTo allowed part value (path ++ more) innermost last where
  before := by rw [Json.at?_append, h.before, Option.bind_some, hmore.before]
  after := by rw [Json.at?_append, h.after, Option.bind_some, hmore.after]

/-- A member under a key that stays. -/
theorem member {key : String} (hkeep : keepsKey allowed part key = true)
    (hpart : childPart part key = inner) (hchild : value.get? key = some child) :
    CleansTo allowed part value [key] inner child where
  before := by simp [Json.at?, Json.child?_of_get? hchild]
  after := by
    have hclean : (clean allowed part value).get? key = some (clean allowed inner child) := by
      rw [get?_clean, if_pos hkeep, hchild, hpart, Option.map_some]
    simp [Json.at?, Json.child?_of_get? hclean]

/-- A member under a name. -/
theorem named {name : String} (hchild : value.get? name = some child) :
    CleansTo allowed (.mapOf inner) value [name] inner child :=
  member rfl rfl hchild

/-- An element of a list. -/
theorem item {items : List Json} {index : Nat} (hchild : items[index]? = some child) :
    CleansTo allowed (.listOf inner) (.arr items) [toString index] inner child where
  before := by rw [Json.at?, Json.child?_toString hchild, Option.bind_some, Json.at?]
  after := by
    have hclean : (cleanItems allowed inner items)[index]? = some (clean allowed inner child) := by
      rw [cleanItems_eq, List.getElem?_map, hchild, Option.map_some]
    rw [clean, Json.at?, Json.child?_toString hclean, Option.bind_some, Json.at?]

end CleansTo

/-- The keys of paths, responses and callbacks stay unless they are extensions that are not
    allowed. -/
theorem keepsKey_of_isAllowedKey {key : String} (hkeywords : hasKeywords part = true)
    (hdropped : droppedKeys part = []) (h : isAllowedKey allowed key = true) :
    keepsKey allowed part key = true := by
  rw [isAllowedKey] at h
  simp [keepsKey, hkeywords, hdropped, ← h]

/-- **What stands somewhere stands in the same place after a cleanup**, cleaned as what it is. -/
theorem StandsAt.cleansTo (h : StandsAt allowed document part path value) :
    CleansTo allowed .document document path part value := by
  induction h with
  | document => exact ⟨rfl, rfl⟩
  | single _ hkey hchild ih =>
    obtain ⟨hpart, hlasting⟩ := childPart_of_singles hkey
    exact ih.trans (.member (keepsKey_of_isLasting hlasting) hpart hchild)
  | entry _ hkey hcollection hchild ih =>
    obtain ⟨hpart, hlasting⟩ := childPart_of_maps hkey
    have hmap : CleansTo allowed _ _ [_] (.mapOf _) _ :=
      .member (keepsKey_of_isLasting hlasting) hpart hcollection
    exact ih.trans (hmap.trans (.named hchild))
  | item _ hkey hitems hchild ih =>
    obtain ⟨hpart, hlasting⟩ := childPart_of_lists hkey
    have hlist : CleansTo allowed _ _ [_] (.listOf _) _ :=
      .member (keepsKey_of_isLasting hlasting) hpart hitems
    exact ih.trans (hlist.trans (.item hchild))
  | pathItem hpaths hname hchild =>
    have hkeep : keepsKey allowed .paths _ = true := keepsKey_of_isAllowedKey rfl rfl hname
    have hmap : CleansTo allowed .document document ["paths"] .paths _ :=
      .member (keepsKey_of_isLasting rfl) rfl hpaths
    exact hmap.trans (.member hkeep rfl hchild)
  | response _ hresponses hcode hchild ih =>
    have hkeep : keepsKey allowed .responses _ = true := keepsKey_of_isAllowedKey rfl rfl hcode
    have hmap : CleansTo allowed .operation _ ["responses"] .responses _ :=
      .member (keepsKey_of_isLasting rfl) rfl hresponses
    exact ih.trans (hmap.trans (.member hkeep rfl hchild))
  | called _ hname hchild ih =>
    exact ih.trans (.member (keepsKey_of_isAllowedKey rfl rfl hname) rfl hchild)

/-! ## 3. Cleaned schemas -/

/-- Whether a key of a schema stays. -/
def staysInSchema (allowed : List String) (key : String) : Bool :=
  key ≠ "example" && key ≠ "examples" && isAllowedKey allowed key

/-- Whether what stands under a key of a schema is a schema, or a map or a list of schemas. -/
def holdsSchemas (key : String) (value : Json) : Bool :=
  if ["allOf", "anyOf", "oneOf"].contains key then value.items?.isSome
  else ["properties", "items", "additionalProperties", "not"].contains key && value.isObject

/-- What becomes of the members of a schema. Schemas inside are left to the places where they
    stand. -/
structure MembersCleaned (allowed : List String) (old new : List (String × Json)) : Prop where
  /-- The keys that stay are there in their order. -/
  keys : Entries.keys new = (Entries.keys old).filter (staysInSchema allowed)
  /-- No name of a property goes. -/
  properties : ∀ entries, Entries.get? "properties" old = some (.obj entries) →
    ∃ others, Entries.get? "properties" new = some (.obj others) ∧
      Entries.keys others = Entries.keys entries
  /-- No member of a combinator goes. -/
  combinators : ∀ key ∈ ["allOf", "anyOf", "oneOf"], ∀ items,
    Entries.get? key old = some (.arr items) →
      ∃ others, Entries.get? key new = some (.arr others) ∧ others.length = items.length
  /-- What holds no schemas is as it was. -/
  rest : ∀ key value, Entries.get? key old = some value → staysInSchema allowed key = true →
    holdsSchemas key value = false → Entries.get? key new = some value

/-- What becomes of a schema. A value that is no object stays as it is. -/
inductive SchemaCleaned (allowed : List String) : Json → Json → Prop where
  | object {old new : List (String × Json)} (h : MembersCleaned allowed old new) :
    SchemaCleaned allowed (.obj old) (.obj new)
  | other {value : Json} (h : value.isObject = false) : SchemaCleaned allowed value value

theorem keepsKey_schema : keepsKey allowed .schema = staysInSchema allowed := by
  funext key
  by_cases hexample : key = "example"
  · simp [keepsKey, hasKeywords, droppedKeys, staysInSchema, hexample]
  · by_cases hexamples : key = "examples" <;>
      simp [keepsKey, hasKeywords, droppedKeys, staysInSchema, isAllowedKey, hexample, hexamples]

theorem clean_eq_self_of_not_isObject {value : Json} (hobject : value.isObject = false)
    (hpart : ∀ inner, part ≠ .listOf inner) : clean allowed part value = value := by
  cases value with
  | obj members => simp [Json.isObject, Json.members?] at hobject
  | arr items =>
    cases part with
    | listOf inner => exact absurd rfl (hpart inner)
    | _ => rfl
  | _ => rfl

/-- A list of parts that is no list stays as it is. -/
theorem clean_listOf_eq_self {inner : Part} {value : Json} (h : value.items? = none) :
    clean allowed (.listOf inner) value = value := by
  cases value with
  | arr items => simp [Json.items?] at h
  | obj members =>
    refine congrArg Json.obj ?_
    simp [cleanMembers_eq, keepsKey, hasKeywords, childPart, clean_other]
  | _ => rfl

/-- Where a key of a schema holds no schemas its value stays as it is. -/
theorem clean_schemaPart_eq_self {key : String} {value : Json}
    (h : holdsSchemas key value = false) : clean allowed (schemaPart key) value = value := by
  have hlists : ∀ key ∈ ["allOf", "anyOf", "oneOf"], schemaPart key = .listOf .schema := by decide
  have hothers : ∀ key ∈ ["properties", "items", "additionalProperties", "not"],
      schemaPart key = .mapOf .schema ∨ schemaPart key = .schema := by decide
  unfold holdsSchemas at h
  by_cases hlist : key ∈ ["allOf", "anyOf", "oneOf"]
  · rw [if_pos (List.contains_iff_mem.mpr hlist)] at h
    rw [hlists key hlist]
    exact clean_listOf_eq_self (by simpa using h)
  · rw [if_neg (fun hcontains => hlist (List.contains_iff_mem.mp hcontains))] at h
    by_cases hother : key ∈ ["properties", "items", "additionalProperties", "not"]
    · rw [List.contains_iff_mem.mpr hother, Bool.true_and] at h
      refine clean_eq_self_of_not_isObject h fun inner hlistOf => ?_
      rcases hothers key hother with hpart | hpart <;> simp [hpart] at hlistOf
    · have hpart : schemaPart key = .other := by
        simp_all [schemaPart]
      rw [hpart, clean_other]

/-- **A cleaned schema is what should become of it.** -/
theorem schemaCleaned_clean (value : Json) :
    SchemaCleaned allowed value (clean allowed .schema value) := by
  cases value with
  | obj members =>
    refine .object ⟨?keys, fun entries hentries => ?properties,
      fun key hkey items hitems => ?combinators, fun key value hvalue hstays hplain => ?rest⟩
    case keys => rw [keys_cleanMembers, keepsKey_schema]
    case properties =>
      have hget : (clean allowed .schema (.obj members)).get? "properties" =
          some (.obj (cleanMembers allowed (.mapOf .schema) entries)) := by
        rw [get?_clean_of_isLasting rfl, Json.get?_obj, hentries]
        rfl
      refine ⟨_, hget, ?_⟩
      rw [cleanMembers_mapOf]
      exact Entries.keys_map fun _ => clean allowed .schema
    case combinators =>
      have hlists : ∀ key ∈ ["allOf", "anyOf", "oneOf"], Holds lists .schema key .schema := by decide
      obtain ⟨hpart, hlasting⟩ := childPart_of_lists (hlists key hkey)
      have hget : (clean allowed .schema (.obj members)).get? key =
          some (.arr (cleanItems allowed .schema items)) := by
        rw [get?_clean_of_isLasting hlasting, Json.get?_obj, hitems, hpart]
        rfl
      exact ⟨_, hget, by rw [cleanItems_eq, List.length_map]⟩
    case rest =>
      have hkeep : keepsKey allowed .schema key = true := by rw [keepsKey_schema, hstays]
      change (clean allowed .schema (.obj members)).get? key = some value
      rw [get?_clean, if_pos hkeep, Json.get?_obj, hvalue, Option.map_some]
      exact congrArg some (clean_schemaPart_eq_self hplain)
  | arr items => exact .other rfl
  | _ => exact .other rfl

/-- **A cleanup takes what it should from schemas, and nothing else.** At every place where a schema
    stands there is afterwards the schema without example values and without the extensions that
    are not allowed; its properties keep their names, and what holds no schemas stays as it is. A
    second cleanup changes nothing. -/
theorem clean_exact (allowed : List String) (document : Json) :
    (∀ path value, StandsAt allowed document .schema path value →
        document.at? path = some value ∧ ∃ cleaned,
          (clean allowed .document document).at? path = some cleaned ∧
            SchemaCleaned allowed value cleaned) ∧
      clean allowed .document (clean allowed .document document) =
        clean allowed .document document := by
  refine ⟨fun path value h => ?_, clean_clean .document document⟩
  have hplace := h.cleansTo
  exact ⟨hplace.before, _, hplace.after, schemaCleaned_clean value⟩

/-- A schema with a property that is called like a keyword and one that is called like an
    extension. -/
def sketchedSchema : List (String × Json) :=
  [("x-type-name", .str "Pet"), ("example", .int 1), ("type", .str "object"), ("x-note", .int 2),
    ("properties", .obj [
      ("example", .obj [("type", .str "string"), ("examples", .arr [])]),
      ("x-note", .obj [])])]

/-- A document with this schema in the second parameter of an operation. -/
def sketched : Json :=
  .obj [("security", .arr []), ("paths", .obj [("/pets", .obj [("x-note", .null), ("get", .obj [
    ("parameters", .arr [.null, .obj [("example", .int 1), ("schema", .obj sketchedSchema)]])])])])]

theorem clean_exact_sketched :
    StandsAt ["x-type-name"] sketched .schema
        ["paths", "/pets", "get", "parameters", "1", "schema", "properties", "example"]
        (.obj [("type", .str "string"), ("examples", .arr [])]) ∧
      ∃ cleaned, (clean ["x-type-name"] .document sketched).at?
          ["paths", "/pets", "get", "parameters", "1", "schema"] = some cleaned ∧
        SchemaCleaned ["x-type-name"] (.obj sketchedSchema) cleaned ∧
        (Entries.keys sketchedSchema).filter (staysInSchema ["x-type-name"]) =
          ["x-type-name", "type", "properties"] := by
  have hitem : StandsAt ["x-type-name"] sketched .pathItem ["paths", "/pets"] _ :=
    .pathItem rfl rfl rfl
  have hoperation : StandsAt ["x-type-name"] sketched .operation ["paths", "/pets", "get"] _ :=
    hitem.single (by decide) rfl
  have hparameter : StandsAt ["x-type-name"] sketched .parameter
      (["paths", "/pets", "get"] ++ ["parameters", toString 1]) _ :=
    hoperation.item (by decide) rfl rfl
  have hschema : StandsAt ["x-type-name"] sketched .schema
      ["paths", "/pets", "get", "parameters", "1", "schema"] (.obj sketchedSchema) :=
    hparameter.single (by decide) rfl
  obtain ⟨-, cleaned, hcleaned, hwhat⟩ := (clean_exact ["x-type-name"] sketched).1 _ _ hschema
  exact ⟨hschema.entry (by decide) rfl rfl, cleaned, hcleaned, hwhat, by decide⟩

end ApiTypes.Prune
