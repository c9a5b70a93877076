import ApiTypes.Filter
import ApiTypes.Proofs.Json

/-!
  What a filter leaves of a document.

  * `PathStays` and `OperationStays` say which path items and which operations the lists of a filter
    ask to keep. An operation without tags or without a name has none that is dropped, and none that
    is kept.
  * `PathsLeft` says what is left of the paths: the path items that stay, in order, and in each of
    them every member but the operations that do not stay. An item that is no object stays whole.
  * **A filter leaves exactly that, touches nothing else, and counts what goes** (`apply_exact`).
    So the order of two filters does not matter.
-/

namespace ApiTypes

open Json

variable {document item : Json} {members paths : List (String × Json)} {f g : Filter}

namespace Filter

/-! ## 1. What stays -/

/-- A path that is among those to keep, where some are given, and not among those to drop. -/
structure PathStays (f : Filter) (path : String) : Prop where
  kept : f.keep.paths = [] ∨ path ∈ f.keep.paths
  notDropped : path ∉ f.drop.paths

/-- A text in the list of an operation's tags. -/
def HasTag (operation : Json) (tag : String) : Prop :=
  ∃ tags, operation.get? "tags" = some (.arr tags) ∧ .str tag ∈ tags

/-- The name of an operation. -/
def HasName (operation : Json) (name : String) : Prop :=
  operation.get? "operationId" = some (.str name)

/-- An operation with no dropped tag or name, and with a tag and a name to keep where some are
    given. -/
structure OperationStays (f : Filter) (operation : Json) : Prop where
  noTagDropped : ∀ tag, HasTag operation tag → tag ∉ f.drop.tags
  tagKept : f.keep.tags = [] ∨ ∃ tag, HasTag operation tag ∧ tag ∈ f.keep.tags
  nameNotDropped : ∀ name, HasName operation name → name ∉ f.drop.operationIds
  nameKept : f.keep.operationIds = [] ∨ ∃ name, HasName operation name ∧ name ∈ f.keep.operationIds

theorem admits_iff {keep drop labels : List String} : admits keep drop labels = true ↔
    (∀ label ∈ labels, label ∉ drop) ∧ (keep = [] ∨ ∃ label ∈ labels, label ∈ keep) := by
  simp [admits]

theorem mem_operationTags {operation : Json} {tag : String} :
    tag ∈ operationTags operation ↔ HasTag operation tag := by
  unfold operationTags HasTag
  cases operation.get? "tags" with
  | none => simp
  | some tags =>
    have hstr (value : Json) : value.string? = some tag ↔ value = .str tag := by
      cases value <;> simp [string?]
    cases tags <;> simp [items?, hstr]

theorem mem_operationNames {operation : Json} {name : String} :
    name ∈ operationNames operation ↔ HasName operation name := by
  unfold operationNames HasName
  cases operation.get? "operationId" with
  | none => simp
  | some value => cases value <;> simp [string?, eq_comm]

theorem keepsPath_iff {path : String} : f.keepsPath path = true ↔ f.PathStays path := by
  rw [keepsPath, admits_iff]
  simp only [List.mem_singleton, forall_eq, exists_eq_left]
  exact ⟨fun h => ⟨h.2, h.1⟩, fun h => ⟨h.notDropped, h.kept⟩⟩

theorem keepsOperation_iff {operation : Json} :
    f.keepsOperation operation = true ↔ f.OperationStays operation := by
  rw [keepsOperation, Bool.and_eq_true, admits_iff, admits_iff]
  simp only [mem_operationTags, mem_operationNames]
  exact ⟨fun h => ⟨h.1.1, h.1.2, h.2.1, h.2.2⟩, fun h =>
    ⟨⟨h.noTagDropped, h.tagKept⟩, h.nameNotDropped, h.nameKept⟩⟩

theorem keepsMember_iff {entry : String × Json} :
    f.keepsMember entry = true ↔ (entry.1 ∈ httpMethods → f.OperationStays entry.2) := by
  by_cases hmethod : entry.1 ∈ httpMethods <;> simp [keepsMember, hmethod, keepsOperation_iff]

/-! ## 2. What is left -/

/-- What is left of a path item: of an object all members, in order, but the operations that do not
    stay, and anything else as it is. -/
inductive ItemLeft (f : Filter) : Json → Json → Prop where
  | object {members left : List (String × Json)} (order : left.Sublist members)
    (stays : ∀ entry ∈ members,
      entry ∈ left ↔ (entry.1 ∈ httpMethods → f.OperationStays entry.2)) :
    ItemLeft f (.obj members) (.obj left)
  | other {item : Json} (h : item.isObject = false) : ItemLeft f item item

/-- What is left of the paths: the path items that stay, in order, each without the operations that
    do not. -/
structure PathsLeft (f : Filter) (paths left : List (String × Json)) : Prop where
  order : (Entries.keys left).Sublist (Entries.keys paths)
  stays : ∀ path ∈ Entries.keys paths, path ∈ Entries.keys left ↔ f.PathStays path
  items : ∀ path item rest, (path, item) ∈ paths → (path, rest) ∈ left → f.ItemLeft item rest

theorem itemLeft_mapMembers (f : Filter) (item : Json) :
    f.ItemLeft item (item.mapMembers (·.filter f.keepsMember)) := by
  cases item with
  | obj members =>
    refine .object List.filter_sublist fun entry hentry => ?_
    rw [List.mem_filter, keepsMember_iff]
    exact and_iff_right hentry
  | _ => exact .other rfl

theorem keys_applyToPaths (f : Filter) (paths : List (String × Json)) :
    Entries.keys (f.applyToPaths paths) = (Entries.keys paths).filter f.keepsPath := by
  simp [applyToPaths, Entries.keys, List.filter_map, Function.comp_def]

/-- **Exactly the path items and the operations that stay are left.** -/
theorem pathsLeft_applyToPaths (hkeys : (Entries.keys paths).Nodup) :
    f.PathsLeft paths (f.applyToPaths paths) where
  order := keys_applyToPaths f paths ▸ List.filter_sublist
  stays path hpath := by
    rw [keys_applyToPaths, List.mem_filter, keepsPath_iff]
    exact and_iff_right hpath
  items path item rest hitem hrest := by
    obtain ⟨entry, hentry, heq⟩ := List.mem_map.mp hrest
    obtain ⟨rfl, rfl⟩ := Prod.mk.inj heq
    -- A path comes once, so what is left comes from this item.
    have hsame : item = entry.2 := Option.some.inj <|
      (Entries.get?_of_mem hkeys hitem).symm.trans
        (Entries.get?_of_mem hkeys (List.mem_of_mem_filter hentry))
    exact hsame ▸ itemLeft_mapMembers f item

/-! ## 3. Applying a filter -/

theorem apply_obj (hpaths : Entries.get? "paths" members = some (.obj paths)) :
    f.apply (.obj members) = if f.isEmpty then (.obj members, 0) else
      (.obj (Entries.insert "paths" (.obj (f.applyToPaths paths)) members),
        total f.droppedCount paths) := by
  cases hempty : f.isEmpty <;> simp [apply, hempty, hpaths]

/-- A document whose paths are no object stays as it is. -/
theorem apply_of_ne (h : ∀ paths, document.get? "paths" ≠ some (.obj paths)) :
    f.apply document = (document, 0) := by
  unfold apply
  split
  · split
    · exact absurd ‹_› (h _)
    · rfl
  · rfl

theorem get?_apply_of_ne (f : Filter) {key : String} (h : key ≠ "paths") (document : Json) :
    (f.apply document).1.get? key = document.get? key := by
  unfold Filter.apply
  split
  · split
    · exact Entries.get?_insert_of_ne h _ _
    · rfl
  · rfl

/-- The paths that a filter leaves repeat no key. -/
theorem hasDistinctKeys_applyToPaths (f : Filter)
    (hkeys : (Json.obj paths).hasDistinctKeys = true) :
    (Json.obj (f.applyToPaths paths)).hasDistinctKeys = true := by
  have hleft : (Json.obj (paths.filter (f.keepsPath ·.1))).hasDistinctKeys = true :=
    Json.hasDistinctKeys_filter hkeys
  exact Json.hasDistinctKeys_mapValues (f := fun _ item => item.mapMembers (·.filter f.keepsMember))
    hleft fun _ _ => Json.hasDistinctKeys_mapMembers fun _ => Json.hasDistinctKeys_filter

theorem hasDistinctKeys_apply (f : Filter) (hkeys : document.hasDistinctKeys = true) :
    (f.apply document).1.hasDistinctKeys = true := by
  unfold Filter.apply
  split
  · split
    · rename_i hpaths
      exact hasDistinctKeys_insert hkeys
        (hasDistinctKeys_applyToPaths f (hasDistinctKeys_of_get? hkeys hpaths))
    · exact hkeys
  · exact hkeys

/-! ## 4. Counting -/

/-- How many operations the path items have. -/
def operationTotal (paths : List (String × Json)) : Nat :=
  total (fun entry => operationCount entry.2) paths

/-- How many operations a document has. -/
def operationsIn (document : Json) : Nat :=
  match document.get? "paths" with
  | some (.obj paths) => operationTotal paths
  | _ => 0

/-- What a filter leaves under a key of a path item. -/
theorem get?_mapMembers_keepsMember (hkeys : item.hasDistinctKeys = true) {method : String}
    (hmethod : method ∈ httpMethods) :
    (item.mapMembers (·.filter f.keepsMember)).get? method =
      (item.get? method).filter f.keepsOperation := by
  cases item with
  | obj members =>
    have hmember (operation : Json) :
        f.keepsMember (method, operation) = f.keepsOperation operation := by
      simp [keepsMember, hmethod]
    simp only [mapMembers, get?_obj, Entries.get?_filter_of_nodup (hasDistinctKeys_obj.mp hkeys).1,
      hmember]
  | _ => rfl

/-- **What goes from a path item and what is left of it** are all its operations. -/
theorem operationCount_mapMembers (f : Filter) (hkeys : item.hasDistinctKeys = true) :
    operationCount (item.mapMembers (·.filter f.keepsMember)) +
        httpMethods.countP (fun method => (item.get? method).any (!f.keepsOperation ·)) =
      operationCount item := by
  have hleft : operationCount (item.mapMembers (·.filter f.keepsMember)) =
      httpMethods.countP fun method => (item.get? method).any f.keepsOperation := by
    refine List.countP_congr fun method hmethod => ?_
    rw [get?_mapMembers_keepsMember hkeys hmethod]
    cases item.get? method <;> simp [Option.filter]
  rw [hleft, operationCount,
    List.countP_eq_countP_filter_add httpMethods (fun method => (item.get? method).isSome)
      (fun method => (item.get? method).any f.keepsOperation), List.countP_filter,
    List.countP_filter]
  congr 1 <;> refine List.countP_congr fun method _ => ?_
  · cases item.get? method <;> simp
  · cases item.get? method <;> simp

/-- **What is dropped from the paths and what is left of them** are all their operations. -/
theorem operationTotal_applyToPaths (f : Filter)
    (hkeys : ∀ entry ∈ paths, entry.2.hasDistinctKeys = true) :
    operationTotal (f.applyToPaths paths) + total f.droppedCount paths =
      operationTotal paths := by
  induction paths with
  | nil => rfl
  | cons entry rest ih =>
    obtain ⟨hentry, hrest⟩ := List.forall_mem_cons.mp hkeys
    have hcount := operationCount_mapMembers f hentry
    have ih := ih hrest
    unfold operationTotal applyToPaths at ih ⊢
    cases hpath : f.keepsPath entry.1 <;>
      simp only [List.filter_cons, hpath, droppedCount, List.map_cons, total, if_true,
        Bool.false_eq_true, if_false] <;>
      omega

/-- **A filter counts the operations that go.** -/
theorem operationsIn_apply (f : Filter) (hkeys : document.hasDistinctKeys = true) :
    operationsIn (f.apply document).1 + (f.apply document).2 = operationsIn document := by
  by_cases h : ∃ paths, document.get? "paths" = some (.obj paths)
  · obtain ⟨paths, hpaths⟩ := h
    cases document with
    | obj members =>
      have hpathsKeys := hasDistinctKeys_of_get? hkeys hpaths
      rw [apply_obj hpaths]
      cases f.isEmpty with
      | true => rfl
      | false =>
        have htotal := operationTotal_applyToPaths f (hasDistinctKeys_obj.mp hpathsKeys).2
        simpa [operationsIn, Entries.get?_insert_self, show Entries.get? "paths" members =
          some (.obj paths) from hpaths] using htotal
    | _ => simp [Json.get?, members?] at hpaths
  · rw [apply_of_ne (not_exists.mp h), Nat.add_zero]

/-! ## 5. Two filters -/

theorem applyToPaths_applyToPaths (f g : Filter) (paths : List (String × Json)) :
    g.applyToPaths (f.applyToPaths paths) =
      (paths.filter fun entry => f.keepsPath entry.1 && g.keepsPath entry.1).map fun entry =>
        (entry.1, entry.2.mapMembers
          (·.filter fun entry => f.keepsMember entry && g.keepsMember entry)) := by
  have hitem (item : Json) : (item.mapMembers (·.filter f.keepsMember)).mapMembers
      (·.filter g.keepsMember) =
        item.mapMembers (·.filter fun entry => f.keepsMember entry && g.keepsMember entry) := by
    cases item <;> simp [mapMembers, List.filter_filter, Bool.and_comm]
  simp only [applyToPaths, List.filter_map, List.map_map, List.filter_filter, Function.comp_def,
    hitem, Bool.and_comm]

/-- **The order of two filters does not matter** for what they leave. -/
theorem apply_comm (f g : Filter) (document : Json) :
    (g.apply (f.apply document).1).1 = (f.apply (g.apply document).1).1 := by
  by_cases h : ∃ paths, document.get? "paths" = some (.obj paths)
  · obtain ⟨paths, hpaths⟩ := h
    cases document with
    | obj members =>
      replace hpaths : Entries.get? "paths" members = some (.obj paths) := hpaths
      rw [apply_obj hpaths, apply_obj hpaths]
      cases hf : f.isEmpty <;> cases hg : g.isEmpty <;>
        simp only [Bool.false_eq_true, if_true, if_false, apply_obj hpaths,
          apply_obj (Entries.get?_insert_self _ _ _), hf, hg, Entries.insert_insert]
      simp only [applyToPaths_applyToPaths, Bool.and_comm]
    | _ => simp [Json.get?, members?] at hpaths
  · simp only [apply_of_ne (not_exists.mp h)]

/-- **A filter is exact.** The document is as it was but for its paths. Of these the path items that
    stay are left, in order, each without the operations that do not stay, and the number that comes
    with it is how many operations the document has lost. So two filters in either order leave the
    same and count the same. -/
theorem apply_exact (f : Filter) (document : Json) (paths : List (String × Json))
    (hkeys : document.hasDistinctKeys = true) (hpaths : document.get? "paths" = some (.obj paths))
    (hf : f.isEmpty = false) :
    (∃ before after left, document = .obj (before ++ ("paths", .obj paths) :: after) ∧
      (f.apply document).1 = .obj (before ++ ("paths", .obj left) :: after) ∧
      f.PathsLeft paths left ∧
      operationTotal left + (f.apply document).2 = operationTotal paths) ∧
    ∀ g : Filter,
      (g.apply (f.apply document).1).1 = (f.apply (g.apply document).1).1 ∧
      (f.apply document).2 + (g.apply (f.apply document).1).2 =
        (g.apply document).2 + (f.apply (g.apply document).1).2 := by
  refine ⟨?_, fun g => ⟨apply_comm f g document, ?_⟩⟩
  · obtain ⟨members, rfl⟩ : ∃ members, document = .obj members := by
      cases document with
      | obj members => exact ⟨members, rfl⟩
      | _ => simp [Json.get?, members?] at hpaths
    obtain ⟨hnodup, -⟩ := hasDistinctKeys_obj.mp (hasDistinctKeys_of_get? hkeys hpaths)
    obtain ⟨before, after, hmembers, hinsert⟩ := Entries.exists_insert_eq hpaths
    rw [apply_obj hpaths, hf, if_neg Bool.false_ne_true]
    refine ⟨before, after, f.applyToPaths paths, congrArg Json.obj hmembers,
      congrArg Json.obj (hinsert _), pathsLeft_applyToPaths hnodup, ?_⟩
    exact operationTotal_applyToPaths f
      (hasDistinctKeys_obj.mp (hasDistinctKeys_of_get? hkeys hpaths)).2
  · have hfirst := operationsIn_apply f hkeys
    have hsecond := operationsIn_apply g (hasDistinctKeys_apply f hkeys)
    have hfirst' := operationsIn_apply g hkeys
    have hsecond' := operationsIn_apply f (hasDistinctKeys_apply g hkeys)
    rw [apply_comm f g document] at hsecond
    omega

/-- The paths of a shop: a path item with two operations and a text, one with an operation, and one
    that is no object. -/
def shopPaths : List (String × Json) :=
  [("/pets", .obj [("get", .obj [("tags", .arr [.str "pets"])]),
      ("summary", .str "Pets"),
      ("post", .obj [("operationId", .str "createPet"),
        ("tags", .arr [.str "pets", .str "admin"])])]),
    ("/orders", .obj [("get", .obj [("operationId", .str "listOrders")])]),
    ("/odd", .str "no path item")]

/-- The document of a shop. -/
def shop : Json := .obj [("openapi", .str "3.0.0"), ("paths", .obj shopPaths)]

/-- No operation for administrators, and nothing of orders. -/
def publicPets : Filter :=
  { keep := { paths := ["/pets", "/odd"] }, drop := { tags := ["admin"] } }

/-- Operations by their names. -/
def namedOnes : Filter := { keep := { operationIds := ["createPet", "listOrders"] } }

theorem apply_exact_shop :
    publicPets.isEmpty = false ∧ (publicPets.apply shop).2 = 2 ∧
      (∃ left, publicPets.PathsLeft shopPaths left ∧
        operationTotal left + 2 = operationTotal shopPaths) ∧
      (publicPets.apply shop).2 + (namedOnes.apply (publicPets.apply shop).1).2 =
        (namedOnes.apply shop).2 + (publicPets.apply (namedOnes.apply shop).1).2 := by
  obtain ⟨⟨before, after, left, -, -, hleft, hcount⟩, htwo⟩ :=
    apply_exact publicPets shop shopPaths (by decide) rfl (by decide)
  exact ⟨by decide, by rfl, ⟨left, hleft, hcount⟩, (htwo namedOnes).2⟩

end Filter

end ApiTypes
