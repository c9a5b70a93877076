import ApiTypes.Proofs.Prune.References

/-!
  Names are never keywords.

  The walk for references reads an object by its **keywords** or, under a keyword that holds them,
  by its **names**.

  * `Reads` says which values the walk comes to and how it reads them. A reference is listed exactly
    when an object that is read by its keywords makes it: `mem_references_iff`.
  * `renameNames` gives other names to any of the objects that are read by their names. No reference
    is lost or added by it: `collect_renameNames`.

  So a property may be called `default`, `$ref` or `mapping`.
-/

namespace ApiTypes.Prune

variable {root value : Json} {named : Bool} {reference : String}

/-! ## 1. What the walk reads -/

/-- The values that the walk comes to from a root, and whether it reads their keys as names. -/
inductive Reads (root : Json) : Bool → Json → Prop where
  | root : Reads root false root
  | item {named : Bool} {items : List Json} {item : Json} (h : Reads root named (.arr items))
    (hitem : item ∈ items) : Reads root false item
  | keyword {members : List (String × Json)} {key : String} {value : Json}
    (h : Reads root false (.obj members)) (hentry : (key, value) ∈ members)
    (hdata : key ∉ dataKeys) (hnames : key ∉ nameKeys) : Reads root false value
  | names {members : List (String × Json)} {key : String} {value : Json}
    (h : Reads root false (.obj members)) (hentry : (key, value) ∈ members)
    (hnames : key ∈ nameKeys) : Reads root true value
  | named {entries : List (String × Json)} {name : String} {value : Json}
    (h : Reads root true (.obj entries)) (hentry : (name, value) ∈ entries) : Reads root false value

theorem not_mem_dataKeys_of_mem_nameKeys : ∀ key ∈ nameKeys, key ∉ dataKeys := by decide

/-- What stands under a keyword that holds no data is read in the way that the keyword says. -/
theorem Reads.member {members : List (String × Json)} {key : String}
    (h : Reads root false (.obj members)) (hentry : (key, value) ∈ members)
    (hdata : key ∉ dataKeys) : Reads root (nameKeys.contains key) value := by
  cases hnames : nameKeys.contains key with
  | true => exact h.names hentry (List.contains_iff_mem.mp hnames)
  | false =>
    refine h.keyword hentry hdata fun hmem => ?_
    rw [List.contains_iff_mem.mpr hmem] at hnames
    exact Bool.noConfusion hnames

theorem mem_collectItems {items : List Json} :
    reference ∈ collectItems items ↔ ∃ item ∈ items, reference ∈ references item := by
  induction items with
  | nil => simp [collectItems]
  | cons item rest ih => simp [collectItems, references, ih]

/-- Under names everything is read, whatever the names are. -/
theorem mem_collectMembers_named {entries : List (String × Json)} :
    reference ∈ collectMembers true entries ↔ ∃ entry ∈ entries, reference ∈ references entry.2 := by
  induction entries with
  | nil => simp [collectMembers]
  | cons entry rest ih => simp [collectMembers, references, ih]

/-- Under keywords everything is read that is no data. -/
theorem mem_collectMembers_keywords {members : List (String × Json)} :
    reference ∈ collectMembers false members ↔ ∃ entry ∈ members,
      entry.1 ∉ dataKeys ∧ reference ∈ collect (nameKeys.contains entry.1) entry.2 := by
  induction members with
  | nil => simp [collectMembers]
  | cons entry rest ih =>
    by_cases hdata : entry.1 ∈ dataKeys <;> simp [collectMembers, hdata, ih]

/-- **Whatever the walk comes to adds its references.** -/
theorem Reads.collect_subset (h : Reads root named value) :
    collect named value ⊆ references root := by
  induction h with
  | root => exact List.Subset.refl _
  | item _ hitem ih =>
    exact fun reference hmem => ih (mem_collectItems.mpr ⟨_, hitem, hmem⟩)
  | keyword _ hentry hdata hnames ih =>
    refine fun reference hmem => ih (List.mem_append_right _ ?_)
    refine mem_collectMembers_keywords.mpr ⟨_, hentry, hdata, ?_⟩
    rwa [List.contains_eq_mem, decide_eq_false hnames]
  | names _ hentry hnames ih =>
    refine fun reference hmem => ih (List.mem_append_right _ ?_)
    refine mem_collectMembers_keywords.mpr
      ⟨_, hentry, not_mem_dataKeys_of_mem_nameKeys _ hnames, ?_⟩
    rwa [List.contains_eq_mem, decide_eq_true hnames]
  | named _ hentry ih =>
    refine fun reference hmem => ih ?_
    exact mem_collectMembers_named.mpr ⟨_, hentry, hmem⟩

/-- A reference that is listed is made by an object that is read by its keywords. -/
theorem exists_reads_of_mem_collect (named : Bool) : (value : Json) → Reads root named value →
    reference ∈ collect named value →
      ∃ members, Reads root false (.obj members) ∧ reference ∈ ownReferences members
  | .obj members, hreads, h => by
    cases named with
    | true =>
      obtain ⟨⟨name, value⟩, hentry, h⟩ := mem_collectMembers_named.mp h
      exact exists_reads_of_mem_collect false value (hreads.named hentry) h
    | false =>
      rcases List.mem_append.mp h with hown | h
      · exact ⟨members, hreads, hown⟩
      · obtain ⟨⟨key, value⟩, hentry, hdata, h⟩ := mem_collectMembers_keywords.mp h
        exact exists_reads_of_mem_collect _ value (hreads.member hentry hdata) h
  | .arr items, hreads, h => by
    obtain ⟨item, hitem, h⟩ := mem_collectItems.mp h
    exact exists_reads_of_mem_collect false item (hreads.item hitem) h
  | .null, _, h | .bool _, _, h | .int _, _, h | .float _, _, h | .str _, _, h =>
    absurd h List.not_mem_nil
termination_by value => sizeOf value
decreasing_by
  · have := List.sizeOf_lt_of_mem hentry
    simp only [Json.obj.sizeOf_spec, Prod.mk.sizeOf_spec] at *
    omega
  · have := List.sizeOf_lt_of_mem hentry
    simp only [Json.obj.sizeOf_spec, Prod.mk.sizeOf_spec] at *
    omega
  · have := List.sizeOf_lt_of_mem hitem
    simp only [Json.arr.sizeOf_spec]
    omega

/-- **A reference is listed exactly when an object that is read by its keywords makes it.** -/
theorem mem_references_iff : reference ∈ references root ↔
    ∃ members, Reads root false (.obj members) ∧ reference ∈ ownReferences members := by
  refine ⟨exists_reads_of_mem_collect false root .root, ?_⟩
  rintro ⟨members, hreads, hown⟩
  exact hreads.collect_subset (List.mem_append_left _ hown)

/-! ## 2. Other names -/

mutual

/-- A value with other names where the walk reads names. `rename path` gives those of the object
    that the path leads to, so each object may be given its own, or be left as it is. -/
def renameNames (rename : List String → String → String) (named : Bool) (path : List String) :
    Json → Json
  | .obj members => .obj (renameMembers rename named path members)
  | .arr items => .arr (renameItems rename path 0 items)
  | .null => .null
  | .bool b => .bool b
  | .int n => .int n
  | .float x => .float x
  | .str s => .str s
termination_by structural value => value

/-- The elements of the array at a path, with other names inside; the first one has this index. -/
def renameItems (rename : List String → String → String) (path : List String) (index : Nat) :
    List Json → List Json
  | [] => []
  | item :: rest =>
    renameNames rename false (path ++ [toString index]) item ::
      renameItems rename path (index + 1) rest
termination_by structural items => items

/-- The members of the object at a path, with other names. -/
def renameMembers (rename : List String → String → String) (named : Bool) (path : List String) :
    List (String × Json) → List (String × Json)
  | [] => []
  | (key, value) :: rest =>
    (if named then (rename path key, renameNames rename false (path ++ [key]) value)
      else if dataKeys.contains key then (key, value)
      else (key, renameNames rename (nameKeys.contains key) (path ++ [key]) value)) ::
        renameMembers rename named path rest
termination_by structural members => members

end

variable {rename : List String → String → String} {path : List String}

@[simp] theorem string?_renameNames :
    (renameNames rename named path value).string? = value.string? := by
  cases value <;> rfl

theorem filterMap_string?_renameMembers (members : List (String × Json)) :
    (Entries.values (renameMembers rename false path members)).filterMap Json.string? =
      (Entries.values members).filterMap Json.string? := by
  induction members with
  | nil => rfl
  | cons entry rest ih =>
    obtain ⟨key, value⟩ := entry
    simp only [Entries.values] at ih
    by_cases hdata : key ∈ dataKeys <;>
      simp [renameMembers, Entries.values, hdata, List.filterMap_cons, ih]

/-- A keyword keeps its place, and what it says is renamed inside. -/
theorem get?_renameMembers (key : String) (members : List (String × Json)) :
    Entries.get? key (renameMembers rename false path members) =
      (Entries.get? key members).map fun value =>
        if dataKeys.contains key then value
        else renameNames rename (nameKeys.contains key) (path ++ [key]) value := by
  induction members with
  | nil => rfl
  | cons entry rest ih =>
    obtain ⟨name, value⟩ := entry
    by_cases hname : name = key
    · subst hname
      by_cases hdata : name ∈ dataKeys <;> simp [renameMembers, Entries.get?_cons, hdata]
    · by_cases hdata : name ∈ dataKeys <;>
        simpa [renameMembers, Entries.get?_cons, hname, hdata] using ih

/-- An object that is read by its keywords makes the same references. -/
theorem ownReferences_renameMembers (members : List (String × Json)) :
    ownReferences (renameMembers rename false path members) = ownReferences members := by
  have hreference : (Entries.get? "$ref" (renameMembers rename false path members)).bind
      Json.string? = (Entries.get? "$ref" members).bind Json.string? := by
    rw [get?_renameMembers]
    cases Entries.get? "$ref" members with
    | none => rfl
    | some value => exact string?_renameNames
  have htargets : mappingTargets (renameMembers rename false path members) =
      mappingTargets members := by
    unfold mappingTargets
    rw [get?_renameMembers, get?_renameMembers]
    cases Entries.get? "propertyName" members with
    | none => rfl
    | some property =>
      cases Entries.get? "mapping" members with
      | none => cases property <;> rfl
      | some mapping =>
        cases property with
        | str text =>
          cases mapping with
          | obj targets =>
            exact congrArg (List.map Reference.ofMappingTarget)
              (filterMap_string?_renameMembers targets)
          | _ => rfl
        | _ => rfl
  rw [ownReferences, hreference, htargets, ownReferences]

mutual

/-- **Other names change no reference.** -/
theorem collect_renameNames (named : Bool) (path : List String) : (value : Json) →
    collect named (renameNames rename named path value) = collect named value
  | .obj members => by
    have hmembers := collectMembers_renameMembers named path members
    cases named with
    | true => simp [renameNames, collect, hmembers]
    | false => simp [renameNames, collect, hmembers, ownReferences_renameMembers]
  | .arr items => collectItems_renameItems path 0 items
  | .null | .bool _ | .int _ | .float _ | .str _ => rfl

theorem collectItems_renameItems (path : List String) : (index : Nat) → (items : List Json) →
    collectItems (renameItems rename path index items) = collectItems items
  | _, [] => rfl
  | index, item :: rest => by
    simp only [renameItems, collectItems]
    rw [collect_renameNames false _ item, collectItems_renameItems path (index + 1) rest]

theorem collectMembers_renameMembers (named : Bool) (path : List String) :
    (members : List (String × Json)) →
      collectMembers named (renameMembers rename named path members) =
        collectMembers named members
  | [] => rfl
  | (key, value) :: rest => by
    have hrest := collectMembers_renameMembers named path rest
    cases named with
    | true => simp [renameMembers, collectMembers, hrest, collect_renameNames false _ value]
    | false =>
      by_cases hdata : key ∈ dataKeys
      · simp [renameMembers, collectMembers, hrest, hdata]
      · have hvalue := collect_renameNames (nameKeys.contains key) (path ++ [key]) value
        simp only [List.contains_eq_mem] at hvalue
        simp [renameMembers, collectMembers, hrest, hdata, hvalue]

end

/-- **Names are never mistaken for keywords.** Whatever other names the objects under `properties`,
    `responses` and the like are given, the value makes the same references in the same order.
    They are those that the objects make which are read by their keywords: a name adds none, and it
    hides none of those below it. -/
theorem references_ignore_names (value : Json) :
    (∀ rename, references (renameNames rename false [] value) = references value) ∧
      (∀ reference, reference ∈ references value ↔
        ∃ members, Reads value false (.obj members) ∧ reference ∈ ownReferences members) ∧
      ∀ entries, Reads value true (.obj entries) →
        ∀ entry ∈ entries, references entry.2 ⊆ references value :=
  ⟨fun _ => collect_renameNames false [] value, fun _ => mem_references_iff,
    fun _ hreads _ hentry => (hreads.named hentry).collect_subset⟩

/-- Properties that are called like keywords. As keywords the first two would hold data, the third
    would be a reference, and the others would be a discriminator. -/
def keywordProperties : List (String × Json) :=
  [("default", .obj [("$ref", .str "#/components/schemas/Pet")]),
    ("enum", .obj [("items", .obj [("$ref", .str "#/components/schemas/Toy")])]),
    ("$ref", .str "#/components/schemas/Lost"),
    ("propertyName", .str "kind"),
    ("mapping", .obj [("dog", .str "Dog"), ("$ref", .str "#/components/schemas/Map")])]

/-- A schema with these properties, and with a default value that looks like a reference. -/
def keywordSchema : Json :=
  .obj [("default", .obj [("$ref", .str "#/components/schemas/Data")]),
    ("properties", .obj keywordProperties)]

theorem references_ignore_names_keywordSchema :
    references keywordSchema =
        ["#/components/schemas/Pet", "#/components/schemas/Toy", "#/components/schemas/Map"] ∧
      references (renameNames (fun _ name => "my-" ++ name) false [] keywordSchema) =
        ["#/components/schemas/Pet", "#/components/schemas/Toy", "#/components/schemas/Map"] ∧
      ∀ entry ∈ keywordProperties, references entry.2 ⊆ references keywordSchema := by
  have hreferences : references keywordSchema =
      ["#/components/schemas/Pet", "#/components/schemas/Toy", "#/components/schemas/Map"] := by
    rfl
  have hreads : Reads keywordSchema true (.obj keywordProperties) :=
    .names .root (List.mem_cons_of_mem _ List.mem_cons_self) (by decide)
  obtain ⟨hrename, -, hbelow⟩ := references_ignore_names keywordSchema
  exact ⟨hreferences, (hrename _).trans hreferences, hbelow _ hreads⟩

end ApiTypes.Prune
