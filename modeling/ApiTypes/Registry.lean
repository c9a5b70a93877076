import ApiTypes.CompileError
import ApiTypes.Model.Equality
import ApiTypes.TypeName

/-!
  The named definitions of one compilation.

  Definitions are kept in the order in which they were registered, and no name comes twice. Beside
  them an **index** says for each name where its definition stands, and every look-up by name goes
  through it. A registry carries the proof that names are distinct and that the index is right.

  * A name may be registered again for an **equivalent** shape, and then the first definition
    stays. Shapes are equivalent when they were made from deeply equal schemas; where a schema is
    missing, when the shapes themselves are the same.
  * `rollback` forgets what came after a checkpoint, in the index as well.
-/

namespace ApiTypes

/-- The names of definitions in order. -/
def namesOf (definitions : List Definition) : List String := definitions.map (·.name)

/-- The definitions in the order of registration, with the place of each name. -/
structure Registry where
  definitions : List Definition := []
  /-- Where the definition of each name stands. -/
  index : List (String × Nat) := []
  distinct : (namesOf definitions).Nodup := by exact List.nodup_nil
  indexed : index = (namesOf definitions).zipIdx := by rfl

/-- Whether two shapes may share a name. -/
def Shape.equivalent (a b : Shape) : Bool :=
  match a.source, b.source with
  | some x, some y => Json.same x y
  | _, _ => a.same b

namespace Registry

/-! ## 1. Look-ups -/

/-- The names in the order of registration. -/
def names (r : Registry) : List String := namesOf r.definitions

/-- The place of the definition of this name. -/
def position? (r : Registry) (name : String) : Option Nat := Entries.get? name r.index

/-- The definition of this name. -/
def get? (r : Registry) (name : String) : Option Definition :=
  (r.position? name).bind (r.definitions[·]?)

/-- Whether the name has a definition. -/
def contains (r : Registry) (name : String) : Bool := (r.position? name).isSome

/-- Numbered names tell where the first definition of a name stands. -/
theorem get?_zipIdx (name : String) (definitions : List Definition) (start : Nat) :
    Entries.get? name ((namesOf definitions).zipIdx start) =
      (definitions.findIdx? (·.name = name)).map (· + start) := by
  induction definitions generalizing start with
  | nil => rfl
  | cons d rest ih =>
    simp only [namesOf, List.map_cons, List.zipIdx_cons, Entries.get?, List.findIdx?_cons]
    by_cases h : d.name = name
    · simp [h]
    · simp only [h, if_false, decide_false, Bool.false_eq_true]
      rw [← namesOf, ih, Option.map_map]
      congr 1
      funext i
      simp only [Function.comp_apply]
      omega

theorem position?_eq (r : Registry) (name : String) :
    r.position? name = r.definitions.findIdx? (·.name = name) := by
  simp [position?, r.indexed, get?_zipIdx]

/-- **A look-up through the index finds the first definition of the name.** -/
theorem get?_eq_find? (r : Registry) (name : String) :
    r.get? name = r.definitions.find? (·.name = name) := by
  rw [get?, position?_eq, List.find?_eq_bind_findIdx?_getElem?]

theorem not_mem_names_of_get? {r : Registry} {name : String} (h : r.get? name = none) :
    name ∉ r.names := by
  intro hmem
  obtain ⟨d, hd, hname⟩ := List.mem_map.mp hmem
  rw [get?_eq_find?] at h
  exact absurd hname (by simpa using List.find?_eq_none.mp h d hd)

/-! ## 2. Registering -/

/-- Adds a definition of a new name at the end. -/
def append (r : Registry) (definition : Definition) (h : definition.name ∉ r.names) :
    Registry where
  definitions := r.definitions ++ [definition]
  index := r.index ++ [(definition.name, r.definitions.length)]
  distinct := by
    have hnames : namesOf (r.definitions ++ [definition]) = r.names ++ [definition.name] :=
      List.map_append
    rw [hnames]
    refine List.nodup_append.mpr ⟨r.distinct,
      List.nodup_cons.mpr ⟨List.not_mem_nil, List.nodup_nil⟩,
      fun name hname other hother heq => ?_⟩
    exact h (List.mem_singleton.mp hother ▸ heq ▸ hname)
  indexed := by
    simp [r.indexed, namesOf, List.zipIdx_append]

/-- Adds a definition at the end; an equivalent one of the same name is enough. -/
def register (r : Registry) (definition : Definition) : Except CompileError Registry :=
  match h : r.get? definition.name with
  | none => .ok (r.append definition (not_mem_names_of_get? h))
  | some existing =>
    if existing.shape.equivalent definition.shape then .ok r
    else .error (.duplicateTypeName definition.name)

/-- A name under which a shape can be registered: the wanted one when it is free or names an
    equivalent shape, or else the first free one made from it. -/
def nameFor (r : Registry) (base : String) (shape : Shape) (suffixes : List String) : String :=
  match r.get? base with
  | none => base
  | some existing =>
    if existing.shape.equivalent shape then base else TypeName.fresh r.names base suffixes

/-! ## 3. Going back -/

/-- A mark to come back to. -/
def checkpoint (r : Registry) : Nat := r.definitions.length

/-- An index without some names. -/
def unindex (index : List (String × Nat)) (gone : List Definition) : List (String × Nat) :=
  gone.foldl (fun index d => Entries.erase d.name index) index

/-- What is left of an index are the entries of the other names. -/
theorem unindex_eq_filter (index : List (String × Nat)) (gone : List Definition) :
    unindex index gone = index.filter fun entry => entry.1 ∉ namesOf gone := by
  induction gone generalizing index with
  | nil =>
    rw [List.filter_eq_self.mpr (by simp [namesOf])]
    rfl
  | cons d rest ih =>
    simp only [unindex, List.foldl_cons] at ih ⊢
    rw [ih, Entries.erase, List.filter_filter]
    congr 1
    funext entry
    simp only [namesOf, List.map_cons, List.mem_cons]
    by_cases h : entry.1 = d.name <;> simp [h]

/-- **The index of the definitions up to a mark** is what is left when the names after it go. -/
theorem unindex_drop (r : Registry) (mark : Nat) :
    unindex r.index (r.definitions.drop mark) = (namesOf (r.definitions.take mark)).zipIdx := by
  have hsplit : namesOf r.definitions =
      namesOf (r.definitions.take mark) ++ namesOf (r.definitions.drop mark) := by
    rw [namesOf, namesOf, namesOf, ← List.map_append, List.take_append_drop]
  have hindex : r.index = (namesOf (r.definitions.take mark)).zipIdx ++
      (namesOf (r.definitions.drop mark)).zipIdx (namesOf (r.definitions.take mark)).length := by
    rw [r.indexed, hsplit, List.zipIdx_append, Nat.zero_add]
  obtain ⟨-, -, hapart⟩ := List.nodup_append.mp (hsplit ▸ r.distinct)
  rw [unindex_eq_filter, hindex, List.filter_append, List.filter_eq_self.mpr,
    List.filter_eq_nil_iff.mpr, List.append_nil]
  · intro entry hentry
    simpa using List.fst_mem_of_mem_zipIdx hentry
  · intro entry hentry
    simpa using fun hmem => hapart entry.1 (List.fst_mem_of_mem_zipIdx hentry) entry.1 hmem rfl

/-- Forgets what was registered since the mark. -/
def rollback (r : Registry) (mark : Nat) : Registry where
  definitions := r.definitions.take mark
  index := unindex r.index (r.definitions.drop mark)
  distinct := r.distinct.sublist ((List.take_sublist mark r.definitions).map _)
  indexed := r.unindex_drop mark

end Registry

end ApiTypes
