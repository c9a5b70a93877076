import ApiTypes.Proofs.Entries
import ApiTypes.Document

/-!
  JSON values without repeated keys.

  A value that was read from a text has each key of an object once. `hasDistinctKeys` says so for
  every object inside a value; the laws of pruning ask it of the document. It is one of the
  properties that the values inside a value inherit (`Inherited`).
-/

namespace ApiTypes.Json

mutual

/-- Whether no object inside a value has a key twice. -/
def hasDistinctKeys : Json → Bool
  | .obj members => decide (Entries.keys members).Nodup && membersHaveDistinctKeys members
  | .arr items => itemsHaveDistinctKeys items
  | .null | .bool _ | .int _ | .float _ | .str _ => true
termination_by structural value => value

/-- Whether no object inside the elements has a key twice. -/
def itemsHaveDistinctKeys : List Json → Bool
  | [] => true
  | item :: rest => item.hasDistinctKeys && itemsHaveDistinctKeys rest
termination_by structural items => items

/-- Whether no object inside the members has a key twice. -/
def membersHaveDistinctKeys : List (String × Json) → Bool
  | [] => true
  | (_, value) :: rest => value.hasDistinctKeys && membersHaveDistinctKeys rest
termination_by structural members => members

end

theorem membersHaveDistinctKeys_iff {members : List (String × Json)} :
    membersHaveDistinctKeys members = true ↔
      ∀ entry ∈ members, entry.2.hasDistinctKeys = true := by
  induction members with
  | nil => simp [membersHaveDistinctKeys]
  | cons entry rest ih => simp [membersHaveDistinctKeys, ih]

theorem itemsHaveDistinctKeys_iff {items : List Json} :
    itemsHaveDistinctKeys items = true ↔ ∀ item ∈ items, item.hasDistinctKeys = true := by
  induction items with
  | nil => simp [itemsHaveDistinctKeys]
  | cons item rest ih => simp [itemsHaveDistinctKeys, ih]

theorem hasDistinctKeys_obj {members : List (String × Json)} :
    (Json.obj members).hasDistinctKeys = true ↔
      (Entries.keys members).Nodup ∧ ∀ entry ∈ members, entry.2.hasDistinctKeys = true := by
  simp [hasDistinctKeys, membersHaveDistinctKeys_iff]

/-! ## 1. Members of objects -/

@[simp] theorem get?_obj (key : String) (members : List (String × Json)) :
    (Json.obj members).get? key = Entries.get? key members := rfl

theorem exists_members_of_isObject {value : Json} (h : value.isObject = true) :
    ∃ members, value = .obj members := by
  cases value with
  | obj members => exact ⟨members, rfl⟩
  | _ => simp [isObject, members?] at h

theorem nodup_keys_of_members? {value : Json} {members : List (String × Json)}
    (hkeys : value.hasDistinctKeys = true) (h : value.members? = some members) :
    (Entries.keys members).Nodup := by
  cases value with
  | obj found =>
    obtain rfl := Option.some.inj h
    exact (hasDistinctKeys_obj.mp hkeys).1
  | _ => simp [members?] at h

/-- A step by a token that names no place of an array. -/
theorem child?_of_index?_eq_none {token : String} (h : index? token = none) (value : Json) :
    value.child? token = value.get? token := by
  cases value with
  | arr items => simp [child?, h, get?, members?]
  | _ => rfl

/-- A step by a key of an object. -/
theorem child?_of_get? {key : String} {value member : Json} (h : value.get? key = some member) :
    value.child? key = some member := by
  cases value with
  | obj members => exact h
  | _ => simp [get?, members?] at h

/-- A path into an object is empty or leads into one of its members. -/
theorem exists_of_at?_obj {members : List (String × Json)} {path : List String} {node : Json}
    (h : (Json.obj members).at? path = some node) :
    path = [] ∧ node = .obj members ∨
      ∃ entry ∈ members, ∃ rest, path = entry.1 :: rest ∧ entry.2.at? rest = some node := by
  cases path with
  | nil => exact .inl ⟨rfl, (Option.some.inj h).symm⟩
  | cons key rest =>
    obtain ⟨value, hvalue, hrest⟩ := Option.bind_eq_some_iff.mp h
    exact .inr ⟨(key, value), Entries.mem_of_get? hvalue, rest, rfl, hrest⟩

theorem eq_of_at?_str {text : String} {path : List String} {node : Json}
    (h : (Json.str text).at? path = some node) : node = .str text := by
  cases path with
  | nil => exact (Option.some.inj h).symm
  | cons key rest => simp [Json.at?, Json.child?] at h

/-- What a reference points at is like the root, where every child is like its value. -/
theorem resolve?_induction {P : Json → Prop} {root target : Json} {reference : String}
    (hchild : ∀ value token child, P value → value.child? token = some child → P child)
    (hroot : P root) (h : root.resolve? reference = some target) : P target := by
  have hpath : ∀ (path : List String) (value : Json), P value → value.at? path = some target →
      P target := by
    intro path
    induction path with
    | nil => exact fun value hvalue hat => Option.some.inj hat ▸ hvalue
    | cons token path ih =>
      intro value hvalue hat
      obtain ⟨child, hnext, hat⟩ := Option.bind_eq_some_iff.mp hat
      exact ih child (hchild value token child hvalue hnext) hat
  unfold resolve? at h
  split at h
  · exact Option.some.inj h ▸ hroot
  · exact hpath _ _ hroot h
  · simp at h

/-! ## 2. Values inside a value -/

/-- Something that holds of the values inside every value that it holds of. -/
structure Inherited (P : Json → Prop) : Prop where
  member : ∀ {members : List (String × Json)} {entry : String × Json}, P (.obj members) →
    entry ∈ members → P entry.2
  item : ∀ {items : List Json} {item : Json}, P (.arr items) → item ∈ items → P item

namespace Inherited

variable {P : Json → Prop} {value : Json} (h : Inherited P) (hvalue : P value)
include h hvalue

theorem get? {key : String} {member : Json} (hget : value.get? key = some member) : P member := by
  cases value with
  | obj members => exact h.member hvalue (Entries.mem_of_get? hget)
  | _ => simp [Json.get?, members?] at hget

theorem child? {token : String} {child : Json} (hchild : value.child? token = some child) :
    P child := by
  cases value with
  | obj members => exact h.member hvalue (Entries.mem_of_get? hchild)
  | arr items =>
    obtain ⟨index, -, hitem⟩ := Option.bind_eq_some_iff.mp hchild
    exact h.item hvalue (List.mem_of_getElem? hitem)
  | _ => simp [Json.child?] at hchild

/-- **It holds of what a reference points at** where it holds of the root. -/
theorem resolve? {reference : String} {target : Json}
    (htarget : value.resolve? reference = some target) : P target :=
  resolve?_induction (fun _ _ _ hparent hchild => h.child? hparent hchild) hvalue htarget

/-- It holds of the entries of an object inside a value. -/
theorem entries {key : String} {entries : List (String × Json)} {entry : String × Json}
    (hentries : (value.get? key).bind members? = some entries) (hentry : entry ∈ entries) :
    P entry.2 := by
  obtain ⟨child, hchild, hmembers⟩ := Option.bind_eq_some_iff.mp hentries
  cases child with
  | obj members =>
    obtain rfl := Option.some.inj hmembers
    exact h.member (h.get? hvalue hchild) hentry
  | _ => simp [members?] at hmembers

/-- There may be no such object. -/
theorem entries_getD {key : String} {entry : String × Json}
    (hentry : entry ∈ ((value.get? key).bind members?).getD []) : P entry.2 := by
  cases hentries : (value.get? key).bind members? with
  | none => simp [hentries] at hentry
  | some entries => exact h.entries hvalue hentries (by simpa [hentries] using hentry)

end Inherited

theorem inherited_hasDistinctKeys : Inherited fun value => value.hasDistinctKeys = true where
  member hkeys hentry := (hasDistinctKeys_obj.mp hkeys).2 _ hentry
  item hkeys hitem := itemsHaveDistinctKeys_iff.mp hkeys _ hitem

theorem hasDistinctKeys_of_get? {key : String} {value member : Json}
    (hkeys : value.hasDistinctKeys = true) (h : value.get? key = some member) :
    member.hasDistinctKeys = true :=
  inherited_hasDistinctKeys.get? hkeys h

theorem hasDistinctKeys_of_resolve? {root target : Json} {reference : String}
    (hkeys : root.hasDistinctKeys = true) (h : root.resolve? reference = some target) :
    target.hasDistinctKeys = true :=
  inherited_hasDistinctKeys.resolve? hkeys h

/-! ## 3. Rewriting members -/

section Members

variable {members : List (String × Json)}

theorem hasDistinctKeys_filter {keep : String × Json → Bool}
    (hkeys : (Json.obj members).hasDistinctKeys = true) :
    (Json.obj (members.filter keep)).hasDistinctKeys = true := by
  obtain ⟨hnodup, hvalues⟩ := hasDistinctKeys_obj.mp hkeys
  refine hasDistinctKeys_obj.mpr ⟨?_, fun entry hentry => ?_⟩
  · exact hnodup.sublist (List.Sublist.map _ List.filter_sublist)
  · exact hvalues entry (List.mem_of_mem_filter hentry)

theorem hasDistinctKeys_insert {key : String} {value : Json}
    (hkeys : (Json.obj members).hasDistinctKeys = true) (hvalue : value.hasDistinctKeys = true) :
    (Json.obj (Entries.insert key value members)).hasDistinctKeys = true := by
  obtain ⟨hnodup, hvalues⟩ := hasDistinctKeys_obj.mp hkeys
  refine hasDistinctKeys_obj.mpr ⟨Entries.nodup_keys_insert hnodup, fun entry hentry => ?_⟩
  rcases Entries.mem_insert hentry with rfl | hentry
  · exact hvalue
  · exact hvalues entry hentry

theorem hasDistinctKeys_mapMembers {value : Json}
    {change : List (String × Json) → List (String × Json)}
    (hchange : ∀ members, (Json.obj members).hasDistinctKeys = true →
      (Json.obj (change members)).hasDistinctKeys = true)
    (hkeys : value.hasDistinctKeys = true) : (value.mapMembers change).hasDistinctKeys = true := by
  cases value with
  | obj members => exact hchange members hkeys
  | _ => exact hkeys

end Members

/-- Rewrites the value under every key of an object; any other value stays as it is. -/
def mapValues (f : String → Json → Json) (value : Json) : Json :=
  value.mapMembers (·.map fun entry => (entry.1, f entry.1 entry.2))

variable {f g : String → Json → Json} {value : Json}

theorem get?_mapValues (key : String) :
    (value.mapValues f).get? key = (value.get? key).map (f key) := by
  cases value with
  | obj members => exact Entries.get?_map f
  | _ => rfl

theorem mapValues_mapValues :
    (value.mapValues f).mapValues g = value.mapValues fun key member => g key (f key member) := by
  cases value with
  | obj members => simp [mapValues, mapMembers, Function.comp_def]
  | _ => rfl

theorem mapValues_id (value : Json) : value.mapValues (fun _ member => member) = value := by
  cases value <;> simp [mapValues, mapMembers]

theorem mapValues_congr
    (h : ∀ members, value = .obj members →
      ∀ entry ∈ members, f entry.1 entry.2 = g entry.1 entry.2) :
    value.mapValues f = value.mapValues g := by
  cases value with
  | obj members =>
    refine congrArg Json.obj (List.map_congr_left fun entry hentry => ?_)
    rw [h members rfl entry hentry]
  | _ => rfl

theorem hasDistinctKeys_mapValues (hkeys : value.hasDistinctKeys = true)
    (h : ∀ key member, member.hasDistinctKeys = true → (f key member).hasDistinctKeys = true) :
    (value.mapValues f).hasDistinctKeys = true := by
  cases value with
  | obj members =>
    obtain ⟨hnodup, hvalues⟩ := hasDistinctKeys_obj.mp hkeys
    refine hasDistinctKeys_obj.mpr ⟨?_, fun entry hentry => ?_⟩
    · rwa [Entries.keys_map]
    · obtain ⟨old, hold, rfl⟩ := List.mem_map.mp hentry
      exact h _ _ (hvalues old hold)
  | _ => exact hkeys

end ApiTypes.Json
