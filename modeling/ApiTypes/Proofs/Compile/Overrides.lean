import ApiTypes.Proofs.Compile.Inherited
import ApiTypes.Proofs.Compile.Prepare

/-!
  Documents in which no type is overridden.

  * `Json.lacks`: no object inside a value has a key. What a reference points at, what filtering and
    pruning leave, all of it lacks the key when the document does.
  * `Schema.Free`: a schema is free of overrides, and so is every schema inside it. A property may
    have any name, since the name of a parameter becomes the name of a property. A value that lacks
    the key is free, and so is what a compilation takes out of free schemas or makes of them.
  * `Schema.MemberLaw`: what holds of the members of schemas and then of what a merge makes of them.
-/

namespace ApiTypes

namespace Json

/-! ## 1. Values without a key -/

mutual

/-- Whether no object inside a value has a key. -/
def lacks (key : String) : Json → Bool
  | .obj members => membersLack key members
  | .arr items => itemsLack key items
  | .null | .bool _ | .int _ | .float _ | .str _ => true
termination_by structural value => value

/-- Whether no object inside the elements has a key. -/
def itemsLack (key : String) : List Json → Bool
  | [] => true
  | item :: rest => item.lacks key && itemsLack key rest
termination_by structural items => items

/-- Whether none of the members has a key, nor any object inside them. -/
def membersLack (key : String) : List (String × Json) → Bool
  | [] => true
  | (name, value) :: rest => name ≠ key && value.lacks key && membersLack key rest
termination_by structural members => members

end

variable {key : String} {value : Json}

theorem lacks_arr {items : List Json} :
    (Json.arr items).lacks key = true ↔ ∀ item ∈ items, item.lacks key = true := by
  rw [lacks]
  induction items with
  | nil => simp [itemsLack]
  | cons item rest ih => simp [itemsLack, ih]

theorem lacks_obj {members : List (String × Json)} :
    (Json.obj members).lacks key = true ↔
      ∀ entry ∈ members, entry.1 ≠ key ∧ entry.2.lacks key = true := by
  rw [lacks]
  induction members with
  | nil => simp [membersLack]
  | cons entry rest ih => simp [membersLack, ih]

theorem inherited_lacks (key : String) : Inherited fun value => value.lacks key = true where
  member h hentry := (lacks_obj.mp h _ hentry).2
  item h hitem := lacks_arr.mp h _ hitem

theorem lacks_filter {members : List (String × Json)} {keep : String × Json → Bool}
    (h : (Json.obj members).lacks key = true) : (Json.obj (members.filter keep)).lacks key = true :=
  lacks_obj.mpr fun entry hentry => lacks_obj.mp h entry (List.mem_of_mem_filter hentry)

theorem lacks_mapMembers {change : List (String × Json) → List (String × Json)}
    (hchange : ∀ members, (Json.obj members).lacks key = true →
      (Json.obj (change members)).lacks key = true) (h : value.lacks key = true) :
    (value.mapMembers change).lacks key = true := by
  cases value with
  | obj members => exact hchange members h
  | _ => exact h

theorem lacks_adjust {name : String} {change : Json → Json} {members : List (String × Json)}
    (hchange : ∀ value, value.lacks key = true → (change value).lacks key = true)
    (h : (Json.obj members).lacks key = true) :
    (Json.obj (Entries.adjust name change members)).lacks key = true := by
  induction members with
  | nil => exact h
  | cons entry rest ih =>
    obtain ⟨other, value⟩ := entry
    obtain ⟨⟨hname, hvalue⟩, hrest⟩ := List.forall_mem_cons.mp (lacks_obj.mp h)
    rw [Entries.adjust]
    split
    · exact lacks_obj.mpr (List.forall_mem_cons.mpr ⟨⟨hname, hchange value hvalue⟩, hrest⟩)
    · have htail := ih (lacks_obj.mpr hrest)
      exact lacks_obj.mpr (List.forall_mem_cons.mpr ⟨⟨hname, hvalue⟩, lacks_obj.mp htail⟩)

end Json

/-! ## 2. Preparing -/

section Prepare

variable {key : String} {document : Json}

mutual

/-- A cleanup takes keys away only. -/
theorem Prune.lacks_clean (allowed : List String) (part : Prune.Part) :
    ∀ value : Json, value.lacks key = true → (Prune.clean allowed part value).lacks key = true
  | .obj members, h => by
    rw [Prune.clean, Json.lacks]
    exact Prune.membersLack_clean allowed part members h
  | .arr items, h => by
    cases part <;> first | exact h | exact Prune.itemsLack_clean allowed _ items h
  | .null, _ | .bool _, _ | .int _, _ | .float _, _ | .str _, _ => rfl

theorem Prune.itemsLack_clean (allowed : List String) (part : Prune.Part) :
    ∀ items : List Json, Json.itemsLack key items = true →
      Json.itemsLack key (Prune.cleanItems allowed part items) = true
  | [], _ => rfl
  | item :: rest, h => by
    obtain ⟨hitem, hrest⟩ := Bool.and_eq_true_iff.mp h
    exact Bool.and_eq_true_iff.mpr ⟨Prune.lacks_clean allowed part item hitem,
      Prune.itemsLack_clean allowed part rest hrest⟩

theorem Prune.membersLack_clean (allowed : List String) (part : Prune.Part) :
    ∀ members : List (String × Json), Json.membersLack key members = true →
      Json.membersLack key (Prune.cleanMembers allowed part members) = true
  | [], _ => rfl
  | (name, value) :: rest, h => by
    simp only [Json.membersLack, Bool.and_eq_true] at h
    have hrest := Prune.membersLack_clean allowed part rest h.2
    rw [Prune.cleanMembers]
    split
    · simp only [Json.membersLack, Bool.and_eq_true]
      exact ⟨⟨h.1.1, Prune.lacks_clean allowed (Prune.childPart part name) value h.1.2⟩, hrest⟩
    · exact hrest

end

theorem Prune.lacks_sweep (keep : String → Bool) (h : document.lacks key = true) :
    (Prune.sweep keep document).lacks key = true := by
  have hkinds : ∀ (kinds : List String) (collections : List (String × Json)),
      (Json.obj collections).lacks key = true → (Json.obj (kinds.foldl
        (fun collections kind => Prune.sweepKind keep kind collections) collections)).lacks key =
          true := by
    intro kinds
    induction kinds with
    | nil => exact fun _ h => h
    | cons kind rest ih =>
      refine fun collections h => ih _ ?_
      exact Json.lacks_adjust (fun value => Json.lacks_mapMembers fun _ => Json.lacks_filter) h
  exact Json.lacks_mapMembers (fun members => Json.lacks_adjust fun value =>
    Json.lacks_mapMembers (hkinds _)) h

theorem lacks_filtered (f : Filter) (h : document.lacks key = true) :
    (f.apply document).1.lacks key = true := by
  unfold Filter.apply
  split
  · rename_i members
    split
    · rename_i paths _ hpaths
      have hmembers := Json.lacks_obj.mp h
      obtain ⟨hname, hitems⟩ := hmembers _ (Entries.mem_of_get? hpaths)
      refine Json.lacks_obj.mpr fun entry hentry => ?_
      rcases Entries.mem_insert hentry with rfl | hentry
      · refine ⟨hname, Json.lacks_obj.mpr fun left hleft => ?_⟩
        obtain ⟨item, hitem, rfl⟩ := List.mem_map.mp hleft
        obtain ⟨hpath, hitem⟩ := Json.lacks_obj.mp hitems item (List.mem_of_mem_filter hitem)
        exact ⟨hpath, Json.lacks_mapMembers (fun _ => Json.lacks_filter) hitem⟩
      · exact hmembers entry hentry
    · exact h
  · exact h

/-- **A prepared document lacks what the document lacks.** -/
theorem lacks_prepare {options : Options} {doc : Document} {report : Option Prune.Report}
    (h : document.lacks key = true) (hprepare : prepare document options = .ok (doc, report)) :
    doc.root.lacks key = true := by
  have hfiltered := lacks_filtered options.filter h
  rcases prepare_eq_ok hprepare with ⟨r, -, -, hrun⟩ | ⟨-, -, hroot⟩
  · have hpruned := Prune.prune_induction (P := fun document => document.lacks key = true)
      options.pruning (fun document => Prune.lacks_clean _ _ document)
      (fun keep document => Prune.lacks_sweep keep) hfiltered
    rwa [hrun] at hpruned
  · rwa [hroot] at hfiltered

end Prepare

/-! ## 3. Free schemas -/

/-- The key that overrides the type of a schema. -/
def overrideKey : String := "x-type-override"

/-- A value in which no schema overrides a type. Under `properties` any name may stand. -/
inductive Schema.Free : Json → Prop where
  | leaf {value : Json} (hitems : value.items? = none) (hmembers : value.members? = none) :
    Free value
  | list {items : List Json} (h : ∀ item ∈ items, Free item) : Free (.arr items)
  | object {members : List (String × Json)} (hkey : ∀ entry ∈ members, entry.1 ≠ overrideKey)
    (hvalue : ∀ entry ∈ members, entry.1 ≠ "properties" → Free entry.2)
    (hproperty : ∀ properties, ("properties", Json.obj properties) ∈ members →
      ∀ property ∈ properties, Free property.2) : Free (.obj members)

namespace Schema

/-- A member that a free schema may have. -/
structure FreeMember (entry : String × Json) : Prop where
  key : entry.1 ≠ overrideKey
  value : entry.1 ≠ "properties" → Free entry.2
  property : entry.1 = "properties" → ∀ properties, entry.2 = .obj properties →
    ∀ property ∈ properties, Free property.2

variable {node : Json} {members left right merged : List (String × Json)}

theorem free_obj : Free (.obj members) ↔ ∀ entry ∈ members, FreeMember entry := by
  constructor
  · intro h entry hentry
    cases h with
    | leaf hitems hmembers => simp [Json.members?] at hmembers
    | object hkey hvalue hproperty =>
      refine ⟨hkey entry hentry, hvalue entry hentry, fun hname properties heq => ?_⟩
      exact hproperty properties (hname ▸ heq ▸ hentry)
  · intro h
    refine .object (fun entry hentry => (h entry hentry).key)
      (fun entry hentry => (h entry hentry).value) fun properties hmem => ?_
    exact (h _ hmem).property rfl properties rfl

theorem free_arr {items : List Json} : Free (.arr items) ↔ ∀ item ∈ items, Free item := by
  refine ⟨fun h => ?_, .list⟩
  cases h with
  | leaf hitems hmembers => simp [Json.items?] at hitems
  | list h => exact h

/-- **A value that lacks the key is free.** -/
theorem free_of_lacks : ∀ value : Json, value.lacks overrideKey = true → Free value
  | .arr items, h => .list fun item hitem => free_of_lacks item (Json.lacks_arr.mp h item hitem)
  | .obj members, h => .object (fun entry hentry => (Json.lacks_obj.mp h entry hentry).1)
      (fun entry hentry _ => free_of_lacks entry.2 (Json.lacks_obj.mp h entry hentry).2)
      fun properties hmem property hproperty =>
        have hproperties := (Json.lacks_obj.mp h _ hmem).2
        free_of_lacks property.2 (Json.lacks_obj.mp hproperties property hproperty).2
  | .null, _ | .bool _, _ | .int _, _ | .float _, _ | .str _, _ => .leaf rfl rfl
termination_by value => sizeOf value
decreasing_by
  · have := List.sizeOf_lt_of_mem hitem
    simp only [Json.arr.sizeOf_spec]
    omega
  · have := List.sizeOf_lt_of_mem hentry
    obtain ⟨name, value⟩ := entry
    simp only [Json.obj.sizeOf_spec, Prod.mk.sizeOf_spec] at *
    omega
  · have := List.sizeOf_lt_of_mem hmem
    have := List.sizeOf_lt_of_mem hproperty
    obtain ⟨name, value⟩ := property
    simp only [Json.obj.sizeOf_spec, Prod.mk.sizeOf_spec] at *
    omega

/-! ## 4. Below a free schema -/

theorem Free.get? {key : String} {child : Json} (h : Free node) (hkey : key ≠ "properties")
    (hget : node.get? key = some child) : Free child := by
  cases node with
  | obj members => exact (free_obj.mp h _ (Entries.mem_of_get? hget)).value hkey
  | _ => simp [Json.get?, Json.members?] at hget

theorem Free.membersOf {key : String} {member : Json} (h : Free node) (hkey : key ≠ "properties")
    (hmember : member ∈ membersOf key node) : Free member := by
  obtain ⟨items, hget, hitem⟩ := exists_of_mem_membersOf hmember
  exact free_arr.mp (h.get? hkey hget) member hitem

theorem Free.property {properties : List (String × Json)} (h : Free node)
    (hget : properties? node = some properties) {property : String × Json}
    (hproperty : property ∈ properties) : Free property.2 := by
  obtain ⟨object, hobject, hmembers⟩ := Option.bind_eq_some_iff.mp hget
  cases object with
  | obj found =>
    obtain rfl := Option.some.inj hmembers
    cases node with
    | obj members =>
      exact (free_obj.mp h _ (Entries.mem_of_get? hobject)).property rfl _ rfl property hproperty
    | _ => simp [Json.get?, Json.members?] at hobject
  | _ => simp [Json.members?] at hmembers

theorem Free.filter {keep : String × Json → Bool} (h : Free (.obj members)) :
    Free (.obj (members.filter keep)) :=
  free_obj.mpr fun entry hentry => free_obj.mp h entry (List.mem_of_mem_filter hentry)

theorem Free.expandReference (h : Free (.obj members)) :
    Free (Env.expandReference members) := by
  refine free_obj.mpr fun entry hentry => ?_
  rcases List.mem_append.mp hentry with hentry | hentry
  · exact free_obj.mp h entry (List.mem_of_mem_filter hentry)
  · obtain rfl := List.mem_singleton.mp hentry
    refine ⟨by simp [overrideKey], fun _ => free_arr.mpr fun item hitem => ?_,
      fun hname => by simp at hname⟩
    rcases List.mem_pair.mp hitem with rfl | rfl
    · exact h.filter
    · exact h.filter

/-- A field that is read sets what it sets. -/
theorem exists_of_read_field {σ α : Type} {names : List String} {decode : Decode α}
    {set : σ → α → σ} {value : Json} {record record' : σ}
    (h : (Decode.field names decode set).read value record = .ok record') :
    ∃ a, record' = set record a := by
  simp only [Decode.field] at h
  cases hdecode : decode value with
  | error cause => simp [hdecode, Except.map] at h
  | ok a =>
    rw [hdecode] at h
    exact ⟨a, (Except.ok.inj h).symm⟩

/-- A member that is no override leaves the override as it is. -/
theorem typeOverride_of_readMember {known known' : Extensions} {entry : String × Json}
    (hkey : entry.1 ≠ overrideKey) (h : Extensions.readMember known entry = .ok known') :
    known'.typeOverride = known.typeOverride := by
  obtain ⟨key, value⟩ := entry
  simp only [Extensions.readMember] at h
  split at h
  · exact congrArg _ (Except.ok.inj h).symm
  · rename_i field hfind
    have hname : field.name = key := by simpa using List.find?_some hfind
    have hfield := List.mem_of_find?_eq_some hfind
    split at h
    · rename_i found hread
      obtain rfl := Except.ok.inj h
      simp only [Extensions.fields, List.mem_cons, List.not_mem_nil, or_false] at hfield
      rcases hfield with rfl | rfl | rfl | rfl | rfl | rfl | rfl | rfl | rfl
      · exact absurd hname.symm hkey
      all_goals
        obtain ⟨a, rfl⟩ := exists_of_read_field hread
        rfl
    · simp at h

/-- Members that are no override leave the override as it is. -/
theorem typeOverride_of_readMembers {members : List (String × Json)} {known known' : Extensions}
    (hkeys : ∀ entry ∈ members, entry.1 ≠ overrideKey)
    (h : members.foldlM Extensions.readMember known = .ok known') :
    known'.typeOverride = known.typeOverride := by
  induction members generalizing known with
  | nil => exact congrArg _ (Except.ok.inj h).symm
  | cons entry rest ih =>
    obtain ⟨hentry, hrest⟩ := List.forall_mem_cons.mp hkeys
    rw [List.foldlM_cons] at h
    cases hfirst : Extensions.readMember known entry with
    | error fault => simp [hfirst, bind, Except.bind] at h
    | ok first =>
      rw [hfirst] at h
      exact (ih hrest h).trans (typeOverride_of_readMember hentry hfirst)

/-- **The extensions of a free schema override no type.** -/
theorem Free.typeOverride {extensions : Extensions} {path : String} (h : Free node)
    (hextensions : Env.extensionsAt node path = .ok extensions) :
    extensions.typeOverride = none := by
  unfold Env.extensionsAt at hextensions
  split at hextensions
  · rename_i found hfound
    obtain rfl := Except.ok.inj hextensions
    refine typeOverride_of_readMembers (fun entry hentry => ?_) hfound
    cases node with
    | obj members => exact (free_obj.mp h entry hentry).key
    | _ => simp [Json.members?] at hentry
  · simp at hextensions

/-! ## 5. Merging -/

/-- Something that holds of the members of schemas, and then of what a merge makes of them. -/
structure MemberLaw (Q : String × Json → Prop) : Prop where
  /-- Lists are appended. -/
  append : ∀ {key : String} {items more : List Json}, key ≠ "properties" → Q (key, .arr items) →
    Q (key, .arr more) → Q (key, .arr (items ++ more))
  /-- There may be no properties yet. -/
  noProperties : Q ("properties", .obj [])
  /-- Properties are united. -/
  unite : ∀ {old new : List (String × Json)}, Q ("properties", .obj old) →
    Q ("properties", .obj new) → Q ("properties", unitedProperties (.obj old) (.obj new))
  /-- A merge writes two keywords itself. -/
  flag : ∀ {key : String} (value : Bool), key = "nullable" ∨ key = "additionalProperties" →
    Q (key, .bool value)

namespace MemberLaw

variable {Q : String × Json → Prop}

theorem insert {key : String} {value : Json} (hmembers : ∀ entry ∈ members, Q entry)
    (hentry : Q (key, value)) : ∀ entry ∈ Entries.insert key value members, Q entry := by
  intro entry hmem
  rcases Entries.mem_insert hmem with rfl | hmem
  · exact hentry
  · exact hmembers entry hmem

variable (law : MemberLaw Q)
include law

theorem appendList {key : String} {value : Json} (hkey : key ≠ "properties")
    (hmembers : ∀ entry ∈ members, Q entry) (hentry : Q (key, value)) :
    ∀ entry ∈ Schema.appendList key value members, Q entry := by
  unfold Schema.appendList
  split
  · split
    · rename_i hexisting
      exact insert hmembers (law.append hkey (hmembers _ (Entries.mem_of_get? hexisting)) hentry)
    · exact insert hmembers hentry
  · exact hmembers

theorem takeKeyword {keepType : Bool} {entry : String × Json}
    (hmembers : ∀ entry ∈ members, Q entry) (hentry : Q entry) :
    ∀ member ∈ Schema.takeKeyword keepType members entry, Q member := by
  obtain ⟨key, value⟩ := entry
  simp only [Schema.takeKeyword]
  split
  · exact hmembers
  · split
    · rename_i hlist
      refine law.appendList (fun hname => ?_) hmembers hentry
      subst hname
      simp at hlist
    · split
      · rename_i hname
        subst hname
        refine insert hmembers ?_
        have hold : Q ("properties", (Entries.get? "properties" members).getD (.obj [])) := by
          cases hget : Entries.get? "properties" members with
          | none => exact law.noProperties
          | some old => exact hmembers _ (Entries.mem_of_get? hget)
        generalize (Entries.get? "properties" members).getD (.obj []) = old at hold
        cases old with
        | obj old =>
          cases value with
          | obj new => exact law.unite hold hentry
          | _ => exact hentry
        | _ => exact hentry
      · split
        · exact hmembers
        · exact insert hmembers hentry

omit law in
theorem setKeyword {key : String} {value : Option Json} (hmembers : ∀ entry ∈ members, Q entry)
    (hvalue : ∀ found, value = some found → Q (key, found)) :
    ∀ entry ∈ Schema.setKeyword key value members, Q entry := by
  cases value with
  | none => exact fun entry hentry => hmembers entry (List.mem_of_mem_filter hentry)
  | some found => exact insert hmembers (hvalue found rfl)

omit law in
/-- What is said of further properties. -/
theorem openness {schema : Json} (hmembers : ∀ entry ∈ members, Q entry)
    (h : Openness.ofKeyword (Entries.get? "additionalProperties" members) = .restricted schema) :
    Q ("additionalProperties", schema) :=
  hmembers _ (Entries.mem_of_get? (Openness.eq_some_of_restricted h))

/-- **What holds of the members of both sides holds of the members of the merge.** -/
theorem mergeInto (hleft : ∀ entry ∈ left, Q entry)
    (hnode : ∀ entry ∈ node.members?.getD [], Q entry)
    (h : Schema.mergeInto left node = .ok merged) : ∀ entry ∈ merged, Q entry := by
  have hunited : ∀ keepType : Bool, ∀ entry ∈
      (node.members?.getD []).foldl (Schema.takeKeyword keepType) left, Q entry := fun keepType =>
    List.foldlRecOn (motive := fun members => ∀ entry ∈ members, Q entry) _ _ hleft
      fun into hinto entry hentry => law.takeKeyword hinto (hnode entry hentry)
  simp only [Schema.mergeInto] at h
  split at h
  · simp at h
  · split at h
    · simp at h
    · rename_i openness hopenness
      obtain rfl := Except.ok.inj h
      refine setKeyword (setKeyword (fun entry hentry => ?_) fun value hvalue => ?_)
        fun value hvalue => ?_
      · exact hunited _ entry (List.mem_of_mem_filter hentry)
      · cases openness with
        | unsaid => simp [Openness.keyword?] at hvalue
        | restricted schema =>
          obtain rfl := Option.some.inj hvalue
          rcases Openness.eq_or_eq_of_merge? hopenness with heq | heq
          · exact MemberLaw.openness hleft heq.symm
          · exact MemberLaw.openness hnode (by rw [get?_getD_members, heq])
        | _ =>
          obtain rfl := Option.some.inj hvalue
          exact law.flag _ (.inr rfl)
      · split at hvalue
        · obtain rfl := Option.some.inj hvalue
          exact law.flag _ (.inl rfl)
        · simp at hvalue

/-- The first schema is taken as it is. -/
theorem merge {start : Option (List (String × Json))} (hstart : ∀ entry ∈ start.getD [], Q entry)
    (hnode : ∀ entry ∈ node.members?.getD [], Q entry) (h : Schema.merge start node = .ok merged) :
    ∀ entry ∈ merged, Q entry := by
  cases start with
  | none => exact Except.ok.inj h ▸ hnode
  | some left => exact law.mergeInto hstart hnode h

end MemberLaw

theorem free_append {items more : List Json} (h : Free (.arr items)) (hmore : Free (.arr more)) :
    Free (.arr (items ++ more)) :=
  free_arr.mpr fun item hitem =>
    (List.mem_append.mp hitem).elim (free_arr.mp h item) (free_arr.mp hmore item)

/-- Properties of either side. -/
theorem free_of_mem_foldl_insert {old new : List (String × Json)}
    (hold : ∀ property ∈ old, Free property.2) (hnew : ∀ property ∈ new, Free property.2) :
    ∀ property ∈ new.foldl (fun acc entry => Entries.insert entry.1 entry.2 acc) old,
      Free property.2 :=
  List.foldlRecOn (motive := fun (found : List (String × Json)) =>
    ∀ property ∈ found, Free property.2) _ _ hold fun _ hfound entry hentry property hmem =>
      (Entries.mem_insert hmem).elim (fun heq => heq ▸ hnew entry hentry) (hfound property)

theorem memberLaw_free : MemberLaw FreeMember where
  append hkey hitems hmore := ⟨hitems.key, fun hne => free_append (hitems.value hne)
    (hmore.value hne), fun hname => absurd hname hkey⟩
  noProperties := ⟨by decide, fun hne => absurd rfl hne, fun _ properties heq => by
    obtain rfl := Json.obj.inj heq
    simp⟩
  unite hold hnew := ⟨hold.key, fun hne => absurd rfl hne, fun _ properties heq => by
    obtain rfl := Json.obj.inj heq
    exact free_of_mem_foldl_insert (hold.property rfl _ rfl) (hnew.property rfl _ rfl)⟩
  flag value hkey := by
    have hapart : ∀ key, key = "nullable" ∨ key = "additionalProperties" →
        key ≠ overrideKey ∧ key ≠ "properties" := by
      rintro key (rfl | rfl) <;> exact ⟨by decide, by decide⟩
    obtain ⟨hoverride, hproperties⟩ := hapart _ hkey
    exact ⟨hoverride, fun _ => .leaf rfl rfl, fun hname => absurd hname hproperties⟩

theorem freeMember_members (h : Free node) : ∀ entry ∈ node.members?.getD [], FreeMember entry := by
  cases node with
  | obj members => exact free_obj.mp h
  | _ => simp [Json.members?]

end Schema

/-! ## 6. What references lead to -/

namespace Env

open Schema

variable {env : Env} {site : Site} {node target : Json}

theorem free_of_resolve? (hdoc : env.doc.root.lacks overrideKey = true) {reference : String}
    (h : env.doc.resolve? reference = some target) : Free target :=
  free_of_lacks target ((Json.inherited_lacks _).resolve? hdoc h)

/-- **The schemas behind free members are free.** -/
theorem free_flatten (hdoc : env.doc.root.lacks overrideKey = true) {levels : Nat}
    {members flat : List Json} (hmembers : ∀ member ∈ members, Free member)
    (h : env.flatten site levels members = .ok flat) : ∀ node ∈ flat, Free node :=
  fun node hnode => (flatten_induction (fun _ _ htarget => free_of_resolve? hdoc htarget)
    (fun _ hfound => hfound.filter) (fun _ hnode _ hmem => hnode.membersOf (by decide) hmem)
    hmembers h node hnode).1

/-- **What free members describe together is free.** -/
theorem free_mergedMembers (hdoc : env.doc.root.lacks overrideKey = true)
    {own : Option (List (String × Json))} {members : List Json} {merged : List (String × Json)}
    (hown : ∀ found, own = some found → Free (.obj found))
    (hmembers : ∀ member ∈ members, Free member)
    (h : env.mergedMembers site own members = .ok merged) : Free (.obj merged) := by
  refine mergedMembers_induction (fun flat hflat start merged node hnode hstart hmerge => ?_) ?_ h
  · exact free_obj.mpr (memberLaw_free.merge (free_obj.mp hstart)
      (freeMember_members (free_flatten hdoc hmembers hflat node hnode)) hmerge)
  · cases own with
    | none => exact free_obj.mpr (by simp)
    | some found => exact hown found rfl

theorem free_ownKeywords {found : List (String × Json)} (h : Free node)
    (hown : ownKeywords node = some found) : Free (.obj found) := by
  obtain ⟨members, rfl, rfl⟩ := ownKeywords_eq_some hown
  exact h.filter

/-! ## 7. Parameters and contents -/

theorem free_parameterSchema {parameter : Json} (h : parameter.lacks overrideKey = true) :
    Free (parameterSchema parameter) := by
  have hschema : Free
      (((parameter.get? "schema").or (firstContentSchema? parameter)).getD (.obj [])) := by
    cases hfound : (parameter.get? "schema").or (firstContentSchema? parameter) with
    | none => exact free_obj.mpr (by simp)
    | some schema =>
      exact free_of_lacks schema ((Json.inherited_lacks _).parameterSchema h hfound)
  unfold parameterSchema
  dsimp only
  split
  · exact hschema
  · generalize ((parameter.get? "schema").or (firstContentSchema? parameter)).getD (.obj []) =
      schema at hschema
    cases schema with
    | obj members =>
      simp only [Json.mapMembers]
      split
      · exact hschema
      · exact free_obj.mpr (MemberLaw.insert (free_obj.mp hschema)
          ⟨by simp [overrideKey], fun _ => .leaf rfl rfl, fun hname => by simp at hname⟩)
    | _ => exact hschema

/-- **The record of parameters is free**, whatever their names. -/
theorem free_parameterRecord? {location : String} {parameters : List Json} {record : Json}
    (h : ∀ parameter ∈ parameters, parameter.lacks overrideKey = true)
    (hrecord : parameterRecord? location parameters = some record) : Free record := by
  have hproperties : ∀ property ∈ (parametersAt location parameters).foldl
      (fun properties p => Entries.insert p.1 (parameterSchema p.2) properties) [],
        Free property.2 := by
    refine List.foldlRecOn (motive := fun (properties : List (String × Json)) =>
      ∀ property ∈ properties, Free property.2) _ _ (by simp)
      fun properties hproperties p hp property hproperty => ?_
    rcases Entries.mem_insert hproperty with rfl | hproperty
    · exact free_parameterSchema (h p.2 (mem_of_mem_parametersAt hp))
    · exact hproperties property hproperty
  unfold parameterRecord? at hrecord
  split at hrecord
  · simp at hrecord
  · obtain rfl := Option.some.inj hrecord
    refine free_obj.mpr (List.forall_mem_cons.mpr ⟨?_, List.forall_mem_cons.mpr ⟨?_,
      List.forall_mem_singleton.mpr ?_⟩⟩)
    · exact ⟨by decide, fun _ => .leaf rfl rfl, fun hname => absurd hname (by decide)⟩
    · refine ⟨by simp [overrideKey], fun _ => free_arr.mpr fun item hitem => ?_,
        fun hname => by simp at hname⟩
      obtain ⟨entry, -, rfl⟩ := List.mem_map.mp hitem
      exact .leaf rfl rfl
    · refine ⟨by simp [overrideKey], fun hname => absurd rfl hname, fun _ properties heq => ?_⟩
      obtain rfl := Json.obj.inj heq
      exact hproperties

theorem free_contentSchema? {schema : Json} (h : node.lacks overrideKey = true)
    (hschema : contentSchema? node = some schema) : Free schema :=
  free_of_lacks schema ((Json.inherited_lacks _).contentSchema? h hschema)

end Env

end ApiTypes
