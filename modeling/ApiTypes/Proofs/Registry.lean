import ApiTypes.Proofs.Entries
import ApiTypes.Proofs.TypeName
import ApiTypes.Registry
import Mathlib.Data.List.Infix

/-!
  What registering and going back do.

  * The index leads from each name to the place of its definition, and from nothing else.
  * A registration adds at most its definition, at the end, and its name has a definition then. It
    fails where the name stands for something else.
  * A name that is given out is free or stands for an equivalent shape.
  * Going back to a checkpoint gives the registry of that time, with its index.
-/

namespace ApiTypes.Registry

variable {r r' : Registry} {name : String} {d : Definition}

/-! ## 1. Look-ups -/

theorem mem_names : name ∈ r.names ↔ ∃ d ∈ r.definitions, d.name = name := List.mem_map

theorem mem_of_get? (h : r.get? name = some d) : d ∈ r.definitions ∧ d.name = name := by
  rw [get?_eq_find?] at h
  exact ⟨List.mem_of_find?_eq_some h, by simpa using List.find?_some h⟩

/-- The entries of the index are the names with their places. -/
theorem mem_index {place : Nat} : (name, place) ∈ r.index ↔ r.names[place]? = some name := by
  rw [r.indexed]
  exact List.mk_mem_zipIdx_iff_getElem?

/-- **The index leads from a name to its place**, and to no other. -/
theorem position?_eq_some {place : Nat} :
    r.position? name = some place ↔ r.names[place]? = some name := by
  have hkeys : (Entries.keys r.index).Nodup := by
    rw [r.indexed, Entries.keys, List.zipIdx_map_fst]
    exact r.distinct
  rw [← mem_index]
  exact ⟨Entries.mem_of_get?, Entries.get?_of_mem hkeys⟩

theorem get?_eq_none : r.get? name = none ↔ name ∉ r.names := by
  refine ⟨not_mem_names_of_get?, fun h => ?_⟩
  rw [get?_eq_find?, List.find?_eq_none]
  intro d hd hname
  exact h (mem_names.mpr ⟨d, hd, by simpa using hname⟩)

/-- No two definitions of a registry have one name. -/
theorem eq_of_name_eq {e : Definition} (hd : d ∈ r.definitions) (he : e ∈ r.definitions)
    (h : d.name = e.name) : d = e :=
  List.inj_on_of_nodup_map r.distinct hd he h

/-- **A definition is found under its name.** -/
theorem get?_of_mem (h : d ∈ r.definitions) : r.get? d.name = some d := by
  cases hget : r.get? d.name with
  | none => exact absurd (mem_names.mpr ⟨d, h, rfl⟩) (get?_eq_none.mp hget)
  | some found =>
    obtain ⟨hfound, hname⟩ := mem_of_get? hget
    rw [eq_of_name_eq hfound h hname]

/-! ## 2. Registering -/

theorem mem_names_of_prefix (h : r.definitions <+: r'.definitions) (hname : name ∈ r.names) :
    name ∈ r'.names := by
  obtain ⟨d, hd, rfl⟩ := mem_names.mp hname
  exact mem_names.mpr ⟨d, h.subset hd, rfl⟩

/-- **A registration keeps what was there and adds at most its definition**, whose name has a
    definition then. -/
theorem register_eq_ok (h : r.register d = .ok r') :
    r.definitions <+: r'.definitions ∧ d.name ∈ r'.names ∧
      ∀ e ∈ r'.definitions, e ∈ r.definitions ∨ e = d := by
  unfold register at h
  split at h
  · obtain rfl := Except.ok.inj h
    refine ⟨List.prefix_append _ _, mem_names.mpr ⟨d, by simp [append], rfl⟩, fun e he => ?_⟩
    simpa [append] using he
  · rename_i existing hget
    obtain ⟨hmem, hname⟩ := mem_of_get? hget
    split at h
    · obtain rfl := Except.ok.inj h
      exact ⟨List.prefix_refl _, mem_names.mpr ⟨existing, hmem, hname⟩, fun e he => .inl he⟩
    · simp at h

/-- **A registration fails exactly where the name stands for something else**, and says so. -/
theorem register_eq_error {e : CompileError} :
    r.register d = .error e ↔
      (∃ existing, r.get? d.name = some existing ∧ existing.shape.equivalent d.shape = false) ∧
        e = .duplicateTypeName d.name := by
  unfold register
  split
  · rename_i hget
    simp [hget]
  · rename_i existing hget
    cases hequivalent : existing.shape.equivalent d.shape <;>
      simp [hget, hequivalent, eq_comm (a := e)]

/-- Whether a name is free or stands for a shape that may share it. -/
def Admits (r : Registry) (name : String) (shape : Shape) : Prop :=
  ∀ existing, r.get? name = some existing → existing.shape.equivalent shape = true

/-- **A name that is given out is free or stands for an equivalent shape.** -/
theorem admits_nameFor (r : Registry) (base : String) (shape : Shape) (suffixes : List String) :
    r.Admits (r.nameFor base shape suffixes) shape := by
  intro found hfound
  unfold nameFor at hfound
  split at hfound
  · rename_i hbase
    simp [hbase] at hfound
  · rename_i existing hbase
    split at hfound
    · rename_i hequivalent
      obtain rfl := Option.some.inj (hbase.symm.trans hfound)
      exact hequivalent
    · -- A name that is not taken has no definition.
      rw [get?_eq_none.mpr (TypeName.fresh_not_mem _ _ _)] at hfound
      exact absurd hfound (by simp)

/-- **Where the name admits the shape, the registration succeeds**, and the name stands for the
    definition or for the one that was there. -/
theorem register_of_admits (h : r.Admits d.name d.shape) :
    ∃ r', r.register d = .ok r' ∧ ∃ registered, r'.get? d.name = some registered ∧
      (registered = d ∨ registered.shape.equivalent d.shape = true) := by
  unfold register
  split
  · exact ⟨_, rfl, d, get?_of_mem (by simp [append]), .inl rfl⟩
  · rename_i existing hget
    rw [if_pos (h existing hget)]
    exact ⟨r, rfl, existing, hget, .inr (h existing hget)⟩

/-! ## 3. Going back -/

/-- A registry is its definitions: the index follows from them. -/
theorem ext_definitions (h : r.definitions = r'.definitions) : r = r' := by
  obtain ⟨definitions, index, hdistinct, hindexed⟩ := r
  obtain ⟨definitions', index', hdistinct', hindexed'⟩ := r'
  obtain rfl : definitions = definitions' := h
  obtain rfl : index = index' := hindexed.trans hindexed'.symm
  rfl

/-- **Going back to a checkpoint undoes every registration since.** -/
theorem rollback_checkpoint (h : r.definitions <+: r'.definitions) :
    r'.rollback r.checkpoint = r :=
  ext_definitions (List.prefix_iff_eq_take.mp h).symm

/-- What stood before a mark stays when one goes back to it or to a later one. -/
theorem prefix_rollback {mark : Nat} (h : r.definitions <+: r'.definitions)
    (hmark : r.checkpoint ≤ mark) : r.definitions <+: (r'.rollback mark).definitions :=
  List.prefix_take_iff.mpr ⟨h, hmark⟩

end ApiTypes.Registry
