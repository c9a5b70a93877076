import Mathlib.Data.List.Induction
import Mathlib.Data.List.Nodup

/-!
  Lists with one element for each key.

  `putByKey` puts an element into a list. Where an element with its key is there, one of the two
  stands in that place afterwards; an element with a new key goes last.

  * Elements that are put in one after the other leave **each key where it came first**
    (`keys_foldl_putByKey`), and every element that is left is one of them.
  * `eq_or_mem_of_putByKey` says which element one step leaves for a key.
-/

namespace ApiTypes

/-! ## 1. First occurrences -/

section FirstOccurrences

variable {κ : Type} [BEq κ] [LawfulBEq κ]

/-- A key that is there already comes to nothing, and a new one goes last. -/
theorem eraseDups_concat (keys : List κ) (key : κ) :
    (keys ++ [key]).eraseDups = if key ∈ keys then keys.eraseDups else keys.eraseDups ++ [key] := by
  rw [List.eraseDups_append]
  by_cases hkey : key ∈ keys <;> simp [List.removeAll, hkey, List.eraseDups_cons]

theorem nodup_eraseDups (keys : List κ) : keys.eraseDups.Nodup := by
  induction keys using List.reverseRecOn with
  | nil => exact List.nodup_nil
  | append_singleton keys key ih =>
    rw [eraseDups_concat]
    split
    · exact ih
    · rename_i hnew
      exact List.concat_eq_append ▸ ih.concat (by simpa using hnew)

end FirstOccurrences

/-! ## 2. Putting elements in -/

section Put

variable {α κ : Type} [DecidableEq κ] {key : α → κ} {replaces : α → α → Bool}
  {elements : List α} {element new : α}

/-- Puts an element into a list: in the place of the one with its key, if it replaces that one, and
    at the end if its key is new. -/
def putByKey (key : α → κ) (replaces : α → α → Bool) : List α → α → List α
  | [], new => [new]
  | old :: rest, new =>
    if key old = key new then (if replaces new old then new else old) :: rest
    else old :: putByKey key replaces rest new

theorem keys_putByKey (elements : List α) (new : α) :
    (putByKey key replaces elements new).map key =
      if key new ∈ elements.map key then elements.map key else elements.map key ++ [key new] := by
  induction elements with
  | nil => simp [putByKey]
  | cons old rest ih =>
    by_cases hkey : key old = key new
    · cases hreplaces : replaces new old <;> simp [putByKey, hkey, hreplaces]
    · have hne : key new ≠ key old := Ne.symm hkey
      rw [putByKey, if_neg hkey, List.map_cons, ih, List.map_cons]
      by_cases hmem : key new ∈ rest.map key
      · rw [if_pos hmem, if_pos (List.mem_cons_of_mem _ hmem)]
      · rw [if_neg hmem, if_neg (by simpa [hne] using hmem)]
        rfl

theorem mem_of_mem_putByKey (h : element ∈ putByKey key replaces elements new) :
    element = new ∨ element ∈ elements := by
  induction elements with
  | nil => exact .inl (List.mem_singleton.mp h)
  | cons old rest ih =>
    rw [putByKey] at h
    split_ifs at h
    · exact (List.mem_cons.mp h).imp_right (List.mem_cons_of_mem _)
    · exact .inr h
    · rcases List.mem_cons.mp h with rfl | hmem
      · exact .inr List.mem_cons_self
      · exact (ih hmem).imp_right (List.mem_cons_of_mem _)

/-- **What one step leaves**, where no two elements have one key: the new element, if it replaces
    what its key led to, and every element that it does not replace. -/
theorem eq_or_mem_of_putByKey (hdistinct : (elements.map key).Nodup)
    (h : element ∈ putByKey key replaces elements new) :
    (element = new ∧ ∀ old ∈ elements, key old = key new → replaces new old = true) ∨
      (element ∈ elements ∧ (key element = key new → replaces new element = false)) := by
  induction elements with
  | nil => exact .inl ⟨List.mem_singleton.mp h, by simp⟩
  | cons old rest ih =>
    obtain ⟨hold, hrest⟩ := List.nodup_cons.mp hdistinct
    -- Where the first element has the key, no other has it.
    have hother : key old = key new → ∀ other ∈ rest, key other ≠ key new :=
      fun hkey other hmem heq => hold (hkey ▸ heq ▸ List.mem_map_of_mem hmem)
    rw [putByKey] at h
    split_ifs at h with hkey hreplaces
    · rcases List.mem_cons.mp h with rfl | hmem
      · refine .inl ⟨rfl, List.forall_mem_cons.mpr ⟨fun _ => hreplaces, ?_⟩⟩
        exact fun other hmem heq => absurd heq (hother hkey other hmem)
      · exact .inr ⟨List.mem_cons_of_mem _ hmem, fun heq => absurd heq (hother hkey _ hmem)⟩
    · refine .inr ⟨h, fun heq => ?_⟩
      rcases List.mem_cons.mp h with rfl | hmem
      · simpa using hreplaces
      · exact absurd heq (hother hkey _ hmem)
    · rcases List.mem_cons.mp h with rfl | hmem
      · exact .inr ⟨List.mem_cons_self, fun heq => absurd heq hkey⟩
      · rcases ih hrest hmem with ⟨rfl, hall⟩ | ⟨hmem, hkept⟩
        · exact .inl ⟨rfl, List.forall_mem_cons.mpr ⟨fun heq => absurd heq hkey, hall⟩⟩
        · exact .inr ⟨List.mem_cons_of_mem _ hmem, hkept⟩

/-- **Each key stands where it came first.** -/
theorem keys_foldl_putByKey [BEq κ] [LawfulBEq κ] (elements : List α) :
    (elements.foldl (putByKey key replaces) []).map key = (elements.map key).eraseDups := by
  induction elements using List.reverseRecOn with
  | nil => rfl
  | append_singleton elements new ih =>
    rw [List.foldl_append, List.foldl_cons, List.foldl_nil, keys_putByKey, ih, List.map_append,
      List.map_singleton, eraseDups_concat]
    simp only [List.mem_eraseDups]

theorem nodup_keys_foldl_putByKey (elements : List α) :
    ((elements.foldl (putByKey key replaces) []).map key).Nodup := by
  rw [keys_foldl_putByKey]
  exact nodup_eraseDups _

theorem mem_of_mem_foldl_putByKey (h : element ∈ elements.foldl (putByKey key replaces) []) :
    element ∈ elements := by
  induction elements using List.reverseRecOn with
  | nil => exact absurd h List.not_mem_nil
  | append_singleton elements new ih =>
    rw [List.foldl_append] at h
    rcases mem_of_mem_putByKey h with rfl | hmem
    · exact List.mem_append_right _ List.mem_cons_self
    · exact List.mem_append_left _ (ih hmem)

end Put

end ApiTypes
