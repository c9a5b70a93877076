import ApiTypes.Entries
import Mathlib.Data.List.Nodup

/-!
  Laws of maps as lists of entries.

  A list may hold a key twice, and then `get?` and `adjust` see the first entry only. Where no key
  comes twice, an entry of the list is what its key leads to, and rewriting under a key is a map
  over all entries.

  A sorted list of names is strictly increasing, so it depends on nothing but which names there are
  (`sortedDistinct_congr`). A sorted table does not depend on the order in which its keys were
  written (`insertSorted_comm`).
-/

namespace ApiTypes.Entries

variable {α : Type} {key : String} {value : α} {entries : List (String × α)}

/-! ## 1. Looking up -/

theorem mem_keys_of_mem (h : (key, value) ∈ entries) : key ∈ keys entries :=
  List.mem_map.mpr ⟨_, h, rfl⟩

@[simp] theorem get?_nil : get? key ([] : List (String × α)) = none := rfl

theorem get?_cons (name : String) (rest : List (String × α)) :
    get? key ((name, value) :: rest) = if name = key then some value else get? key rest := rfl

theorem mem_of_get? (h : get? key entries = some value) : (key, value) ∈ entries := by
  induction entries with
  | nil => simp at h
  | cons entry rest ih =>
    obtain ⟨name, old⟩ := entry
    rw [get?_cons] at h
    split at h
    · rename_i hname
      obtain rfl := Option.some.inj h
      exact hname ▸ List.mem_cons_self
    · exact List.mem_cons_of_mem _ (ih h)

/-- **Without repetition an entry is what its key leads to.** -/
theorem get?_of_mem (hkeys : (keys entries).Nodup) (h : (key, value) ∈ entries) :
    get? key entries = some value := by
  induction entries with
  | nil => simp at h
  | cons entry rest ih =>
    obtain ⟨name, old⟩ := entry
    obtain ⟨hname, hrest⟩ := List.nodup_cons.mp hkeys
    rw [get?_cons]
    rcases List.mem_cons.mp h with heq | hmem
    · obtain ⟨rfl, rfl⟩ := Prod.mk.inj heq
      simp
    · have hne : name ≠ key := fun e => hname (e ▸ mem_keys_of_mem hmem)
      rw [if_neg hne]
      exact ih hrest hmem

theorem get?_eq_none_iff : get? key entries = none ↔ key ∉ keys entries := by
  induction entries with
  | nil => simp [keys]
  | cons entry rest ih =>
    obtain ⟨name, old⟩ := entry
    rw [get?_cons]
    by_cases hname : name = key
    · simp [hname, keys]
    · have hne : key ≠ name := fun e => hname e.symm
      simpa [hname, keys, hne] using ih

theorem get?_map (f : String → α → α) :
    get? key (entries.map fun entry => (entry.1, f entry.1 entry.2)) =
      (get? key entries).map (f key) := by
  induction entries with
  | nil => rfl
  | cons entry rest ih =>
    obtain ⟨name, old⟩ := entry
    by_cases hname : name = key
    · subst hname
      simp [get?_cons]
    · simpa [get?_cons, hname] using ih

theorem get?_filter (p : String → Bool) :
    get? key (entries.filter fun entry => p entry.1) =
      if p key then get? key entries else none := by
  induction entries with
  | nil => simp
  | cons entry rest ih =>
    obtain ⟨name, old⟩ := entry
    by_cases hname : name = key
    · subst hname
      cases hp : p name <;> simp_all [get?_cons]
    · cases hp : p name <;> simp_all [get?_cons]

/-- **Without repetition an entry that is chosen is what its key leads to.** -/
theorem get?_filter_of_nodup (hkeys : (keys entries).Nodup) (p : String × α → Bool) :
    get? key (entries.filter p) = (get? key entries).filter fun value => p (key, value) := by
  induction entries with
  | nil => rfl
  | cons entry rest ih =>
    obtain ⟨name, old⟩ := entry
    obtain ⟨hname, hrest⟩ := List.nodup_cons.mp hkeys
    by_cases hkey : name = key
    · subst hkey
      have hnone : get? name rest = none := get?_eq_none_iff.mpr hname
      have ih := ih hrest
      cases hp : p (name, old) <;> simp_all [get?_cons, Option.filter]
    · have ih := ih hrest
      cases hp : p (name, old) <;> simp_all [get?_cons]

theorem get?_append (left right : List (String × α)) :
    get? key (left ++ right) = (get? key left).or (get? key right) := by
  induction left with
  | nil => rfl
  | cons entry rest ih =>
    obtain ⟨name, old⟩ := entry
    by_cases hname : name = key <;> simp [get?_cons, hname, ih]

@[simp] theorem keys_map (f : String → α → α) :
    keys (entries.map fun entry => (entry.1, f entry.1 entry.2)) = keys entries := by
  simp [keys, Function.comp_def]

/-! ## 2. Rewriting under a key -/

/-- What an insertion leaves: the new value, and what was there. -/
theorem mem_insert {entry : String × α} (h : entry ∈ insert key value entries) :
    entry = (key, value) ∨ entry ∈ entries := by
  induction entries with
  | nil => exact .inl (List.mem_singleton.mp h)
  | cons first rest ih =>
    obtain ⟨name, old⟩ := first
    rw [insert] at h
    split at h
    · rename_i hname
      rcases List.mem_cons.mp h with heq | hmem
      · exact .inl (hname ▸ heq)
      · exact .inr (List.mem_cons_of_mem _ hmem)
    · rcases List.mem_cons.mp h with rfl | hmem
      · exact .inr List.mem_cons_self
      · exact (ih hmem).imp_right (List.mem_cons_of_mem _)

/-- A new key goes last. -/
theorem insert_of_not_mem (h : key ∉ keys entries) :
    insert key value entries = entries ++ [(key, value)] := by
  induction entries with
  | nil => rfl
  | cons first rest ih =>
    obtain ⟨name, old⟩ := first
    obtain ⟨hname, hrest⟩ := not_or.mp (fun hmem => h (List.mem_cons.mpr hmem))
    simp [insert, Ne.symm hname, ih hrest]

/-- **Entries with new keys go last one by one**, whatever step writes them that way. -/
theorem foldl_append {step : List (String × α) → String × α → List (String × α)}
    (hkeys : (keys entries).Nodup)
    (hstep : ∀ into, ∀ entry ∈ entries, entry.1 ∉ keys into → step into entry = into ++ [entry])
    (into : List (String × α)) (hnew : ∀ entry ∈ entries, entry.1 ∉ keys into) :
    entries.foldl step into = into ++ entries := by
  induction entries generalizing into with
  | nil => simp
  | cons first rest ih =>
    obtain ⟨hfirst, hrest⟩ := List.nodup_cons.mp hkeys
    have hstepFirst := hstep into first List.mem_cons_self (hnew first List.mem_cons_self)
    have hstepRest := fun into entry hentry => hstep into entry (List.mem_cons_of_mem _ hentry)
    rw [List.foldl_cons, hstepFirst, ih hrest hstepRest, List.append_assoc, List.singleton_append]
    intro entry hentry hmem
    rw [keys, List.map_append, List.mem_append] at hmem
    rcases hmem with hmem | hmem
    · exact hnew entry (List.mem_cons_of_mem _ hentry) hmem
    · exact hfirst (List.mem_singleton.mp hmem ▸ List.mem_map_of_mem hentry)

/-- A choice of keys may be made before an insertion or after it. -/
theorem filter_insert (p : String → Bool) :
    (insert key value entries).filter (fun entry => p entry.1) =
      if p key then insert key value (entries.filter fun entry => p entry.1)
      else entries.filter fun entry => p entry.1 := by
  induction entries with
  | nil => cases hp : p key <;> simp [insert, hp]
  | cons first rest ih =>
    obtain ⟨name, old⟩ := first
    by_cases hname : name = key
    · subst hname
      cases hp : p name <;> simp [insert, hp]
    · cases hp : p name <;> cases hkey : p key <;> simp_all [insert]

theorem keys_insert : keys (insert key value entries) =
    if key ∈ keys entries then keys entries else keys entries ++ [key] := by
  induction entries with
  | nil => rfl
  | cons first rest ih =>
    obtain ⟨name, old⟩ := first
    by_cases hname : name = key
    · simp [insert, keys, hname]
    · have hne : key ≠ name := fun e => hname e.symm
      simp only [keys, List.map_cons, List.mem_cons, hne, false_or] at ih ⊢
      by_cases hmem : key ∈ rest.map (·.1) <;> simp_all [insert]

/-- A key that is there keeps its place. -/
theorem exists_insert_eq (h : get? key entries = some value) : ∃ before after,
    entries = before ++ (key, value) :: after ∧
      ∀ new, insert key new entries = before ++ (key, new) :: after := by
  induction entries with
  | nil => simp at h
  | cons entry rest ih =>
    obtain ⟨name, old⟩ := entry
    rw [get?_cons] at h
    split at h
    · rename_i hname
      obtain rfl := Option.some.inj h
      exact ⟨[], rest, by simp [hname], fun new => by simp [insert, hname]⟩
    · rename_i hname
      obtain ⟨before, after, hrest, hinsert⟩ := ih h
      exact ⟨(name, old) :: before, after, by simp [hrest], fun new => by
        simp [insert, hname, hinsert]⟩

/-- A value that is written again leaves nothing of the one before. -/
theorem insert_insert (new : α) :
    insert key new (insert key value entries) = insert key new entries := by
  induction entries with
  | nil => simp [insert]
  | cons entry rest ih =>
    obtain ⟨name, old⟩ := entry
    by_cases hname : name = key <;> simp [insert, hname, ih]

theorem nodup_keys_insert (h : (keys entries).Nodup) : (keys (insert key value entries)).Nodup := by
  rw [keys_insert]
  split
  · exact h
  · rename_i hkey
    exact List.nodup_append.mpr ⟨h, List.nodup_singleton _, fun name hname other hother heq =>
      hkey (List.mem_singleton.mp hother ▸ heq ▸ hname)⟩

theorem get?_adjust (key other : String) (f : α → α) (entries : List (String × α)) :
    get? other (adjust key f entries) =
      if other = key then (get? other entries).map f else get? other entries := by
  induction entries with
  | nil => simp [adjust]
  | cons entry rest ih =>
    obtain ⟨name, old⟩ := entry
    by_cases hname : name = key
    · subst hname
      by_cases hother : other = name
      · subst hother
        simp [adjust, get?_cons]
      · have hne : name ≠ other := fun e => hother e.symm
        simp [adjust, get?_cons, hother, hne]
    · by_cases hother : name = other
      · subst hother
        simp [adjust, get?_cons, hname]
      · simp [adjust, get?_cons, hname, hother, ih]

/-- **Without repetition, rewriting under a key is a map over all entries.** -/
theorem adjust_eq_map (hkeys : (keys entries).Nodup) (key : String) (f : α → α) :
    adjust key f entries =
      entries.map fun entry => (entry.1, if entry.1 = key then f entry.2 else entry.2) := by
  induction entries with
  | nil => rfl
  | cons entry rest ih =>
    obtain ⟨name, old⟩ := entry
    obtain ⟨hname, hrest⟩ := List.nodup_cons.mp hkeys
    by_cases h : name = key
    · -- The key does not come again, so the map leaves the rest as it is.
      have hid : rest.map (fun entry => (entry.1, if entry.1 = key then f entry.2 else entry.2)) =
          rest := by
        conv_rhs => rw [← List.map_id rest]
        refine List.map_congr_left fun entry hentry => ?_
        have hne : entry.1 ≠ key := fun e => hname (h ▸ e ▸ mem_keys_of_mem hentry)
        simp [hne]
      simp only [adjust, if_pos h, List.map_cons, hid]
    · simp only [adjust, if_neg h, List.map_cons, ih hrest]

/-! ## 3. Sorted tables -/

theorem lt_of_not_lt {name other : String} (hne : name ≠ other) (h : ¬ name < other) :
    other < name :=
  Classical.byContradiction fun hnot =>
    hne (String.le_antisymm (String.not_lt.mp hnot) (String.not_lt.mp h))

theorem get?_insertSorted_self : get? key (insertSorted key value entries) = some value := by
  induction entries with
  | nil => simp [insertSorted, get?_cons]
  | cons entry rest ih =>
    obtain ⟨name, old⟩ := entry
    unfold insertSorted
    split_ifs with hname hbefore
    · simp [get?_cons]
    · simp [get?_cons]
    · rw [get?_cons, if_neg (Ne.symm hname), ih]

theorem get?_insertSorted_of_ne {other : String} (h : other ≠ key) :
    get? other (insertSorted key value entries) = get? other entries := by
  induction entries with
  | nil => simp [insertSorted, get?_cons, Ne.symm h]
  | cons entry rest ih =>
    obtain ⟨name, old⟩ := entry
    unfold insertSorted
    split_ifs with hname hbefore
    · subst hname
      simp [get?_cons, Ne.symm h]
    · rw [get?_cons, if_neg (Ne.symm h)]
    · rw [get?_cons, get?_cons, ih]

theorem mem_insertSorted {entry : String × α} (h : entry ∈ insertSorted key value entries) :
    entry = (key, value) ∨ entry ∈ entries := by
  induction entries with
  | nil => exact .inl (List.mem_singleton.mp h)
  | cons first rest ih =>
    obtain ⟨name, old⟩ := first
    unfold insertSorted at h
    split_ifs at h with hname hbefore
    · exact (List.mem_cons.mp h).imp_right (List.mem_cons_of_mem _)
    · exact List.mem_cons.mp h
    · rcases List.mem_cons.mp h with rfl | hmem
      · exact .inr List.mem_cons_self
      · exact (ih hmem).imp_right (List.mem_cons_of_mem _)

/-- **Of two keys it does not matter which is written first.** -/
theorem insertSorted_comm {other : String} (hne : key ≠ other) (value' : α)
    (entries : List (String × α)) :
    insertSorted key value (insertSorted other value' entries) =
      insertSorted other value' (insertSorted key value entries) := by
  have htrans : ∀ {a b c : String}, a < b → b < c → a < c := String.lt_trans
  have hasymm : ∀ {a b : String}, a < b → ¬ b < a := fun h h' =>
    String.lt_irrefl _ (String.lt_trans h h')
  induction entries with
  | nil => grind [insertSorted, lt_of_not_lt]
  | cons entry rest ih => grind [insertSorted, lt_of_not_lt]

theorem mem_keys_insertSorted {name : String} (h : name ∈ keys (insertSorted key value entries)) :
    name = key ∨ name ∈ keys entries := by
  obtain ⟨entry, hentry, rfl⟩ := List.mem_map.mp h
  exact (mem_insertSorted hentry).imp (congrArg Prod.fst) List.mem_map_of_mem

/-- **Writing keeps the order of the keys.** -/
theorem increasing_insertSorted (h : (keys entries).Pairwise (· < ·)) :
    (keys (insertSorted key value entries)).Pairwise (· < ·) := by
  induction entries with
  | nil => exact List.pairwise_singleton _ _
  | cons entry rest ih =>
    obtain ⟨name, old⟩ := entry
    obtain ⟨hname, hrest⟩ := List.pairwise_cons.mp h
    unfold insertSorted
    split_ifs with heq hbefore
    · exact heq ▸ h
    · refine List.pairwise_cons.mpr ⟨List.forall_mem_cons.mpr ⟨hbefore, fun other hother => ?_⟩, h⟩
      exact String.lt_trans hbefore (hname other hother)
    · refine List.pairwise_cons.mpr ⟨fun other hother => ?_, ih hrest⟩
      rcases mem_keys_insertSorted hother with rfl | hmem
      · exact lt_of_not_lt heq hbefore
      · exact hname other hmem

/-- A key after all others goes last. -/
theorem insertSorted_of_forall_lt (h : ∀ name ∈ keys entries, name < key) :
    insertSorted key value entries = entries ++ [(key, value)] := by
  induction entries with
  | nil => rfl
  | cons entry rest ih =>
    obtain ⟨name, old⟩ := entry
    obtain ⟨hname, hrest⟩ := List.forall_mem_cons.mp h
    have hne : key ≠ name := fun heq => String.lt_irrefl name (heq ▸ hname)
    have hnot : ¬ key < name := fun hlt => String.lt_irrefl _ (String.lt_trans hname hlt)
    rw [insertSorted, if_neg hne, if_neg hnot, ih hrest, List.cons_append]

/-! ## 4. Sorted lists of names -/

theorem mem_insertMember {name other : String} {names : List String} :
    name ∈ insertMember other names ↔ name = other ∨ name ∈ names := by
  induction names with
  | nil => simp [insertMember]
  | cons first rest ih =>
    unfold insertMember
    split
    · rename_i hfirst
      subst hfirst
      simp
    · split
      · simp
      · rw [List.mem_cons, ih, List.mem_cons]
        tauto

/-- **Sorting loses no name and adds none.** -/
theorem mem_sortedDistinct {name : String} {names : List String} :
    name ∈ sortedDistinct names ↔ name ∈ names := by
  have hfold : ∀ sorted, name ∈ names.foldl (fun sorted name => insertMember name sorted) sorted ↔
      name ∈ sorted ∨ name ∈ names := by
    induction names with
    | nil => simp
    | cons first rest ih =>
      intro sorted
      rw [List.foldl_cons, ih, mem_insertMember, List.mem_cons]
      tauto
  simpa [sortedDistinct] using hfold []

/-- Adding a name keeps the order. -/
theorem increasing_insertMember {name : String} {names : List String}
    (h : names.Pairwise (· < ·)) : (insertMember name names).Pairwise (· < ·) := by
  induction names with
  | nil => exact List.pairwise_singleton _ _
  | cons first rest ih =>
    obtain ⟨hfirst, hrest⟩ := List.pairwise_cons.mp h
    unfold insertMember
    split
    · exact h
    · rename_i hne
      split
      · rename_i hbefore
        refine List.pairwise_cons.mpr ⟨?_, h⟩
        refine List.forall_mem_cons.mpr ⟨hbefore, fun other hother => ?_⟩
        exact String.lt_trans hbefore (hfirst other hother)
      · rename_i hafter
        have hlt : first < name := lt_of_not_lt hne hafter
        refine List.pairwise_cons.mpr ⟨fun other hother => ?_, ih hrest⟩
        rcases mem_insertMember.mp hother with rfl | hmem
        · exact hlt
        · exact hfirst other hmem

/-- **The sorted list is strictly increasing.** -/
theorem increasing_sortedDistinct (names : List String) :
    (sortedDistinct names).Pairwise (· < ·) := by
  have hfold : ∀ sorted : List String, sorted.Pairwise (· < ·) →
      (names.foldl (fun sorted name => insertMember name sorted) sorted).Pairwise (· < ·) := by
    induction names with
    | nil => exact fun _ hsorted => hsorted
    | cons first rest ih => exact fun sorted hsorted => ih _ (increasing_insertMember hsorted)
  exact hfold [] List.Pairwise.nil

/-- No name comes twice in a strictly increasing list. -/
theorem nodup_of_increasing {names : List String} (h : names.Pairwise (· < ·)) : names.Nodup := by
  have hne : ∀ {first other : String}, first < other → first ≠ other := by
    rintro first _ hlt rfl
    exact String.lt_irrefl first hlt
  exact h.imp hne

/-- Strictly increasing lists of the same names are equal. -/
theorem eq_of_increasing {names others : List String} (h : names.Pairwise (· < ·))
    (hothers : others.Pairwise (· < ·)) (hmem : ∀ name, name ∈ names ↔ name ∈ others) :
    names = others := by
  have hperm : names.Perm others :=
    (List.perm_ext_iff_of_nodup (nodup_of_increasing h) (nodup_of_increasing hothers)).mpr hmem
  refine hperm.eq_of_pairwise (fun a b _ _ hab hba => ?_) h hothers
  exact absurd (String.lt_trans hab hba) (String.lt_irrefl a)

/-- Sorting asks which names there are, not how they stand. -/
theorem sortedDistinct_congr {names others : List String}
    (h : ∀ name, name ∈ names ↔ name ∈ others) : sortedDistinct names = sortedDistinct others :=
  eq_of_increasing (increasing_sortedDistinct names) (increasing_sortedDistinct others)
    fun name => by rw [mem_sortedDistinct, mem_sortedDistinct, h]

/-- A list in order is sorted already. -/
theorem sortedDistinct_of_increasing {names : List String} (h : names.Pairwise (· < ·)) :
    sortedDistinct names = names :=
  eq_of_increasing (increasing_sortedDistinct names) h fun _ => mem_sortedDistinct

end ApiTypes.Entries
