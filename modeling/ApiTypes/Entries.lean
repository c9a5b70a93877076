/-!
  Maps as lists of entries.

  Documents show the order of their keys, so a map is the list of its entries and the order is
  part of the value. Two kinds of map occur.

  * **Order of arrival** (`get?`, `insert`, `erase`): a key that is written again keeps its place
    and takes the new value, a new key goes last, and an erased key leaves the others as they are.
  * **Order of keys** (`insertSorted`, `insertMember`): tables and sets whose keys the program
    chooses itself are kept sorted by code point.
-/

namespace ApiTypes.Entries

variable {α : Type}

/-! ## 1. Order of arrival -/

/-- The value of the first entry with this key. -/
def get? (key : String) : List (String × α) → Option α
  | [] => none
  | (name, value) :: rest => if name = key then some value else get? key rest

/-- Whether some entry has this key. -/
def contains (key : String) (entries : List (String × α)) : Bool :=
  (get? key entries).isSome

/-- Writes a value: in place when the key is there, at the end when it is new. -/
def insert (key : String) (value : α) : List (String × α) → List (String × α)
  | [] => [(key, value)]
  | (name, old) :: rest =>
    if name = key then (name, value) :: rest else (name, old) :: insert key value rest

/-- Every entry but those with this key, in order. -/
def erase (key : String) (entries : List (String × α)) : List (String × α) :=
  entries.filter (·.1 ≠ key)

/-- Rewrites the value under one key and keeps its place; a missing key changes nothing. -/
def adjust (key : String) (f : α → α) : List (String × α) → List (String × α)
  | [] => []
  | (name, value) :: rest =>
    if name = key then (name, f value) :: rest else (name, value) :: adjust key f rest

/-- The keys in order. -/
def keys (entries : List (String × α)) : List String := entries.map (·.1)

/-- The values in order. -/
def values (entries : List (String × α)) : List α := entries.map (·.2)

theorem get?_insert_self (key : String) (value : α) (entries : List (String × α)) :
    get? key (insert key value entries) = some value := by
  induction entries with
  | nil => simp [insert, get?]
  | cons entry rest ih =>
    obtain ⟨name, old⟩ := entry
    by_cases h : name = key <;> simp [insert, get?, h, ih]

theorem get?_insert_of_ne {key other : String} (h : other ≠ key) (value : α)
    (entries : List (String × α)) : get? other (insert key value entries) = get? other entries := by
  induction entries with
  | nil => simp [insert, get?, h.symm]
  | cons entry rest ih =>
    obtain ⟨name, old⟩ := entry
    by_cases hn : name = key
    · subst hn
      simp [insert, get?, h.symm]
    · simp [insert, get?, hn, ih]

theorem get?_erase_self (key : String) (entries : List (String × α)) :
    get? key (erase key entries) = none := by
  induction entries with
  | nil => rfl
  | cons entry rest ih =>
    obtain ⟨name, old⟩ := entry
    by_cases h : name = key
    · simpa [erase, h] using ih
    · simpa [erase, get?, h] using ih

/-! ## 2. Order of keys -/

/-- Writes a value into a table sorted by key; a key that is there takes the new value. -/
def insertSorted (key : String) (value : α) : List (String × α) → List (String × α)
  | [] => [(key, value)]
  | (name, old) :: rest =>
    if key = name then (key, value) :: rest
    else if key < name then (key, value) :: (name, old) :: rest
    else (name, old) :: insertSorted key value rest

/-- Adds a name to a sorted list without repetition. -/
def insertMember (name : String) : List String → List String
  | [] => [name]
  | first :: rest =>
    if name = first then first :: rest
    else if name < first then name :: first :: rest
    else first :: insertMember name rest

/-- The sorted list of the distinct names among these. -/
def sortedDistinct (names : List String) : List String :=
  names.foldl (fun sorted name => insertMember name sorted) []

end ApiTypes.Entries
