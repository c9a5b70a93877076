import ApiTypes.Proofs.Reference

/-!
  Derived names are identifiers.

  Letters and digits are those of ASCII. What else a text holds separates its words.

  * The name of a text is an **identifier**: an upper-case letter, then letters and digits. The
    identifiers are the texts that are their own names (`ofText_eq_self_iff`).
  * The name of a path is a **path name**: words with one underscore between each two, and an
    upper-case letter first. A path of identifiers is named by them as they are.
  * The name of the target of a reference is one or the other.
-/

namespace ApiTypes.TypeName

variable {c : Char} {word : List Char} {start : Bool} {name first : String}

/-! ## 1. Words -/

/-- Letters and digits, one at least. -/
def IsWord (word : List Char) : Prop := word ≠ [] ∧ ∀ c ∈ word, c.isAlphanum = true

instance (word : List Char) : Decidable (IsWord word) :=
  decidable_of_iff ((!word.isEmpty && word.all Char.isAlphanum) = true) (by simp [IsWord])

/-- Whether an upper-case letter comes first. -/
def startsUpper (name : String) : Bool := name.toList.head?.any Char.isUpper

/-- An upper-case letter, then letters and digits. -/
def IsIdentifier (name : String) : Prop := IsWord name.toList ∧ startsUpper name = true

instance (name : String) : Decidable (IsIdentifier name) :=
  inferInstanceAs (Decidable (IsWord name.toList ∧ startsUpper name = true))

/-- Words with one underscore between each two, and an upper-case letter first. -/
def IsPathName (name : String) : Prop :=
  (∀ word ∈ name.toList.splitOn '_', IsWord word) ∧ startsUpper name = true

instance (name : String) : Decidable (IsPathName name) :=
  inferInstanceAs
    (Decidable ((∀ word ∈ name.toList.splitOn '_', IsWord word) ∧ startsUpper name = true))

theorem exists_cons_of_startsUpper (h : startsUpper name = true) :
    ∃ c rest, name.toList = c :: rest ∧ c.isUpper = true := by
  cases htext : name.toList with
  | nil => simp [startsUpper, htext] at h
  | cons c rest => exact ⟨c, rest, rfl, by simpa [startsUpper, htext] using h⟩

theorem IsWord.underscore_not_mem (h : IsWord word) : '_' ∉ word := fun hmem =>
  absurd (h.2 '_' hmem) (by decide)

/-! ## 2. Letters and digits -/

theorem isAlphanum_eq (c : Char) : c.isAlphanum = (c.isUpper || c.isLower || c.isDigit) := rfl

/-- The letters and digits are ranges of code points. -/
theorem isUpper_iff : c.isUpper = true ↔ 65 ≤ c.toNat ∧ c.toNat ≤ 90 := decide_eq_true_iff

theorem isLower_iff : c.isLower = true ↔ 97 ≤ c.toNat ∧ c.toNat ≤ 122 :=
  Bool.and_eq_true_iff.trans (and_congr decide_eq_true_iff decide_eq_true_iff)

theorem isDigit_iff : c.isDigit = true ↔ 48 ≤ c.toNat ∧ c.toNat ≤ 57 :=
  Bool.and_eq_true_iff.trans (and_congr decide_eq_true_iff decide_eq_true_iff)

/-- An upper-case letter is neither a lower-case one nor a digit. -/
theorem isUpper_apart (h : c.isUpper = true) : c.isLower = false ∧ c.isDigit = false := by
  have hupper := isUpper_iff.mp h
  simp only [← Bool.not_eq_true, isLower_iff, isDigit_iff]
  omega

/-- **A lower-case letter becomes an upper-case one**, and no other character changes. -/
theorem toUpper_cases (c : Char) :
    (c.isLower = true ∧ c.toUpper.isUpper = true) ∨ (c.isLower = false ∧ c.toUpper = c) := by
  cases hlower : c.isLower with
  | true =>
    have hrange : 'a'.val ≤ c.val ∧ c.val ≤ 'z'.val := isLower_iff.mp hlower
    obtain ⟨valid, hupper⟩ : ∃ valid, c.toUpper = ⟨c.val + ('A'.val - 'a'.val), valid⟩ :=
      ⟨_, dif_pos hrange⟩
    -- The distance of the cases is negative, so it is added modulo the size of a code point.
    have hshift : ('A'.val - 'a'.val).toNat = 2 ^ 32 - 32 := by decide
    have hcode : c.toUpper.toNat = (c.toNat + (2 ^ 32 - 32)) % 2 ^ 32 := by
      rw [hupper, ← Char.toNat_val, UInt32.toNat_add, hshift, Char.toNat_val]
    obtain ⟨hfirst, hlast⟩ := isLower_iff.mp hlower
    exact .inl ⟨rfl, isUpper_iff.mpr (by omega)⟩
  | false =>
    have hother : ¬('a'.val ≤ c.val ∧ c.val ≤ 'z'.val) := fun hrange =>
      absurd (isLower_iff.mpr hrange) (by simp [hlower])
    exact .inr ⟨rfl, dif_neg hother⟩

theorem isAlphanum_toUpper (h : c.isAlphanum = true) : c.toUpper.isAlphanum = true := by
  rcases toUpper_cases c with ⟨-, hupper⟩ | ⟨-, hsame⟩
  · rw [isAlphanum_eq, hupper]
    rfl
  · rwa [hsame]

theorem isLower_toUpper (c : Char) : c.toUpper.isLower = false := by
  rcases toUpper_cases c with ⟨-, hupper⟩ | ⟨hlower, hsame⟩
  · exact (isUpper_apart hupper).1
  · rwa [hsame]

theorem toUpper_of_isUpper (h : c.isUpper = true) : c.toUpper = c := by
  rcases toUpper_cases c with ⟨hlower, -⟩ | ⟨-, hsame⟩
  · rw [(isUpper_apart h).1] at hlower
    exact absurd hlower Bool.false_ne_true
  · exact hsame

/-! ## 3. Capitalized words -/

theorem isAlphanum_of_mem_capitalize {text : List Char} (h : c ∈ capitalize start text) :
    c.isAlphanum = true := by
  induction text generalizing start with
  | nil => exact absurd h List.not_mem_nil
  | cons d rest ih =>
    rw [capitalize] at h
    split_ifs at h with hd hstart
    · rcases List.mem_cons.mp h with rfl | hmem
      · exact isAlphanum_toUpper hd
      · exact ih hmem
    · rcases List.mem_cons.mp h with rfl | hmem
      · exact hd
      · exact ih hmem
    · exact ih h

/-- A capitalized text does not start with a lower-case letter. -/
theorem isLower_of_head?_capitalize {text : List Char}
    (h : (capitalize true text).head? = some c) : c.isLower = false := by
  induction text with
  | nil => simp [capitalize] at h
  | cons d rest ih =>
    rw [capitalize] at h
    split at h
    · obtain rfl : d.toUpper = c := by simpa using h
      exact isLower_toUpper d
    · exact ih h

/-- Within a word nothing changes. -/
theorem capitalize_false_of_isAlphanum {text : List Char}
    (h : ∀ c ∈ text, c.isAlphanum = true) : capitalize false text = text := by
  induction text with
  | nil => rfl
  | cons d rest ih =>
    obtain ⟨hd, hrest⟩ := List.forall_mem_cons.mp h
    rw [capitalize, if_pos hd, ih hrest]
    rfl

theorem isAlphanum_of_mem_pascal {text : String} (h : c ∈ (pascal text).toList) :
    c.isAlphanum = true := by
  rw [pascal, String.toList_ofList] at h
  exact isAlphanum_of_mem_capitalize h

theorem isLower_of_head?_pascal {text : String} (h : (pascal text).toList.head? = some c) :
    c.isLower = false := by
  rw [pascal, String.toList_ofList] at h
  exact isLower_of_head?_capitalize h

theorem pascal_of_isIdentifier (h : IsIdentifier name) : pascal name = name := by
  obtain ⟨c, rest, htext, hupper⟩ := exists_cons_of_startsUpper h.2
  have hword := h.1.2
  rw [htext] at hword
  obtain ⟨hc, hrest⟩ := List.forall_mem_cons.mp hword
  rw [pascal, htext, capitalize, if_pos hc, if_pos rfl, toUpper_of_isUpper hupper,
    capitalize_false_of_isAlphanum hrest, ← htext, String.ofList_toList]

/-! ## 4. Identifiers -/

theorem identifier_of_cons {rest : List Char} (h : name.toList = c :: rest) :
    identifier name = if c.isDigit then "N" ++ name else name := by
  rw [identifier, h]

theorem identifier_of_startsUpper (h : startsUpper name = true) : identifier name = name := by
  obtain ⟨c, rest, htext, hupper⟩ := exists_cons_of_startsUpper h
  rw [identifier_of_cons htext, (isUpper_apart hupper).2]
  rfl

/-- What is capitalized is made an identifier: it starts with an upper-case letter already, or with
    a digit, or it is empty. -/
theorem isIdentifier_identifier (hword : ∀ c ∈ name.toList, c.isAlphanum = true)
    (hfirst : ∀ c, name.toList.head? = some c → c.isLower = false) :
    IsIdentifier (identifier name) := by
  cases htext : name.toList with
  | nil =>
    have hempty : identifier name = "Empty" := by rw [identifier, htext]
    rw [hempty]
    decide
  | cons c rest =>
    have hc : c.isAlphanum = true := hword c (htext ▸ List.mem_cons_self)
    rw [identifier_of_cons htext]
    split_ifs with hdigit
    · have hnumbered : ("N" ++ name).toList = 'N' :: name.toList := by simp
      refine ⟨⟨by simp [hnumbered], ?_⟩, by simp [startsUpper, hnumbered]⟩
      rw [hnumbered]
      exact List.forall_mem_cons.mpr ⟨rfl, hword⟩
    · refine ⟨⟨by simp [htext], hword⟩, ?_⟩
      have hlower : c.isLower = false := hfirst c (by simp [htext])
      rw [isAlphanum_eq, hlower] at hc
      simpa [startsUpper, htext, hdigit] using hc

theorem isIdentifier_ofText (text : String) : IsIdentifier (ofText text) :=
  isIdentifier_identifier (fun _ => isAlphanum_of_mem_pascal) fun _ => isLower_of_head?_pascal

/-- **The identifiers are the texts that are their own names.** -/
theorem ofText_eq_self_iff : ofText name = name ↔ IsIdentifier name := by
  constructor
  · exact fun h => h ▸ isIdentifier_ofText name
  · intro h
    rw [ofText, pascal_of_isIdentifier h, identifier_of_startsUpper h.2]

/-! ## 5. Path names -/

theorem exists_toList_intercalate (first : String) (rest : List String) :
    ∃ others, ("_".intercalate (first :: rest)).toList = first.toList ++ others := by
  cases rest with
  | nil => exact ⟨[], by simp⟩
  | cons next rest =>
    exact ⟨'_' :: ("_".intercalate (next :: rest)).toList, by simp [String.intercalate_cons_cons]⟩

/-- Making an identifier of words changes the first word alone. -/
theorem identifier_intercalate (h : first ≠ "") (rest : List String) :
    identifier ("_".intercalate (first :: rest)) = "_".intercalate (identifier first :: rest) := by
  obtain ⟨c, more, htext⟩ : ∃ c more, first.toList = c :: more :=
    List.exists_cons_of_ne_nil (by simpa using h)
  obtain ⟨others, hjoined⟩ := exists_toList_intercalate first rest
  rw [htext, List.cons_append] at hjoined
  rw [identifier_of_cons htext, identifier_of_cons hjoined]
  split_ifs
  · exact String.toList_inj.mp (by simp)
  · rfl

/-- Words behind an identifier make a path name. -/
theorem isPathName_intercalate (hfirst : IsIdentifier first) (rest : List String)
    (hrest : ∀ word ∈ rest, IsWord word.toList) :
    IsPathName ("_".intercalate (first :: rest)) := by
  have hwords : ∀ word ∈ (first :: rest).map String.toList, IsWord word :=
    List.forall_mem_map.mpr (List.forall_mem_cons.mpr ⟨hfirst.1, hrest⟩)
  constructor
  · have hsplit : ("_".intercalate (first :: rest)).toList.splitOn '_' =
        (first :: rest).map String.toList := by
      rw [String.toList_intercalate]
      exact List.splitOn_intercalate '_' (fun word hword => (hwords word hword).underscore_not_mem)
        (by simp)
    rwa [hsplit]
  · obtain ⟨c, more, htext, hupper⟩ := exists_cons_of_startsUpper hfirst.2
    simp [startsUpper, htext, hupper]

theorem isPathName_of_isIdentifier (h : IsIdentifier name) : IsPathName name := by
  simpa using isPathName_intercalate h [] (by simp)

theorem isPathName_ofPath (path : List String) : IsPathName (ofPath path) := by
  have hparts : ∀ part ∈ (path.map pascal).filter (· ≠ ""),
      part ≠ "" ∧ ∃ text, part = pascal text := by
    intro part hpart
    obtain ⟨hmem, hne⟩ := List.mem_filter.mp hpart
    obtain ⟨text, -, rfl⟩ := List.mem_map.mp hmem
    exact ⟨by simpa using hne, text, rfl⟩
  rw [ofPath]
  cases hwords : (path.map pascal).filter (· ≠ "") with
  | nil => exact isPathName_of_isIdentifier (isIdentifier_ofText "")
  | cons first rest =>
    rw [hwords] at hparts
    obtain ⟨⟨hne, text, rfl⟩, hrest⟩ := List.forall_mem_cons.mp hparts
    rw [identifier_intercalate hne]
    refine isPathName_intercalate (isIdentifier_ofText text) rest fun word hword => ?_
    obtain ⟨hne, text, rfl⟩ := hrest word hword
    exact ⟨by simpa using hne, fun c => isAlphanum_of_mem_pascal⟩

/-- A path of identifiers is named by them as they are. -/
theorem ofPath_of_isIdentifier {path : List String} (hpath : path ≠ [])
    (h : ∀ part ∈ path, IsIdentifier part) : ofPath path = "_".intercalate path := by
  have hsame : path.map pascal = path.map id :=
    List.map_congr_left fun part hpart => pascal_of_isIdentifier (h part hpart)
  have hnonempty : path.filter (· ≠ "") = path := by
    refine List.filter_eq_self.mpr fun part hpart => ?_
    simpa using (h part hpart).1.1
  obtain ⟨first, rest, rfl⟩ := List.exists_cons_of_ne_nil hpath
  have hfirst := h first List.mem_cons_self
  rw [ofPath, hsame, List.map_id, hnonempty, identifier_intercalate (by simpa using hfirst.1.1),
    identifier_of_startsUpper hfirst.2]

theorem isPathName_ofReference (reference : String) : IsPathName (ofReference reference) := by
  rw [ofReference]
  split
  · exact isPathName_of_isIdentifier (isIdentifier_ofText _)
  · exact isPathName_ofPath _

/-- **Derived names are identifiers.** The name of a text is an identifier, and the identifiers are
    the texts that are their own names. The names of paths and of the targets of references are
    words behind an identifier; those of identifiers are the identifiers as they are, and the name
    of a component schema is that of its key. -/
theorem derived_names_are_identifiers :
    (∀ text, IsIdentifier (ofText text) ∧ ofText (ofText text) = ofText text) ∧
      (∀ path, IsPathName (ofPath path)) ∧ (∀ reference, IsPathName (ofReference reference)) ∧
      (∀ text, ofText text = text ↔ IsIdentifier text) ∧
      (∀ path, path ≠ [] → (∀ part ∈ path, IsIdentifier part) →
        ofPath path = "_".intercalate path) ∧
      ∀ key, key ≠ "" → ofReference (Reference.ofComponent "schemas" key) = ofText key := by
  refine ⟨fun text => ⟨isIdentifier_ofText text, ?again⟩, isPathName_ofPath, isPathName_ofReference,
    fun _ => ofText_eq_self_iff, fun _ => ofPath_of_isIdentifier, fun key hkey => ?component⟩
  case again => exact ofText_eq_self_iff.mpr (isIdentifier_ofText text)
  case component =>
    exact Reference.ofReference_of_schemaName? (Reference.schemaName?_ofComponent_of_ne hkey)

/-- What a leading digit and a part without letters come to. -/
example : ofPath ["2fa", "--", "a b"] = "N2fa_AB" := by rfl
example : IsPathName "N2fa_AB" ∧ ¬IsPathName "N2fa__AB" := by decide

end ApiTypes.TypeName
