import ApiTypes.Proofs.Json
import ApiTypes.Proofs.Reference
import Mathlib.Logic.Function.Basic

/-!
  What the reference of a component leads to.

  Whatever the name of a component is, its reference leads to it and gives the name back
  (`component_found_by_reference`). The kind stands in the reference as it is, so it must be a token
  already: `~` and `/` in it would be read as something else.

  A reference is only **standard** when neither the kind nor the name is empty. A component of the
  kind without a name has a reference that is not standard (`namelessKind_not_standard`).

  An element of an array is named by the digits of its index (`Json.index?_toString`).
-/

namespace ApiTypes

namespace Reference

variable {kind name : String}

/-! ## 1. Writing and reading -/

theorem escape_injective : Function.Injective escape :=
  Function.LeftInverse.injective unescape_escape

/-- A key without `~` and `/` is a token as it stands. -/
theorem escape_eq_self {key : List Char} (htilde : '~' ∉ key) (hslash : '/' ∉ key) :
    escape key = key := by
  induction key with
  | nil => rfl
  | cons c rest ih =>
    obtain ⟨hc, htilde⟩ := not_or.mp (List.mem_cons.not.mp htilde)
    obtain ⟨hd, hslash⟩ := not_or.mp (List.mem_cons.not.mp hslash)
    rw [escape_cons, escapeChar, if_neg (Ne.symm hc), if_neg (Ne.symm hd), ih htilde hslash]
    rfl

theorem escape_eq_nil {key : List Char} : escape key = [] ↔ key = [] := by
  refine ⟨fun h => ?_, congrArg escape⟩
  rw [← unescape_escape key, h]
  rfl

/-- **Two names of one kind have two references**, whatever the kind is. -/
theorem ofComponent_injective (kind : String) : Function.Injective (ofComponent kind) := by
  intro name other h
  have htokens : escape name.toList = escape other.toList := by
    have hlist := congrArg String.toList h
    simpa [ofComponent] using hlist
  exact String.toList_inj.mp (escape_injective htokens)

/-- **The reference of a component gives its name back.** -/
theorem objectName_ofComponent (hkind : IsPlain kind) (name : String) :
    objectName (ofComponent kind name) = name := by
  have hpointer : ((ofComponent kind name).toList.dropWhile (· = '#')).dropWhile (· = '/') =
      componentPointer kind name := by
    rw [toList_ofComponent hkind]
    rfl
  have htokens : tokens (ofComponent kind name) = ["components", kind, name] := by
    rw [tokens, hpointer, pointerTokens_componentPointer]
    rfl
  rw [objectName, htokens]
  rfl

theorem componentParts?_ofComponent (hslash : '/' ∉ kind.toList) (name : String) :
    componentParts? (ofComponent kind name) = some [kind.toList, escape name.toList] := by
  have htext : (ofComponent kind name).toList =
      componentsStart.toList ++ (kind.toList ++ '/' :: escape name.toList) := by
    simp [ofComponent]
  rw [componentParts?_of_toList htext, List.splitOn_append_cons_self_of_not_mem hslash,
    List.splitOn_eq_singleton (slash_not_mem_escape _)]

/-- **The reference of a component is standard when kind and name have something in them.** -/
theorem isStandard_ofComponent (hslash : '/' ∉ kind.toList) :
    isStandard (ofComponent kind name) = true ↔ kind ≠ "" ∧ name ≠ "" := by
  rw [isStandard, componentParts?_ofComponent hslash]
  simp [escape_eq_nil]

end Reference

/-! ## 2. Elements of arrays -/

namespace Json

/-- Only zero is written with a zero in front. -/
theorem head_toDigits_ne {n : Nat} (h : n ≠ 0) : (Nat.toDigits 10 n).head? ≠ some '0' := by
  induction n using Nat.strongRecOn with
  | ind n ih =>
    by_cases hlt : n < 10
    · have hdigits : ∀ n < 10, n ≠ 0 → (Nat.toDigits 10 n).head? ≠ some '0' := by decide
      exact hdigits n hlt h
    · rw [Nat.toDigits_of_base_le (by decide) (Nat.le_of_not_lt hlt), List.head?_append]
      have hrest := ih (n / 10) (by omega) (by omega)
      cases hfirst : (Nat.toDigits 10 (n / 10)).head? with
      | none => exact absurd (List.head?_eq_none_iff.mp hfirst) Nat.toDigits_ne_nil
      | some c => simpa [hfirst] using hrest

/-- **The digits of an index name that element.** -/
theorem index?_toString (n : Nat) : index? (toString n) = some n := by
  have htext : (toString n).toList = Nat.toDigits 10 n := by
    rw [Nat.toString_eq_ofList_toDigits, String.toList_ofList]
  unfold index?
  rw [htext]
  cases hdigits : Nat.toDigits 10 n with
  | nil => exact absurd hdigits Nat.toDigits_ne_nil
  | cons c rest =>
    have hall : (c :: rest).all Char.isDigit = true := by
      rw [← hdigits]
      exact List.all_eq_true.mpr fun d hd =>
        Nat.isDigit_of_mem_toDigits (by decide) (Nat.le_refl 10) hd
    have hfirst : ¬(c = '0' ∧ rest ≠ []) := by
      rintro ⟨rfl, hrest⟩
      by_cases hzero : n = 0
      · subst hzero
        simp [hrest.symm] at hdigits
      · exact head_toDigits_ne hzero (by rw [hdigits]; rfl)
    simp only [if_neg hfirst, hall, if_true]
    rw [← hdigits, Nat.ofDigitChars_ten_toDigits]

/-- An element of an array is found by its index. -/
theorem child?_toString {items : List Json} {index : Nat} {item : Json}
    (h : items[index]? = some item) : (Json.arr items).child? (toString index) = some item := by
  rw [child?, index?_toString, Option.bind_some, h]

end Json

/-! ## 3. Components of a document -/

open Reference

variable {doc : Document} {kind : String}

/-- A component stands under its kind and its name. -/
theorem Document.at?_of_mem_components (hkeys : doc.root.hasDistinctKeys = true)
    {entry : String × Json} (hentry : entry ∈ doc.components kind) :
    doc.root.at? ["components", kind, entry.1] = some entry.2 := by
  unfold Document.components at hentry
  split at hentry
  · rename_i entries hentries
    obtain ⟨components, hcomponents, hkind⟩ := Option.bind_eq_some_iff.mp hentries
    have hcollection : (Json.obj entries).hasDistinctKeys = true :=
      Json.hasDistinctKeys_of_get? (Json.hasDistinctKeys_of_get? hkeys hcomponents) hkind
    have hname : (Json.obj entries).get? entry.1 = some entry.2 :=
      Entries.get?_of_mem (Json.hasDistinctKeys_obj.mp hcollection).1 hentry
    simp [Json.at?, Json.child?_of_get? hcomponents, Json.child?_of_get? hkind,
      Json.child?_of_get? hname]
  · exact absurd hentry List.not_mem_nil

/-- **Components are found by their references, whatever they are called.** The reference of every
    component of a document leads to it and gives its name back, no two names have one reference,
    and the reference of a name that is not empty is standard, unless the kind is empty; of a schema
    it gives back the name. -/
theorem component_found_by_reference (doc : Document) (kind : String)
    (hkeys : doc.root.hasDistinctKeys = true) (htilde : '~' ∉ kind.toList)
    (hslash : '/' ∉ kind.toList) :
    (∀ entry ∈ doc.components kind,
        doc.resolve? (ofComponent kind entry.1) = some entry.2 ∧
          objectName (ofComponent kind entry.1) = entry.1) ∧
      Function.Injective (ofComponent kind) ∧
      ∀ name, name ≠ "" →
        (isStandard (ofComponent kind name) = true ↔ kind ≠ "") ∧
          schemaName? (ofComponent "schemas" name) = some name := by
  have hplain : IsPlain kind := escape_eq_self htilde hslash
  refine ⟨fun entry hentry => ⟨?_, objectName_ofComponent hplain entry.1⟩,
    ofComponent_injective kind, fun name hname => ⟨?_, schemaName?_ofComponent_of_ne hname⟩⟩
  · rw [Document.resolve?, resolve?_ofComponent hplain]
    exact Document.at?_of_mem_components hkeys hentry
  · rw [isStandard_ofComponent hslash]
    exact and_iff_left hname

/-- A document whose components have names that are written with escapes. -/
def escapedNames : Document :=
  ⟨[("components", .obj [("x-kinds", .obj [
    ("~1", .int 1), ("/", .int 2), ("~01/~", .int 3), ("", .int 4)])])]⟩

theorem component_found_by_reference_escapedNames :
    ofComponent "x-kinds" "~01/~" = "#/components/x-kinds/~001~1~0" ∧
      escapedNames.resolve? (ofComponent "x-kinds" "~01/~") = some (.int 3) ∧
      objectName (ofComponent "x-kinds" "~01/~") = "~01/~" ∧
      isStandard (ofComponent "x-kinds" "~01/~") = true ∧
      schemaName? (ofComponent "schemas" "~01/~") = some "~01/~" := by
  obtain ⟨hfound, -, hnames⟩ := component_found_by_reference escapedNames "x-kinds"
    (by decide) (by decide) (by decide)
  obtain ⟨hresolve, hname⟩ := hfound ("~01/~", .int 3)
    (List.mem_cons_of_mem _ (List.mem_cons_of_mem _ List.mem_cons_self))
  obtain ⟨hstandard, hschema⟩ := hnames "~01/~" (by decide)
  exact ⟨by decide, hresolve, hname, hstandard.mpr (by decide), hschema⟩

/-- A document with a component of the kind without a name. -/
def namelessKind : Document :=
  ⟨[("components", .obj [("", .obj [("A", .int 1)])])]⟩

/-- A component of the kind without a name is found by its reference too, but that is **no standard
    reference**. -/
theorem namelessKind_not_standard :
    ¬ ∀ (doc : Document) (kind : String), doc.root.hasDistinctKeys = true →
      '~' ∉ kind.toList → '/' ∉ kind.toList → ∀ entry ∈ doc.components kind, entry.1 ≠ "" →
        isStandard (ofComponent kind entry.1) = true := by
  intro h
  have hstandard := h namelessKind "" (by decide) (by decide) (by decide) ("A", .int 1)
    List.mem_cons_self (by decide)
  exact absurd hstandard (by decide)

end ApiTypes
