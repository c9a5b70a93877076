import ApiTypes.TypeName
import Mathlib.Data.Finset.Card
import Mathlib.Data.List.Dedup
import Mathlib.Data.List.Nodup
import Mathlib.Data.List.Perm.Subperm

/-!
  Free names are free, and the first ones of their order.

  The names that one suffix gives with the numbers of different rounds are different, so a list of
  `n` taken names does not hold those of `n + 1` rounds: **the search ends with a name that is not
  taken** (`fresh_not_mem`). `candidates` lists the names in the order in which they are tried, and
  **every name before the one that is given is taken** (`fresh_is_first_free`). Without suffixes it
  is the base, or the base with a number (`NamedFrom`).
-/

namespace ApiTypes.TypeName

/-! ## 1. A name is left over -/

theorem triedSuffixes_ne_nil (suffixes : List String) : triedSuffixes suffixes ≠ [] := by
  unfold triedSuffixes
  split
  · simp
  · simp_all

/-- The number of a round can be read off its names. -/
theorem numbered_inj {base suffix : String} {i j : Nat}
    (h : base ++ suffix ++ toString i = base ++ suffix ++ toString j) : i = j := by
  have hdigits : Nat.toDigits 10 i = Nat.toDigits 10 j := by
    have htexts := congrArg String.toList ((String.append_right_inj _).mp h)
    simpa only [Nat.toString_eq_repr, Nat.toList_repr] using htexts
  have hvalues := congrArg (Nat.ofDigitChars 10 · 0) hdigits
  simpa only [Nat.ofDigitChars_toDigits (by decide : 1 < 10) (by decide)] using hvalues

/-- **As many rounds as there are taken names leave a name over.** -/
theorem exists_numbered_not_mem (taken : List String) (base suffix : String) :
    ∃ round < taken.length + 1, base ++ suffix ++ toString (round + 1) ∉ taken := by
  by_contra hall
  push Not at hall
  let names := (List.range (taken.length + 1)).map fun round =>
    base ++ suffix ++ toString (round + 1)
  have hnodup : names.Nodup :=
    List.nodup_range.map fun i j h => Nat.succ.inj (numbered_inj h)
  have hsubset : names ⊆ taken := by
    intro name hname
    obtain ⟨round, hround, rfl⟩ := List.mem_map.mp hname
    exact hall round (List.mem_range.mp hround)
  have hlength := (List.subperm_of_subset hnodup hsubset).length_le
  simp only [names, List.length_map, List.length_range] at hlength
  omega

/-- **The name that is given is not taken.** -/
theorem fresh_not_mem (taken : List String) (base : String) (suffixes : List String) :
    fresh taken base suffixes ∉ taken := by
  unfold fresh
  dsimp only
  split
  · rename_i hfree
    simpa using hfree
  split
  · rename_i name hfound
    simpa using List.find?_some hfound
  split
  · rename_i name hfound
    obtain ⟨round, -, hround⟩ := List.exists_of_findSome?_eq_some hfound
    simpa using List.find?_some hround
  · -- Otherwise the names of the first suffix are taken in every round.
    rename_i hnone
    obtain ⟨suffix, rest, hsuffixes⟩ := List.exists_cons_of_ne_nil (triedSuffixes_ne_nil suffixes)
    obtain ⟨round, hround, hfree⟩ := exists_numbered_not_mem taken base suffix
    have hrounds := List.findSome?_eq_none_iff.mp hnone round (List.mem_range.mpr hround)
    have hname : base ++ suffix ++ toString (round + 1) ∈
        numbered base (triedSuffixes suffixes) (round + 1) :=
      List.mem_map.mpr ⟨suffix, hsuffixes ▸ List.mem_cons_self, rfl⟩
    have htaken := List.find?_eq_none.mp hrounds _ hname
    simp only [Bool.not_eq_true', Bool.not_eq_false, List.contains_iff_mem] at htaken
    exact absurd htaken hfree

/-! ## 2. The order of the search -/

/-- The names in the order in which they are tried, as far as so many numbered rounds: the base,
    the base with each suffix, and in each round the base with each suffix and the number. -/
def candidates (base : String) (suffixes : List String) (rounds : Nat) : List String :=
  base :: (triedSuffixes suffixes).map (base ++ ·) ++
    (List.range rounds).flatMap fun round => numbered base (triedSuffixes suffixes) (round + 1)

/-- More rounds only go on. -/
theorem candidates_go_on (base : String) (suffixes : List String) {rounds more : Nat}
    (h : rounds ≤ more) : candidates base suffixes rounds <+: candidates base suffixes more := by
  obtain ⟨others, rfl⟩ := Nat.exists_eq_add_of_le h
  refine (List.prefix_append_right_inj _).mpr ?_
  rw [List.range_add, List.flatMap_append]
  exact List.prefix_append _ _

/-- **The search goes through the names in their order.** -/
theorem fresh_eq_find? (taken : List String) (base : String) (suffixes : List String) :
    fresh taken base suffixes =
      ((candidates base suffixes (taken.length + 1)).find? fun name => !taken.contains name).getD
        base := by
  unfold fresh candidates
  rw [List.find?_append, List.find?_cons, List.find?_flatMap]
  dsimp only
  by_cases hbase : taken.contains base = true
  · simp only [hbase, Bool.not_true, Bool.false_eq_true, if_false]
    cases ((triedSuffixes suffixes).map (base ++ ·)).find? fun name => !taken.contains name with
    | some name => rfl
    | none =>
      dsimp only
      rw [Option.none_or]
      generalize List.findSome? _ _ = found
      cases found <;> rfl
  · simp only [hbase, Bool.not_false, if_true, Option.some_or, Option.getD_some]

/-- Some name of the rounds is free, where there is one round more than there are taken names. -/
theorem exists_candidate_not_mem (taken : List String) (base : String) (suffixes : List String) :
    ∃ name ∈ candidates base suffixes (taken.toFinset.card + 1), name ∉ taken := by
  obtain ⟨suffix, rest, hsuffixes⟩ := List.exists_cons_of_ne_nil (triedSuffixes_ne_nil suffixes)
  obtain ⟨round, hround, hfree⟩ := exists_numbered_not_mem taken.dedup base suffix
  rw [← List.card_toFinset] at hround
  refine ⟨_, ?_, fun hmem => hfree (List.mem_dedup.mpr hmem)⟩
  refine List.mem_append_right _ (List.mem_flatMap.mpr ⟨round, List.mem_range.mpr hround, ?_⟩)
  exact List.mem_map.mpr ⟨suffix, hsuffixes ▸ List.mem_cons_self, rfl⟩

/-- **The name that is given is the first free one.** Every name that is tried before it is taken,
    and it comes within one numbered round more than there are taken names. -/
theorem fresh_is_first_free (taken : List String) (base : String) (suffixes : List String) :
    fresh taken base suffixes ∉ taken ∧ ∃ before after,
      candidates base suffixes (taken.toFinset.card + 1) =
        before ++ fresh taken base suffixes :: after ∧ ∀ name ∈ before, name ∈ taken := by
  let isFree (name : String) : Bool := !taken.contains name
  obtain ⟨free, hmem, hfree⟩ := exists_candidate_not_mem taken base suffixes
  obtain ⟨name, hname⟩ : ∃ name,
      (candidates base suffixes (taken.toFinset.card + 1)).find? isFree = some name :=
    Option.isSome_iff_exists.mp (List.find?_isSome.mpr ⟨free, hmem, by simpa [isFree] using hfree⟩)
  have hfresh : fresh taken base suffixes = name := by
    -- With repeated names the search may go further, but it has ended before that.
    have hrounds := Nat.succ_le_succ (List.toFinset_card_le taken)
    have hlonger := (candidates_go_on base suffixes hrounds).find?_eq_some hname
    rw [fresh_eq_find?, hlonger, Option.getD_some]
  obtain ⟨hnot, before, after, hsplit, hbefore⟩ := List.find?_eq_some_iff_append.mp hname
  rw [hfresh]
  refine ⟨by simpa [isFree] using hnot, before, after, hsplit, fun earlier hearlier => ?_⟩
  simpa [isFree] using hbefore earlier hearlier

/-- A suffix may end in a digit, so that two rounds try one name: `A1` here. -/
example : fresh ["A", "A1", "A11"] "A" ["1", ""] = "A12" := by rfl

/-! ## 3. Names without suffixes -/

/-- A name that is made of a base beside names that are taken. -/
inductive NamedFrom (taken : List String) (base : String) : String → Prop where
  /-- The base itself, where it is free. -/
  | base (h : base ∉ taken) : NamedFrom taken base base
  /-- The base with the first number, from 1 on, that makes it free. -/
  | numbered (round : Nat) (hbase : base ∈ taken) (h : base ++ toString (round + 1) ∉ taken)
    (hbefore : ∀ earlier < round, base ++ toString (earlier + 1) ∈ taken) :
    NamedFrom taken base (base ++ toString (round + 1))

theorem candidates_nil (base : String) (rounds : Nat) :
    candidates base [] rounds =
      base :: base :: (List.range rounds).map fun round => base ++ toString (round + 1) := by
  simp [candidates, triedSuffixes, numbered, List.map_eq_flatMap]

/-- **Without suffixes the name is the base, or else the base with the first number.** -/
theorem namedFrom_fresh (taken : List String) (base : String) :
    NamedFrom taken base (fresh taken base []) := by
  let isFree (name : String) : Bool := !taken.contains name
  have hfree := fresh_not_mem taken base []
  have hfind : fresh taken base [] =
      ((candidates base [] (taken.length + 1)).find? isFree).getD base :=
    fresh_eq_find? taken base []
  rw [candidates_nil] at hfind
  by_cases hbase : base ∈ taken
  · have htaken : ¬isFree base = true := by simpa [isFree] using hbase
    rw [List.find?_cons_of_neg htaken, List.find?_cons_of_neg htaken, List.find?_map] at hfind
    cases hround : (List.range (taken.length + 1)).find?
        (isFree ∘ fun round => base ++ toString (round + 1)) with
    | none =>
      rw [hfind, hround] at hfree
      exact absurd hbase hfree
    | some round =>
      rw [hround] at hfind
      obtain ⟨hname, -, hbefore⟩ := List.find?_range_eq_some.mp hround
      rw [hfind]
      exact .numbered round hbase (by simpa [isFree] using hname) (by simpa [isFree] using hbefore)
  · rw [List.find?_cons_of_pos (by simpa [isFree] using hbase)] at hfind
    rw [hfind]
    exact .base hbase

end ApiTypes.TypeName
