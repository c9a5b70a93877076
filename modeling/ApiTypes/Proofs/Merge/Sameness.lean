import ApiTypes.Proofs.Compile.Equality
import ApiTypes.Proofs.Compile.Merged

/-!
  Deep equality from both sides.

  `same` looks up the keys of its left side in its right side. Without repeated keys it does not
  matter which side that is (`same_comm`), and two objects are equal when they have the same keys
  and equal values under them (`same_obj_of_forall`). Values that are equal to one in the middle are
  equal, repeated keys or not (`same_trans`). Texts, truth values, integers and null are equal to
  themselves alone (`IsPlain`).
-/

namespace ApiTypes.Json

/-! ## 1. Objects by their keys -/

theorem sameMembers_iff {members others : List (String × Json)} :
    sameMembers members others = true ↔
      ∀ entry ∈ members, ∃ other, Entries.get? entry.1 others = some other ∧
        entry.2.same other = true := by
  induction members with
  | nil => simp [sameMembers]
  | cons entry rest ih =>
    obtain ⟨key, value⟩ := entry
    rw [sameMembers, Bool.and_eq_true, ih, List.forall_mem_cons]
    refine and_congr_left fun _ => ?_
    cases Entries.get? key others <;> simp

/-- **Objects are equal when they hold the same under every key.** -/
theorem same_obj_of_forall {members others : List (String × Json)}
    (hmembers : (Entries.keys members).Nodup) (hothers : (Entries.keys others).Nodup)
    (h : ∀ key, sameOption (Entries.get? key members) (Entries.get? key others) = true) :
    (Json.obj members).same (.obj others) = true := by
  have hkeys : ∀ key, key ∈ Entries.keys members ↔ key ∈ Entries.keys others := by
    intro key
    have hkey := h key
    rw [← not_iff_not, ← Entries.get?_eq_none_iff, ← Entries.get?_eq_none_iff]
    cases hvalue : Entries.get? key members <;> cases hother : Entries.get? key others <;>
      simp_all [sameOption]
  have hlength : members.length = others.length := by
    have hperm := (List.perm_ext_iff_of_nodup hmembers hothers).mpr hkeys
    simpa [Entries.keys] using hperm.length_eq
  rw [same, Bool.and_eq_true, sameMembers_iff]
  refine ⟨by simp [hlength], fun entry hentry => ?_⟩
  obtain ⟨key, value⟩ := entry
  have hkey := h key
  rw [Entries.get?_of_mem hmembers hentry] at hkey
  cases hother : Entries.get? key others with
  | none => simp [hother, sameOption] at hkey
  | some other => exact ⟨other, rfl, by simpa [hother, sameOption] using hkey⟩

/-- **The members of an equal object can be put in the same order.** -/
theorem exists_aligned {members others : List (String × Json)}
    (hmembers : (Entries.keys members).Nodup) (hothers : (Entries.keys others).Nodup)
    (h : (Json.obj members).same (.obj others) = true) :
    ∃ aligned, aligned.Perm others ∧
      List.Forall₂ (fun a b => a.1 = b.1 ∧ a.2.same b.2 = true) members aligned := by
  rw [same, Bool.and_eq_true, beq_iff_eq, sameMembers_iff] at h
  induction members generalizing others with
  | nil =>
    obtain rfl : others = [] := by simpa [eq_comm] using h.1
    exact ⟨[], .refl _, .nil⟩
  | cons entry rest ih =>
    obtain ⟨hkey, hrest⟩ := List.nodup_cons.mp hmembers
    obtain ⟨hlength, hsame⟩ := h
    obtain ⟨⟨other, hother, hvalue⟩, hsame⟩ := List.forall_mem_cons.mp hsame
    obtain ⟨before, after, rfl⟩ := List.append_of_mem (Entries.mem_of_get? hother)
    have hperm : ((entry.1, other) :: (before ++ after)).Perm
        (before ++ (entry.1, other) :: after) := List.perm_middle.symm
    have hnodup : (Entries.keys (before ++ after)).Nodup :=
      (List.nodup_cons.mp ((hperm.map Prod.fst).nodup_iff.mpr hothers)).2
    have hlength : rest.length = (before ++ after).length := by
      simp only [List.length_cons, List.length_append] at hlength ⊢
      omega
    have hsame : ∀ next ∈ rest, ∃ found, Entries.get? next.1 (before ++ after) = some found ∧
        next.2.same found = true := by
      intro next hnext
      obtain ⟨found, hfound, hequal⟩ := hsame next hnext
      have hne : entry.1 ≠ next.1 := fun heq =>
        hkey (List.mem_map.mpr ⟨next, hnext, heq.symm⟩)
      refine ⟨found, ?_, hequal⟩
      simpa [Entries.get?_append, Entries.get?_cons, hne] using hfound
    obtain ⟨aligned, haligned, hpairs⟩ := ih hrest hnodup ⟨hlength, hsame⟩
    exact ⟨(entry.1, other) :: aligned, (haligned.cons _).trans hperm, .cons ⟨rfl, hvalue⟩ hpairs⟩

theorem sameItems_iff {items others : List Json} :
    sameItems items others = true ↔ List.Forall₂ (fun a b => a.same b = true) items others := by
  induction items generalizing others with
  | nil => cases others <;> simp [sameItems]
  | cons item rest ih => cases others <;> simp [sameItems, ih]

/-! ## 2. Both sides -/

open Float.Model in
/-- Floats compare by sign, exponent and significand: those that are equal are the same number, or
    both are zeros. -/
theorem eq_or_zeros_of_beq (x y : UnpackedFloat) (h : x.beq y = true) :
    x = y ∨ ∃ sign sign', x = .zero sign ∧ y = .zero sign' := by
  have hthen : ∀ {e e' : Int} {m m' : Nat}, (compare e e').then (compare m m') = .eq →
      e = e' ∧ m = m' := by
    intro e e' m m' h
    obtain ⟨he, hm⟩ := Ordering.then_eq_eq.mp h
    exact ⟨Std.LawfulEqOrd.eq_of_compare he, Std.LawfulEqOrd.eq_of_compare hm⟩
  have h : x.compare y = some .eq := eq_of_beq h
  rcases x with sign | _ | sign | ⟨sign, m, e, hpos⟩ <;>
    rcases y with sign' | _ | sign' | ⟨sign', m', e', hpos'⟩ <;>
    (try cases sign) <;> (try cases sign') <;>
    first
    | exact .inl rfl
    | exact .inr ⟨_, _, rfl, rfl⟩
    | cases h
    | obtain ⟨rfl, rfl⟩ := hthen (Option.some.inj h)
      exact .inl rfl
    | obtain ⟨rfl, rfl⟩ := hthen (Ordering.swap_eq_eq.mp (Option.some.inj h))
      exact .inl rfl

open Float.Model in
theorem beq_symm_unpacked (x y : UnpackedFloat) (h : x.beq y = true) : y.beq x = true := by
  rcases eq_or_zeros_of_beq x y h with rfl | ⟨_, _, rfl, rfl⟩
  · exact h
  · rfl

theorem float_beq_symm {x y : Float} (h : (x == y) = true) : (y == x) = true :=
  beq_symm_unpacked _ _ h

mutual

/-- **What is equal to a value, the value is equal to.** -/
theorem same_symm : (value : Json) → ∀ other : Json, value.hasDistinctKeys = true →
    other.hasDistinctKeys = true → value.same other = true → other.same value = true
  | .null, other, _, _, h => by cases other <;> simp_all [same]
  | .bool _, other, _, _, h => by cases other <;> simp_all [same]
  | .int _, other, _, _, h => by cases other <;> simp_all [same]
  | .str _, other, _, _, h => by cases other <;> simp_all [same]
  | .float x, other, _, _, h => by
    cases other with
    | float y => exact float_beq_symm h
    | _ => simp [same] at h
  | .arr items, other, hvalue, hother, h => by
    cases other with
    | arr others => exact sameItems_symm items others hvalue hother h
    | _ => simp [same] at h
  | .obj members, other, hvalue, hother, h => by
    cases other with
    | obj others =>
      obtain ⟨hnodup, -⟩ := hasDistinctKeys_obj.mp hvalue
      obtain ⟨hnodup', hvalues⟩ := hasDistinctKeys_obj.mp hother
      have hsubset := Schema.Openness.keys_subset_of_same hnodup h
      obtain ⟨hlength, hsame⟩ := Bool.and_eq_true_iff.mp h
      rw [same, Bool.and_eq_true, sameMembers_iff]
      refine ⟨by simpa using (beq_iff_eq.mp hlength).symm, fun entry hentry => ?_⟩
      obtain ⟨key, right⟩ := entry
      -- The key is one of the value's as well, and leads to this entry from there.
      have hkey : key ∈ Entries.keys members := hsubset (Entries.mem_keys_of_mem hentry)
      obtain ⟨⟨name, left⟩, hleft, rfl⟩ := List.mem_map.mp hkey
      obtain ⟨found, hfound, hequal⟩ := sameMembers_iff.mp hsame (name, left) hleft
      obtain rfl := Option.some.inj (hfound.symm.trans (Entries.get?_of_mem hnodup' hentry))
      exact ⟨left, Entries.get?_of_mem hnodup hleft,
        members_same_symm members (Bool.and_eq_true_iff.mp hvalue).2 _ hleft found
          (hvalues _ hentry) hequal⟩
    | _ => simp [same] at h
termination_by structural value => value

theorem sameItems_symm : (items others : List Json) → itemsHaveDistinctKeys items = true →
    itemsHaveDistinctKeys others = true → sameItems items others = true →
    sameItems others items = true
  | [], others, _, _, h => by cases others <;> simp_all [sameItems]
  | item :: rest, others, hitems, hothers, h => by
    cases others with
    | nil => simp [sameItems] at h
    | cons other more =>
      obtain ⟨hitem, hrest⟩ := Bool.and_eq_true_iff.mp hitems
      obtain ⟨hother, hmore⟩ := Bool.and_eq_true_iff.mp hothers
      obtain ⟨hsame, hsames⟩ := Bool.and_eq_true_iff.mp h
      exact Bool.and_eq_true_iff.mpr
        ⟨same_symm item other hitem hother hsame, sameItems_symm rest more hrest hmore hsames⟩
termination_by structural items => items

theorem members_same_symm : (members : List (String × Json)) →
    membersHaveDistinctKeys members = true → ∀ entry ∈ members, ∀ other : Json,
      other.hasDistinctKeys = true → entry.2.same other = true → other.same entry.2 = true
  | [], _ => by simp
  | (_, value) :: rest, h => by
    obtain ⟨hvalue, hrest⟩ := Bool.and_eq_true_iff.mp h
    exact List.forall_mem_cons.mpr ⟨fun other hother => same_symm value other hvalue hother,
      members_same_symm rest hrest⟩
termination_by structural members => members

end

/-- **Without repeated keys deep equality goes both ways.** -/
theorem same_comm {value other : Json} (hvalue : value.hasDistinctKeys = true)
    (hother : other.hasDistinctKeys = true) : value.same other = other.same value :=
  Bool.eq_iff_iff.mpr ⟨same_symm value other hvalue hother, same_symm other value hother hvalue⟩

theorem sameOption_get?_comm {value other : Json} (hvalue : value.hasDistinctKeys = true)
    (hother : other.hasDistinctKeys = true) (key : String) :
    sameOption (value.get? key) (other.get? key) =
      sameOption (other.get? key) (value.get? key) := by
  cases hleft : value.get? key <;> cases hright : other.get? key <;> try rfl
  exact same_comm (hasDistinctKeys_of_get? hvalue hleft) (hasDistinctKeys_of_get? hother hright)

/-! ## 3. Three values -/

open Float.Model in
theorem beq_trans_unpacked (x y z : UnpackedFloat) (hxy : x.beq y = true) (hyz : y.beq z = true) :
    x.beq z = true := by
  rcases eq_or_zeros_of_beq x y hxy with rfl | ⟨sign, sign', rfl, rfl⟩
  · exact hyz
  · rcases eq_or_zeros_of_beq _ z hyz with rfl | ⟨_, _, _, rfl⟩ <;> rfl

theorem float_beq_trans {x y z : Float} (hxy : (x == y) = true) (hyz : (y == z) = true) :
    (x == z) = true :=
  beq_trans_unpacked _ _ _ hxy hyz

mutual

/-- **What is equal to a value is equal to what that is equal to.** -/
theorem same_trans : (value : Json) → ∀ other third : Json, value.same other = true →
    other.same third = true → value.same third = true
  | .null, other, third, h, h' => by
    cases other with
    | null => exact h'
    | _ => simp [same] at h
  | .bool x, other, third, h, h' => by
    cases other with
    | bool y => exact (show x = y from beq_iff_eq.mp h) ▸ h'
    | _ => simp [same] at h
  | .int x, other, third, h, h' => by
    cases other with
    | int y => exact (show x = y from beq_iff_eq.mp h) ▸ h'
    | _ => simp [same] at h
  | .str x, other, third, h, h' => by
    cases other with
    | str y => exact (show x = y from beq_iff_eq.mp h) ▸ h'
    | _ => simp [same] at h
  | .float x, other, third, h, h' => by
    cases other with
    | float y =>
      cases third with
      | float z => exact float_beq_trans h h'
      | _ => simp [same] at h'
    | _ => simp [same] at h
  | .arr items, other, third, h, h' => by
    cases other with
    | arr others =>
      cases third with
      | arr thirds => exact sameItems_trans items others thirds h h'
      | _ => simp [same] at h'
    | _ => simp [same] at h
  | .obj members, other, third, h, h' => by
    cases other with
    | obj others =>
      cases third with
      | obj thirds =>
        obtain ⟨hlength, hsame⟩ := Bool.and_eq_true_iff.mp h
        obtain ⟨hlength', hsame'⟩ := Bool.and_eq_true_iff.mp h'
        rw [same, Bool.and_eq_true]
        refine ⟨beq_iff_eq.mpr ((beq_iff_eq.mp hlength).trans (beq_iff_eq.mp hlength')), ?_⟩
        exact sameMembers_trans members others thirds hsame hsame'
      | _ => simp [same] at h'
    | _ => simp [same] at h
termination_by structural value => value

theorem sameItems_trans : (items others thirds : List Json) → sameItems items others = true →
    sameItems others thirds = true → sameItems items thirds = true
  | [], others, thirds, h, h' => by cases others <;> simp_all [sameItems]
  | item :: rest, others, thirds, h, h' => by
    cases others with
    | nil => simp [sameItems] at h
    | cons other more =>
      cases thirds with
      | nil => simp [sameItems] at h'
      | cons third last =>
        obtain ⟨hitem, hrest⟩ := Bool.and_eq_true_iff.mp h
        obtain ⟨hother, hmore⟩ := Bool.and_eq_true_iff.mp h'
        exact Bool.and_eq_true_iff.mpr
          ⟨same_trans item other third hitem hother, sameItems_trans rest more last hrest hmore⟩
termination_by structural items => items

theorem sameMembers_trans : (members others thirds : List (String × Json)) →
    sameMembers members others = true → sameMembers others thirds = true →
    sameMembers members thirds = true
  | [], _, _, _, _ => rfl
  | (key, value) :: rest, others, thirds, h, h' => by
    obtain ⟨hvalue, hrest⟩ := Bool.and_eq_true_iff.mp h
    refine Bool.and_eq_true_iff.mpr ⟨?_, sameMembers_trans rest others thirds hrest h'⟩
    cases hother : Entries.get? key others with
    | none => simp [hother] at hvalue
    | some other =>
      obtain ⟨third, hthird, hsame⟩ :=
        sameMembers_iff.mp h' (key, other) (Entries.mem_of_get? hother)
      rw [hother] at hvalue
      rw [hthird]
      exact same_trans value other third hvalue hsame
termination_by structural members => members

end

/-! ## 4. Readable values -/

theorem membersHaveNumbers_iff {members : List (String × Json)} :
    membersHaveNumbers members = true ↔ ∀ entry ∈ members, entry.2.hasNumbers = true := by
  induction members with
  | nil => simp [membersHaveNumbers]
  | cons entry rest ih => simp [membersHaveNumbers, ih]

theorem isReadable_arr {items : List Json} :
    (Json.arr items).IsReadable ↔ ∀ item ∈ items, item.IsReadable := by
  have hnumbers : itemsHaveNumbers items = true ↔ ∀ item ∈ items, item.hasNumbers = true := by
    induction items with
    | nil => simp [itemsHaveNumbers]
    | cons item rest ih => simp [itemsHaveNumbers, ih]
  constructor
  · rintro ⟨hkeys, hnumber⟩ item hitem
    exact ⟨itemsHaveDistinctKeys_iff.mp hkeys item hitem, hnumbers.mp hnumber item hitem⟩
  · intro h
    exact ⟨itemsHaveDistinctKeys_iff.mpr fun item hitem => (h item hitem).keys,
      hnumbers.mpr fun item hitem => (h item hitem).numbers⟩

/-- What a readable object holds is readable. -/
theorem IsReadable.get? {key : String} {members : List (String × Json)} {value : Json}
    (h : (Json.obj members).IsReadable) (hvalue : Entries.get? key members = some value) :
    value.IsReadable where
  keys := (hasDistinctKeys_obj.mp h.keys).2 _ (Entries.mem_of_get? hvalue)
  numbers := membersHaveNumbers_iff.mp h.numbers _ (Entries.mem_of_get? hvalue)

theorem IsReadable.nodup {members : List (String × Json)} (h : (Json.obj members).IsReadable) :
    (Entries.keys members).Nodup :=
  (hasDistinctKeys_obj.mp h.keys).1

/-! ## 5. Plain values -/

/-- A value that nothing but itself is equal to. -/
def IsPlain (value : Json) : Prop := ∀ other : Json, value.same other = true → other = value

theorem isPlain_null : IsPlain .null := fun other h => by cases other <;> simp_all [same]

theorem isPlain_bool (b : Bool) : IsPlain (.bool b) := fun other h => by
  cases other <;> simp_all [same]

theorem isPlain_int (n : Int) : IsPlain (.int n) := fun other h => by
  cases other <;> simp_all [same]

theorem isPlain_str (s : String) : IsPlain (.str s) := fun other h => by
  cases other <;> simp_all [same]

theorem isPlain_arr {items : List Json} (h : ∀ item ∈ items, IsPlain item) :
    IsPlain (.arr items) := by
  intro other hsame
  cases other with
  | arr others =>
    have hpairs : List.Forall₂ (fun a b => a.same b = true) items others := sameItems_iff.mp hsame
    congr 1
    induction hpairs with
    | nil => rfl
    | cons hfirst _ ih =>
      obtain ⟨hitem, hrest⟩ := List.forall_mem_cons.mp h
      rw [hitem _ hfirst, ih hrest (by simpa [same, sameItems_iff])]
  | _ => simp [same] at hsame

theorem isPlain_single {key : String} {value : Json} (h : IsPlain value) :
    IsPlain (.obj [(key, value)]) := by
  intro other hsame
  match other with
  | .obj [(name, found)] =>
    simp only [same, sameMembers, Entries.get?_cons] at hsame
    by_cases hname : name = key
    · subst hname
      rw [h found (by simpa using hsame)]
    · simp [hname] at hsame
  | .obj [] | .obj (_ :: _ :: _) => simp [same] at hsame
  | .null | .bool _ | .int _ | .float _ | .str _ | .arr _ => simp [same] at hsame

end ApiTypes.Json
