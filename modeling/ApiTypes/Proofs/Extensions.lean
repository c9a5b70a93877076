import ApiTypes.Compile.Session
import ApiTypes.Proofs.Compile.Cleaned
import ApiTypes.Proofs.Decode
import Mathlib.Data.List.Find

/-!
  What extensions say, and what is refused.

  Each extension has a rule (`Extensions.rules`): the key that it goes by, and the values that fit.
  The settings of sensitive data have rules of their own.

  * **The extensions of a node are read when each fits its rule** (`ofNode_ok_iff`), and the first
    that does not is the one reported (`ofNode_error_iff`).
  * **One by one and all at once are the same** (`ofNode_eq_ok_iff`), so an object whose extensions
    were read one by one is never refused as a whole.
  * **Only the values under the keys that are understood count** (`ofNode_of_same`), in whatever
    order they stand.
  * **What was read can be written and read again** (`ofNode_toJson`). Tags are kept in the order
    of their keys and counts below their limit, so nothing is lost between.
-/

namespace ApiTypes

open Decode (Rule NullOr IsText IsTruth IsNatBelow IsChoice IsTextTable IsTextList RecordFits)

instance : Nonempty SensitiveData := ⟨{}⟩

instance : Nonempty Extensions := ⟨{}⟩

/-! ## 1. Members that are there when their values are -/

namespace Extensions

variable {α β σ : Type} {fields : List (Decode.Field σ)} {names : List String} {decode : Decode β}
  {set : σ → β → σ} {left : List (String × Json)} {defaults s t : σ}

/-- **A member that may be missing says `b`** when its value is there and reads as `b`, and when it
    is not there and `b` is known already. -/
theorem readNext (key : String) (write : α → Json) (value : Option α) (b : β)
    (hleft : left.foldlM (Decode.readEntry fields) defaults = .ok s)
    (hcalled : Decode.called fields key = some (Decode.field names decode set))
    (hset : set s b = t) (hsome : ∀ a, value = some a → decode (write a) = .ok b)
    (hnone : value = none → s = t) :
    (left ++ member key write value).foldlM (Decode.readEntry fields) defaults = .ok t := by
  rw [List.foldlM_append, hleft]
  cases value with
  | none => exact congrArg Except.ok (hnone rfl)
  | some a =>
    have hread : Decode.readEntry fields s (key, write a) = .ok t := by
      rw [Decode.readEntry, hcalled]
      exact Decode.field_read_eq_ok.mpr ⟨b, hsome a rfl, hset⟩
    change (do List.foldlM _ (← Decode.readEntry fields s (key, write a)) []) = _
    rw [hread]
    rfl

/-- A list that is left out when it is empty. -/
theorem readNextList {ι : Type} {decode : Decode (List ι)} {set : σ → List ι → σ} (key : String)
    (write : List ι → Json) (items : List ι)
    (hleft : left.foldlM (Decode.readEntry fields) defaults = .ok s)
    (hcalled : Decode.called fields key = some (Decode.field names decode set))
    (hset : set s items = t) (hitems : decode (write items) = .ok items)
    (hempty : items = [] → s = t) :
    (left ++ member key write (if items.isEmpty then none else some items)).foldlM
      (Decode.readEntry fields) defaults = .ok t := by
  refine readNext key write _ items hleft hcalled hset (fun found hfound => ?_) fun hnone => ?_
  · obtain ⟨-, rfl⟩ : items ≠ [] ∧ items = found := by simpa using hfound
    exact hitems
  · exact hempty (by simpa using hnone)

theorem keys_member_sublist (key : String) (write : α → Json) (value : Option α) :
    (Entries.keys (member key write value)).Sublist [key] := by
  cases value <;> simp [member, Entries.keys]

end Extensions

/-! ## 2. Sensitive data -/

namespace SensitiveData

/-- What may be said of sensitive data. -/
def rules : List Rule :=
  [⟨["mask", "type"], IsChoice MaskKind.choices⟩, ⟨["pattern"], NullOr IsText⟩,
   ⟨["algorithm"], NullOr IsText⟩,
   ⟨["keep-start", "keepStart"], NullOr (IsNatBelow (Nat.pow 2 32))⟩,
   ⟨["keep-end", "keepEnd"], NullOr (IsNatBelow (Nat.pow 2 32))⟩]

theorem rules_describe : List.Forall₂ Rule.Describes fields rules := by
  have htext := Decode.accepts_optional Decode.accepts_text
  have hcount := Decode.accepts_optional (Decode.accepts_natBelow (Nat.pow 2 32) "u32")
  exact .cons (Decode.describes_field (Decode.accepts_choice _)) <|
    .cons (Decode.describes_field htext) <| .cons (Decode.describes_field htext) <|
    .cons (Decode.describes_field hcount) <| .cons (Decode.describes_field hcount) .nil

theorem fields_steady : ∀ f ∈ fields, f.Steady := by
  simp [fields, Decode.field_steady]

theorem fields_separate : Decode.Separate fields where
  own := by simp [fields, Decode.field, Decode.Field.name]
  disjoint := by simp [fields, Decode.field]

theorem fields_commute : fields.Pairwise Decode.Field.Commutes := by
  simp only [fields, List.pairwise_cons, List.forall_mem_cons]
  and_intros
  all_goals first
    | exact Decode.field_commutes fun _ _ _ => rfl
    | simp

theorem fields_respect : ∀ f ∈ fields, f.Respects := by
  simp only [fields, List.forall_mem_cons]
  have htext := Decode.respects_optional Decode.respects_text
  have hcount := Decode.respects_optional (Decode.respects_natBelow (Nat.pow 2 32) "u32")
  exact ⟨Decode.field_respects (Decode.respects_choice _), Decode.field_respects htext,
    Decode.field_respects htext, Decode.field_respects hcount, Decode.field_respects hcount,
    by simp⟩

theorem accepts_decode : Decode.Accepts decode (RecordFits rules) :=
  Decode.accepts_record rules_describe fields_separate fields_steady

theorem respects_decode : Decode.Respects decode :=
  Decode.respects_record fields_commute fields_respect

/-- The counts are those that can be written. -/
structure InRange (s : SensitiveData) : Prop where
  keepStart : ∀ n ∈ s.keepStart, n < Nat.pow 2 32
  keepEnd : ∀ n ∈ s.keepEnd, n < Nat.pow 2 32

theorem inRange_of_decode {value : Json} {s : SensitiveData} (h : decode value = .ok s) :
    s.InRange := by
  have hcount : ∀ {value : Json} {count : Option Nat},
      Decode.optional (Decode.natBelow (Nat.pow 2 32) "u32") value = .ok count →
        ∀ n ∈ count, n < Nat.pow 2 32 := by
    intro value count hok n hn
    rcases Decode.optional_eq_ok_iff.mp hok with ⟨-, rfl⟩ | ⟨-, m, hm, rfl⟩
    · cases hn
    · exact Option.some.inj hn ▸ (Decode.natBelow_eq_ok_iff.mp hm).2
  refine Decode.keeps_record (P := InRange) ⟨by simp, by simp⟩ ?_ h
  simp only [fields, List.forall_mem_cons]
  exact ⟨Decode.field_keeps fun _ _ _ hs _ => ⟨hs.keepStart, hs.keepEnd⟩,
    Decode.field_keeps fun _ _ _ hs _ => ⟨hs.keepStart, hs.keepEnd⟩,
    Decode.field_keeps fun _ _ _ hs _ => ⟨hs.keepStart, hs.keepEnd⟩,
    Decode.field_keeps fun _ _ _ hs hok => ⟨hcount hok, hs.keepEnd⟩,
    Decode.field_keeps fun _ _ _ hs hok => ⟨hs.keepStart, hcount hok⟩, by simp⟩

/-- **What is written of sensitive data reads back.** -/
theorem decode_sensitiveJson {s : SensitiveData} (h : s.InRange) :
    decode (Extensions.sensitiveJson s) = .ok s := by
  obtain ⟨mask, pattern, algorithm, keepStart, keepEnd⟩ := s
  have hcount : ∀ {n : Nat}, n < Nat.pow 2 32 →
      Decode.optional (Decode.natBelow (Nat.pow 2 32) "u32") (Extensions.nat n) =
        .ok (some n) := fun hn =>
    Decode.optional_eq_ok_iff.mpr (.inr ⟨by simp [Extensions.nat], _,
      Decode.natBelow_eq_ok_iff.mpr ⟨rfl, hn⟩, rfl⟩)
  have hmask : [("mask", Json.str mask.name)].foldlM (Decode.readEntry fields) {} =
      .ok { mask } := by cases mask <;> rfl
  have hpattern := Extensions.readNext (t := { mask, pattern }) "pattern" .str pattern pattern
    hmask rfl rfl (by rintro a rfl; rfl) (by rintro rfl; rfl)
  have halgorithm := Extensions.readNext (t := { mask, pattern, algorithm }) "algorithm" .str
    algorithm algorithm hpattern rfl rfl (by rintro a rfl; rfl) (by rintro rfl; rfl)
  have hstart := Extensions.readNext (t := { mask, pattern, algorithm, keepStart }) "keep-start"
    Extensions.nat keepStart keepStart halgorithm rfl rfl
    (by rintro n rfl; exact hcount (h.keepStart n rfl)) (by rintro rfl; rfl)
  have hend := Extensions.readNext (t := { mask, pattern, algorithm, keepStart, keepEnd })
    "keep-end" Extensions.nat keepEnd keepEnd hstart rfl rfl
    (by rintro n rfl; exact hcount (h.keepEnd n rfl)) (by rintro rfl; rfl)
  refine (Decode.members_eq_foldlM_of_sublist fields_separate ?_).trans hend
  simp only [Entries.keys, List.map_append]
  exact ((((List.Sublist.refl ["mask"]).append
    (Extensions.keys_member_sublist "pattern" .str pattern)).append
    (Extensions.keys_member_sublist "algorithm" .str algorithm)).append
    (Extensions.keys_member_sublist "keep-start" Extensions.nat keepStart)).append
    (Extensions.keys_member_sublist "keep-end" Extensions.nat keepEnd)

end SensitiveData

namespace Extensions

/-! ## 3. Which extensions fit -/

/-- What may be said by extensions. -/
def rules : List Rule :=
  [⟨["x-type-override"], NullOr IsText⟩, ⟨["x-type-name"], NullOr IsText⟩,
   ⟨["x-skip-optional-wrapper"], NullOr IsTruth⟩, ⟨["x-omitempty"], NullOr IsTruth⟩,
   ⟨["x-json-ignore"], NullOr IsTruth⟩, ⟨["x-deprecated-reason"], NullOr IsText⟩,
   ⟨["x-extra-tags"], IsTextTable⟩,
   ⟨["x-sensitive-data"], NullOr (RecordFits SensitiveData.rules)⟩,
   ⟨["x-enum-names"], IsTextList⟩]

/-- The value of a member fits its key. -/
def WellFormed (entry : String × Json) : Prop :=
  ∃ rule ∈ rules, entry.1 ∈ rule.names ∧ rule.Fits entry.2

theorem rules_describe : List.Forall₂ Rule.Describes fields rules := by
  have htext := Decode.accepts_optional Decode.accepts_text
  have hflag := Decode.accepts_flag
  have hsensitive := Decode.accepts_optional SensitiveData.accepts_decode
  exact .cons (Decode.describes_field htext) <| .cons (Decode.describes_field htext) <|
    .cons (Decode.describes_field hflag) <| .cons (Decode.describes_field hflag) <|
    .cons (Decode.describes_field hflag) <| .cons (Decode.describes_field htext) <|
    .cons (Decode.describes_field Decode.accepts_textTable) <|
    .cons (Decode.describes_field hsensitive) <|
    .cons (Decode.describes_field Decode.accepts_list_text) .nil

theorem fields_steady : ∀ f ∈ fields, f.Steady := by
  simp [fields, Decode.field_steady]

theorem fields_separate : Decode.Separate fields where
  own := by simp [fields, Decode.field, Decode.Field.name]
  disjoint := by simp [fields, Decode.field]

theorem fields_commute : fields.Pairwise Decode.Field.Commutes := by
  simp only [fields, List.pairwise_cons, List.forall_mem_cons]
  and_intros
  all_goals first
    | exact Decode.field_commutes fun _ _ _ => rfl
    | simp

theorem fields_respect : ∀ f ∈ fields, f.Respects := by
  simp only [fields, List.forall_mem_cons]
  have htext := Decode.respects_optional Decode.respects_text
  have hflag := Decode.respects_flag
  have hsensitive := Decode.respects_optional SensitiveData.respects_decode
  exact ⟨Decode.field_respects htext, Decode.field_respects htext, Decode.field_respects hflag,
    Decode.field_respects hflag, Decode.field_respects hflag, Decode.field_respects htext,
    Decode.field_respects Decode.respects_textTable, Decode.field_respects hsensitive,
    Decode.field_respects Decode.respects_list_text, by simp⟩

/-! ## 4. One by one and all at once -/

/-- The members of a node whose keys are understood, in the order of the document. -/
def understood (node : Json) : List (String × Json) :=
  (node.members?.getD []).filter fun entry => recognized.contains entry.1

/-- Reads all the extensions of an object at once. -/
def together : Decode Extensions :=
  Decode.record "struct SchemaExtensions" false fields {}

theorem respects_together : Decode.Respects together :=
  Decode.respects_record fields_commute fields_respect

theorem names_eq_own : ∀ f ∈ fields, f.names = [f.name] := by
  simp [fields, Decode.field, Decode.Field.name]

theorem name_of_called {f : Decode.Field Extensions} {key : String}
    (h : Decode.called fields key = some f) : f.name = key := by
  obtain ⟨hf, hkey⟩ := Decode.mem_of_called h
  simpa [names_eq_own f hf, eq_comm] using hkey

/-- Reading one by one is reading fields, with the fault named. -/
theorem readMember_eq (known : Extensions) (entry : String × Json) :
    readMember known entry =
      (Decode.readEntry fields known entry).mapError fun cause => ⟨entry.1, cause, entry.2⟩ := by
  obtain ⟨key, value⟩ := entry
  have hfind : fields.find? (·.name = key) = Decode.called fields key :=
    List.find?_congr fun f hf => by simp [names_eq_own f hf, eq_comm]
  rw [readMember, hfind, Decode.readEntry]
  cases Decode.called fields key with
  | none => rfl
  | some f => cases hread : f.read value known <;> simp [hread, Except.mapError]

theorem readMember_eq_ok_iff {known next : Extensions} {entry : String × Json} :
    readMember known entry = .ok next ↔ Decode.readEntry fields known entry = .ok next := by
  rw [readMember_eq, Decode.mapError_eq_ok]

theorem readMember_eq_error_iff {known : Extensions} {entry : String × Json}
    {fault : ExtensionFault} :
    readMember known entry = .error fault ↔
      entry = (fault.key, fault.found) ∧
        Decode.readEntry fields known entry = .error fault.cause := by
  rw [readMember_eq, Decode.mapError_eq_error]
  constructor
  · rintro ⟨cause, hcause, rfl⟩
    exact ⟨rfl, hcause⟩
  · rintro ⟨rfl, hcause⟩
    exact ⟨_, hcause, rfl⟩

theorem readMembers_eq_ok_iff {members : List (String × Json)} {known e : Extensions} :
    members.foldlM readMember known = .ok e ↔
      members.foldlM (Decode.readEntry fields) known = .ok e := by
  induction members generalizing known with
  | nil => simp [pure_eq_ok]
  | cons entry rest ih =>
    simp only [List.foldlM_cons, bind_eq_ok, readMember_eq_ok_iff, ih]

theorem together_obj {members : List (String × Json)} (hkeys : (Entries.keys members).Nodup) :
    together (.obj members) = members.foldlM (Decode.readEntry fields) {} :=
  Decode.members_eq_foldlM hkeys (fun _ _ _ => name_of_called) (by simp) (by simp)

theorem together_single (entry : String × Json) :
    together (.obj [entry]) = Decode.readEntry fields {} entry := by
  have hkeys : (Entries.keys [entry]).Nodup := List.nodup_singleton entry.1
  rw [together_obj hkeys, List.foldlM_cons]
  exact bind_pure _

theorem readEntry_judges : Decode.JudgesAlone (Decode.readEntry fields) := by
  intro entry
  cases hcalled : Decode.called fields entry.1 with
  | none => exact .inl fun known => ⟨known, by simp [Decode.readEntry, hcalled]⟩
  | some f =>
    simpa only [Decode.readEntry, hcalled] using
      fields_steady f (Decode.mem_of_called hcalled).1 entry.2

theorem readMember_judges : Decode.JudgesAlone readMember := by
  intro entry
  rcases readEntry_judges entry with htakes | ⟨cause, hrefuses⟩
  · refine .inl fun known => ?_
    obtain ⟨next, hnext⟩ := htakes known
    exact ⟨next, readMember_eq_ok_iff.mpr hnext⟩
  · exact .inr ⟨⟨entry.1, cause, entry.2⟩, fun known =>
      readMember_eq_error_iff.mpr ⟨rfl, hrefuses known⟩⟩

/-- **A member whose key is understood is taken when its value fits.** -/
theorem readMember_ok_iff {entry : String × Json} (hkey : entry.1 ∈ recognized)
    (known : Extensions) : (∃ next, readMember known entry = .ok next) ↔ WellFormed entry := by
  obtain ⟨f, hf, hname⟩ := List.mem_map.mp hkey
  have hcalled := fields_separate.called_eq_some hf (hname ▸ fields_separate.own f hf)
  simp only [WellFormed, ← Decode.exists_field_iff rules_describe, readMember_eq_ok_iff,
    Decode.readEntry, hcalled]
  constructor
  · rintro ⟨next, hread⟩
    exact ⟨f, hf, (Decode.mem_of_called hcalled).2, known, next, hread⟩
  · rintro ⟨g, hg, hname, _, _, hread⟩
    obtain rfl := fields_separate.eq_of_mem_names hf hg (Decode.mem_of_called hcalled).2 hname
    exact (fields_steady f hf).ok hread known

theorem ofNode_understood (node : Json) :
    ofNode node = (understood node).foldlM readMember {} := by
  cases node with
  | obj members =>
    refine (ofNode_filter fun entry hentry => ?_).symm
    simpa using hentry
  | _ => rfl

section Node

variable {node : Json}

theorem key_mem_of_understood {entry : String × Json} (h : entry ∈ understood node) :
    entry.1 ∈ recognized := by
  simpa using (List.mem_filter.mp h).2

/-- **The extensions are read when each fits.** -/
theorem ofNode_ok_iff :
    (∃ e, ofNode node = .ok e) ↔ ∀ entry ∈ understood node, WellFormed entry := by
  rw [ofNode_understood, readMember_judges.foldlM_ok_iff]
  exact forall₂_congr fun entry hentry => readMember_ok_iff (key_mem_of_understood hentry) {}

/-- The first member of a node that is understood and does not fit, and why. -/
structure FirstMisfit (node : Json) (fault : ExtensionFault) : Prop where
  first : ∃ before after, understood node = before ++ (fault.key, fault.found) :: after ∧
    ∀ entry ∈ before, WellFormed entry
  misfit : ¬ WellFormed (fault.key, fault.found)
  cause : together (.obj [(fault.key, fault.found)]) = .error fault.cause

/-- **The extension that is reported is the first that does not fit.** -/
theorem ofNode_error_iff {fault : ExtensionFault} :
    ofNode node = .error fault ↔ FirstMisfit node fault := by
  have htakes : ∀ entry ∈ understood node,
      ((∃ next, readMember {} entry = .ok next) ↔ WellFormed entry) := fun entry hentry =>
    readMember_ok_iff (key_mem_of_understood hentry) {}
  rw [ofNode_understood, readMember_judges.foldlM_error_iff]
  constructor
  · rintro ⟨before, entry, after, hsplit, hbefore, herror⟩
    obtain ⟨rfl, hcause⟩ := readMember_eq_error_iff.mp herror
    rw [hsplit] at htakes
    refine ⟨⟨before, after, hsplit, fun other hother => ?_⟩, fun hfits => ?_,
      (together_single _).trans hcause⟩
    · exact (htakes other (by simp [hother])).mp (hbefore other hother)
    · obtain ⟨next, hok⟩ := (htakes _ (by simp)).mpr hfits
      cases hok.symm.trans herror
  · rintro ⟨⟨before, after, hsplit, hbefore⟩, -, hcause⟩
    rw [hsplit] at htakes
    refine ⟨before, _, after, hsplit, fun other hother => ?_, ?_⟩
    · exact (htakes other (by simp [hother])).mpr (hbefore other hother)
    · exact readMember_eq_error_iff.mpr ⟨rfl, (together_single _).symm.trans hcause⟩

theorem hasDistinctKeys_understood (hkeys : node.hasDistinctKeys = true) :
    (Json.obj (understood node)).hasDistinctKeys = true := by
  cases node with
  | obj members => exact Json.hasDistinctKeys_filter hkeys
  | _ => rfl

theorem get?_understood (key : String) :
    Entries.get? key (understood node) = if key ∈ recognized then node.get? key else none := by
  cases node with
  | obj members =>
    refine (Entries.get?_filter recognized.contains).trans ?_
    simp only [List.contains_iff_mem, Json.get?_obj, Json.members?, Option.getD_some]
  | _ => simp [understood, Json.members?, Json.get?]

/-- **Read at once the extensions say what they say one by one.** -/
theorem ofNode_eq_ok_iff (hkeys : node.hasDistinctKeys = true) {e : Extensions} :
    ofNode node = .ok e ↔ together (.obj (understood node)) = .ok e := by
  rw [ofNode_understood, readMembers_eq_ok_iff,
    together_obj (Json.hasDistinctKeys_obj.mp (hasDistinctKeys_understood hkeys)).1]

/-- **What the extensions say depends on the values under the keys that are understood.** -/
theorem ofNode_of_same {other : Json} {e : Extensions} (hkeys : node.hasDistinctKeys = true)
    (hother : other.hasDistinctKeys = true)
    (hsame : ∀ key ∈ recognized, Json.sameOption (node.get? key) (other.get? key) = true)
    (h : ofNode node = .ok e) : ofNode other = .ok e := by
  -- All at once, the extensions are read as one object, and the two objects are deeply equal.
  have hkeys' := hasDistinctKeys_understood hkeys
  have hother' := hasDistinctKeys_understood hother
  refine (ofNode_eq_ok_iff hother).mpr
    (respects_together hkeys' hother' ?_ ((ofNode_eq_ok_iff hkeys).mp h))
  refine Json.same_obj_of_forall (Json.hasDistinctKeys_obj.mp hkeys').1
    (Json.hasDistinctKeys_obj.mp hother').1 fun key => ?_
  rw [get?_understood, get?_understood]
  split_ifs with hkey
  · exact hsame key hkey
  · rfl

end Node

/-! ## 5. Written and read again -/

/-- What every reading gives: tags in the order of their keys, and counts that can be written. -/
structure Canonical (e : Extensions) : Prop where
  tags : (Entries.keys e.extraTags).Pairwise (· < ·)
  counts : ∀ s ∈ e.sensitiveData, s.InRange

theorem canonical_of_ofNode {node : Json} (hkeys : node.hasDistinctKeys = true) {e : Extensions}
    (h : ofNode node = .ok e) : e.Canonical := by
  refine Decode.keeps_record (P := Canonical) ⟨.nil, by simp⟩ ?_ ((ofNode_eq_ok_iff hkeys).mp h)
  have hkeeps : ∀ {names : List String} {α : Type} {decode : Decode α}
      {set : Extensions → α → Extensions},
      (∀ e a, (set e a).extraTags = e.extraTags ∧ (set e a).sensitiveData = e.sensitiveData) →
        (Decode.field names decode set).Keeps Canonical :=
    fun hset => Decode.field_keeps fun e _ a he _ =>
      ⟨(hset e a).1 ▸ he.tags, (hset e a).2 ▸ he.counts⟩
  simp only [fields, List.forall_mem_cons]
  refine ⟨hkeeps fun _ _ => ⟨rfl, rfl⟩, hkeeps fun _ _ => ⟨rfl, rfl⟩, hkeeps fun _ _ => ⟨rfl, rfl⟩,
    hkeeps fun _ _ => ⟨rfl, rfl⟩, hkeeps fun _ _ => ⟨rfl, rfl⟩, hkeeps fun _ _ => ⟨rfl, rfl⟩,
    Decode.field_keeps fun e value tags he hok => ⟨?_, he.counts⟩,
    Decode.field_keeps fun e value data he hok => ⟨he.tags, ?_⟩,
    hkeeps fun _ _ => ⟨rfl, rfl⟩, by simp⟩
  · obtain ⟨texts, -, rfl⟩ := Decode.textTable_eq_ok_iff.mp hok
    exact Decode.increasing_tableOf texts
  · rintro s hs
    rcases Decode.optional_eq_ok_iff.mp hok with ⟨-, rfl⟩ | ⟨-, s', hs', rfl⟩
    · cases hs
    · exact Option.some.inj hs ▸ SensitiveData.inRange_of_decode hs'

/-- **What the extensions say, written down, says the same.** -/
theorem ofNode_toJson {e : Extensions} (h : e.Canonical) : ofNode e.toJson = .ok e := by
  obtain ⟨typeOverride, typeName, skipOptionalWrapper, omitEmpty, jsonIgnore, deprecatedReason,
    extraTags, sensitiveData, enumNames⟩ := e
  have htable : Decode.textTable (.obj (Decode.textMembers extraTags)) = .ok extraTags :=
    Decode.textTable_eq_ok_iff.mpr ⟨_, rfl, Decode.tableOf_of_increasing h.tags⟩
  have hdata : ∀ data, sensitiveData = some data →
      Decode.optional SensitiveData.decode (sensitiveJson data) = .ok sensitiveData := by
    rintro data rfl
    exact Decode.optional_eq_ok_iff.mpr (.inr ⟨by simp [sensitiveJson], data,
      SensitiveData.decode_sensitiveJson (h.counts data rfl), rfl⟩)
  have hlist : Decode.list Decode.text (.arr (enumNames.map .str)) = .ok enumNames :=
    Decode.list_text_eq_ok_iff.mpr rfl
  have hempty : [].foldlM (Decode.readEntry fields) {} = .ok {} := rfl
  -- Each step reads the next member into a state that says as much as has been read.
  have hoverride := readNext (t := { typeOverride }) "x-type-override" .str typeOverride
    typeOverride hempty rfl rfl (by rintro a rfl; rfl) (by rintro rfl; rfl)
  have hname := readNext (t := { typeOverride, typeName }) "x-type-name" .str typeName typeName
    hoverride rfl rfl (by rintro a rfl; rfl) (by rintro rfl; rfl)
  have hskip := readNext (t := { typeOverride, typeName, skipOptionalWrapper })
    "x-skip-optional-wrapper" .bool skipOptionalWrapper skipOptionalWrapper hname rfl rfl
    (by rintro a rfl; rfl) (by rintro rfl; rfl)
  have homit := readNext (t := { typeOverride, typeName, skipOptionalWrapper, omitEmpty })
    "x-omitempty" .bool omitEmpty omitEmpty hskip rfl rfl
    (by rintro a rfl; rfl) (by rintro rfl; rfl)
  have hignore := readNext
    (t := { typeOverride, typeName, skipOptionalWrapper, omitEmpty, jsonIgnore })
    "x-json-ignore" .bool jsonIgnore jsonIgnore homit rfl rfl
    (by rintro a rfl; rfl) (by rintro rfl; rfl)
  have hreason := readNext
    (t := { typeOverride, typeName, skipOptionalWrapper, omitEmpty, jsonIgnore, deprecatedReason })
    "x-deprecated-reason" .str deprecatedReason deprecatedReason hignore rfl rfl
    (by rintro a rfl; rfl) (by rintro rfl; rfl)
  have htags := readNextList
    (t := { typeOverride, typeName, skipOptionalWrapper, omitEmpty, jsonIgnore, deprecatedReason,
            extraTags })
    "x-extra-tags" (fun tags => .obj (Decode.textMembers tags)) extraTags hreason rfl rfl htable
    (by rintro rfl; rfl)
  have hsensitive := readNext
    (t := { typeOverride, typeName, skipOptionalWrapper, omitEmpty, jsonIgnore, deprecatedReason,
            extraTags, sensitiveData })
    "x-sensitive-data" sensitiveJson sensitiveData sensitiveData htags rfl rfl hdata
    (by rintro rfl; rfl)
  have hnames := readNextList
    (t := { typeOverride, typeName, skipOptionalWrapper, omitEmpty, jsonIgnore, deprecatedReason,
            extraTags, sensitiveData, enumNames })
    "x-enum-names" (fun names => .arr (names.map .str)) enumNames hsensitive rfl rfl hlist
    (by rintro rfl; rfl)
  exact readMembers_eq_ok_iff.mpr hnames

end Extensions

/-! ## 6. The extensions of a node -/

namespace Env

open Extensions

theorem extensionsAt_eq_ok_iff {node : Json} {path : String} {e : Extensions} :
    extensionsAt node path = .ok e ↔ ofNode node = .ok e := by
  rw [extensionsAt]
  cases ofNode node <;> simp

theorem extensionsAt_eq_error_iff {node : Json} {path : String} {error : CompileError} :
    extensionsAt node path = .error error ↔
      ∃ fault, ofNode node = .error fault ∧ .invalidExtension path fault = error := by
  rw [extensionsAt]
  cases ofNode node <;> simp

/-- **Extensions are read key by key, and what they say is written faithfully.** They are read when
    each value fits its key. Otherwise the first member that does not fit is reported, by its own
    key. Values that are read one by one are read at once, and the other way. Other keys and the
    order of keys count for nothing, and what is written is read again as it was. -/
theorem extensionsAt_exact {node : Json} (hkeys : node.hasDistinctKeys = true) (path : String) :
    ((∃ e, extensionsAt node path = .ok e) ↔ ∀ entry ∈ understood node, WellFormed entry) ∧
    (∀ error, extensionsAt node path = .error error ↔
      ∃ fault, FirstMisfit node fault ∧ .invalidExtension path fault = error) ∧
    (∀ fault, FirstMisfit node fault → fault.key ∈ recognized ∧ fault.key ≠ "x-") ∧
    ((∀ entry ∈ understood node, ∃ e, together (.obj [entry]) = .ok e) →
      ∃ e, together (.obj (understood node)) = .ok e ∧ extensionsAt node path = .ok e) ∧
    (∀ other, understood other = understood node →
      extensionsAt other path = extensionsAt node path) ∧
    (∀ other : Json, other.hasDistinctKeys = true →
      (∀ key ∈ recognized, Json.sameOption (node.get? key) (other.get? key) = true) →
        ∀ e, extensionsAt node path = .ok e ↔ extensionsAt other path = .ok e) ∧
    ∀ e, extensionsAt node path = .ok e → extensionsAt e.toJson path = .ok e := by
  refine ⟨?_, fun error => ?_, fun fault hfault => ?_, fun halone => ?_, fun other hother => ?_,
    fun other hother hsame e => ?_, fun e he => ?_⟩
  · simp only [extensionsAt_eq_ok_iff, ofNode_ok_iff]
  · simp only [extensionsAt_eq_error_iff, ofNode_error_iff]
  · obtain ⟨before, after, hsplit, -⟩ := hfault.first
    have hmem : (fault.key, fault.found) ∈ understood node := by simp [hsplit]
    have hother : ∀ key ∈ recognized, key ≠ "x-" := by decide
    exact ⟨key_mem_of_understood hmem, hother _ (key_mem_of_understood hmem)⟩
  · have hfits : ∀ entry ∈ understood node, WellFormed entry := by
      intro entry hentry
      obtain ⟨e, he⟩ := halone entry hentry
      rw [together_single] at he
      exact (readMember_ok_iff (key_mem_of_understood hentry) {}).mp
        ⟨e, readMember_eq_ok_iff.mpr he⟩
    obtain ⟨e, he⟩ := ofNode_ok_iff.mpr hfits
    exact ⟨e, (ofNode_eq_ok_iff hkeys).mp he, extensionsAt_eq_ok_iff.mpr he⟩
  · rw [extensionsAt, extensionsAt, ofNode_understood, hother, ← ofNode_understood]
  · have hsame' : ∀ key ∈ recognized, Json.sameOption (other.get? key) (node.get? key) = true :=
      fun key hkey => (Json.sameOption_get?_comm hkeys hother key).symm.trans (hsame key hkey)
    rw [extensionsAt_eq_ok_iff, extensionsAt_eq_ok_iff]
    exact ⟨ofNode_of_same hkeys hother hsame, ofNode_of_same hother hkeys hsame'⟩
  · rw [extensionsAt_eq_ok_iff] at he ⊢
    exact ofNode_toJson (canonical_of_ofNode hkeys he)

/-- A property with extensions in every notation, and one that is for another tool. -/
def cardNode : Json :=
  .obj [("type", .str "string"), ("x-omitempty", .str "False"), ("x-owner", .str "payments"),
    ("x-sensitive-data", .obj [("type", .obj [("partial", .null)]), ("keepEnd", .int 4)]),
    ("x-extra-tags", .obj [("json", .str "card"), ("db", .str "pan")])]

/-- The same in another order, without the other tool. -/
def cardNodeReordered : Json :=
  .obj [("x-extra-tags", .obj [("db", .str "pan"), ("json", .str "card")]),
    ("x-sensitive-data", .obj [("keepEnd", .int 4), ("type", .obj [("partial", .null)])]),
    ("x-omitempty", .str "False")]

/-- What both say. -/
def cardExtensions : Extensions :=
  { omitEmpty := some false, extraTags := [("db", "pan"), ("json", "card")],
    sensitiveData := some { mask := .partly, keepEnd := some 4 } }

theorem extensionsAt_exact_card :
    cardNode.hasDistinctKeys = true ∧ extensionsAt cardNode "Card/number" = .ok cardExtensions ∧
      (∀ entry ∈ understood cardNode, WellFormed entry) ∧
      extensionsAt cardNodeReordered "Card/number" = .ok cardExtensions ∧
      extensionsAt cardExtensions.toJson "Card/number" = .ok cardExtensions := by
  have hkeys : cardNode.hasDistinctKeys = true := by decide
  have hread : extensionsAt cardNode "Card/number" = .ok cardExtensions := by rfl
  obtain ⟨hfits, -, -, -, -, hsame, hagain⟩ := extensionsAt_exact hkeys "Card/number"
  have hreordered := hsame cardNodeReordered (by decide) (by decide) cardExtensions
  exact ⟨hkeys, hread, hfits.mp ⟨_, hread⟩, hreordered.mp hread, hagain _ hread⟩

end Env

end ApiTypes
