import ApiTypes.Decode
import ApiTypes.Proofs.Compile.Follow
import ApiTypes.Proofs.Merge.Sameness
import Mathlib.Data.List.Pairwise

/-!
  Laws of readers.

  * **Steps that judge by their item alone** (`JudgesAlone`) take a list of items exactly when they
    take each, and refuse it for the first that they refuse.
  * **What a reader takes** (`Accepts`) is said kind by kind. A record takes what fits the rules of
    its fields (`accepts_record`).
  * **What is deeply equal reads alike** (`Respects`). The members of a record may come in any order
    where its fields write different parts (`members_perm`).
  * **What every field keeps, every record that is read has** (`keeps_record`).
-/

namespace ApiTypes.Decode

variable {σ ι ε α : Type}

/-! ## 1. Steps that judge by their item -/

/-- Whether the step takes an item, and why it refuses it, does not depend on the state. -/
def JudgesAlone (step : σ → ι → Except ε σ) : Prop :=
  ∀ item, (∀ s, ∃ s', step s item = .ok s') ∨ ∃ e, ∀ s, step s item = .error e

namespace JudgesAlone

variable {step : σ → ι → Except ε σ} (h : JudgesAlone step)
include h

theorem ok {item : ι} {s s' : σ} (hok : step s item = .ok s') (t : σ) :
    ∃ t', step t item = .ok t' := by
  rcases h item with htakes | ⟨e, hrefuses⟩
  · exact htakes t
  · cases (hrefuses s).symm.trans hok

theorem error {item : ι} {s : σ} {e : ε} (herror : step s item = .error e) (t : σ) :
    step t item = .error e := by
  rcases h item with htakes | ⟨e', hrefuses⟩
  · obtain ⟨s', hs'⟩ := htakes s
    cases hs'.symm.trans herror
  · rw [hrefuses t, ← hrefuses s, herror]

/-- **The items are taken when each of them is.** -/
theorem foldlM_ok_iff {items : List ι} {s : σ} :
    (∃ s', items.foldlM step s = .ok s') ↔ ∀ item ∈ items, ∃ s', step s item = .ok s' := by
  induction items generalizing s with
  | nil => simp [pure, Except.pure]
  | cons item rest ih =>
    rw [List.foldlM_cons, List.forall_mem_cons]
    cases hfirst : step s item with
    | error e => simp [bind, Except.bind]
    | ok t =>
      have hrest : (∀ other ∈ rest, ∃ s', step t other = .ok s') ↔
          ∀ other ∈ rest, ∃ s', step s other = .ok s' :=
        forall₂_congr fun other _ =>
          ⟨fun ⟨_, hok⟩ => h.ok hok s, fun ⟨_, hok⟩ => h.ok hok t⟩
      change (∃ s', rest.foldlM step t = .ok s') ↔ _
      rw [ih, hrest]
      simp

/-- **The first item that is refused is the one that is reported.** -/
theorem foldlM_error_iff {items : List ι} {s : σ} {e : ε} :
    items.foldlM step s = .error e ↔
      ∃ before item after, items = before ++ item :: after ∧
        (∀ other ∈ before, ∃ s', step s other = .ok s') ∧ step s item = .error e := by
  constructor
  · induction items generalizing s with
    | nil => simp [pure, Except.pure]
    | cons item rest ih =>
      rw [List.foldlM_cons]
      cases hfirst : step s item with
      | error cause =>
        rintro herror
        obtain rfl : cause = e := Except.error.inj herror
        exact ⟨[], item, rest, rfl, by simp, hfirst⟩
      | ok t =>
        intro herror
        obtain ⟨before, other, after, rfl, hbefore, hother⟩ := ih (s := t) herror
        refine ⟨item :: before, other, after, rfl, ?_, h.error hother s⟩
        refine List.forall_mem_cons.mpr ⟨⟨t, hfirst⟩, fun earlier hearlier => ?_⟩
        obtain ⟨_, hok⟩ := hbefore earlier hearlier
        exact h.ok hok s
  · rintro ⟨before, item, after, rfl, hbefore, herror⟩
    obtain ⟨t, ht⟩ := h.foldlM_ok_iff.mpr hbefore
    rw [List.foldlM_append, ht]
    change (item :: after).foldlM step t = .error e
    rw [List.foldlM_cons, h.error herror t]
    rfl

end JudgesAlone

/-! ## 2. What a reader takes -/

theorem exceptMap_eq_ok {β : Type} {result : Except ε α} {f : α → β} {b : β} :
    result.map f = .ok b ↔ ∃ a, result = .ok a ∧ f a = b :=
  map_eq_ok

theorem mapError_eq_ok {ε' : Type} {result : Except ε α} {f : ε → ε'} {a : α} :
    result.mapError f = .ok a ↔ result = .ok a := by
  cases result <;> simp [Except.mapError]

theorem mapError_eq_error {ε' : Type} {result : Except ε α} {f : ε → ε'} {e : ε'} :
    result.mapError f = .error e ↔ ∃ cause, result = .error cause ∧ f cause = e := by
  cases result <;> simp [Except.mapError]

/-- The reader takes the values that fit and no others. -/
def Accepts (decode : Decode α) (fits : Json → Prop) : Prop :=
  ∀ value, (∃ a, decode value = .ok a) ↔ fits value

section Values

variable {value : Json}

/-- A string. -/
def IsText (value : Json) : Prop := ∃ s, value = .str s

theorem text_eq_ok_iff {s : String} : text value = .ok s ↔ value = .str s := by
  cases value <;> simp [text]

theorem accepts_text : Accepts text IsText :=
  fun _ => exists_congr fun _ => text_eq_ok_iff

/-- An integer from zero up to a limit. -/
def IsNatBelow (limit : Nat) (value : Json) : Prop := ∃ n : Nat, value = .int n ∧ n < limit

theorem natBelow_eq_ok_iff {limit n : Nat} {kind : String} :
    natBelow limit kind value = .ok n ↔ value = .int n ∧ n < limit := by
  cases value with
  | int m =>
    rw [natBelow, Json.int.injEq]
    split_ifs with hrange
    · rw [Except.ok.injEq]
      omega
    · simp only [false_iff]
      omega
  | _ => simp [natBelow]

theorem accepts_natBelow (limit : Nat) (kind : String) :
    Accepts (natBelow limit kind) (IsNatBelow limit) :=
  fun _ => exists_congr fun _ => natBelow_eq_ok_iff

/-- Null, or a value that fits. -/
def NullOr (fits : Json → Prop) (value : Json) : Prop := value = .null ∨ fits value

theorem optional_eq_ok_iff {decode : Decode α} {result : Option α} :
    optional decode value = .ok result ↔
      value = .null ∧ result = none ∨
        value ≠ .null ∧ ∃ a, decode value = .ok a ∧ some a = result := by
  cases value with
  | null => simp [optional, eq_comm]
  | _ => simp [optional, exceptMap_eq_ok]

theorem accepts_optional {decode : Decode α} {fits : Json → Prop} (h : Accepts decode fits) :
    Accepts (optional decode) (NullOr fits) := by
  intro value
  cases value <;> simp [NullOr, optional, exceptMap_eq_ok, ← h _]

/-- A truth value, or its name in any case. -/
def IsTruth (value : Json) : Prop :=
  (∃ b, value = .bool b) ∨ ∃ s, value = .str s ∧
    (String.ofList (s.toList.map Char.toLower) = "true" ∨
      String.ofList (s.toList.map Char.toLower) = "false")

theorem accepts_flag : Accepts flag (NullOr IsTruth) := by
  intro value
  cases value with
  | str s =>
    simp only [flag, NullOr, IsTruth]
    split_ifs with htrue hfalse <;> simp_all
  | _ => simp [flag, NullOr, IsTruth]

/-- An array of strings. -/
def IsTextList (value : Json) : Prop := ∃ names : List String, value = .arr (names.map .str)

theorem list_text_eq_ok_iff {names : List String} :
    list text value = .ok names ↔ value = .arr (names.map .str) := by
  have hitems : ∀ (items : List Json) (names : List String),
      items.mapM text = .ok names ↔ items = names.map .str := by
    intro items
    induction items with
    | nil => intro names; cases names <;> simp [pure_eq_ok]
    | cons item rest ih =>
      intro names
      simp only [List.mapM_cons, bind_eq_ok, text_eq_ok_iff, ih, pure_eq_ok]
      cases names <;> simp
  cases value with
  | arr items => simpa [list] using hitems items names
  | _ => simp [list]

theorem accepts_list_text : Accepts (list text) IsTextList :=
  fun _ => exists_congr fun _ => list_text_eq_ok_iff

/-- What a table of texts says when it is written entry by entry. -/
def tableOf (texts : List (String × String)) : List (String × String) :=
  texts.foldl (fun table entry => Entries.insertSorted entry.1 entry.2 table) []

theorem tableOf_concat (texts : List (String × String)) (last : String × String) :
    tableOf (texts ++ [last]) = Entries.insertSorted last.1 last.2 (tableOf texts) := by
  simp [tableOf]

/-- **A table is sorted by its keys,** -/
theorem increasing_tableOf (texts : List (String × String)) :
    (Entries.keys (tableOf texts)).Pairwise (· < ·) := by
  induction texts using List.reverseRecOn with
  | nil => exact .nil
  | append_singleton texts last ih =>
    rw [tableOf_concat]
    exact Entries.increasing_insertSorted ih

/-- **and what is sorted is the table that it gives.** -/
theorem tableOf_of_increasing {texts : List (String × String)}
    (h : (Entries.keys texts).Pairwise (· < ·)) : tableOf texts = texts := by
  induction texts using List.reverseRecOn with
  | nil => rfl
  | append_singleton texts last ih =>
    rw [Entries.keys, List.map_append, List.pairwise_append] at h
    obtain ⟨htexts, -, hlast⟩ := h
    rw [tableOf_concat, ih htexts]
    exact Entries.insertSorted_of_forall_lt fun name hname =>
      hlast name hname _ List.mem_cons_self

/-- The members of an object that give these texts. -/
def textMembers (texts : List (String × String)) : List (String × Json) :=
  texts.map fun entry => (entry.1, .str entry.2)

/-- An object of strings. -/
def IsTextTable (value : Json) : Prop := ∃ texts, value = .obj (textMembers texts)

theorem textTable_eq_ok_iff {table : List (String × String)} :
    textTable value = .ok table ↔
      ∃ texts, value = .obj (textMembers texts) ∧ tableOf texts = table := by
  let write := fun (table : List (String × String)) (entry : String × String) =>
    Entries.insertSorted entry.1 entry.2 table
  have hmembers : ∀ (members : List (String × Json)) (known : List (String × String)),
      List.foldlM (fun table (entry : String × Json) => do
        return Entries.insertSorted entry.1 (← text entry.2) table) known members = .ok table ↔
      ∃ texts, members = textMembers texts ∧ texts.foldl write known = table := by
    intro members
    induction members with
    | nil => intro known; simp [textMembers, pure_eq_ok]
    | cons entry rest ih =>
      obtain ⟨key, value⟩ := entry
      intro known
      simp only [List.foldlM_cons, bind_eq_ok, text_eq_ok_iff, pure_eq_ok, ih]
      constructor
      · rintro ⟨_, ⟨s, rfl, rfl⟩, texts, rfl, htable⟩
        exact ⟨(key, s) :: texts, rfl, htable⟩
      · rintro ⟨texts, hentries, htable⟩
        cases texts with
        | nil => simp [textMembers] at hentries
        | cons first texts =>
          obtain ⟨⟨rfl, rfl⟩, rfl⟩ := by simpa [textMembers] using hentries
          exact ⟨_, ⟨first.2, rfl, rfl⟩, texts, rfl, htable⟩
  cases value with
  | obj members => simpa [textTable, tableOf] using hmembers members []
  | _ => simp [textTable]

theorem accepts_textTable : Accepts textTable IsTextTable := by
  intro value
  simp [textTable_eq_ok_iff, IsTextTable]

/-- A known name, alone or as the only key of an object that holds null. -/
def IsChoice (choices : List (String × α)) (value : Json) : Prop :=
  ∃ name ∈ Entries.keys choices, value = .str name ∨ value = .obj [(name, .null)]

theorem choice_eq_ok_iff {choices : List (String × α)} {a : α} :
    choice choices value = .ok a ↔
      ∃ name, Entries.get? name choices = some a ∧
        (value = .str name ∨ value = .obj [(name, .null)]) := by
  have hnamed : ∀ name, named choices name = .ok a ↔ Entries.get? name choices = some a := by
    intro name
    cases hget : Entries.get? name choices <;> simp [named, hget]
  match value with
  | .str name => simp [choice, hnamed]
  | .obj [(name, value)] =>
    simp only [choice, bind_eq_ok]
    cases value <;>
      simp [hnamed, Json.isNull, pure_eq_ok, throw, throwThe, MonadExceptOf.throw]
  | .obj [] | .obj (_ :: _ :: _) => simp [choice]
  | .null | .bool _ | .int _ | .float _ | .arr _ => simp [choice]

theorem accepts_choice (choices : List (String × α)) :
    Accepts (choice choices) (IsChoice choices) := by
  intro value
  have hknown : ∀ name, (∃ a, Entries.get? name choices = some a) ↔
      name ∈ Entries.keys choices := by
    intro name
    rw [← not_iff_not, ← Entries.get?_eq_none_iff, Option.eq_none_iff_forall_ne_some, not_exists]
  simp only [choice_eq_ok_iff, IsChoice, ← hknown]
  constructor
  · rintro ⟨a, name, ha, hvalue⟩
    exact ⟨name, ⟨a, ha⟩, hvalue⟩
  · rintro ⟨name, ⟨a, ha⟩, hvalue⟩
    exact ⟨a, name, ha, hvalue⟩

end Values

/-! ## 3. Deeply equal values -/

/-- The reader takes a value that is deeply equal to one that it takes, and reads the same. -/
def Respects (decode : Decode α) : Prop :=
  ∀ ⦃value other : Json⦄ ⦃a : α⦄, value.hasDistinctKeys = true → other.hasDistinctKeys = true →
    value.same other = true → decode value = .ok a → decode other = .ok a

theorem respects_of_isPlain {decode : Decode α}
    (h : ∀ value a, decode value = .ok a → value.IsPlain) : Respects decode :=
  fun _ _ _ _ _ hsame hok => h _ _ hok _ hsame ▸ hok

theorem respects_text : Respects text := by
  refine respects_of_isPlain fun value s hok => ?_
  rw [text_eq_ok_iff.mp hok]
  exact Json.isPlain_str s

theorem respects_natBelow (limit : Nat) (kind : String) : Respects (natBelow limit kind) := by
  refine respects_of_isPlain fun value n hok => ?_
  rw [(natBelow_eq_ok_iff.mp hok).1]
  exact Json.isPlain_int n

theorem respects_optional {decode : Decode α} (h : Respects decode) :
    Respects (optional decode) := by
  intro value other result hvalue hother hsame hok
  rcases optional_eq_ok_iff.mp hok with ⟨rfl, -⟩ | ⟨hnull, a, ha, rfl⟩
  · exact Json.isPlain_null _ hsame ▸ hok
  · refine optional_eq_ok_iff.mpr (.inr ⟨?_, a, h hvalue hother hsame ha, rfl⟩)
    rintro rfl
    cases value <;> simp_all [Json.same]

theorem respects_flag : Respects flag := by
  refine respects_of_isPlain fun value result hok => ?_
  rcases (accepts_flag value).mp ⟨result, hok⟩ with rfl | ⟨b, rfl⟩ | ⟨s, rfl, -⟩
  · exact Json.isPlain_null
  · exact Json.isPlain_bool b
  · exact Json.isPlain_str s

theorem respects_list_text : Respects (list text) := by
  refine respects_of_isPlain fun value names hok => ?_
  rw [list_text_eq_ok_iff.mp hok]
  exact Json.isPlain_arr (List.forall_mem_map.mpr fun name _ => Json.isPlain_str name)

theorem respects_choice (choices : List (String × α)) : Respects (choice choices) := by
  refine respects_of_isPlain fun value a hok => ?_
  obtain ⟨name, -, rfl | rfl⟩ := choice_eq_ok_iff.mp hok
  · exact Json.isPlain_str name
  · exact Json.isPlain_single Json.isPlain_null

theorem tableOf_perm {texts others : List (String × String)} (hkeys : (Entries.keys texts).Nodup)
    (h : texts.Perm others) : tableOf texts = tableOf others := by
  refine h.foldl_eq' (fun first hfirst second hsecond table => ?_) []
  by_cases hkey : first.1 = second.1
  · have hvalue := Option.some.inj
      ((Entries.get?_of_mem hkeys hfirst).symm.trans (hkey ▸ Entries.get?_of_mem hkeys hsecond))
    rw [Prod.ext hkey hvalue]
  · exact Entries.insertSorted_comm (Ne.symm hkey) _ table

/-- **A table does not depend on the order in which it is given.** -/
theorem respects_textTable : Respects textTable := by
  intro value other table hvalue hother hsame hok
  obtain ⟨texts, rfl, rfl⟩ := textTable_eq_ok_iff.mp hok
  cases other with
  | obj others =>
    obtain ⟨hkeys, -⟩ := Json.hasDistinctKeys_obj.mp hvalue
    obtain ⟨aligned, hperm, hpairs⟩ :=
      Json.exists_aligned hkeys (Json.hasDistinctKeys_obj.mp hother).1 hsame
    -- Strings are equal to themselves alone, so only the order may differ.
    obtain rfl : textMembers texts = aligned := by
      rw [← List.forall₂_eq_eq_eq, textMembers, List.forall₂_map_left_iff]
      refine (List.forall₂_map_left_iff.mp hpairs).imp fun text entry hpair => ?_
      exact Prod.ext hpair.1 (Json.isPlain_str _ _ hpair.2).symm
    obtain ⟨texts', rfl, htexts⟩ : ∃ texts', others = textMembers texts' ∧ texts'.Perm texts := by
      have hrel := List.eq_map_comp_perm fun text : String × String => (text.1, Json.str text.2)
      exact (congrFun (congrFun hrel others) texts).mpr hperm.symm
    refine textTable_eq_ok_iff.mpr ⟨texts', rfl, (tableOf_perm ?_ htexts.symm).symm⟩
    simpa [textMembers, Entries.keys, Function.comp_def] using hkeys
  | _ => simp [Json.same] at hsame

/-! ## 4. Fields -/

namespace Field

/-- The field takes the value, whatever was read before. -/
def Takes (f : Field σ) (value : Json) : Prop :=
  ∃ record result, f.read value record = .ok result

/-- Whether the field takes a value does not depend on what was read before. -/
def Steady (f : Field σ) : Prop := JudgesAlone fun record value => f.read value record

/-- The field reads a value that is deeply equal to one that it takes the same. -/
def Respects (f : Field σ) : Prop :=
  ∀ record, Decode.Respects fun value => f.read value record

/-- Values that both fields take may be read in either order. -/
def Commutes (f g : Field σ) : Prop :=
  ∀ value other record result, (f.read value record >>= g.read other) = .ok result ↔
    (g.read other record >>= f.read value) = .ok result

instance : Std.Symm (Commutes (σ := σ)) :=
  ⟨fun _ _ h value other record result => (h other value record result).symm⟩

end Field

section Fields

variable {β : Type} {names names' : List String} {decode : Decode α} {decode' : Decode β}
  {set : σ → α → σ} {set' : σ → β → σ}

theorem field_read_eq_ok {value : Json} {record result : σ} :
    (field names decode set).read value record = .ok result ↔
      ∃ a, decode value = .ok a ∧ set record a = result :=
  exceptMap_eq_ok

theorem field_steady : (field names decode set).Steady := by
  intro value
  cases hvalue : decode value with
  | ok a => exact .inl fun record => ⟨set record a, field_read_eq_ok.mpr ⟨a, hvalue, rfl⟩⟩
  | error cause => exact .inr ⟨cause, fun record => by simp [field, hvalue, Except.map]⟩

theorem field_respects (h : Respects decode) : (field names decode set).Respects := by
  intro record value other result hvalue hother hsame hok
  obtain ⟨a, ha, hresult⟩ := field_read_eq_ok.mp hok
  exact field_read_eq_ok.mpr ⟨a, h hvalue hother hsame ha, hresult⟩

/-- Fields that write different parts may be read in either order. -/
theorem field_commutes (h : ∀ record a b, set' (set record a) b = set (set' record b) a) :
    (field names decode set).Commutes (field names' decode' set') := by
  intro value other record result
  simp only [bind_eq_ok, field_read_eq_ok]
  constructor
  · rintro ⟨_, ⟨a, ha, rfl⟩, b, hb, rfl⟩
    exact ⟨_, ⟨b, hb, rfl⟩, a, ha, (h ..).symm⟩
  · rintro ⟨_, ⟨b, hb, rfl⟩, a, ha, rfl⟩
    exact ⟨_, ⟨a, ha, rfl⟩, b, hb, h ..⟩

end Fields

/-! ## 5. Records -/

/-- The field that a key names. -/
def called (fields : List (Field σ)) (key : String) : Option (Field σ) :=
  fields.find? (·.names.contains key)

/-- No key names two fields, and the own name of a field is one of its names. -/
structure Separate (fields : List (Field σ)) : Prop where
  own : ∀ f ∈ fields, f.name ∈ f.names
  disjoint : fields.Pairwise fun f g => f.names.Disjoint g.names

variable {strict : Bool} {fields : List (Field σ)} {seen : List String} {record result : σ}
  {key : String} {value : Json} {members others : List (String × Json)}

theorem Separate.eq_of_mem_names (h : Separate fields) {f g : Field σ} (hf : f ∈ fields)
    (hg : g ∈ fields) (hkey : key ∈ f.names) (hkey' : key ∈ g.names) : f = g := by
  have : Std.Symm fun f g : Field σ => f.names.Disjoint g.names := ⟨fun _ _ => List.Disjoint.symm⟩
  exact Classical.byContradiction fun hne => h.disjoint.forall hf hg hne hkey hkey'

theorem Separate.eq_of_name_eq (h : Separate fields) {f g : Field σ} (hf : f ∈ fields)
    (hg : g ∈ fields) (hname : f.name = g.name) : f = g :=
  h.eq_of_mem_names hf hg (h.own f hf) (hname ▸ h.own g hg)

theorem mem_of_called {f : Field σ} (h : called fields key = some f) :
    f ∈ fields ∧ key ∈ f.names :=
  ⟨List.mem_of_find?_eq_some h, by simpa using List.find?_some h⟩

theorem Separate.called_eq_some (h : Separate fields) {f : Field σ} (hf : f ∈ fields)
    (hkey : key ∈ f.names) : called fields key = some f := by
  obtain ⟨g, hg⟩ : ∃ g, called fields key = some g := by
    refine Option.isSome_iff_exists.mp (List.find?_isSome.mpr ⟨f, hf, ?_⟩)
    simpa using hkey
  rw [hg, h.eq_of_mem_names hf (mem_of_called hg).1 hkey (mem_of_called hg).2]

theorem members_cons_of_none (h : called fields key = none) :
    Decode.members strict fields seen ((key, value) :: members) record =
      if strict then .error (.unknownField key (fields.flatMap (·.names)))
      else Decode.members strict fields seen members record := by
  have h : fields.find? (·.names.contains key) = none := h
  rw [Decode.members, h]

theorem members_cons_of_some {f : Field σ} (h : called fields key = some f) :
    Decode.members strict fields seen ((key, value) :: members) record =
      if f.name ∈ seen then .error (.repeatedField f.name)
      else f.read value record >>= Decode.members strict fields (f.name :: seen) members := by
  have h : fields.find? (·.names.contains key) = some f := h
  rw [Decode.members, h]
  simp only [List.contains_iff_mem]

/-- What reading the first member does. -/
theorem members_cons_eq_ok :
    Decode.members strict fields seen ((key, value) :: members) record = .ok result ↔
      called fields key = none ∧ strict = false ∧
          Decode.members strict fields seen members record = .ok result ∨
        ∃ f, called fields key = some f ∧ f.name ∉ seen ∧ ∃ next, f.read value record = .ok next ∧
          Decode.members strict fields (f.name :: seen) members next = .ok result := by
  cases hcalled : called fields key with
  | none =>
    rw [members_cons_of_none hcalled]
    cases strict <;> simp
  | some f =>
    rw [members_cons_of_some hcalled]
    by_cases hseen : f.name ∈ seen <;> simp [hseen, bind_eq_ok]

/-- Reads one member into what the members before it said. -/
def readEntry (fields : List (Field σ)) (record : σ) (entry : String × Json) :
    Except DecodeError σ :=
  match called fields entry.1 with
  | none => .ok record
  | some f => f.read entry.2 record

/-- **A record is read member by member** where each member goes by the own name of a field. -/
theorem members_eq_foldlM (hkeys : (Entries.keys members).Nodup)
    (hown : ∀ entry ∈ members, ∀ f, called fields entry.1 = some f → f.name = entry.1)
    (hknown : strict = true → ∀ entry ∈ members, called fields entry.1 ≠ none)
    (hfresh : ∀ entry ∈ members, entry.1 ∉ seen) :
    Decode.members strict fields seen members record =
      members.foldlM (readEntry fields) record := by
  induction members generalizing seen record with
  | nil => rfl
  | cons entry rest ih =>
    obtain ⟨key, value⟩ := entry
    obtain ⟨hkey, hrest⟩ := List.nodup_cons.mp hkeys
    obtain ⟨hown, howns⟩ := List.forall_mem_cons.mp hown
    obtain ⟨hnew, hfresh⟩ := List.forall_mem_cons.mp hfresh
    have hknowns := fun hstrict => (List.forall_mem_cons.mp (hknown hstrict)).2
    cases hcalled : called fields key with
    | none =>
      have hstrict : strict ≠ true := fun hstrict => hknown hstrict _ List.mem_cons_self hcalled
      have hentry : readEntry fields record (key, value) = .ok record := by
        simp [readEntry, hcalled]
      rw [members_cons_of_none hcalled, if_neg hstrict, List.foldlM_cons, hentry]
      exact ih hrest howns hknowns hfresh
    | some f =>
      have hname : f.name = key := hown f hcalled
      have hentry : readEntry fields record (key, value) = f.read value record := by
        simp [readEntry, hcalled]
      rw [members_cons_of_some hcalled, if_neg (hname ▸ hnew), List.foldlM_cons, hentry]
      congr 1
      funext next
      refine ih hrest howns hknowns fun other hother => ?_
      refine List.not_mem_cons_of_ne_of_not_mem (fun heq => hkey ?_) (hfresh other hother)
      exact List.mem_map.mpr ⟨other, hother, heq.trans hname⟩

theorem Separate.nodup_names (h : Separate fields) : (fields.map Field.name).Nodup := by
  refine List.pairwise_map.mpr (h.disjoint.imp_of_mem fun {f g} hf hg hdisjoint hname => ?_)
  exact hdisjoint (h.own f hf) (hname ▸ h.own g hg)

/-- **What names each field at most once, by its own name, is read member by member.** -/
theorem members_eq_foldlM_of_sublist (h : Separate fields)
    (hkeys : (Entries.keys members).Sublist (fields.map Field.name)) :
    Decode.members strict fields [] members record =
      members.foldlM (readEntry fields) record := by
  have hcalled : ∀ entry ∈ members, ∃ f, called fields entry.1 = some f ∧ f.name = entry.1 := by
    intro entry hentry
    obtain ⟨f, hf, hname⟩ := List.mem_map.mp (hkeys.subset (List.mem_map_of_mem hentry))
    exact ⟨f, h.called_eq_some hf (hname ▸ h.own f hf), hname⟩
  refine members_eq_foldlM (h.nodup_names.sublist hkeys) ?_ ?_ (by simp)
  · intro entry hentry f hf
    obtain ⟨g, hg, hname⟩ := hcalled entry hentry
    obtain rfl : g = f := Option.some.inj (hg.symm.trans hf)
    exact hname
  · intro _ entry hentry hnone
    obtain ⟨g, hg, -⟩ := hcalled entry hentry
    cases hg.symm.trans hnone

/-- It counts which fields have come, not in which order. -/
theorem members_congr_seen {seen' : List String} (h : ∀ name, name ∈ seen ↔ name ∈ seen') :
    Decode.members strict fields seen members record = .ok result ↔
      Decode.members strict fields seen' members record = .ok result := by
  induction members generalizing seen seen' record with
  | nil => rfl
  | cons entry rest ih =>
    obtain ⟨key, value⟩ := entry
    have hcons : ∀ own name, name ∈ own :: seen ↔ name ∈ own :: seen' := by simp [h]
    simp only [members_cons_eq_ok, h, ih h, ih (hcons _)]

/-- Two members may change places. -/
theorem members_swap (hcommutes : fields.Pairwise Field.Commutes)
    {first second : String × Json}
    (h : Decode.members strict fields seen (first :: second :: members) record = .ok result) :
    Decode.members strict fields seen (second :: first :: members) record = .ok result := by
  obtain ⟨⟨key, value⟩, ⟨key', value'⟩⟩ := first, second
  simp only [members_cons_eq_ok] at h ⊢
  rcases h with ⟨hfirst, hstrict, ⟨hsecond, -, hrest⟩ | ⟨g, hsecond, hseen, next, hread, hrest⟩⟩ |
    ⟨f, hfirst, hseen, next, hread,
      ⟨hsecond, hstrict, hrest⟩ | ⟨g, hsecond, hseen', last, hread', hrest⟩⟩
  · exact .inl ⟨hsecond, hstrict, .inl ⟨hfirst, hstrict, hrest⟩⟩
  · exact .inr ⟨g, hsecond, hseen, next, hread, .inl ⟨hfirst, hstrict, hrest⟩⟩
  · exact .inl ⟨hsecond, hstrict, .inr ⟨f, hfirst, hseen, next, hread, hrest⟩⟩
  · -- Both name a field. The two reads commute, and the same fields have come after them.
    have hname : f.name ≠ g.name := (List.ne_of_not_mem_cons hseen').symm
    have hcommute := hcommutes.forall (mem_of_called hfirst).1 (mem_of_called hsecond).1
      (fun heq => hname (heq ▸ rfl)) value value' record last
    obtain ⟨next', hread, hread'⟩ :=
      bind_eq_ok.mp (hcommute.mp (bind_eq_ok.mpr ⟨next, hread, hread'⟩))
    refine .inr ⟨g, hsecond, List.not_mem_of_not_mem_cons hseen', next', hread, .inr
      ⟨f, hfirst, List.not_mem_cons_of_ne_of_not_mem hname hseen, last, hread', ?_⟩⟩
    refine (members_congr_seen fun name => ?_).mp hrest
    simp only [List.mem_cons]
    tauto

/-- **The members of a record may come in any order.** -/
theorem members_perm (hcommutes : fields.Pairwise Field.Commutes)
    (hperm : members.Perm others)
    (h : Decode.members strict fields seen members record = .ok result) :
    Decode.members strict fields seen others record = .ok result := by
  induction hperm generalizing seen record with
  | nil => exact h
  | cons entry _ ih =>
    rw [members_cons_eq_ok] at h ⊢
    rcases h with ⟨hnone, hstrict, hrest⟩ | ⟨f, hf, hseen, next, hread, hrest⟩
    · exact .inl ⟨hnone, hstrict, ih hrest⟩
    · exact .inr ⟨f, hf, hseen, next, hread, ih hrest⟩
  | swap first second rest => exact members_swap hcommutes h
  | trans _ _ ih ih' => exact ih' (ih h)

/-- Members that are deeply equal one by one read alike. -/
theorem members_respects (hrespects : ∀ f ∈ fields, f.Respects)
    (hmembers : ∀ entry ∈ members, entry.2.hasDistinctKeys = true)
    (hothers : ∀ entry ∈ others, entry.2.hasDistinctKeys = true)
    (hpairs : List.Forall₂ (fun a b => a.1 = b.1 ∧ a.2.same b.2 = true) members others)
    (h : Decode.members strict fields seen members record = .ok result) :
    Decode.members strict fields seen others record = .ok result := by
  induction hpairs generalizing seen record with
  | nil => exact h
  | @cons first second _ _ hpair _ ih =>
    obtain ⟨hvalue, hmembers⟩ := List.forall_mem_cons.mp hmembers
    obtain ⟨hother, hothers⟩ := List.forall_mem_cons.mp hothers
    rw [members_cons_eq_ok] at h ⊢
    rw [← hpair.1]
    rcases h with ⟨hnone, hstrict, hrest⟩ | ⟨f, hf, hseen, next, hread, hrest⟩
    · exact .inl ⟨hnone, hstrict, ih hmembers hothers hrest⟩
    · have hread' := hrespects f (mem_of_called hf).1 record hvalue hother hpair.2 hread
      exact .inr ⟨f, hf, hseen, next, hread', ih hmembers hothers hrest⟩

theorem elements_cons_eq_ok {count : Nat} {f : Field σ} {item : Json} {items : List Json} :
    elements count (f :: fields) (item :: items) record = .ok result ↔
      ∃ next, f.read item record = .ok next ∧ elements count fields items next = .ok result := by
  rw [elements, bind_eq_ok]

/-- Elements that are deeply equal one by one read alike. -/
theorem elements_respects {count count' : Nat} {items items' : List Json}
    (hrespects : ∀ f ∈ fields, f.Respects)
    (hitems : ∀ item ∈ items, item.hasDistinctKeys = true)
    (hitems' : ∀ item ∈ items', item.hasDistinctKeys = true)
    (hpairs : List.Forall₂ (fun a b => a.same b = true) items items')
    (h : elements count fields items record = .ok result) :
    elements count' fields items' record = .ok result := by
  induction hpairs generalizing fields record with
  | nil => simpa only [elements] using h
  | cons hpair _ ih =>
    obtain ⟨hitem, hitems⟩ := List.forall_mem_cons.mp hitems
    obtain ⟨hitem', hitems'⟩ := List.forall_mem_cons.mp hitems'
    cases fields with
    | nil => simp [elements] at h
    | cons f fields =>
      obtain ⟨hf, hfields⟩ := List.forall_mem_cons.mp hrespects
      obtain ⟨next, hread, hrest⟩ := elements_cons_eq_ok.mp h
      exact elements_cons_eq_ok.mpr
        ⟨next, hf record hitem hitem' hpair hread, ih hfields hitems hitems' hrest⟩

/-- **A record does not depend on the order in which it is given.** -/
theorem respects_record {title : String} {defaults : σ}
    (hcommutes : fields.Pairwise Field.Commutes)
    (hrespects : ∀ f ∈ fields, f.Respects) :
    Respects (Decode.record title strict fields defaults) := by
  intro value other result hvalue hother hsame h
  cases value with
  | obj members =>
    cases other with
    | obj others =>
      obtain ⟨hkeys, hvalues⟩ := Json.hasDistinctKeys_obj.mp hvalue
      obtain ⟨hkeys', hvalues'⟩ := Json.hasDistinctKeys_obj.mp hother
      obtain ⟨aligned, hperm, hpairs⟩ := Json.exists_aligned hkeys hkeys' hsame
      have haligned : ∀ entry ∈ aligned, entry.2.hasDistinctKeys = true := fun entry hentry =>
        hvalues' entry (hperm.mem_iff.mp hentry)
      exact members_perm hcommutes hperm (members_respects hrespects hvalues haligned hpairs h)
    | _ => simp [Json.same] at hsame
  | arr items =>
    cases other with
    | arr others =>
      exact elements_respects hrespects (Json.itemsHaveDistinctKeys_iff.mp hvalue)
        (Json.itemsHaveDistinctKeys_iff.mp hother) (Json.sameItems_iff.mp hsame) h
    | _ => simp [Json.same] at hsame
  | _ => simp [Decode.record] at h

/-! ## 6. Which records are taken -/

/-- **An object is taken when each member is taken by the field that it names,** and no field is
    named twice. -/
theorem members_ok_iff (hseparate : Separate fields) (hsteady : ∀ f ∈ fields, f.Steady) :
    (∃ result, Decode.members true fields seen members record = .ok result) ↔
      (∀ entry ∈ members, ∃ f ∈ fields, entry.1 ∈ f.names ∧ f.name ∉ seen ∧ f.Takes entry.2) ∧
        members.Pairwise fun a b => ∀ f ∈ fields, a.1 ∈ f.names → b.1 ∉ f.names := by
  induction members generalizing seen record with
  | nil => simp [Decode.members]
  | cons entry rest ih =>
    rw [List.forall_mem_cons, List.pairwise_cons]
    constructor
    · rintro ⟨result, h⟩
      rcases members_cons_eq_ok.mp h with ⟨-, hstrict, -⟩ | ⟨f, hf, hseen, next, hread, hrest⟩
      · cases hstrict
      obtain ⟨hmem, hkey⟩ := mem_of_called hf
      obtain ⟨hvalues, hpairs⟩ := ih.mp ⟨result, hrest⟩
      refine ⟨⟨⟨f, hmem, hkey, hseen, record, next, hread⟩, fun other hother => ?_⟩,
        fun other hother g hg hkey' hother' => ?_, hpairs⟩
      · obtain ⟨g, hg, hname, hfresh, htakes⟩ := hvalues other hother
        exact ⟨g, hg, hname, List.not_mem_of_not_mem_cons hfresh, htakes⟩
      · obtain ⟨g', hg', hname, hfresh, -⟩ := hvalues other hother
        obtain rfl := hseparate.eq_of_mem_names hmem hg hkey hkey'
        obtain rfl := hseparate.eq_of_mem_names hmem hg' hother' hname
        exact hfresh List.mem_cons_self
    · rintro ⟨⟨⟨f, hmem, hkey, hseen, _, _, hread⟩, hvalues⟩, honce, hpairs⟩
      obtain ⟨next, hread⟩ := (hsteady f hmem).ok hread record
      -- No later member names the field of the first, so each is as new after it as before.
      have hfresh : ∀ other ∈ rest, ∃ g ∈ fields, other.1 ∈ g.names ∧ g.name ∉ f.name :: seen ∧
          g.Takes other.2 := by
        intro other hother
        obtain ⟨g, hg, hname, hfresh, htakes⟩ := hvalues other hother
        refine ⟨g, hg, hname, List.not_mem_cons_of_ne_of_not_mem (fun heq => ?_) hfresh, htakes⟩
        obtain rfl := hseparate.eq_of_name_eq hg hmem heq
        exact honce other hother g hg hkey hname
      obtain ⟨result, hrest⟩ : ∃ result,
          Decode.members true fields (f.name :: seen) rest next = .ok result :=
        ih.mpr ⟨hfresh, hpairs⟩
      exact ⟨result, members_cons_eq_ok.mpr
        (.inr ⟨f, hseparate.called_eq_some hmem hkey, hseen, next, hread, hrest⟩)⟩

/-- **An array is taken when each element is taken by the field of its place.** -/
theorem elements_ok_iff {count : Nat} {items : List Json} (hsteady : ∀ f ∈ fields, f.Steady) :
    (∃ result, elements count fields items record = .ok result) ↔
      List.Forall₂ (fun item f => f.Takes item) items (fields.take items.length) := by
  induction items generalizing fields record with
  | nil => simp [elements]
  | cons item items ih =>
    cases fields with
    | nil => simp [elements]
    | cons f fields =>
      obtain ⟨hf, hfields⟩ := List.forall_mem_cons.mp hsteady
      simp only [List.length_cons, List.take_succ_cons, List.forall₂_cons, elements_cons_eq_ok]
      constructor
      · rintro ⟨result, next, hread, hrest⟩
        exact ⟨⟨record, next, hread⟩, (ih hfields).mp ⟨result, hrest⟩⟩
      · rintro ⟨⟨_, _, hread⟩, hrest⟩
        obtain ⟨next, hread⟩ := hf.ok hread record
        obtain ⟨result, hrest⟩ : ∃ result, elements count fields items next = .ok result :=
          (ih hfields).mpr hrest
        exact ⟨result, next, hread, hrest⟩

/-- What is said of a field: its names, and the values that fit. -/
structure Rule where
  names : List String
  Fits : Json → Prop

/-- The field has these names and takes the values that fit. -/
def Rule.Describes (f : Field σ) (rule : Rule) : Prop :=
  f.names = rule.names ∧ ∀ value, f.Takes value ↔ rule.Fits value

theorem describes_field [Nonempty σ] {names : List String} {decode : Decode α} {set : σ → α → σ}
    {fits : Json → Prop} (h : Accepts decode fits) :
    Rule.Describes (field names decode set) ⟨names, fits⟩ :=
  ⟨rfl, fun value => by simpa [Field.Takes, field_read_eq_ok] using h value⟩

/-- The values that fit a record with these rules: an object whose keys are all known and name no
    rule twice, or the array of the first values. -/
inductive RecordFits (rules : List Rule) : Json → Prop
  | named (members : List (String × Json))
      (hvalues : ∀ entry ∈ members, ∃ rule ∈ rules, entry.1 ∈ rule.names ∧ rule.Fits entry.2)
      (honce : members.Pairwise fun a b => ∀ rule ∈ rules, a.1 ∈ rule.names → b.1 ∉ rule.names) :
      RecordFits rules (.obj members)
  | listed (items : List Json)
      (hvalues : List.Forall₂ (fun item rule => rule.Fits item) items
        (rules.take items.length)) :
      RecordFits rules (.arr items)

section Rules

variable {rules : List Rule} (h : List.Forall₂ Rule.Describes fields rules)
include h

theorem exists_field_iff :
    (∃ f ∈ fields, key ∈ f.names ∧ f.Takes value) ↔
      ∃ rule ∈ rules, key ∈ rule.names ∧ rule.Fits value := by
  induction h with
  | nil => simp
  | cons hfirst _ ih => simp [hfirst.1, hfirst.2, ih]

theorem forall_field_iff {P : List String → Prop} :
    (∀ f ∈ fields, P f.names) ↔ ∀ rule ∈ rules, P rule.names := by
  induction h with
  | nil => simp
  | cons hfirst _ ih => simp [hfirst.1, ih]

theorem takes_in_turn_iff {items : List Json} {n : Nat} :
    List.Forall₂ (fun item f => f.Takes item) items (fields.take n) ↔
      List.Forall₂ (fun item rule => rule.Fits item) items (rules.take n) := by
  induction h generalizing items n with
  | nil => simp
  | cons hfirst _ ih => cases n <;> cases items <;> simp [hfirst.2, ih]

/-- **A record is read when it fits its rules.** -/
theorem accepts_record {title : String} {defaults : σ} (hseparate : Separate fields)
    (hsteady : ∀ f ∈ fields, f.Steady) :
    Accepts (Decode.record title true fields defaults) (RecordFits rules) := by
  intro value
  cases value with
  | obj members =>
    have honce := fun a b : String × Json =>
      forall_field_iff h (P := fun names => a.1 ∈ names → b.1 ∉ names)
    rw [Decode.record, members_ok_iff hseparate hsteady]
    simp only [List.not_mem_nil, not_false_eq_true, true_and, exists_field_iff h, honce]
    constructor
    · rintro ⟨hvalues, honce⟩
      exact .named members hvalues honce
    · intro hfits
      cases hfits with
      | named _ hvalues honce => exact ⟨hvalues, honce⟩
  | arr items =>
    rw [Decode.record, elements_ok_iff hsteady, takes_in_turn_iff h]
    constructor
    · exact .listed items
    · intro hfits
      cases hfits with
      | listed _ hvalues => exact hvalues
  | _ =>
    constructor
    · rintro ⟨_, hok⟩
      cases hok
    · rintro ⟨⟩

end Rules

/-! ## 7. What every record that is read is like -/

/-- Reading the field keeps a property of the record. -/
def Field.Keeps (f : Field σ) (P : σ → Prop) : Prop :=
  ∀ ⦃value record result⦄, P record → f.read value record = .ok result → P result

theorem field_keeps {names : List String} {decode : Decode α} {set : σ → α → σ} {P : σ → Prop}
    (h : ∀ record value a, P record → decode value = .ok a → P (set record a)) :
    (field names decode set).Keeps P := by
  intro value record result hrecord hread
  obtain ⟨a, ha, rfl⟩ := field_read_eq_ok.mp hread
  exact h record value a hrecord ha

/-- **What the defaults have and every field keeps, every record that is read has.** -/
theorem keeps_record {title : String} {defaults : σ} {P : σ → Prop} (hdefaults : P defaults)
    (hkeeps : ∀ f ∈ fields, f.Keeps P)
    (h : Decode.record title strict fields defaults value = .ok result) : P result := by
  have hmembers : ∀ members seen record, P record →
      Decode.members strict fields seen members record = .ok result → P result := by
    intro members
    induction members with
    | nil => exact fun _ _ hrecord hok => Except.ok.inj hok ▸ hrecord
    | cons entry rest ih =>
      intro seen record hrecord hok
      rcases members_cons_eq_ok.mp hok with ⟨-, -, hrest⟩ | ⟨f, hf, -, next, hread, hrest⟩
      · exact ih _ _ hrecord hrest
      · exact ih _ _ (hkeeps f (mem_of_called hf).1 hrecord hread) hrest
  have helements : ∀ count (fields : List (Field σ)) items record, (∀ f ∈ fields, f.Keeps P) →
      P record → elements count fields items record = .ok result → P result := by
    intro count fields items
    induction items generalizing fields with
    | nil => exact fun _ _ hrecord hok => by simp_all [elements]
    | cons item items ih =>
      intro record hkeeps hrecord hok
      cases fields with
      | nil => simp [elements] at hok
      | cons f fields =>
        obtain ⟨hf, hfields⟩ := List.forall_mem_cons.mp hkeeps
        obtain ⟨next, hread, hrest⟩ := elements_cons_eq_ok.mp hok
        exact ih fields next hfields (hf hrecord hread) hrest
  cases value with
  | obj entries => exact hmembers entries [] defaults hdefaults h
  | arr items => exact helements items.length fields items defaults hkeeps hdefaults h
  | _ => cases h

end ApiTypes.Decode
