import Reflow.Proofs.GrammarRoundTrip
import Reflow.Proofs.Lists
import Reflow.Settings.Preferences

/-!
# Preferences are kept

Preferences that were read from a text without floating point numbers are read back from the text
that is written for them, and a setting that is not known shows the same there as in the text that
was read, at the end of every path into it (`Preferences.kept_by_text`). Such a setting is sorted
when it is read. Sorting looks at each part of a value by itself (`canonical?_induction`), so what it
keeps is shown for values without parts, arrays and objects.
-/

namespace Reflow

open List Option SortedMap

/-- A 64-bit integer. Minus zero is written like one, though it is held as a floating point
number. -/
def JsonNumber.IsInteger : JsonNumber → Prop
  | natural n => n < 2 ^ 64
  | negative n => 0 < n ∧ n ≤ 2 ^ 63
  | real bits => bits = 0x8000000000000000

namespace Json

/-! ## Parts of values -/

def parts : Json → List Json
  | array items => items
  | object members => members.map (·.2)
  | _ => []

inductive Numbers (condition : JsonNumber → Prop) : Json → Prop where
  | intro {json : Json} (here : ∀ number, json = .number number → condition number)
      (below : ∀ part ∈ json.parts, Numbers condition part) : Numbers condition json

/-- A step into a value: to the last member of a name, or to an item. -/
inductive Selector where
  | member (name : String)
  | item (index : Nat)

def select? : Json → Selector → Option Json
  | object members, .member name => members.reverse.lookup name
  | array items, .item index => items[index]?
  | _, _ => none

def at? (json : Json) : List Selector → Option Json
  | [] => some json
  | selector :: path => (json.select? selector).bind (at? · path)

def head : Json → Json
  | array _ => array []
  | object _ => object []
  | value => value

/-- Values that show the same at the end of every path. -/
def Agree (first second : Json) : Prop :=
  ∀ path, (first.at? path).map head = (second.at? path).map head

/-! ## Rows -/

/-- Members of the same names with related values. -/
def Rows (related : Json → Json → Prop) (given results : List (String × Json)) : Prop :=
  Forall₂ (fun member result => member.1 = result.1 ∧ related member.2 result.2) given results

variable {json value part first second : Json} {members results : List (String × Json)}

theorem Rows.lookup {related : Json → Json → Prop} {given : List (String × Json)}
    (rows : Rows related given results) (name : String) :
    Option.Rel related (given.lookup name) (results.lookup name) := by
  induction rows with
  | nil => exact .none
  | cons first _ ih =>
    rw [lookup_cons, lookup_cons, first.1]
    split
    · exact .some first.2
    · exact ih

/-! ## Sorted values -/

theorem canonicalAll?_eq (items : List Json) : canonicalAll? items = items.mapM canonical? := by
  induction items with
  | nil => rfl
  | cons item items ih =>
    rw [canonicalAll?, ih, mapM_cons]
    cases canonical? item <;> cases items.mapM canonical? <;> rfl

theorem canonicalMembers?_eq (members : List (String × Json)) :
    canonicalMembers? members =
      members.mapM fun member => (canonical? member.2).map (member.1, ·) := by
  induction members with
  | nil => rfl
  | cons member members ih =>
    rw [canonicalMembers?, ih, mapM_cons]
    cases canonical? member.2 <;>
      cases members.mapM fun member => (canonical? member.2).map (member.1, ·) <;> rfl

theorem rows_of_mapM {read : Json → Option Json}
    (all : (members.mapM fun member => (read member.2).map (member.1, ·)) = some results) :
    Rows (fun value result => read value = some result) members results := by
  refine (forall₂_of_mapM all).imp fun member result row => ?_
  obtain ⟨value, found, rfl⟩ := map_eq_some_iff.mp row
  exact ⟨rfl, found⟩

theorem sizeOf_lt_of_mem_parts (member : part ∈ json.parts) : sizeOf part < sizeOf json := by
  cases json with
  | array items =>
    have smaller : sizeOf part < sizeOf items := sizeOf_lt_of_mem member
    simp only [array.sizeOf_spec]
    omega
  | object members =>
    obtain ⟨⟨name, value⟩, inside, rfl⟩ := mem_map.mp member
    have smaller := sizeOf_lt_of_mem inside
    simp only [object.sizeOf_spec, Prod.mk.sizeOf_spec] at smaller ⊢
    omega
  | _ => cases member

/-- What holds of a value if it holds of its parts holds of every value. -/
theorem induction_parts {motive : Json → Prop}
    (step : ∀ json, (∀ part ∈ json.parts, motive part) → motive json) (json : Json) : motive json :=
  step json fun part member =>
    have := sizeOf_lt_of_mem_parts member
    induction_parts step part
termination_by sizeOf json

/-- What sorting does to values: nothing to those without parts, each item of an array by itself,
and each member of an object before the last ones of their names are put in order. -/
theorem canonical?_induction {motive : Json → Json → Prop}
    (leaf : ∀ json, json.parts = [] → canonical? json = some json → motive json json)
    (array : ∀ items results, Forall₂ motive items results →
      motive (.array items) (.array results))
    (object : ∀ members results, Rows motive members results →
      motive (.object members) (.object (ofList results).entries))
    (sorted : canonical? json = some value) : motive json value := by
  induction json using induction_parts generalizing value with
  | step json ih =>
    cases json with
    | array items =>
      obtain ⟨results, all, rfl⟩ := map_eq_some_iff.mp sorted
      rw [canonicalAll?_eq] at all
      refine array items results (((forall₂_and_left _ _).mpr
        ⟨ih, forall₂_of_mapM all⟩).imp ?_)
      exact fun item result row => row.1 row.2
    | object members =>
      obtain ⟨results, all, rfl⟩ := map_eq_some_iff.mp sorted
      rw [canonicalMembers?_eq] at all
      refine object members results (((forall₂_and_left _ _).mpr
        ⟨forall_mem_map.mp ih, rows_of_mapM all⟩).imp ?_)
      exact fun member result row => ⟨row.2.1, row.1 row.2.2⟩
    | unreadable => cases sorted
    | null | bool | number | string => cases sorted; exact leaf _ rfl rfl

theorem canonical?_idem (sorted : canonical? json = some value) :
    canonical? value = some value := by
  refine @canonical?_induction _ _ (fun _ value => canonical? value = some value) ?_ ?_ ?_ sorted
  · exact fun _ _ same => same
  · intro items results rows
    have each : ∀ result ∈ results, canonical? result = some result := fun result member =>
      (rows.exists_of_mem member).choose_spec.2
    rw [canonical?, canonicalAll?_eq, mapM_eq_self each, map_some]
  · intro members results rows
    have each : ∀ entry ∈ (ofList results).entries,
        (canonical? entry.2).map (entry.1, ·) = some entry := by
      intro entry member
      obtain ⟨_, _, _, same⟩ := rows.exists_of_mem (mem_of_mem_ofList member)
      rw [same, map_some]
    rw [canonical?, canonicalMembers?_eq, mapM_eq_self each, map_some, ofList_entries]

theorem nestingAll_le_iff {items : List Json} {bound : Nat} :
    nestingAll items ≤ bound ↔ ∀ item ∈ items, item.nesting ≤ bound := by
  induction items with
  | nil => simp [nestingAll]
  | cons item items ih => rw [nestingAll, Nat.max_le, ih, forall_mem_cons]

theorem nestingMembers_le_iff {bound : Nat} :
    nestingMembers members ≤ bound ↔ ∀ member ∈ members, member.2.nesting ≤ bound := by
  induction members with
  | nil => simp [nestingMembers]
  | cons member members ih => rw [nestingMembers, Nat.max_le, ih, forall_mem_cons]

/-- Sorted values are nested no deeper. -/
theorem nesting_canonical? (sorted : canonical? json = some value) :
    value.nesting ≤ json.nesting := by
  refine @canonical?_induction _ _ (fun json value => value.nesting ≤ json.nesting) ?_ ?_ ?_ sorted
  · exact fun _ _ _ => Nat.le_refl _
  · intro items results rows
    refine Nat.succ_le_succ (nestingAll_le_iff.mpr fun result member => ?_)
    obtain ⟨item, inside, smaller⟩ := rows.exists_of_mem member
    exact Nat.le_trans smaller (nestingAll_le_iff.mp (Nat.le_refl _) item inside)
  · intro members results rows
    refine Nat.succ_le_succ (nestingMembers_le_iff.mpr fun entry member => ?_)
    obtain ⟨given, inside, _, smaller⟩ := rows.exists_of_mem (mem_of_mem_ofList member)
    exact Nat.le_trans smaller (nestingMembers_le_iff.mp (Nat.le_refl _) given inside)

/-- If all numbers in a value are integers, the text of the sorted value determines it. -/
theorem readable_canonical? (sorted : canonical? json = some value)
    (integers : json.Numbers JsonNumber.IsInteger) : Readable value := by
  refine @canonical?_induction _ _ (fun json value => json.Numbers JsonNumber.IsInteger →
    Readable value) ?_ ?_ ?_ sorted integers
  · rintro json noneBelow same ⟨here, _⟩
    cases json with
    | null | bool | string => simp
    | number value =>
      have integer := here value rfl
      cases value with
      | natural n => exact .natural integer
      | negative n => exact .negative integer.1 integer.2
      | real bits => cases integer; exact .minusZero
    | array | object => simp_all [parts]
    | unreadable => cases same
  · rintro items results rows ⟨_, below⟩
    refine .array fun result member => ?_
    obtain ⟨item, inside, readable⟩ := rows.exists_of_mem member
    exact readable (below item inside)
  · rintro members results rows ⟨_, below⟩
    refine .object fun entry member => ?_
    obtain ⟨given, inside, _, readable⟩ := rows.exists_of_mem (mem_of_mem_ofList member)
    exact readable (below _ (mem_map_of_mem inside))

theorem Readable.numbers (readable : Readable json) : json.Numbers JsonNumber.IsInteger := by
  induction readable with
  | natural small => exact .intro (by rintro _ ⟨⟩; exact small) (by simp [parts])
  | negative positive small =>
    exact .intro (by rintro _ ⟨⟩; exact ⟨positive, small⟩) (by simp [parts])
  | minusZero => exact .intro (by rintro _ ⟨⟩; rfl) (by simp [parts])
  | array _ ih => exact .intro (by simp) ih
  | object _ ih => exact .intro (by simp) (forall_mem_map.mpr ih)
  | null | bool | string => exact .intro (by simp) (by simp [parts])

/-! ## Values at the ends of paths -/

theorem agree_below {first second : Option Json} (related : Option.Rel Agree first second)
    (path : List Selector) :
    (first.bind (at? · path)).map head = (second.bind (at? · path)).map head := by
  cases related with
  | some agree => exact agree path
  | none => rfl

theorem agree_of_select (here : first.head = second.head)
    (below : ∀ selector, Option.Rel Agree (first.select? selector) (second.select? selector)) :
    Agree first second := by
  intro path
  cases path with
  | nil => exact congrArg some here
  | cons selector path => exact agree_below (below selector) path

/-- A sorted value shows what the value shows. -/
theorem agree_canonical? (sorted : canonical? json = some value) : Agree json value := by
  refine canonical?_induction (fun _ _ _ _ => rfl) ?_ ?_ sorted
  · intro items results rows
    refine agree_of_select rfl fun selector => ?_
    cases selector with
    | member name => exact .none
    | item index => exact rows.getElem? index
  · intro members results rows
    refine agree_of_select rfl fun selector => ?_
    cases selector with
    | member name =>
      rw [select?, select?, lookup_reverse, get?_ofList]
      exact Rows.lookup (forall₂_reverse_iff.mpr rows) name
    | item index => exact .none

end Json

/-! ## Preferences -/

namespace Preferences

open Json

variable {json : Json} {given : Option Json} {preferences : Preferences}

theorem ofJson?_eq_some (read : ofJson? json = some preferences) :
    ∃ members rulers tabSize other, json = .object members ∧
      fields? knownNames (.object members) = some [rulers, tabSize] ∧
      Rows (fun value result => otherValue? value = some result)
        (members.filter fun member => !knownNames.contains member.1) other ∧
      rulers? rulers = some preferences.rulers ∧ tabSize? tabSize = some preferences.tabSize ∧
      preferences.other = .ofList other := by
  unfold ofJson? at read
  split at read
  · next members =>
    obtain ⟨values, known, read⟩ := bind_eq_some_iff.mp read
    split at read
    · next rulers tabSize =>
      obtain ⟨other, unknown, read⟩ := bind_eq_some_iff.mp read
      obtain ⟨first, one, read⟩ := bind_eq_some_iff.mp read
      obtain ⟨second, two, built⟩ := bind_eq_some_iff.mp read
      cases built
      exact ⟨members, rulers, tabSize, other, rfl, known, rows_of_mapM unknown, one, two, rfl⟩
    · cases read
  · cases read

theorem mem_parts_of_fields? {names : List String} {members : List (String × Json)}
    {values : List (Option Json)} (known : fields? names (.object members) = some values)
    {value : Json} (listed : some value ∈ values) : value ∈ (Json.object members).parts := by
  obtain ⟨name, _, found⟩ := (forall₂_of_mapM known).exists_of_mem listed
  split at found
  · cases found
  · next member alone =>
    cases found
    have inside : (_, value) ∈ members.filter (·.1 == name) := alone ▸ mem_cons_self
    exact mem_map_of_mem (mem_filter.mp inside).1
  · cases found

theorem nat_lt {n : Nat} (read : nat? json = some n)
    (integers : json.Numbers JsonNumber.IsInteger) : n < 2 ^ 64 := by
  obtain ⟨here, _⟩ := integers
  unfold nat? at read
  split at read
  · cases read
    exact here _ rfl
  · cases read

theorem rulers_lt {rulers : List Nat} (read : rulers? given = some (some rulers))
    (integers : ∀ value ∈ given, value.Numbers JsonNumber.IsInteger) :
    ∀ ruler ∈ rulers, ruler < 2 ^ 64 := by
  intro ruler member
  obtain _ | value := given
  · cases read
  · obtain ⟨_, below⟩ := integers value rfl
    cases value with
    | array items =>
      obtain ⟨_, all, same⟩ := map_eq_some_iff.mp read
      cases same
      obtain ⟨item, inside, found⟩ := (forall₂_of_mapM all).exists_of_mem member
      exact nat_lt found (below item inside)
    | _ => cases read

theorem tabSize_lt {tabSize : Nat} (read : tabSize? given = some (some tabSize))
    (integers : ∀ value ∈ given, value.Numbers JsonNumber.IsInteger) : tabSize < 2 ^ 64 := by
  obtain _ | value := given
  · cases read
  · cases value with
    | number value =>
      obtain ⟨_, found, same⟩ := map_eq_some_iff.mp read
      cases same
      exact nat_lt found (integers _ rfl)
    | _ => cases read

/-- Preferences that can be read again: numbers within range, and under names that are not known
sorted values that their texts determine. -/
structure Plain (preferences : Preferences) : Prop where
  rulers : ∀ rulers ∈ preferences.rulers, ∀ ruler ∈ rulers, ruler < 2 ^ 64
  tabSize : ∀ tabSize ∈ preferences.tabSize, tabSize < 2 ^ 64
  names : ∀ entry ∈ preferences.other.entries, entry.1 ∉ knownNames
  values : ∀ entry ∈ preferences.other.entries, otherValue? entry.2 = some entry.2
  readable : ∀ entry ∈ preferences.other.entries, Readable entry.2

/-- The known settings as JSON values. -/
theorem fields?_toJson (plain : preferences.Plain) :
    fields? knownNames preferences.toJson =
      some [preferences.rulers.map fun rulers => .array (rulers.map natJson),
        preferences.tabSize.map natJson] := by
  obtain ⟨rulers, tabSize, other⟩ := preferences
  have absent : ∀ name ∈ knownNames, other.entries.filter (·.1 == name) = [] := by
    intro name known
    refine filter_eq_nil_iff.mpr fun entry member same => plain.names entry member ?_
    rwa [eq_of_beq same]
  have noRulers := absent "rulers" (by decide)
  have noTabSize := absent "tab_size" (by decide)
  rw [toJson, fields?, knownNames, mapM_cons, mapM_cons, mapM_nil]
  simp only [filter_append, noRulers, noTabSize]
  cases rulers <;> cases tabSize <;> rfl

theorem unknown_toJson (plain : preferences.Plain) :
    (knownMember "rulers" (preferences.rulers.map fun rulers => .array (rulers.map natJson)) ++
      knownMember "tab_size" (preferences.tabSize.map natJson) ++ preferences.other.entries).filter
      (fun member => !knownNames.contains member.1) = preferences.other.entries := by
  have kept : preferences.other.entries.filter (fun member => !knownNames.contains member.1) =
      preferences.other.entries := by
    refine filter_eq_self.mpr fun entry member => ?_
    simpa using plain.names entry member
  rw [filter_append, filter_append, kept]
  cases preferences.rulers <;> cases preferences.tabSize <;> rfl

theorem ofJson?_toJson (plain : preferences.Plain) :
    ofJson? preferences.toJson = some preferences := by
  have again : (preferences.other.entries.mapM fun member =>
      (otherValue? member.2).map (member.1, ·)) = some preferences.other.entries :=
    mapM_eq_self fun entry member => by rw [plain.values entry member, Option.map_some]
  have rulers : rulers? (preferences.rulers.map fun rulers => .array (rulers.map natJson)) =
      some preferences.rulers := by
    cases preferences.rulers with
    | none => rfl
    | some rulers =>
      exact congrArg (Option.map some) (@list?_map _ nat? natJson rulers fun _ => rfl)
  have tabSize : tabSize? (preferences.tabSize.map natJson) = some preferences.tabSize := by
    cases preferences.tabSize <;> rfl
  have known := fields?_toJson plain
  unfold toJson at known ⊢
  simp only [ofJson?, known, unknown_toJson plain]
  simp only [Option.bind_eq_bind, Option.bind_some]
  rw [again]
  simp only [Option.bind_some, rulers, tabSize, ofList_entries]
  rfl

theorem readable_toJson (plain : preferences.Plain) : Readable preferences.toJson := by
  refine .object fun member listed => ?_
  simp only [mem_append] at listed
  rcases listed with (rulers | tabSize) | other
  · cases found : preferences.rulers with
    | none => rw [found] at rulers; cases rulers
    | some rulers' =>
      rw [found] at rulers
      cases mem_singleton.mp rulers
      simpa [natJson] using plain.rulers rulers' found
  · cases found : preferences.tabSize with
    | none => rw [found] at tabSize; cases tabSize
    | some size =>
      rw [found] at tabSize
      cases mem_singleton.mp tabSize
      simpa [natJson] using plain.tabSize size found
  · exact plain.readable member other

theorem otherValue?_eq_some {value : Json} (read : otherValue? json = some value) :
    json.nesting ≤ maxNesting ∧ canonical? json = some value := by
  unfold otherValue? at read
  split at read
  · next shallow => exact ⟨shallow, read⟩
  · cases read

/-- Settings that were read can be read again. -/
theorem plain_of_ofJson? (read : ofJson? json = some preferences)
    (integers : json.Numbers JsonNumber.IsInteger) : preferences.Plain := by
  obtain ⟨members, rulers, tabSize, other, rfl, known, rows, one, two, made⟩ :=
    ofJson?_eq_some read
  obtain ⟨_, below⟩ := integers
  have listed : ∀ value, some value ∈ [rulers, tabSize] → value.Numbers JsonNumber.IsInteger :=
    fun value inside => below value (mem_parts_of_fields? known inside)
  have origin : ∀ entry ∈ preferences.other.entries, ∃ member ∈ members, member.1 = entry.1 ∧
      member.1 ∉ knownNames ∧ otherValue? member.2 = some entry.2 := by
    intro entry inside
    rw [made] at inside
    obtain ⟨member, kept, name, value⟩ := rows.exists_of_mem (mem_of_mem_ofList inside)
    obtain ⟨among, unknown⟩ := mem_filter.mp kept
    exact ⟨member, among, name, by simpa using unknown, value⟩
  refine ⟨fun rulers found => ?_, fun tabSize found => ?_, fun entry inside => ?_,
    fun entry inside => ?_, fun entry inside => ?_⟩
  · rw [found] at one
    exact rulers_lt one fun value here => listed value (by simp [mem_def.mp here])
  · rw [found] at two
    exact tabSize_lt two fun value here => listed value (by simp [mem_def.mp here])
  all_goals
    obtain ⟨member, among, name, unknown, value⟩ := origin entry inside
    obtain ⟨shallow, sorted⟩ := otherValue?_eq_some value
  · exact name ▸ unknown
  · rw [otherValue?, if_pos (Nat.le_trans (nesting_canonical? sorted) shallow),
      canonical?_idem sorted]
  · exact readable_canonical? sorted (below _ (mem_map_of_mem among))

theorem lookup_unknown {name : String} (unknown : name ∉ knownNames)
    (members : List (String × Json)) :
    members.reverse.lookup name =
      (members.filter fun member => !knownNames.contains member.1).reverse.lookup name := by
  rw [← filter_reverse]
  induction members.reverse with
  | nil => rfl
  | cons member members ih =>
    rw [filter_cons, lookup_cons]
    split
    · next same =>
      have kept : (!knownNames.contains member.1) = true := by
        simpa [← eq_of_beq same] using unknown
      rw [if_pos kept, lookup_cons, same]
    · next other =>
      rw [ih]
      split
      · rw [lookup_cons, other]
      · rfl

/-- Settings that are not known show in the written value what they show in the value that was
read. -/
theorem agree_unknown (read : ofJson? json = some preferences) (plain : preferences.Plain)
    {name : String} (unknown : name ∉ knownNames) :
    Option.Rel Agree (json.select? (.member name)) (preferences.toJson.select? (.member name)) := by
  obtain ⟨members, _, _, other, rfl, _, rows, _, _, made⟩ := ofJson?_eq_some read
  have agree : Rows Agree (members.filter fun member => !knownNames.contains member.1) other :=
    rows.imp fun _ _ row => ⟨row.1, agree_canonical? (otherValue?_eq_some row.2).2⟩
  rw [toJson, select?, select?, lookup_unknown unknown members, lookup_unknown unknown (_ ++ _),
    unknown_toJson plain, lookup_reverse, made, get?_ofList]
  exact Rows.lookup (forall₂_reverse_iff.mpr agree) name

/-- Preferences come back from their text as they are, if all numbers are integers, and every
setting that is not known keeps its last value, down to every part of it. -/
theorem kept_by_text {text : String} {json : Json} {preferences : Preferences}
    (parsed : parse? text = some json) (integers : json.Numbers JsonNumber.IsInteger)
    (read : ofText? text = some preferences) :
    ofText? preferences.toText = some preferences ∧
      (ofText? preferences.toText).map style = some preferences.style ∧
      ∃ written, parse? preferences.toText = some written ∧
        ∀ name ∉ knownNames, ∀ path, (written.at? (.member name :: path)).map head =
          (json.at? (.member name :: path)).map head := by
  have found : ofJson? json = some preferences := by
    rwa [ofText?, parsed, bind_some] at read
  have plain := plain_of_ofJson? found integers
  have written : parse? preferences.toText = some preferences.toJson :=
    parse?_text (readable_toJson plain)
  have again : ofText? preferences.toText = some preferences := by
    rw [ofText?, written, bind_some, ofJson?_toJson plain]
  refine ⟨again, by rw [again, map_some], preferences.toJson, written, ?_⟩
  exact fun name unknown path => (agree_below (agree_unknown found plain unknown) path).symm

/-- Settings with a repeated name, nested values, a character that is escaped and numbers at the ends
of the range. -/
def nestedSettings : Json :=
  .object [("b", .number (.natural 1)), ("rulers", .array [.number (.natural 72)]),
    ("a", .array [.number (.natural (2 ^ 64 - 1)), .number (.negative (2 ^ 63)),
      .number (.real 0x8000000000000000)]),
    ("tab_size", .null), ("b", .object [("y", .string "é\n"), ("x", .array []), ("y", .null)])]

def nestedPreferences : Preferences where
  rulers := some [72]
  other := .ofList [
    ("a", .array [.number (.natural (2 ^ 64 - 1)), .number (.negative (2 ^ 63)),
      .number (.real 0x8000000000000000)]),
    ("b", .object [("x", .array []), ("y", .null)])]

theorem nestedPreferences_kept :
    ofText? nestedSettings.text = some nestedPreferences ∧
      ofText? nestedPreferences.toText = some nestedPreferences := by
  have readable : Readable nestedSettings := by
    simp [nestedSettings, Readable.minusZero, Readable.negative]
  have read : ofText? nestedSettings.text = some nestedPreferences := by
    rw [ofText?, parse?_text readable]
    rfl
  exact ⟨read, (kept_by_text (parse?_text readable) readable.numbers read).1⟩

end Preferences

end Reflow
