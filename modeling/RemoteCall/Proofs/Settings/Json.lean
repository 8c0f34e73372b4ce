import RemoteCall.Proofs.Json.Pretty
import RemoteCall.Proofs.Settings.Address
import RemoteCall.Proofs.Settings.Codec
import RemoteCall.Settings.Json

/-!
# JSON is lawful

Indented JSON has what settings rely on: its text is read as the tree that was written, strings and
integers of eight bytes mean what they meant, and the members of an object are found under their
names.
-/

namespace RemoteCall.Settings

variable {α : Type}

/-! ### Trees of documents -/

mutual

/-- The tree that the JSON of a document is read as. -/
def Document.toRaw : Document → Json.Raw
  | .absent => .null
  | .present d => d.toRaw
  | .truth b => .bool b
  | .integer i => .number (.ofInt i)
  | .text s => .string (Json.units s)
  | .variant name => .string (Json.units name)
  | .record fields => .object (rawMembersOf fields)

/-- The trees of fields with their names. -/
def rawMembersOf : List (String × Document) → List (List Nat × Json.Raw)
  | [] => []
  | (name, d) :: rest => (Json.units name, d.toRaw) :: rawMembersOf rest

end

mutual

/-- All that a document has as JSON is read back. -/
theorem Document.raw?_toJson (d : Document) : d.toJson.raw? = some d.toRaw := by
  cases d with
  | absent => rfl
  | present d => exact d.raw?_toJson
  | truth b => rfl
  | integer i => rfl
  | text s => rfl
  | variant name => rfl
  | record fields =>
    rw [Document.toJson, Json.raw?, rawMembers?_membersOf fields, Document.toRaw, Option.map_some]

/-- All that fields have as members is read back. -/
theorem rawMembers?_membersOf (fields : List (String × Document)) :
    Json.rawMembers? (membersOf fields) = some (rawMembersOf fields) := by
  cases fields with
  | nil => rfl
  | cons field rest =>
    obtain ⟨name, d⟩ := field
    rw [membersOf, Json.rawMembers?, d.raw?_toJson, rawMembers?_membersOf rest, rawMembersOf]
    rfl

end

/-- The text of a document is read as its own tree and as no other. -/
theorem Codec.spells_json_iff {d : Document} {r : Json.Raw} :
    Codec.json.Spells d r ↔ d.toRaw = r := by
  have hparse : Codec.json.Spells d d.toRaw := Json.parse?_pretty d.raw?_toJson
  refine ⟨fun h => Option.some.inj (hparse.symm.trans h), ?_⟩
  rintro rfl
  exact hparse

/-! ### Members -/

namespace Raw

/-- A member with a name of its own is the only one under that name. -/
theorem filter_fst_eq {named : List (String × Json.Raw)} (hnodup : (named.map Prod.fst).Nodup)
    {m : String × Json.Raw} (hm : m ∈ named) : named.filter (·.1 = m.1) = [m] := by
  induction named with
  | nil => exact absurd hm List.not_mem_nil
  | cons first rest ih =>
    rw [List.map_cons, List.nodup_cons] at hnodup
    obtain ⟨hfirst, hrest⟩ := hnodup
    rcases List.mem_cons.mp hm with rfl | hm
    · have hnone : rest.filter (·.1 = m.1) = [] := by
        refine List.filter_eq_nil_iff.mpr fun other hother heq => hfirst ?_
        exact List.mem_map.mpr ⟨other, hother, of_decide_eq_true heq⟩
      rw [List.filter_cons_of_pos (by simp), hnone]
    · have hne : first.1 ≠ m.1 := fun heq =>
        hfirst (List.mem_map.mpr ⟨m, hm, heq.symm⟩)
      rw [List.filter_cons_of_neg (by simpa using hne), ih hrest hm]

/-- A member with its name as a text. -/
def member? : List Nat × Json.Raw → Option (String × Json.Raw)
  | (units, j) => (Json.text? units).map fun name => (name, j)

/-- Members with the names of the fields, each once and in order, are the fields. -/
theorem fields?_object (named : List (String × Json.Raw)) (hnodup : (named.map Prod.fst).Nodup) :
    fields? (named.map Prod.fst) (.object (named.map fun m => (Json.units m.1, m.2))) =
      some (named.map fun m => some m.2) := by
  have hread : (named.map fun m => (Json.units m.1, m.2)).mapM member? = some (named.map id) :=
    mapM_map_eq_some fun m _ => by
      rw [member?, Json.text?_units]
      rfl
  rw [fields?]
  change (List.mapM member? _).bind _ = _
  rw [hread, List.map_id, Option.bind_some]
  refine mapM_map_eq_some fun m hm => ?_
  rw [filter_fst_eq hnodup hm]

/-- The members of a record are the trees of its fields. -/
theorem exists_named {fields : List (String × Document)} {raws : List Json.Raw}
    (h : List.Forall₂ (fun field r => Codec.json.Spells field.2 r) fields raws) :
    ∃ named : List (String × Json.Raw), named.map Prod.fst = fields.map Prod.fst ∧
      named.map (fun m => some m.2) = raws.map some ∧
      rawMembersOf fields = named.map fun m => (Json.units m.1, m.2) := by
  induction h with
  | nil => exact ⟨[], rfl, rfl, rfl⟩
  | @cons field r fields raws hr _ ih =>
    obtain ⟨named, hnames, hraws, hmembers⟩ := ih
    refine ⟨(field.1, r) :: named, ?_, ?_, ?_⟩
    · rw [List.map_cons, List.map_cons, hnames]
    · rw [List.map_cons, List.map_cons, hraws]
    · rw [rawMembersOf, Codec.spells_json_iff.mp hr, hmembers, List.map_cons]

/-- A case is found under its name. -/
theorem lookup_of_mem {cases : List (String × α)} {name : String} {a : α}
    (hnodup : (cases.map Prod.fst).Nodup) (hcase : (name, a) ∈ cases) :
    cases.lookup name = some a := by
  induction cases with
  | nil => exact absurd hcase List.not_mem_nil
  | cons first rest ih =>
    rw [List.map_cons, List.nodup_cons] at hnodup
    obtain ⟨hfirst, hrest⟩ := hnodup
    rcases List.mem_cons.mp hcase with rfl | hcase
    · exact List.lookup_cons_self
    · have hne : name ≠ first.1 := fun heq =>
        hfirst (List.mem_map.mpr ⟨(name, a), hcase, heq⟩)
      rw [List.lookup_cons, beq_false_of_ne hne]
      exact ih hrest hcase

end Raw

/-! ### The laws -/

/-- A document that is no option is not read as null. -/
theorem Document.toRaw_ne_null {d : Document} (hd : d.IsBare) : d.toRaw ≠ .null := by
  cases d with
  | absent => exact absurd hd id
  | present d => exact absurd hd id
  | _ => exact nofun

namespace Codec

/-- An integer that is read from JSON was found in its range. -/
theorem json_integer?_range {low high i : Int} {r : Json.Raw}
    (h : Raw.integer? low high r = some i) : low ≤ i ∧ i ≤ high := by
  unfold Raw.integer? at h
  split at h
  · split at h
    · split at h
      · cases h
        assumption
      · exact nomatch h
    · exact nomatch h
  · exact nomatch h

/-- The value of an option is read from the same tree. -/
theorem json_optional?_value {part : Json.Raw → Option α} {r : Json.Raw} {a : α}
    (h : Raw.optional? part r = some (some a)) : part r = some a := by
  unfold Raw.optional? at h
  split at h
  · exact nomatch h
  · obtain ⟨b, hb, hsame⟩ := Option.map_eq_some_iff.mp h
    cases hsame
    exact hb

/-- Indented JSON is lawful. -/
theorem json_lawful : Codec.json.Lawful where
  truth b := ⟨_, spells_json_iff.mpr rfl, rfl⟩
  integer {_ _ i} hleast hgreatest hlow hhigh := by
    refine ⟨_, spells_json_iff.mpr rfl, ?_⟩
    change Raw.integer? _ _ (.number (.ofInt i)) = some i
    rw [Raw.integer?, Json.Numeral.integer?_ofInt (by omega) (by omega)]
    exact if_pos ⟨hlow, hhigh⟩
  text s := ⟨_, spells_json_iff.mpr rfl, Json.text?_units s⟩
  variant {_ _ name _} hnodup hcase := by
    refine ⟨_, spells_json_iff.mpr rfl, ?_⟩
    change (Json.text? (Json.units name)).bind _ = _
    rw [Json.text?_units]
    exact Raw.lookup_of_mem hnodup hcase
  absent := ⟨_, spells_json_iff.mpr rfl, fun _ => rfl⟩
  present {d _} hd ht := by
    obtain rfl := spells_json_iff.mp ht
    refine ⟨_, spells_json_iff.mpr rfl, fun part => ?_⟩
    change Raw.optional? part d.toRaw = (part d.toRaw).map some
    have hnull := Document.toRaw_ne_null hd
    generalize d.toRaw = r at hnull
    cases r with
    | null => exact absurd rfl hnull
    | _ => rfl
  record {fields _} _ hnodup hfields := by
    obtain ⟨named, hnames, hraws, hmembers⟩ := Raw.exists_named hfields
    refine ⟨_, spells_json_iff.mpr rfl, ?_⟩
    change Raw.fields? _ (.object (rawMembersOf fields)) = _
    rw [← hnames] at hnodup ⊢
    rw [hmembers, Raw.fields?_object named hnodup]
    exact congrArg some hraws
  found _ _ _ := rfl
  missing _ _ := rfl
  range h := json_integer?_range h
  value h := ⟨_, json_optional?_value h⟩

end Codec

end RemoteCall.Settings
