import RemoteCall.Proofs.Number.Rounding
import RemoteCall.Proofs.Text.Order
import RemoteCall.Proofs.Value.Equality
import RemoteCall.Proofs.Value.Pairs
import RemoteCall.Value.Json

/-!
# Values and documents

A document becomes a value and is shown again as itself, if its arrays have items and its integers
have at most fifty-three bits. A value is shown as a document that reads back as an equal value, if
it is made of lists, of tables with named members and of scalars that have a form of their own: an
array is shown for a table that counts its keys from one, and an object for every other, so that no
list and no table with names is taken for the other. This ends where the counter of the keys runs
over: both ways hold exactly as long as nothing inside has 2³¹ items.
-/

namespace RemoteCall

namespace Binary64

variable {x y : Binary64} {i : Int}

/-- What is a number equals itself. -/
theorem same_self (hx : x.isNaN = false) : x.same x = true := by
  simp [same, hx]

/-- Equality of numbers goes both ways. -/
theorem same_comm (x y : Binary64) : x.same y = y.same x := by
  rw [same, same, Bool.and_comm (!x.isNaN), Bool.and_comm x.isZero, Bool.beq_comm]

/-- An integer beyond all numbers becomes infinite. -/
theorem not_isNaN_ofInt (i : Int) : (ofInt i).isNaN = false := by
  have hle := FloatLayout.double.nearest_le_infinity (i.natAbs * FloatLayout.double.one) 1
  have hlt := Nat.lt_of_le_of_lt hle infinity_lt_signWeight
  rw [isNaN, ofInt, ofRatio, nearest, magnitude_ofMagnitude hlt]
  exact decide_eq_false (Nat.not_lt.mpr hle)

/-- What is worth an integer has no fraction. -/
theorem Holds.isIntegral (h : x.Holds i) : x.isIntegral = true := by
  rw [Binary64.isIntegral, h.isFinite, h.units_eq, Nat.mul_mod_left]
  rfl

/-- A number that is an integer of eight bytes, or the one above, equals the number nearest to what
it is clamped to. -/
theorem Holds.ofInt_clamp_same (h : x.Holds i) (hlow : -9223372036854775808 ≤ i)
    (hhigh : i ≤ 9223372036854775808) : (Binary64.ofInt (x.clamp 64)).same x = true := by
  have hpower : Nat.pow 2 (64 - 1) = 9223372036854775808 := rfl
  rw [h.clamp_eq, hpower]
  by_cases hend : i = 9223372036854775808
  · -- One above the largest integer of eight bytes, which is rounded up to it again.
    have hround : Binary64.ofInt 9223372036854775807 = Binary64.ofInt 9223372036854775808 := by
      decide +kernel
    have hclamp : Max.max (-((9223372036854775808 : Nat) : Int))
        (Min.min ((9223372036854775808 : Nat) - 1) i) = 9223372036854775807 := by omega
    rw [hclamp, hround, ← hend]
    exact h.same_ofInt
  · have hclamp : Max.max (-((9223372036854775808 : Nat) : Int))
        (Min.min ((9223372036854775808 : Nat) - 1) i) = i := by omega
    rw [hclamp]
    exact h.same_ofInt

end Binary64

/-! ### Names in order -/

/-- The names are distinct and in the order of their bytes. -/
def Text.Ascending (names : List String) : Prop :=
  names.Pairwise fun name later => Text.bytes name < Text.bytes later

instance (names : List String) : Decidable (Text.Ascending names) :=
  inferInstanceAs (Decidable (List.Pairwise _ _))

/-- A name above all others goes to the end. -/
theorem Pairs.insertSorted_of_forall_lt {β : Type} {pairs : List (String × β)} {name : String}
    (value : β) (h : ∀ pair ∈ pairs, pair.1 < name) :
    insertSorted name value pairs = pairs ++ [(name, value)] := by
  induction pairs with
  | nil => rfl
  | cons pair pairs ih =>
    obtain ⟨hfirst, hrest⟩ := List.forall_mem_cons.mp h
    have hne : pair.1 ≠ name := fun heq => String.lt_irrefl name (heq ▸ hfirst)
    rw [insertSorted, if_neg hne, if_neg (String.lt_asymm hfirst), ih hrest, List.cons_append]

/-- Members in order make an object as they are. -/
theorem Json.ofMembers_of_ascending {members : List (String × Json)}
    (h : Text.Ascending (members.map Prod.fst)) : ofMembers members = .object members := by
  have hfold : ∀ (rest sorted : List (String × Json)),
      Text.Ascending ((sorted ++ rest).map Prod.fst) →
      rest.foldl (fun sorted m => Pairs.insertSorted m.1 m.2 sorted) sorted = sorted ++ rest := by
    intro rest
    induction rest with
    | nil => exact fun sorted _ => (List.append_nil sorted).symm
    | cons member rest ih =>
      obtain ⟨name, j⟩ := member
      intro sorted hsorted
      have hbelow : ∀ pair ∈ sorted, pair.1 < name := by
        intro pair hpair
        rw [List.map_append] at hsorted
        exact Text.bytes_lt_bytes.mp ((List.pairwise_append.mp hsorted).2.2 _
          (List.mem_map_of_mem hpair) _ List.mem_cons_self)
      rw [List.append_cons] at hsorted
      rw [List.foldl_cons]
      dsimp only
      rw [Pairs.insertSorted_of_forall_lt j hbelow, ih _ hsorted, ← List.append_cons]
  rw [ofMembers, hfold members [] h, List.nil_append]

namespace Value

variable {pairs : List (Value × Value)}

/-! ### Parts of documents and of tables -/

/-- Items become values one by one. -/
theorem ofJsonItems_eq_map (items : List Json) : ofJsonItems items = items.map ofJson := by
  induction items with
  | nil => rfl
  | cons j rest ih => exact congrArg (ofJson j :: ·) ih

/-- Members become pairs one by one, with their names as keys. -/
theorem ofJsonMembers_eq_map (members : List (String × Json)) :
    ofJsonMembers members = members.map fun m => (ofText m.1, ofJson m.2) := by
  induction members with
  | nil => rfl
  | cons m rest ih => exact congrArg ((ofText m.1, ofJson m.2) :: ·) ih

/-- The values of pairs become items one by one. -/
theorem toJsonItems_eq_map (pairs : List (Value × Value)) :
    toJsonItems pairs = pairs.map fun pair => toJson pair.2 := by
  induction pairs with
  | nil => rfl
  | cons pair rest ih => exact congrArg (toJson pair.2 :: ·) ih

/-- Pairs become members one by one, with the text of their keys as names. -/
theorem toJsonMembers_eq_map (pairs : List (Value × Value)) :
    toJsonMembers pairs = pairs.map fun pair => (keyText pair.1, toJson pair.2) := by
  induction pairs with
  | nil => rfl
  | cons pair rest ih => exact congrArg ((keyText pair.1, toJson pair.2) :: ·) ih

/-- The members of a table with these names and values. -/
def named (members : List (String × Value)) : List (Value × Value) :=
  members.map fun m => (ofText m.1, m.2)

/-- An array becomes a list. -/
theorem ofJson_array (items : List Json) :
    ofJson (.array items) = ofList (items.map ofJson) := by
  rw [← ofJsonItems_eq_map]
  rfl

/-- An object becomes a table with its names. -/
theorem ofJson_object (members : List (String × Json)) :
    ofJson (.object members) = .table (named (members.map fun m => (m.1, ofJson m.2))) := by
  have hmembers := ofJsonMembers_eq_map members
  rw [named, List.map_map]
  exact congrArg Value.table hmembers

/-- A table is shown as an array if its keys count up, and as an object otherwise. -/
theorem toJson_table (pairs : List (Value × Value)) :
    toJson (.table pairs) =
      if isSequence pairs then .array (pairs.map fun pair => toJson pair.2)
      else Json.ofMembers (pairs.map fun pair => (keyText pair.1, toJson pair.2)) := by
  rw [← toJsonItems_eq_map, ← toJsonMembers_eq_map]
  rfl

/-- The pairs have the keys `next, next + 1, …` in order, whatever the keys travelled as. -/
def KeyedFrom (next : Int) (pairs : List (Value × Value)) : Prop :=
  ∀ (place : Nat) (h : place < pairs.length), ∃ n : Number,
    pairs[place].1 = .number n ∧ n.value.same (Binary64.ofInt (next + place)) = true

/-- The pairs have the keys `1, 2, …` in order. -/
def Keyed (pairs : List (Value × Value)) : Prop := KeyedFrom 1 pairs

/-- So many keys cannot be counted any more. -/
def countLimit : Nat := Nat.pow 2 31

/-- A key that equals an integer is a number with its value. -/
theorem same_integer_iff {key : Value} {i : Int} : key.same (integer i) = true ↔
    ∃ n : Number, key = .number n ∧ n.value.same (Binary64.ofInt i) = true := by
  cases key with
  | number n =>
    rw [integer, same]
    constructor
    · exact fun h => ⟨n, rfl, h⟩
    · rintro ⟨_, hn, h⟩
      cases hn
      exact h
  | _ =>
    refine iff_of_false Bool.false_ne_true ?_
    rintro ⟨_, hn, -⟩
    cases hn

/-- The pairs behind the first go on with the next key. -/
theorem KeyedFrom.tail {next : Int} {pair : Value × Value} {rest : List (Value × Value)}
    (h : KeyedFrom next (pair :: rest)) : KeyedFrom (next + 1) rest := by
  intro place hplace
  have hnext := h (place + 1) (Nat.succ_lt_succ hplace)
  rwa [show next + ((place + 1 : Nat) : Int) = next + 1 + place by omega] at hnext

/-- Each key is what the counter has come to. -/
theorem isCounted_iff {next : Int32} : isCounted next pairs = true ↔
    ∀ (place : Nat) (h : place < pairs.length),
      pairs[place].1.same (integer (next + .ofNat place).toInt) = true := by
  induction pairs generalizing next with
  | nil => exact iff_of_true rfl (fun _ h => absurd h (Nat.not_lt_zero _))
  | cons pair rest ih =>
    have hcount (place : Nat) :
        next + 1 + Int32.ofNat place = next + Int32.ofNat (place + 1) := by
      rw [Int32.ofNat_add, Int32.add_assoc, Int32.add_comm (Int32.ofNat place)]
      rfl
    rw [isCounted, Bool.and_eq_true, ih]
    constructor
    · rintro ⟨hfirst, hrest⟩ place hplace
      cases place with
      | zero => simpa using hfirst
      | succ place =>
        have h := hrest place (Nat.lt_of_succ_lt_succ hplace)
        rwa [hcount] at h
    · intro h
      refine ⟨by simpa using h 0 (Nat.zero_lt_succ _), fun place hplace => ?_⟩
      rw [hcount]
      exact h (place + 1) (Nat.succ_lt_succ hplace)

/-- Before its limit a counter from one has come to the place behind each key. -/
theorem toInt_one_add {place : Nat} (h : place + 1 < countLimit) :
    ((1 : Int32) + .ofNat place).toInt = 1 + place := by
  have hsum : (1 : Int32) + .ofNat place = .ofNat (1 + place) := by
    rw [Int32.ofNat_add]
    rfl
  rw [hsum, Int32.toInt_ofNat_of_lt (Nat.add_comm place 1 ▸ h)]
  omega

/-- Among the tables with few enough pairs an array is shown for those that count their keys from
one, except for the empty one. -/
theorem isSequence_iff (hfew : pairs.length < countLimit) :
    isSequence pairs = true ↔ pairs ≠ [] ∧ Keyed pairs := by
  rw [isSequence, Bool.and_eq_true, isCounted_iff, Keyed, KeyedFrom]
  refine and_congr (by simp) (forall_congr' fun place => forall_congr' fun hplace => ?_)
  rw [same_integer_iff, toInt_one_add (by omega)]

/-- Where the counter runs over, no table passes for one that counts its keys. -/
theorem isSequence_of_crowded (hkeys : Keyed pairs) (hmany : countLimit ≤ pairs.length) :
    isSequence pairs = false := by
  rw [Bool.eq_false_iff]
  intro hsequence
  rw [isSequence, Bool.and_eq_true, isCounted_iff] at hsequence
  -- this key is 2³¹, and the counter has started over at the least integer
  have hplace : 2147483647 < pairs.length := Nat.lt_of_lt_of_le (by decide) hmany
  obtain ⟨n, hn, hvalue⟩ := hkeys 2147483647 hplace
  have hover := hsequence.2 2147483647 hplace
  rw [hn, same_integer_iff] at hover
  obtain ⟨m, hm, hleast⟩ := hover
  cases hm
  have hworth := (Binary64.same_iff.mp hvalue).2.2.symm.trans (Binary64.same_iff.mp hleast).2.2
  have hdiffers : (Binary64.ofInt (1 + (2147483647 : Nat))).unsignedZero ≠
      (Binary64.ofInt ((1 : Int32) + .ofNat 2147483647).toInt).unsignedZero := by
    decide +kernel
  exact hdiffers hworth

/-- A table with names is not shown as an array. -/
theorem isSequence_named (members : List (String × Value)) :
    isSequence (named members) = false := by
  cases members with
  | nil => rfl
  | cons m rest =>
    change (true && (same (ofText m.1) (integer 1) && isCounted (1 + 1) (named rest))) = false
    rfl

/-- The values of enumerated items are the items. -/
theorem map_snd_enumerate (next : Int) (items : List Value) :
    (enumerate next items).map Prod.snd = items := by
  induction items generalizing next with
  | nil => rfl
  | cons item rest ih => exact congrArg (item :: ·) (ih (next + 1))

/-- Items that are counted are as many as before. -/
theorem length_enumerate (next : Int) (items : List Value) :
    (enumerate next items).length = items.length := by
  rw [← List.length_map Prod.snd, map_snd_enumerate]

/-- Enumerated items are under the keys that they are enumerated by. -/
theorem keyedFrom_enumerate (next : Int) (items : List Value) :
    KeyedFrom next (enumerate next items) := by
  induction items generalizing next with
  | nil => exact fun _ h => absurd h (Nat.not_lt_zero _)
  | cons item rest ih =>
    intro place hplace
    cases place with
    | zero =>
      refine ⟨⟨.ofInt next, .integer⟩, rfl, ?_⟩
      rw [Int.natCast_zero, Int.add_zero]
      exact Binary64.same_self (Binary64.not_isNaN_ofInt next)
    | succ place =>
      have h := ih (next + 1) place (Nat.lt_of_succ_lt_succ hplace)
      rwa [show next + 1 + (place : Int) = next + (place + 1 : Nat) by omega] at h

/-- Nothing but the items is enumerated. -/
theorem snd_mem_of_mem_enumerate {next : Int} {items : List Value} {pair : Value × Value}
    (h : pair ∈ enumerate next items) : pair.2 ∈ items := by
  have hvalue : pair.2 ∈ (enumerate next items).map Prod.snd := List.mem_map_of_mem h
  rwa [map_snd_enumerate] at hvalue

/-- A table with few enough pairs that counts its keys from one is shown as an array. -/
theorem toJson_of_keyed (hne : pairs ≠ []) (hkeys : Keyed pairs)
    (hfew : pairs.length < countLimit) :
    toJson (.table pairs) = .array (pairs.map fun pair => toJson pair.2) := by
  rw [toJson_table, if_pos ((isSequence_iff hfew).mpr ⟨hne, hkeys⟩)]

/-- A table of more pairs is shown as an object instead. -/
theorem toJson_of_crowded (hkeys : Keyed pairs) (hmany : countLimit ≤ pairs.length) :
    toJson (.table pairs) =
      Json.ofMembers (pairs.map fun pair => (keyText pair.1, toJson pair.2)) := by
  rw [toJson_table, isSequence_of_crowded hkeys hmany, if_neg Bool.false_ne_true]

/-- A list that is not empty becomes an array, as long as its items can be counted. -/
theorem toJson_ofList {items : List Value} (hne : items ≠ []) (hfew : items.length < countLimit) :
    toJson (ofList items) = .array (items.map toJson) := by
  have hpairs : enumerate 1 items ≠ [] := by
    rw [← List.length_pos_iff, length_enumerate]
    exact List.length_pos_iff.mpr hne
  have hshown : (enumerate 1 items).map (fun pair => toJson pair.2) = items.map toJson :=
    List.map_map.symm.trans (congrArg (List.map toJson) (map_snd_enumerate 1 items))
  rw [ofList, toJson_of_keyed hpairs (keyedFrom_enumerate 1 items) (by rwa [length_enumerate]),
    hshown]

/-- A table with names in order is shown as an object. -/
theorem toJson_named {members : List (String × Value)}
    (h : Text.Ascending (members.map Prod.fst)) :
    toJson (.table (named members)) = .object (members.map fun m => (m.1, toJson m.2)) := by
  have hmembers : (named members).map (fun pair => (keyText pair.1, toJson pair.2)) =
      members.map fun m => (m.1, toJson m.2) := by
    rw [named, List.map_map]
    simp [Function.comp_def, keyText]
  have hnames : Text.Ascending ((members.map fun m => (m.1, toJson m.2)).map Prod.fst) := by
    rwa [List.map_map]
  rw [toJson_table, isSequence_named, if_neg Bool.false_ne_true, hmembers,
    Json.ofMembers_of_ascending hnames]

/-! ### Scalars -/

/-- An integer fits exactly when it has at most eight bytes with its sign. -/
theorem fitsSigned_iff {i : Int} :
    fitsSigned i = true ↔ -9223372036854775808 ≤ i ∧ i ≤ 9223372036854775807 := by
  have hpower : Nat.pow 2 63 = 9223372036854775808 := rfl
  rw [fitsSigned, hpower, Bool.and_eq_true, decide_eq_true_iff, decide_eq_true_iff]
  omega

/-- An integer that fits is read as one. -/
theorem ofJson_integer {i : Int} (hi : fitsSigned i = true) : ofJson (.integer i) = integer i :=
  if_pos hi

/-- A number is shown as a number, or as null. -/
theorem toJson_number (n : Number) : toJson (.number n) = numberJson n := rfl

/-- An integer of fifty-three bits is shown as itself. -/
theorem toJson_integer {i : Int} (hi : i.natAbs ≤ 9007199254740992) :
    toJson (integer i) = .integer i := by
  have hheld : (Binary64.ofInt i).Holds i := by
    by_cases hend : i.natAbs = 9007199254740992
    · exact Binary64.holds_ofInt_of_short (m := 4503599627370496) (e := 1) hend (by decide)
        (by decide)
    · exact Binary64.holds_ofInt_of_short (e := 0) (Nat.mul_one _).symm (by omega) (Nat.zero_le _)
  have hpower : Nat.pow 2 (64 - 1) = 9223372036854775808 := rfl
  rw [integer, toJson_number, numberJson, if_pos ⟨rfl, hheld.isIntegral⟩, hheld.clamp_eq, hpower]
  congr 1
  omega

/-- A number that is an integer of eight bytes, or the one above, is shown as an integer, and what
that reads back as equals it. -/
theorem ofJson_toJson_integer {x : Binary64} {i : Int} (h : x.Holds i)
    (hlow : -9223372036854775808 ≤ i) (hhigh : i ≤ 9223372036854775808) :
    (ofJson (toJson (.number ⟨x, .integer⟩))).same (.number ⟨x, .integer⟩) = true := by
  have hbounds := Binary64.clamp_bounds 64 x
  have hpower : Nat.pow 2 (64 - 1) = 9223372036854775808 := rfl
  have hfits : fitsSigned (x.clamp 64) = true := by
    rw [fitsSigned_iff]
    omega
  rw [toJson_number, numberJson, if_pos ⟨rfl, h.isIntegral⟩, ofJson_integer hfits, integer, same]
  exact h.ofInt_clamp_same hlow hhigh

/-- A finite float becomes a float. -/
theorem toJson_float {x : Binary64} (hx : x.isFinite = true) : toJson (float x) = .float x := by
  rw [float, toJson_number, numberJson, if_neg (fun h => by cases h.1), if_pos hx]

/-- A text becomes a string. -/
theorem toJson_ofText (s : String) : toJson (ofText s) = .string s := by
  rw [ofText, toJson, Text.decode?_bytes]

/-- A text equals itself. -/
theorem ofText_same (s : String) : (ofText s).same (ofText s) = true := by
  rw [same_ofText, isNamed_iff]

/-! ### There and back -/

end Value

namespace Json

/-- A document without empty arrays, whose integers have at most fifty-three bits, whose floats are
finite and whose objects have distinct names in order. -/
inductive Plain : Json → Prop where
  | null : Plain .null
  | bool (b : Bool) : Plain (.bool b)
  | integer (i : Int) (short : i.natAbs ≤ 9007199254740992) : Plain (.integer i)
  | float (x : Binary64) (isFinite : x.isFinite = true) : Plain (.float x)
  | string (s : String) : Plain (.string s)
  | array (items : List Json) (nonempty : items ≠ []) (plain : ∀ j ∈ items, Plain j) :
    Plain (.array items)
  | object (members : List (String × Json)) (ascending : Text.Ascending (members.map Prod.fst))
    (plain : ∀ m ∈ members, Plain m.2) : Plain (.object members)

/-- No array in the document has more items than can be counted. -/
inductive Countable : Json → Prop where
  | null : Countable .null
  | bool (b : Bool) : Countable (.bool b)
  | integer (i : Int) : Countable (.integer i)
  | float (x : Binary64) : Countable (.float x)
  | string (s : String) : Countable (.string s)
  | array (items : List Json) (few : items.length < Value.countLimit)
    (countable : ∀ j ∈ items, Countable j) : Countable (.array items)
  | object (members : List (String × Json)) (countable : ∀ m ∈ members, Countable m.2) :
    Countable (.object members)

/-- An array can be counted when it has few enough items and each of them can be counted. -/
theorem countable_array_iff {items : List Json} : (array items).Countable ↔
    items.length < Value.countLimit ∧ ∀ j ∈ items, j.Countable := by
  constructor
  · rintro (_ | _ | _ | _ | _ | ⟨_, few, countable⟩ | _)
    exact ⟨few, countable⟩
  · exact fun h => .array items h.1 h.2

/-- An object can be counted when its members can. -/
theorem countable_object_iff {members : List (String × Json)} :
    (object members).Countable ↔ ∀ m ∈ members, m.2.Countable := by
  constructor
  · rintro (_ | _ | _ | _ | _ | _ | ⟨_, countable⟩)
    exact countable
  · exact .object members

end Json

namespace Value

/-- A value that is made of nil, booleans, texts, finite floats, integers of eight bytes or the one
above them, tables that count their keys from one, and tables with distinct names in order. -/
inductive Plain : Value → Prop where
  | nil : Plain .nil
  | boolean (b : Bool) : Plain (.boolean b)
  | text (s : String) : Plain (.ofText s)
  | float (x : Binary64) (isFinite : x.isFinite = true) : Plain (.float x)
  | integer (x : Binary64) (i : Int) (whole : x.Holds i) (low : -9223372036854775808 ≤ i)
    (high : i ≤ 9223372036854775808) : Plain (.number ⟨x, .integer⟩)
  | list (pairs : List (Value × Value)) (keyed : Keyed pairs)
    (plain : ∀ pair ∈ pairs, Plain pair.2) : Plain (.table pairs)
  | named (members : List (String × Value)) (ascending : Text.Ascending (members.map Prod.fst))
    (plain : ∀ m ∈ members, Plain m.2) : Plain (.table (named members))

/-- No table in the value that counts its keys from one has more of them than can be counted. -/
inductive Countable : Value → Prop where
  | nil : Countable .nil
  | boolean (b : Bool) : Countable (.boolean b)
  | number (n : Number) : Countable (.number n)
  | string (bytes : List UInt8) : Countable (.string bytes)
  | table (pairs : List (Value × Value)) (few : Keyed pairs → pairs.length < countLimit)
    (countable : ∀ pair ∈ pairs, Countable pair.2) : Countable (.table pairs)

/-- A table can be counted when its keys and values can, and its keys if they count from one. -/
theorem countable_table_iff : (table pairs).Countable ↔
    (Keyed pairs → pairs.length < countLimit) ∧ ∀ pair ∈ pairs, pair.2.Countable := by
  constructor
  · rintro (_ | _ | _ | _ | ⟨_, few, countable⟩)
    exact ⟨few, countable⟩
  · exact fun h => .table pairs h.1 h.2

/-- A list is left as it is by what leaves each of its items. -/
theorem map_eq_self_iff {α : Type} {f : α → α} {items : List α} :
    items.map f = items ↔ ∀ a ∈ items, f a = a := by
  have h := List.map_inj_left (l := items) (f := f) (g := id)
  rwa [List.map_id] at h

/-- A plain document is shown as itself by the value that it becomes, exactly if all its arrays can
be counted. -/
theorem toJson_ofJson_iff {j : Json} (h : j.Plain) : toJson (ofJson j) = j ↔ j.Countable := by
  induction h with
  | null => exact iff_of_true rfl .null
  | bool b => exact iff_of_true rfl (.bool b)
  | integer i short =>
    have hfits : fitsSigned i = true := by
      rw [fitsSigned_iff]
      omega
    rw [ofJson_integer hfits, toJson_integer short]
    exact iff_of_true rfl (.integer i)
  | float x isFinite => exact iff_of_true (toJson_float isFinite) (.float x)
  | string s => exact iff_of_true (toJson_ofText s) (.string s)
  | array items nonempty plain ih =>
    have hitems : items.map ofJson ≠ [] := by simpa using nonempty
    rw [ofJson_array, Json.countable_array_iff]
    by_cases hfew : items.length < countLimit
    · rw [toJson_ofList hitems (by rwa [List.length_map]), List.map_map, Json.array.injEq]
      rw [map_eq_self_iff]
      exact ⟨fun hall => ⟨hfew, fun j hj => (ih j hj).mp (hall j hj)⟩,
        fun hall j hj => (ih j hj).mpr (hall.2 j hj)⟩
    · refine iff_of_false (fun harray => ?_) fun hall => hfew hall.1
      rw [ofList, toJson_of_crowded (keyedFrom_enumerate 1 _)
        (by rw [length_enumerate, List.length_map]; omega)] at harray
      exact nomatch harray
  | object members ascending plain ih =>
    have hnames : Text.Ascending ((members.map fun m => (m.1, ofJson m.2)).map Prod.fst) := by
      rwa [List.map_map]
    rw [ofJson_object, toJson_named hnames, List.map_map, Json.object.injEq,
      Json.countable_object_iff]
    rw [map_eq_self_iff]
    refine forall_congr' fun m => forall_congr' fun hm => Iff.trans ?_ (ih m hm)
    exact ⟨fun hmember => congrArg Prod.snd hmember, fun hvalue => congrArg (Prod.mk m.1) hvalue⟩

/-- Pairs that count their keys equal other values under the keys `next, next + 1, …` exactly if
they equal them one by one. -/
theorem samePairs_enumerate_iff (shown : Value → Value) {next : Int}
    (hkeys : KeyedFrom next pairs) :
    samePairs (enumerate next (pairs.map fun pair => shown pair.2)) pairs = true ↔
      ∀ pair ∈ pairs, (shown pair.2).same pair.2 = true := by
  induction pairs generalizing next with
  | nil => exact iff_of_true rfl nofun
  | cons pair rest ih =>
    obtain ⟨key, value⟩ := pair
    obtain ⟨n, hn, hvalue⟩ := hkeys 0 (Nat.zero_lt_succ _)
    obtain rfl : key = .number n := hn
    have hkey : (integer next).same (.number n) = true := by
      rw [integer, same, Binary64.same_comm]
      simpa using hvalue
    rw [List.map_cons, enumerate, samePairs, hkey, Bool.true_and, Bool.and_eq_true,
      ih hkeys.tail, List.forall_mem_cons]

/-- Tables with the same names are equal exactly if their values are, one by one. -/
theorem samePairs_named_iff (shown : Value → Value) (members : List (String × Value)) :
    samePairs (named (members.map fun m => (m.1, shown m.2))) (named members) = true ↔
      ∀ m ∈ members, (shown m.2).same m.2 = true := by
  induction members with
  | nil => exact iff_of_true rfl nofun
  | cons m rest ih =>
    change ((ofText m.1).same (ofText m.1) && (shown m.2).same m.2 &&
      samePairs (named (rest.map fun m => (m.1, shown m.2))) (named rest)) = true ↔ _
    rw [ofText_same, Bool.true_and, Bool.and_eq_true, ih, List.forall_mem_cons]

/-- What an object reads back as equals no table that counts its keys, unless both are empty. -/
theorem ofJson_ofMembers_same (members : List (String × Json)) (hne : pairs ≠ [])
    (hkeys : Keyed pairs) : (ofJson (Json.ofMembers members)).same (.table pairs) = false := by
  rw [Json.ofMembers, ofJson_object, same]
  generalize members.foldl (fun sorted m => Pairs.insertSorted m.1 m.2 sorted) [] = sorted
  obtain ⟨pair, rest, rfl⟩ := List.exists_cons_of_ne_nil hne
  cases sorted with
  | nil => rfl
  | cons m others =>
    obtain ⟨n, hn, -⟩ := hkeys 0 (Nat.zero_lt_succ _)
    obtain ⟨key, value⟩ := pair
    obtain rfl : key = .number n := hn
    rfl

/-- What a table reads back as whose keys cannot be counted does not equal it. -/
theorem ofJson_toJson_of_crowded (hkeys : Keyed pairs) (hmany : countLimit ≤ pairs.length) :
    (ofJson (toJson (.table pairs))).same (.table pairs) = false := by
  have hne : pairs ≠ [] := List.length_pos_iff.mp (Nat.lt_of_lt_of_le (by decide) hmany)
  rw [toJson_of_crowded hkeys hmany, ofJson_ofMembers_same _ hne hkeys]

/-- The document that shows a plain value reads back as an equal one, exactly if all that counts its
keys can be counted. -/
theorem ofJson_toJson_same_iff {v : Value} (h : v.Plain) :
    (ofJson (toJson v)).same v = true ↔ v.Countable := by
  induction h with
  | nil => exact iff_of_true rfl .nil
  | boolean b => exact iff_of_true (by cases b <;> rfl) (.boolean b)
  | text s =>
    rw [toJson_ofText]
    exact iff_of_true (ofText_same s) (.string _)
  | float x isFinite =>
    rw [toJson_float isFinite]
    have hsame := Binary64.same_self (Binary64.not_isNaN_of_isFinite isFinite)
    exact iff_of_true hsame (.number _)
  | integer x i whole low high =>
    exact iff_of_true (ofJson_toJson_integer whole low high) (.number _)
  | list pairs keyed plain ih =>
    rw [countable_table_iff]
    by_cases hne : pairs = []
    · subst hne
      exact iff_of_true rfl ⟨fun _ => by decide, nofun⟩
    · by_cases hfew : pairs.length < countLimit
      · rw [toJson_of_keyed hne keyed hfew, ofJson_array, List.map_map, ofList, same]
        refine (samePairs_enumerate_iff (fun v => ofJson (toJson v)) keyed).trans ?_
        exact ⟨fun hall => ⟨fun _ => hfew, fun pair hpair => (ih pair hpair).mp (hall pair hpair)⟩,
          fun hall pair hpair => (ih pair hpair).mpr (hall.2 pair hpair)⟩
      · rw [ofJson_toJson_of_crowded keyed (by omega)]
        exact iff_of_false Bool.false_ne_true fun hall => hfew (hall.1 keyed)
  | named members ascending plain ih =>
    have hnot : Keyed (Value.named members) → (Value.named members).length < countLimit := by
      intro hkeys
      cases members with
      | nil => decide
      | cons m rest =>
        obtain ⟨n, hn, -⟩ := hkeys 0 (Nat.zero_lt_succ _)
        exact nomatch hn
    rw [toJson_named ascending, ofJson_object, List.map_map, same, countable_table_iff]
    refine (samePairs_named_iff (fun v => ofJson (toJson v)) members).trans ?_
    constructor
    · intro hall
      refine ⟨hnot, fun pair hpair => ?_⟩
      obtain ⟨m, hm, rfl⟩ := List.mem_map.mp hpair
      exact (ih m hm).mp (hall m hm)
    · exact fun hall m hm => (ih m hm).mpr (hall.2 _ (List.mem_map_of_mem hm))

/-- A plain document is shown as itself by the value that it becomes, and a plain value is equal to
what the document that shows it reads back as, exactly as long as no array and no table inside it
has more items than can be counted. -/
theorem plain_roundTrips_iff {j : Json} {v : Value} (hj : j.Plain) (hv : v.Plain) :
    (toJson (ofJson j) = j ↔ j.Countable) ∧
      ((ofJson (toJson v)).same v = true ↔ v.Countable) :=
  ⟨toJson_ofJson_iff hj, ofJson_toJson_same_iff hv⟩

/-- An array of integers in an object, and a table under a name in a list whose key is a float. -/
theorem plain_roundTrips_iff_nested :
    toJson (ofJson (.object [("name", .string "n"), ("xs", .array [.integer 1, .integer 2])])) =
      .object [("name", .string "n"), ("xs", .array [.integer 1, .integer 2])] ∧
    (ofJson (toJson (.table [(float (.ofInt 1), .table (named [("b", .boolean true)]))]))).same
      (.table [(float (.ofInt 1), .table (named [("b", .boolean true)]))]) = true := by
  have hj : Json.Plain
      (.object [("name", .string "n"), ("xs", .array [.integer 1, .integer 2])]) := by
    refine .object _ (by decide +kernel) ?_
    refine List.forall_mem_cons.mpr ⟨.string "n", List.forall_mem_singleton.mpr ?_⟩
    refine .array _ (List.cons_ne_nil _ _) (List.forall_mem_cons.mpr ⟨?_, ?_⟩)
    · exact .integer 1 (by decide)
    · exact List.forall_mem_singleton.mpr (.integer 2 (by decide))
  have hfewItems : Json.Countable
      (.object [("name", .string "n"), ("xs", .array [.integer 1, .integer 2])]) := by
    refine .object _ (List.forall_mem_cons.mpr ⟨.string "n", List.forall_mem_singleton.mpr ?_⟩)
    exact .array _ (by decide) (List.forall_mem_cons.mpr ⟨.integer 1,
      List.forall_mem_singleton.mpr (.integer 2)⟩)
  have hv : Plain (.table [(float (.ofInt 1), .table (named [("b", .boolean true)]))]) := by
    have hinner : Plain (.table (named [("b", .boolean true)])) :=
      .named _ (by decide +kernel) (List.forall_mem_singleton.mpr (.boolean true))
    refine .list _ ?_ (List.forall_mem_singleton.mpr hinner)
    intro place hplace
    obtain rfl : place = 0 := Nat.lt_one_iff.mp hplace
    exact ⟨⟨.ofInt 1, .float⟩, rfl, by decide +kernel⟩
  have hfewPairs : Countable
      (.table [(float (.ofInt 1), .table (named [("b", .boolean true)]))]) := by
    refine .table _ (fun _ => by decide) (List.forall_mem_singleton.mpr ?_)
    exact .table _ (fun _ => by decide) (List.forall_mem_singleton.mpr (.boolean true))
  obtain ⟨hdocument, hvalue⟩ := plain_roundTrips_iff hj hv
  exact ⟨hdocument.mpr hfewItems, hvalue.mpr hfewPairs⟩

/-- A list of one item more than can be counted is shown as an object, and what that reads back as
does not equal the list. -/
theorem roundTrip_of_crowded :
    Plain (ofList (List.replicate 2147483648 .nil)) ∧
      (ofJson (toJson (ofList (List.replicate 2147483648 .nil)))).same
        (ofList (List.replicate 2147483648 .nil)) = false := by
  have hkeys := keyedFrom_enumerate 1 (List.replicate 2147483648 nil)
  have hlength : (enumerate 1 (List.replicate 2147483648 nil)).length = countLimit := by
    rw [length_enumerate, List.length_replicate]
    rfl
  refine ⟨.list _ hkeys fun pair hpair => ?_,
    ofJson_toJson_of_crowded hkeys (Nat.le_of_eq hlength.symm)⟩
  rw [List.eq_of_mem_replicate (snd_mem_of_mem_enumerate hpair)]
  exact .nil

end Value

end RemoteCall
