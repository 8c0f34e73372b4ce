import RemoteCall.Json.Basic
import RemoteCall.Json.Print
import RemoteCall.Proofs.Text.Digits

/-!
# Reading the indented text

The indented text of a document without floats is taken apart into the tree of the document:
integers into their digits, strings into their code points. What stands around a document in the
text is left as it is, so the argument goes down the document part by part; the budget of two steps
for every character is never used up.
-/

namespace RemoteCall.Json

open Text

/-! ### Numbers -/

/-- An integer as it is written. -/
def Numeral.ofInt (i : Int) : Numeral := ⟨i < 0, digits i.natAbs, [], none⟩

/-- The text goes on as it does behind a part of a document, or ends. -/
def Follows (rest : List Char) : Prop := ∀ c ∈ rest.head?, c = ',' ∨ c = '\n'

variable {rest : List Char} {budget : Nat}

/-- A digit is no sign. -/
theorem sign_of_isDigit {c : Char} (hc : c.isDigit = true) (s : List Char) :
    sign (c :: s) = (false, c :: s) := by
  unfold sign
  split
  · rename_i heq
    cases heq
    exact absurd hc (by decide)
  · rfl

/-- What follows a part of a document does not carry on a number. -/
theorem numeral?_toDigits_append (negative : Bool) (n : Nat) (hrest : Follows rest) :
    numeral? ((if negative then ['-'] else []) ++ Nat.toDigits 10 n ++ rest) =
      some (⟨negative, digits n, [], none⟩, rest) := by
  have hdigit : ∀ c ∈ rest.head?, c.isDigit = false := by
    intro c hc
    rcases hrest c hc with rfl | rfl <;> rfl
  have hsign : sign ((if negative then ['-'] else []) ++ Nat.toDigits 10 n ++ rest) =
      (negative, Nat.toDigits 10 n ++ rest) := by
    cases negative with
    | true => rfl
    | false =>
      obtain ⟨c, cs, hcons⟩ := List.exists_cons_of_ne_nil (Nat.toDigits_ne_nil (b := 10) (n := n))
      have hc := Nat.isDigit_of_mem_toDigits (by decide) (by decide) (hcons ▸ List.mem_cons_self)
      rw [hcons]
      exact sign_of_isDigit hc _
  have hwhole : ((digits n).isEmpty ||
      (decide ((digits n).head? = some 0) && decide (1 < (digits n).length))) = false := by
    have hne : (digits n).isEmpty = false := by simp [digits_ne_nil]
    rw [hne, Bool.false_or, Bool.and_eq_false_iff]
    by_cases hzero : (digits n).head? = some 0
    · exact .inr (decide_eq_false (by rw [length_digits_of_head? hzero]; decide))
    · exact .inl (decide_eq_false hzero)
  have hfraction : fraction? rest = some ([], rest) := by
    cases rest with
    | nil => rfl
    | cons c rest => rcases hrest c rfl with rfl | rfl <;> rfl
  have hexponent : exponent? rest = some (none, rest) := by
    cases rest with
    | nil => rfl
    | cons c rest => rcases hrest c rfl with rfl | rfl <;> rfl
  rw [numeral?, hsign]
  dsimp only
  rw [leadingDigits_toDigits_append hdigit]
  dsimp only
  rw [hwhole, if_neg Bool.false_ne_true, hfraction]
  dsimp only [Option.bind_eq_bind, Option.bind_some]
  rw [hexponent]
  rfl

/-- A decimal is a minus sign where it is negative, and the digits of its magnitude. -/
theorem toList_signedDecimal (i : Int) : (signedDecimal i).toList =
    (if i < 0 then ['-'] else []) ++ Nat.toDigits 10 i.natAbs := by
  rw [signedDecimal, String.toList_append, decimal, String.toList_ofList]
  split <;> rfl

/-- The digits of an integer are read back, with its sign. -/
theorem numeral?_signedDecimal_append (i : Int) (hrest : Follows rest) :
    numeral? ((signedDecimal i).toList ++ rest) = some (.ofInt i, rest) := by
  have hread := numeral?_toDigits_append (i < 0) i.natAbs hrest
  simp only [decide_eq_true_eq] at hread
  rw [toList_signedDecimal]
  exact hread

/-- A numeral of an integer of eight bytes, with a sign or without, means that integer. -/
theorem Numeral.integer?_ofInt {i : Int} (hlow : -9223372036854775808 ≤ i)
    (hhigh : i < 18446744073709551616) : (Numeral.ofInt i).integer? = some i := by
  have hpower : Nat.pow 2 63 = 9223372036854775808 := rfl
  have hsize : UInt64.size = 18446744073709551616 := rfl
  rw [integer?, ofInt]
  dsimp only
  rw [ofDigits_digits, hpower, hsize]
  simp only [List.isEmpty_nil, Bool.not_true, Option.isSome_none, Bool.or_false, Bool.false_eq_true,
    if_false, decide_eq_true_eq]
  split
  · rw [if_pos (by omega)]
    exact congrArg some (by omega)
  · rw [if_pos (by omega)]
    exact congrArg some (by omega)

/-! ### Strings -/

/-- The four digits of a control character spell it. -/
theorem hexUnit?_digitChar {n : Nat} (hn : n < 32) :
    hexUnit? ['0', '0', Nat.digitChar (n / 16), Nat.digitChar (n % 16)] = some n := by
  have h : ∀ n < 32,
      hexUnit? ['0', '0', Nat.digitChar (n / 16), Nat.digitChar (n % 16)] = some n := by decide
  exact h n hn

/-- What needs no escape stands for itself. -/
theorem units?_cons {c : Char} (hquote : c ≠ '"') (hbackslash : c ≠ '\\') (hcontrol : ¬ c < ' ')
    (rest : List Char) :
    units? (c :: rest) = (units? rest).bind fun found => some (c.toNat :: found.1, found.2) := by
  rw [units?.eq_def]
  split
  · rename_i heq
    exact nomatch heq
  · rename_i heq
    exact absurd (List.cons.inj heq).1 hquote
  · rename_i heq
    exact absurd (List.cons.inj heq).1 hbackslash
  · rename_i heq
    exact absurd (List.cons.inj heq).1 hbackslash
  · rename_i heq
    obtain ⟨rfl, rfl⟩ := List.cons.inj heq
    simp only [hcontrol, hbackslash, decide_false, Bool.or_self, Bool.false_eq_true, if_false]
    rfl

/-- A character of a string is read back, escaped or not. -/
theorem units?_escape_append (c : Char) (rest : List Char) :
    units? (escape c ++ rest) =
      (units? rest).map fun (units, rest) => (c.toNat :: units, rest) := by
  have hbind : ∀ unit : Nat, ((units? rest).bind fun found => some (unit :: found.1, found.2)) =
      (units? rest).map fun (units, rest) => (unit :: units, rest) := by
    intro unit
    cases units? rest <;> rfl
  unfold escape
  split
  · subst c
    exact hbind 34
  split
  · subst c
    exact hbind 92
  split
  · subst c
    exact hbind 8
  split
  · subst c
    exact hbind 12
  split
  · subst c
    exact hbind 10
  split
  · subst c
    exact hbind 13
  split
  · subst c
    exact hbind 9
  split
  · rename_i hcontrol
    have hlow : c.toNat < 32 := hcontrol
    change ((hexUnit? ['0', '0', Nat.digitChar (c.toNat / 16), Nat.digitChar (c.toNat % 16)]).bind
      fun unit => (units? rest).bind fun found => some (unit :: found.1, found.2)) = _
    rw [hexUnit?_digitChar hlow]
    exact hbind c.toNat
  · rename_i hquote hbackslash _ _ _ _ _ hcontrol
    exact (units?_cons hquote hbackslash hcontrol rest).trans (hbind c.toNat)

/-- The code points of a text. -/
def units (s : String) : List Nat := s.toList.map Char.toNat

/-- The escaped characters of a string are read back up to the closing quote. -/
theorem units?_flatMap_escape_append (cs rest : List Char) :
    units? (cs.flatMap escape ++ '"' :: rest) = some (cs.map Char.toNat, rest) := by
  induction cs with
  | nil => rfl
  | cons c cs ih =>
    rw [List.flatMap_cons, List.append_assoc, units?_escape_append, ih]
    rfl

/-- A character is no surrogate. -/
theorem characters?_toNat (cs : List Char) : characters? (cs.map Char.toNat) = some cs := by
  induction cs with
  | nil => rfl
  | cons c cs ih =>
    have hvalid : c.toNat < 0xD800 ∨ 0xDFFF < c.toNat ∧ c.toNat < 0x110000 := c.valid
    have htrailing : isTrailing c.toNat = false := by
      simp only [isTrailing, Bool.and_eq_false_iff, decide_eq_false_iff_not]
      omega
    have hleading : isLeading c.toNat = false := by
      simp only [isLeading, Bool.and_eq_false_iff, decide_eq_false_iff_not]
      omega
    rw [List.map_cons, characters?.eq_def]
    dsimp only
    rw [htrailing, hleading, ih, if_neg Bool.false_ne_true, if_neg Bool.false_ne_true,
      Char.ofNat_toNat]
    rfl

/-- The code points of a text are those of this text alone. -/
theorem text?_units (s : String) : text? (units s) = some s := by
  rw [text?, units, characters?_toNat, Option.map_some, String.ofList_toList]

/-! ### Documents -/

mutual

/-- The tree that the text of a document is taken apart into, for a document without floats. -/
def raw? : Json → Option Raw
  | .null => some .null
  | .bool b => some (.bool b)
  | .integer i => some (.number (.ofInt i))
  | .float _ => none
  | .string s => some (.string (units s))
  | .array items => (rawItems? items).map .array
  | .object members => (rawMembers? members).map .object

def rawItems? : List Json → Option (List Raw)
  | [] => some []
  | j :: rest => (raw? j).bind fun first => (rawItems? rest).map (first :: ·)

def rawMembers? : List (String × Json) → Option (List (List Nat × Raw))
  | [] => some []
  | (name, j) :: rest =>
    (raw? j).bind fun first => (rawMembers? rest).map ((units name, first) :: ·)

end

/-! ### Blanks -/

/-- A character that is not blank is not skipped. -/
theorem skipBlank_cons {c : Char} (hc : isBlank c = false) (s : List Char) :
    skipBlank (c :: s) = c :: s :=
  List.dropWhile_cons_of_neg (by simp [hc])

/-- Blanks are skipped at once. -/
theorem skipBlank_skipBlank (s : List Char) : skipBlank (skipBlank s) = skipBlank s := by
  induction s with
  | nil => rfl
  | cons c s ih =>
    cases hc : isBlank c with
    | true =>
      have hskip : skipBlank (c :: s) = skipBlank s := List.dropWhile_cons_of_pos hc
      rw [hskip, ih]
    | false => rw [skipBlank_cons hc, skipBlank_cons hc]

/-- A fresh line is blank. -/
theorem skipBlank_newline_append (level : Nat) (s : List Char) :
    skipBlank (newline level ++ s) = skipBlank s := by
  have hspaces : ∀ c ∈ List.replicate (2 * level) ' ', isBlank c = true := by
    intro c hc
    rw [List.eq_of_mem_replicate hc]
    rfl
  rw [newline, List.cons_append]
  exact List.dropWhile_append_of_pos hspaces

/-- Blanks in front of a value mean nothing. -/
theorem value?_skipBlank (budget : Nat) (s : List Char) :
    value? budget (skipBlank s) = value? budget s := by
  cases budget with
  | zero => rfl
  | succ budget => rw [value?, value?, skipBlank_skipBlank]

/-- Blanks in front of items do not matter. -/
theorem items?_skipBlank (budget : Nat) (s : List Char) :
    items? budget (skipBlank s) = items? budget s := by
  cases budget with
  | zero => rfl
  | succ budget => rw [items?, items?, value?_skipBlank]

/-- Blanks in front of members do not matter. -/
theorem members?_skipBlank (budget : Nat) (s : List Char) :
    members? budget (skipBlank s) = members? budget s := by
  cases budget with
  | zero => rfl
  | succ budget => rw [members?, members?, skipBlank_skipBlank]

/-- A value may stand on a fresh line. -/
theorem value?_newline_append (budget level : Nat) (s : List Char) :
    value? budget (newline level ++ s) = value? budget s := by
  rw [← value?_skipBlank, skipBlank_newline_append, value?_skipBlank]

/-! ### Parts -/

/-- A number does not begin with a blank. -/
theorem isBlank_of_number {c : Char} (hc : c.isDigit = true ∨ c = '-') : isBlank c = false := by
  rw [Bool.eq_false_iff]
  intro hblank
  simp only [isBlank, Bool.or_eq_true, decide_eq_true_eq] at hblank
  rcases hblank with ((rfl | rfl) | rfl) | rfl <;> exact absurd hc (by decide)

/-- What begins with a digit or a minus sign is a number. -/
theorem value?_number {c : Char} (hc : c.isDigit = true ∨ c = '-') (s : List Char) :
    value? (budget + 1) (c :: s) = (numeral? (c :: s)).map fun (n, rest) => (.number n, rest) := by
  rw [value?, skipBlank_cons (isBlank_of_number hc)]
  split
  any_goals
    rename_i heq
    cases heq
    exact absurd hc (by decide)
  rfl

/-- What stands behind a bracket that opens. -/
def arrayAfter? (budget : Nat) : List Char → Option (Raw × List Char)
  | ']' :: rest => some (.array [], rest)
  | rest => (items? budget rest).map fun (items, rest) => (.array items, rest)

/-- What stands behind a brace that opens. -/
def objectAfter? (budget : Nat) : List Char → Option (Raw × List Char)
  | '\x7d' :: rest => some (.object [], rest)
  | rest => (members? budget rest).map fun (members, rest) => (.object members, rest)

/-- Items follow a bracket that is not closed at once. -/
theorem value?_bracket {s : List Char} (hs : ∀ rest, skipBlank s ≠ ']' :: rest) :
    value? (budget + 1) ('[' :: s) =
      (items? budget s).map fun (items, rest) => (.array items, rest) := by
  rw [value?, skipBlank_cons rfl, ← items?_skipBlank]
  change arrayAfter? budget (skipBlank s) = _
  unfold arrayAfter?
  split
  · rename_i rest heq
    exact absurd heq (hs rest)
  · rfl

/-- Members follow a brace that is not closed at once. -/
theorem value?_brace {s : List Char} (hs : ∀ rest, skipBlank s ≠ '\x7d' :: rest) :
    value? (budget + 1) ('\x7b' :: s) =
      (members? budget s).map fun (members, rest) => (.object members, rest) := by
  rw [value?, skipBlank_cons rfl, ← members?_skipBlank]
  change objectAfter? budget (skipBlank s) = _
  unfold objectAfter?
  split
  · rename_i rest heq
    exact absurd heq (hs rest)
  · rfl

variable {level : Nat} {s : List Char} {r : Raw}

/-- A value in front of the closing bracket is the last item. -/
theorem items?_last (level : Nat) (h : value? budget s = some (r, newline level ++ ']' :: rest)) :
    items? (budget + 1) s = some ([r], rest) := by
  rw [items?, h, Option.bind_eq_bind, Option.bind_some]
  dsimp only
  rw [skipBlank_newline_append]
  rfl

/-- A value in front of a comma is an item with more behind it. -/
theorem items?_more {more : List Raw} {s' : List Char} (h : value? budget s = some (r, ',' :: s'))
    (hmore : items? budget s' = some (more, rest)) :
    items? (budget + 1) s = some (r :: more, rest) := by
  rw [items?, h, Option.bind_eq_bind, Option.bind_some]
  change (items? budget s').map _ = _
  rw [hmore]
  rfl

/-- What follows the value of a member. -/
def membersAfter? (budget : Nat) (name : List Nat) (found : Raw × List Char) :
    Option (List (List Nat × Raw) × List Char) :=
  match skipBlank found.2 with
  | '\x7d' :: rest => some ([(name, found.1)], rest)
  | ',' :: rest => do
    let (more, rest) ← members? budget rest
    some ((name, found.1) :: more, rest)
  | _ => none

/-- What follows the name of a member. -/
def valueAfter? (budget : Nat) (found : List Nat × List Char) :
    Option (List (List Nat × Raw) × List Char) :=
  match skipBlank found.2 with
  | ':' :: rest => (value? budget rest).bind (membersAfter? budget found.1)
  | _ => none

/-- A name and a colon in front of a value. -/
theorem members?_quoted (name : String) (s : List Char) :
    members? (budget + 1) (newline level ++ (quoted name ++ ':' :: ' ' :: s)) =
      (value? budget s).bind (membersAfter? budget (units name)) := by
  have hname : quoted name ++ ':' :: ' ' :: s =
      '"' :: (name.toList.flatMap escape ++ '"' :: ':' :: ' ' :: s) := by
    simp [quoted]
  rw [members?, skipBlank_newline_append, hname, skipBlank_cons rfl]
  change (units? (name.toList.flatMap escape ++ '"' :: ':' :: ' ' :: s)).bind
    (valueAfter? budget) = _
  rw [units?_flatMap_escape_append, Option.bind_some]
  change (value? budget (' ' :: s)).bind _ = _
  rw [← value?_skipBlank budget (' ' :: s)]
  exact congrArg (Option.bind · _) (value?_skipBlank budget s)

/-- A name and a value in front of the closing brace are the last member. -/
theorem members?_last {name : String} (outer : Nat)
    (h : value? budget s = some (r, newline outer ++ '\x7d' :: rest)) (level : Nat) :
    members? (budget + 1) (newline level ++ (quoted name ++ ':' :: ' ' :: s)) =
      some ([(units name, r)], rest) := by
  rw [members?_quoted, h, Option.bind_some, membersAfter?, skipBlank_newline_append]
  rfl

/-- A name and a value in front of a comma are a member with more behind it. -/
theorem members?_more {name : String} {more : List (List Nat × Raw)} {s' : List Char}
    (h : value? budget s = some (r, ',' :: s')) (hmore : members? budget s' = some (more, rest))
    (level : Nat) : members? (budget + 1) (newline level ++ (quoted name ++ ':' :: ' ' :: s)) =
      some ((units name, r) :: more, rest) := by
  rw [members?_quoted, h, Option.bind_some, membersAfter?, skipBlank_cons rfl]
  change ((members? budget s').bind fun found => some ((units name, r) :: found.1, found.2)) = _
  rw [hmore]
  rfl

/-- A decimal begins with a digit or a minus sign. -/
theorem exists_signedDecimal_cons (i : Int) :
    ∃ c s, (signedDecimal i).toList = c :: s ∧ (c.isDigit = true ∨ c = '-') := by
  rw [toList_signedDecimal]
  split
  · exact ⟨'-', _, rfl, .inr rfl⟩
  · obtain ⟨c, cs, hcons⟩ :=
      List.exists_cons_of_ne_nil (Nat.toDigits_ne_nil (b := 10) (n := i.natAbs))
    rw [List.nil_append, hcons]
    exact ⟨c, cs, rfl, .inl (Nat.isDigit_of_mem_toDigits (by decide) (by decide)
      (hcons ▸ List.mem_cons_self))⟩

/-- The text of a document begins with neither a blank nor a bracket that closes. -/
theorem exists_prettyChars_cons {j : Json} (hj : raw? j = some r) (level : Nat) :
    ∃ c s, prettyChars level j = c :: s ∧ isBlank c = false ∧ c ≠ ']' := by
  cases j with
  | null => exact ⟨'n', _, rfl, rfl, by decide⟩
  | bool b => cases b <;> exact ⟨_, _, rfl, rfl, by decide⟩
  | integer i =>
    obtain ⟨c, s, hcons, hc⟩ := exists_signedDecimal_cons i
    refine ⟨c, s, hcons, isBlank_of_number hc, ?_⟩
    rintro rfl
    exact absurd hc (by decide)
  | float x => exact nomatch hj
  | string s => exact ⟨'"', _, rfl, rfl, by decide⟩
  | array items => cases items <;> exact ⟨'[', _, rfl, rfl, by decide⟩
  | object members => cases members <;> exact ⟨'\x7b', _, rfl, rfl, by decide⟩

/-- Items do not close their bracket. -/
theorem skipBlank_prettyItems_ne {j : Json} {more : List Json} {raws : List Raw}
    (hitems : rawItems? (j :: more) = some raws) (level : Nat) (tail rest : List Char) :
    skipBlank (prettyItems level (j :: more) ++ tail) ≠ ']' :: rest := by
  obtain ⟨r, hj, -⟩ := Option.bind_eq_some_iff.mp hitems
  obtain ⟨c, s, hcons, hblank, hne⟩ := exists_prettyChars_cons hj level
  have htext : ∃ tail', prettyItems level (j :: more) ++ tail =
      newline level ++ (prettyChars level j ++ tail') := by
    cases more with
    | nil => exact ⟨tail, List.append_assoc _ _ _⟩
    | cons k more => exact ⟨',' :: prettyItems level (k :: more) ++ tail, by simp [prettyItems]⟩
  obtain ⟨tail', htail⟩ := htext
  rw [htail, skipBlank_newline_append, hcons, List.cons_append, skipBlank_cons hblank]
  exact fun heq => hne (List.cons.inj heq).1

/-- Members do not close their brace. -/
theorem skipBlank_prettyMembers_ne (m : String × Json) (more : List (String × Json)) (level : Nat)
    (tail rest : List Char) :
    skipBlank (prettyMembers level (m :: more) ++ tail) ≠ '\x7d' :: rest := by
  have htext : ∃ tail',
      prettyMembers level (m :: more) ++ tail = newline level ++ '"' :: tail' := by
    cases more with
    | nil => exact ⟨_, by simp [prettyMembers, quoted]; rfl⟩
    | cons k more => exact ⟨_, by simp [prettyMembers, quoted]; rfl⟩
  obtain ⟨tail', htail⟩ := htext
  rw [htail, skipBlank_newline_append, skipBlank_cons rfl]
  exact fun heq => absurd (List.cons.inj heq).1 (by decide)

/-- No number goes on with a comma. -/
theorem follows_comma (s : List Char) : Follows (',' :: s) := by
  intro c hc
  exact .inl (Option.some.inj hc).symm

/-- No number goes on on a fresh line. -/
theorem follows_newline (level : Nat) (s : List Char) : Follows (newline level ++ s) := by
  intro c hc
  exact .inr (Option.some.inj hc).symm

/-! ### Whole documents -/

mutual

/-- The text of a document is taken apart into its tree, and nothing of what follows. -/
theorem value?_prettyChars (j : Json) {r : Raw} {budget : Nat} {rest : List Char}
    (hj : raw? j = some r) (level : Nat)
    (hbudget : 2 * (prettyChars level j).length ≤ budget) (hrest : Follows rest) :
    value? budget (prettyChars level j ++ rest) = some (r, rest) := by
  have hlength : 0 < (prettyChars level j).length := by
    obtain ⟨c, s, hcons, -⟩ := exists_prettyChars_cons hj level
    rw [hcons]
    exact Nat.zero_lt_succ _
  obtain ⟨n, rfl⟩ : ∃ n, budget = n + 1 := ⟨budget - 1, by omega⟩
  cases j with
  | null =>
    cases hj
    rfl
  | bool b =>
    cases hj
    cases b <;> rfl
  | integer i =>
    cases hj
    obtain ⟨c, s, hcons, hc⟩ := exists_signedDecimal_cons i
    have hread := numeral?_signedDecimal_append i hrest
    change value? (n + 1) ((signedDecimal i).toList ++ rest) = _
    rw [hcons, List.cons_append] at hread ⊢
    rw [value?_number hc, hread]
    rfl
  | float x => exact nomatch hj
  | string s =>
    cases hj
    have hquoted : prettyChars level (.string s) ++ rest =
        '"' :: (s.toList.flatMap escape ++ '"' :: rest) := by
      change quoted s ++ rest = _
      simp [quoted]
    rw [hquoted, value?, skipBlank_cons rfl]
    change (units? (s.toList.flatMap escape ++ '"' :: rest)).map _ = _
    rw [units?_flatMap_escape_append]
    rfl
  | array items =>
    obtain ⟨raws, hraws, rfl⟩ := Option.map_eq_some_iff.mp hj
    cases items with
    | nil =>
      cases hraws
      rfl
    | cons first more =>
      have htext : prettyChars level (.array (first :: more)) ++ rest =
          '[' :: (prettyItems (level + 1) (first :: more) ++ (newline level ++ ']' :: rest)) := by
        simp [prettyChars]
      have hshort : 2 * (prettyItems (level + 1) (first :: more)).length ≤ n := by
        simp only [prettyChars, List.length_append, List.length_cons] at hbudget
        omega
      rw [htext, value?_bracket (skipBlank_prettyItems_ne hraws _ _),
        items?_prettyItems (first :: more) hraws (List.cons_ne_nil _ _) (level + 1) level hshort]
      rfl
  | object members =>
    obtain ⟨raws, hraws, rfl⟩ := Option.map_eq_some_iff.mp hj
    cases members with
    | nil =>
      cases hraws
      rfl
    | cons first more =>
      have htext : prettyChars level (.object (first :: more)) ++ rest = '\x7b' ::
          (prettyMembers (level + 1) (first :: more) ++ (newline level ++ '\x7d' :: rest)) := by
        simp [prettyChars]
      have hshort : 2 * (prettyMembers (level + 1) (first :: more)).length ≤ n := by
        simp only [prettyChars, List.length_append, List.length_cons] at hbudget
        omega
      rw [htext, value?_brace (skipBlank_prettyMembers_ne first more _ _),
        members?_prettyMembers (first :: more) hraws (List.cons_ne_nil _ _) (level + 1) level
          hshort]
      rfl

/-- Items are taken apart up to the bracket that closes them. -/
theorem items?_prettyItems (items : List Json) {raws : List Raw} {budget : Nat} {rest : List Char}
    (hitems : rawItems? items = some raws) (hne : items ≠ []) (level outer : Nat)
    (hbudget : 2 * (prettyItems level items).length ≤ budget) :
    items? budget (prettyItems level items ++ (newline outer ++ ']' :: rest)) =
      some (raws, rest) := by
  cases items with
  | nil => exact absurd rfl hne
  | cons j more =>
    obtain ⟨r, hj, hmap⟩ := Option.bind_eq_some_iff.mp hitems
    obtain ⟨later, hlater, rfl⟩ := Option.map_eq_some_iff.mp hmap
    cases more with
    | nil =>
      cases hlater
      simp only [prettyItems, newline, List.length_append, List.length_cons] at hbudget
      obtain ⟨n, rfl⟩ : ∃ n, budget = n + 1 := ⟨budget - 1, by omega⟩
      refine items?_last outer ?_
      rw [prettyItems, List.append_assoc, value?_newline_append]
      exact value?_prettyChars j hj level (by omega) (follows_newline _ _)
    | cons k more =>
      simp only [prettyItems, newline, List.length_append, List.length_cons] at hbudget
      obtain ⟨n, rfl⟩ : ∃ n, budget = n + 1 := ⟨budget - 1, by omega⟩
      refine items?_more ?_
        (items?_prettyItems (k :: more) hlater (List.cons_ne_nil _ _) level outer (by omega))
      simp only [prettyItems, List.append_assoc, List.cons_append]
      rw [value?_newline_append]
      exact value?_prettyChars j hj level (by omega) (follows_comma _)

/-- Members are taken apart up to the brace that closes them. -/
theorem members?_prettyMembers (members : List (String × Json)) {raws : List (List Nat × Raw)}
    {budget : Nat} {rest : List Char} (hmembers : rawMembers? members = some raws)
    (hne : members ≠ []) (level outer : Nat)
    (hbudget : 2 * (prettyMembers level members).length ≤ budget) :
    members? budget (prettyMembers level members ++ (newline outer ++ '\x7d' :: rest)) =
      some (raws, rest) := by
  cases members with
  | nil => exact absurd rfl hne
  | cons m more =>
    obtain ⟨name, j⟩ := m
    obtain ⟨r, hj, hmap⟩ := Option.bind_eq_some_iff.mp hmembers
    obtain ⟨later, hlater, rfl⟩ := Option.map_eq_some_iff.mp hmap
    cases more with
    | nil =>
      cases hlater
      simp only [prettyMembers, newline, List.length_append, List.length_cons] at hbudget
      obtain ⟨n, rfl⟩ : ∃ n, budget = n + 1 := ⟨budget - 1, by omega⟩
      simp only [prettyMembers, List.append_assoc, List.cons_append]
      refine members?_last outer ?_ level
      exact value?_prettyChars j hj level (by omega) (follows_newline _ _)
    | cons k more =>
      simp only [prettyMembers, newline, List.length_append, List.length_cons] at hbudget
      obtain ⟨n, rfl⟩ : ∃ n, budget = n + 1 := ⟨budget - 1, by omega⟩
      simp only [prettyMembers, List.append_assoc, List.cons_append]
      refine members?_more ?_
        (members?_prettyMembers (k :: more) hlater (List.cons_ne_nil _ _) level outer (by omega))
        level
      exact value?_prettyChars j hj level (by omega) (follows_comma _)

end

/-- The indented text of a document without floats is taken apart into its tree. -/
theorem parse?_pretty {j : Json} (hj : raw? j = some r) : Raw.parse? j.pretty = some r := by
  have hread : value? (2 * (prettyChars 0 j).length + 2) (prettyChars 0 j ++ []) = some (r, []) :=
    value?_prettyChars j hj 0 (by omega) nofun
  rw [List.append_nil] at hread
  rw [Raw.parse?, pretty, String.toList_ofList, Option.bind_eq_bind]
  dsimp only
  rw [hread]
  rfl

end RemoteCall.Json
