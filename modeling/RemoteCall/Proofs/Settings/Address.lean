import RemoteCall.Proofs.Path
import RemoteCall.Proofs.Text.Digits
import RemoteCall.Settings.Address

/-!
# Reading addresses back

An address is read back from its text: four decimal parts, eight hexadecimal groups, the same with a
run of zero groups left out, or a double colon and an address of version four at the end. The double
colon of a shortened address is the first one, since no group is without digits.
-/

namespace RemoteCall

namespace Text

variable {base n : Nat} {c : Char}

/-- The digits of a number are digits of its base. -/
theorem exists_of_mem_toDigits (hbase : 1 < base) (hc : c ∈ Nat.toDigits base n) :
    ∃ d < base, c = Nat.digitChar d := by
  induction n using Nat.base_induction base hbase with
  | single d hd =>
    rw [Nat.toDigits_of_lt_base hd] at hc
    exact ⟨d, hd, List.mem_singleton.mp hc⟩
  | digit m d hd hm ih =>
    rw [← Nat.toDigits_append_toDigits hbase hm hd, Nat.toDigits_of_lt_base hd] at hc
    rcases List.mem_append.mp hc with hc | hc
    · exact ih hc
    · exact ⟨d, hd, List.mem_singleton.mp hc⟩

/-- Neither a dot nor a colon is a digit. -/
theorem not_mem_toDigits (hbase : 1 < base) (hlast : base ≤ 16) (hc : c = '.' ∨ c = ':') :
    c ∉ Nat.toDigits base n := by
  intro hmem
  obtain ⟨d, hd, rfl⟩ := exists_of_mem_toDigits hbase hmem
  have hdigits : ∀ d < 16, Nat.digitChar d ≠ '.' ∧ Nat.digitChar d ≠ ':' := by decide
  have := hdigits d (Nat.lt_of_lt_of_le hd hlast)
  exact hc.elim this.1 this.2

/-- What is neither in a piece nor the separator is not in the joined text. -/
theorem not_mem_intercalate {separator : Char} {pieces : List (List Char)} (hne : c ≠ separator)
    (h : ∀ piece ∈ pieces, c ∉ piece) : c ∉ [separator].intercalate pieces := by
  induction pieces with
  | nil => exact List.not_mem_nil
  | cons first rest ih =>
    obtain ⟨hfirst, hrest⟩ := List.forall_mem_cons.mp h
    cases rest with
    | nil => rwa [List.intercalate_singleton]
    | cons next rest =>
      rw [List.intercalate_cons_cons]
      simp only [List.mem_append, List.mem_singleton]
      rintro ((hmem | hmem) | hmem)
      · exact hfirst hmem
      · exact hne hmem
      · exact ih hrest hmem

end Text

/-- Parts that are each shown and read are all shown and read. -/
theorem mapM_map_eq_some {α β γ : Type} {f : α → β} {g : β → Option γ} {k : α → γ} {xs : List α}
    (h : ∀ x ∈ xs, g (f x) = some (k x)) : (xs.map f).mapM g = some (xs.map k) := by
  induction xs with
  | nil => rfl
  | cons x xs ih =>
    obtain ⟨hx, hxs⟩ := List.forall_mem_cons.mp h
    rw [List.map_cons, List.mapM_cons, hx, ih hxs]
    rfl

namespace Address

/-! ### Version four -/

/-- The decimal digits of a part. -/
def octetChars (o : UInt8) : List Char := Nat.toDigits 10 o.toNat

/-- A decimal part is read back. -/
theorem octet?_octetChars (o : UInt8) : octet? (octetChars o) = some o := by
  have h : ∀ n < 256, octet? (Nat.toDigits 10 n) = some (UInt8.ofNat n) := by decide +kernel
  rw [octetChars, h o.toNat o.toNat_lt, UInt8.ofNat_toNat]

/-- Decimal parts are written between dots. -/
theorem toList_dotted (octets : List UInt8) :
    (dotted octets).toList = ['.'].intercalate (octets.map octetChars) := by
  rw [dotted, Text.joined, String.toList_intercalate, List.map_map]
  simp only [Function.comp_def, Text.decimal, String.toList_ofList]
  rfl

/-- Four parts are read back. -/
theorem octets?_dotted (a b c d : UInt8) :
    octets? (dotted [a, b, c, d]).toList = some [a, b, c, d] := by
  have hcut : Text.cut '.' (dotted [a, b, c, d]).toList = [a, b, c, d].map octetChars := by
    rw [toList_dotted]
    refine Text.cut_intercalate (List.cons_ne_nil _ _) fun piece hpiece => ?_
    obtain ⟨o, -, rfl⟩ := List.mem_map.mp hpiece
    exact Text.not_mem_toDigits (by decide) (by decide) (.inl rfl)
  rw [octets?, hcut]
  exact mapM_map_eq_some fun o _ => octet?_octetChars o

/-! ### Groups -/

/-- The hexadecimal digits of a group. -/
def groupChars (g : UInt16) : List Char := Nat.toDigits 16 g.toNat

/-- A group is read back. -/
theorem group?_groupChars (g : UInt16) : group? (groupChars g) = some g := by
  have hlength : (groupChars g).length ≤ 4 :=
    (Nat.length_toDigits_le_iff (by decide) (by decide)).mpr g.toNat_lt
  rw [group?, if_neg (Nat.not_lt.mpr hlength), groupChars,
    Text.number?_toDigits (by decide) Text.hexDigit?_digitChar, Option.map_some, UInt16.ofNat_toNat]

/-- A group has at least one digit. -/
theorem groupChars_ne_nil (g : UInt16) : groupChars g ≠ [] := Nat.toDigits_ne_nil

/-- There is no colon in a group. -/
theorem colon_not_mem_groupChars (g : UInt16) : ':' ∉ groupChars g :=
  Text.not_mem_toDigits (by decide) (by decide) (.inr rfl)

/-- Groups are written between colons. -/
theorem toList_colons (groups : List UInt16) :
    (colons groups).toList = [':'].intercalate (groups.map groupChars) := by
  rw [colons, Text.joined, String.toList_intercalate, List.map_map]
  simp only [Function.comp_def, String.toList_ofList]
  rfl

/-- At the colons groups are cut apart again. -/
theorem cut_colons {groups : List UInt16} (hne : groups ≠ []) :
    Text.cut ':' (colons groups).toList = groups.map groupChars := by
  rw [toList_colons]
  refine Text.cut_intercalate (by simpa using hne) fun piece hpiece => ?_
  obtain ⟨g, -, rfl⟩ := List.mem_map.mp hpiece
  exact colon_not_mem_groupChars g

/-- Groups are not written as nothing. -/
theorem isEmpty_colons {groups : List UInt16} (hne : groups ≠ []) :
    (colons groups).toList.isEmpty = false := by
  rw [Bool.eq_false_iff, ne_eq, List.isEmpty_iff]
  intro hnil
  have hcut := cut_colons hne
  rw [hnil] at hcut
  have hpiece : [] ∈ groups.map groupChars := hcut ▸ List.mem_singleton_self _
  obtain ⟨g, -, hg⟩ := List.mem_map.mp hpiece
  exact groupChars_ne_nil g hg

/-- Groups between colons are read back as a run. -/
theorem plainRun?_colons (groups : List UInt16) :
    plainRun? (colons groups).toList = some groups := by
  by_cases hne : groups = []
  · subst hne
    rfl
  · rw [plainRun?, isEmpty_colons hne, if_neg Bool.false_ne_true, cut_colons hne]
    rw [mapM_map_eq_some fun g _ => group?_groupChars g, List.map_id']

/-- Groups are read back one by one. -/
theorem groups?_map (groups : List UInt16) : groups? (groups.map groupChars) = some groups := by
  induction groups with
  | nil => rfl
  | cons g rest ih =>
    cases rest with
    | nil => rw [List.map_singleton, groups?, group?_groupChars]
    | cons g' rest =>
      rw [List.map_cons, List.map_cons, groups?, group?_groupChars, ← List.map_cons, ih]
      · rfl
      · exact List.cons_ne_nil _ _

/-- Groups between colons are read back, also none. -/
theorem groupRun?_colons (groups : List UInt16) :
    groupRun? (colons groups).toList = some groups := by
  by_cases hne : groups = []
  · subst hne
    rfl
  · rw [groupRun?, isEmpty_colons hne, if_neg Bool.false_ne_true, cut_colons hne, groups?_map]

/-! ### The double colon -/

/-- A character that is no colon stands before the double colon. -/
theorem splitDouble_cons {c : Char} (hc : c ≠ ':') (s : List Char) :
    splitDouble (c :: s) = (splitDouble s).map fun (before, after) => (c :: before, after) := by
  rw [splitDouble.eq_def]
  split
  · rename_i heq
    exact absurd (List.cons.inj heq).1 hc
  · rename_i heq
    cases heq
    rfl
  · rename_i heq
    exact nomatch heq

/-- A colon with anything else behind it stands before the double colon. -/
theorem splitDouble_colon {c : Char} (hc : c ≠ ':') (s : List Char) :
    splitDouble (':' :: c :: s) =
      (splitDouble (c :: s)).map fun (before, after) => (':' :: before, after) := by
  rw [splitDouble.eq_def]
  split
  · rename_i heq
    exact absurd (List.cons.inj (List.cons.inj heq).2).1 hc
  · rename_i heq
    cases heq
    rfl
  · rename_i heq
    exact nomatch heq

/-- A piece without colons belongs to what stands before. -/
theorem splitDouble_append {piece : List Char} (h : ':' ∉ piece) (s : List Char) :
    splitDouble (piece ++ s) =
      (splitDouble s).map fun (before, after) => (piece ++ before, after) := by
  induction piece with
  | nil =>
    rw [List.nil_append]
    cases splitDouble s <;> rfl
  | cons c piece ih =>
    obtain ⟨hc, hpiece⟩ := List.ne_and_not_mem_of_not_mem_cons h
    rw [List.cons_append, splitDouble_cons hc.symm, ih hpiece, Option.map_map]
    rfl

/-- There is no double colon among pieces with something in each. -/
theorem splitDouble_intercalate_append {pieces : List (List Char)} (hne : [] ∉ pieces)
    (hcolon : ∀ piece ∈ pieces, ':' ∉ piece) (s : List Char) :
    splitDouble ([':'].intercalate pieces ++ s) =
      (splitDouble s).map fun (before, after) => ([':'].intercalate pieces ++ before, after) := by
  induction pieces with
  | nil => exact splitDouble_append List.not_mem_nil s
  | cons piece pieces ih =>
    obtain ⟨hpiece, hpieces⟩ := List.forall_mem_cons.mp hcolon
    cases pieces with
    | nil => exact splitDouble_append (by simpa using hpiece) s
    | cons next pieces =>
      have hlater := ih (fun h => hne (List.mem_cons_of_mem _ h)) hpieces
      obtain ⟨c, cs, rfl⟩ := List.exists_cons_of_ne_nil (l := next) (by
        rintro rfl
        exact hne (by simp))
      have hc : c ≠ ':' := by
        rintro rfl
        exact hpieces _ List.mem_cons_self List.mem_cons_self
      have hjoined : ∃ tail, [':'].intercalate ((c :: cs) :: pieces) = c :: tail := by
        cases pieces with
        | nil => exact ⟨cs, by simp⟩
        | cons other pieces => exact ⟨_, by rw [List.intercalate_cons_cons]; rfl⟩
      obtain ⟨tail, htail⟩ := hjoined
      rw [htail, List.cons_append] at hlater
      rw [List.intercalate_cons_cons, List.append_assoc, List.append_assoc, List.singleton_append,
        splitDouble_append hpiece, htail, List.cons_append, splitDouble_colon hc, hlater]
      simp only [Option.map_map, Function.comp_def, List.append_assoc, List.cons_append,
        List.nil_append]

/-- Groups stand before the double colon that is behind them. -/
theorem splitDouble_colons_append (groups : List UInt16) (s : List Char) :
    splitDouble ((colons groups).toList ++ s) =
      (splitDouble s).map fun (before, after) => ((colons groups).toList ++ before, after) := by
  rw [toList_colons]
  refine splitDouble_intercalate_append ?_ ?_ s
  · intro h
    obtain ⟨g, -, hg⟩ := List.mem_map.mp h
    exact groupChars_ne_nil g hg
  · intro piece hpiece
    obtain ⟨g, -, rfl⟩ := List.mem_map.mp hpiece
    exact colon_not_mem_groupChars g

/-! ### Version six -/

/-- The run that is left out is a run of zeros. -/
theorem longestRun_cases (start : Nat) (groups : List UInt16) :
    ∃ before after, groups = before ++ List.replicate (longestRun start groups).2 0 ++ after ∧
      ((longestRun start groups).2 = 0 ∨ (longestRun start groups).1 = start + before.length) := by
  induction groups generalizing start with
  | nil => exact ⟨[], [], rfl, .inl rfl⟩
  | cons g rest ih =>
    rw [longestRun]
    dsimp only
    split
    · refine ⟨[], (g :: rest).dropWhile (· = 0), ?_, .inr rfl⟩
      have hzeros : (g :: rest).takeWhile (· = 0) = List.replicate (zeroRun (g :: rest)) 0 :=
        List.eq_replicate_iff.mpr
          ⟨rfl, fun x hx => of_decide_eq_true (List.all_eq_true.mp List.all_takeWhile x hx)⟩
      rw [List.nil_append, ← hzeros, List.takeWhile_append_dropWhile]
    · obtain ⟨before, after, hsplit, hstart⟩ := ih (start + 1)
      refine ⟨g :: before, after, ?_, ?_⟩
      · rw [List.cons_append, List.cons_append, ← hsplit]
      · rw [List.length_cons]
        omega

/-- No dots, no address of version four. -/
theorem octets?_of_not_mem {s : List Char} (h : '.' ∉ s) : octets? s = none := by
  rw [octets?, Text.cut_of_not_mem h]
  rfl

/-- There is no dot between groups. -/
theorem dot_not_mem_colons (groups : List UInt16) : '.' ∉ (colons groups).toList := by
  rw [toList_colons]
  refine Text.not_mem_intercalate (by decide) fun piece hpiece => ?_
  obtain ⟨g, -, rfl⟩ := List.mem_map.mp hpiece
  exact Text.not_mem_toDigits (by decide) (by decide) (.inl rfl)

/-- What is no address of version four is read as one of version six. -/
theorem parse?_of_octets?_eq_none {text : String} (h : octets? text.toList = none) :
    parse? text = v6? text.toList := by
  rw [parse?, h]

/-- Eight groups without a shortened run are read back. -/
theorem parse?_colons {groups : List UInt16} (hlength : groups.length = 8) :
    parse? (colons groups) = some (.v6 groups) := by
  have hdouble : splitDouble (colons groups).toList = none := by
    have h := splitDouble_colons_append groups []
    rwa [List.append_nil] at h
  rw [parse?_of_octets?_eq_none (octets?_of_not_mem (dot_not_mem_colons groups)), v6?, hdouble]
  dsimp only
  rw [groupRun?_colons, Option.bind_eq_bind, Option.bind_some, if_pos hlength]

/-- Groups around a run of zeros that is left out are read back with it. -/
theorem parse?_shortened {before after : List UInt16} {count : Nat}
    (hlength : before.length + count + after.length = 8) (hcount : 0 < count) :
    parse? (colons before ++ "::" ++ colons after) =
      some (.v6 (before ++ List.replicate count 0 ++ after)) := by
  have htext : (colons before ++ "::" ++ colons after).toList =
      (colons before).toList ++ ':' :: ':' :: (colons after).toList := by
    rw [String.toList_append, String.toList_append, List.append_assoc]
    rfl
  have hdots : '.' ∉ (colons before).toList ++ ':' :: ':' :: (colons after).toList := by
    simp [dot_not_mem_colons]
  have hdouble : splitDouble ((colons before).toList ++ ':' :: ':' :: (colons after).toList) =
      some ((colons before).toList, (colons after).toList) := by
    rw [splitDouble_colons_append, splitDouble, Option.map_some]
    simp only [List.append_nil]
  have hrun : 8 - before.length - after.length = count := by omega
  rw [← htext] at hdots hdouble
  rw [parse?_of_octets?_eq_none (octets?_of_not_mem hdots), v6?, hdouble]
  dsimp only
  rw [plainRun?_colons, groupRun?_colons]
  simp only [Option.bind_eq_bind, Option.bind_some]
  rw [if_pos (by omega), hrun]

/-! ### Version four within version six -/

/-- Two octets make their group again. -/
theorem paired_octetsOf (g h : UInt16) : paired ([g, h].flatMap octetsOf) = [g, h] := by
  have hgroup : ∀ g : UInt16, (g / 256).toUInt8.toUInt16 * 256 + g.toUInt8.toUInt16 = g := by
    intro g
    have hlt := g.toNat_lt
    rw [← UInt16.toNat_inj]
    simp
    omega
  change [(g / 256).toUInt8.toUInt16 * 256 + g.toUInt8.toUInt16,
    (h / 256).toUInt8.toUInt16 * 256 + h.toUInt8.toUInt16] = _
  rw [hgroup, hgroup]

/-- A first part with too many digits is not the first of four. -/
theorem octets?_of_long {first : List Char} {rest : List (List Char)} {s : List Char}
    (hcut : Text.cut '.' s = first :: rest) (hfirst : 3 < first.length) : octets? s = none := by
  have hnone : octet? first = none := by
    rw [octet?, decide_eq_true hfirst, Bool.true_or, if_pos rfl]
  rw [octets?, hcut, List.mapM_cons, hnone]
  exact ite_self none

/-- An address of version four is no group. -/
theorem group?_dotted (a b c d : UInt8) : group? (dotted [a, b, c, d]).toList = none := by
  have hpos : ∀ o, 0 < (octetChars o).length := fun o => Nat.length_toDigits_pos
  have hlength : 4 < (dotted [a, b, c, d]).toList.length := by
    have := hpos a
    have := hpos b
    have := hpos c
    have := hpos d
    simp only [toList_dotted, List.map_cons, List.map_nil, List.intercalate_cons_cons,
      List.intercalate_singleton, List.length_append, List.length_singleton]
    omega
  rw [group?, if_pos hlength]

/-- Not even where it is embedded is an address of version four one by itself. -/
theorem octets?_mapped (a b c d : UInt8) :
    octets? ("::ffff:" ++ dotted [a, b, c, d]).toList = none := by
  have hdots : ∀ o, '.' ∉ octetChars o := fun o =>
    Text.not_mem_toDigits (by decide) (by decide) (.inl rfl)
  have hpieces : ("::ffff:" ++ dotted [a, b, c, d]).toList =
      (':' :: ':' :: 'f' :: 'f' :: 'f' :: 'f' :: ':' :: octetChars a) ++
        '.' :: ['.'].intercalate [octetChars b, octetChars c, octetChars d] := by
    rw [String.toList_append, toList_dotted, List.map_cons, List.map_cons,
      List.intercalate_cons_cons]
    simp
  have hcut : Text.cut '.' ("::ffff:" ++ dotted [a, b, c, d]).toList =
      (':' :: ':' :: 'f' :: 'f' :: 'f' :: 'f' :: ':' :: octetChars a) ::
        Text.cut '.' (['.'].intercalate [octetChars b, octetChars c, octetChars d]) := by
    rw [hpieces, Text.cut_append_cons, Text.cut_of_not_mem (by simp [hdots])]
    rfl
  refine octets?_of_long hcut ?_
  simp only [List.length_cons]
  omega

/-- The group in front of an embedded address, and the two groups that the address is. -/
theorem groupRun?_mapped (a b c d : UInt8) :
    groupRun? (['f', 'f', 'f', 'f'] ++ ':' :: (dotted [a, b, c, d]).toList) =
      some (0xffff :: paired [a, b, c, d]) := by
  have hcolon : ':' ∉ (dotted [a, b, c, d]).toList := by
    rw [toList_dotted]
    refine Text.not_mem_intercalate (by decide) fun piece hpiece => ?_
    obtain ⟨o, -, rfl⟩ := List.mem_map.mp hpiece
    exact Text.not_mem_toDigits (by decide) (by decide) (.inr rfl)
  have hgroup : group? ['f', 'f', 'f', 'f'] = some 0xffff := by decide +kernel
  rw [groupRun?, Text.cut_append_cons, Text.cut_of_not_mem (by decide), Text.cut_of_not_mem hcolon]
  change (if false = true then some [] else groups? [['f', 'f', 'f', 'f'], _]) = _
  rw [if_neg Bool.false_ne_true, groups?, hgroup, groups?, group?_dotted]
  · dsimp only
    rw [octets?_dotted, Option.map_some]
    rfl
  · exact List.cons_ne_nil _ _

/-- An embedded address of version four is read back. -/
theorem parse?_mapped {groups : List UInt16} (hlength : groups.length = 8)
    (hmapped : isMapped groups = true) :
    parse? ("::ffff:" ++ dotted ((groups.drop 6).flatMap octetsOf)) = some (.v6 groups) := by
  have hfirst : groups.take 6 = [0, 0, 0, 0, 0, 0xffff] := of_decide_eq_true hmapped
  obtain ⟨g, h, hlast⟩ : ∃ g h, groups.drop 6 = [g, h] := by
    match groups, hlength with
    | [_, _, _, _, _, _, g, h], _ => exact ⟨g, h, rfl⟩
  have hgroups : groups = [0, 0, 0, 0, 0, 0xffff, g, h] := by
    rw [← List.take_append_drop 6 groups, hfirst, hlast]
    rfl
  have hpaired := paired_octetsOf g h
  rw [hlast]
  obtain ⟨a, b, c, d, hoctets⟩ : ∃ a b c d, [g, h].flatMap octetsOf = [a, b, c, d] :=
    ⟨_, _, _, _, rfl⟩
  rw [hoctets] at hpaired ⊢
  have htext : ("::ffff:" ++ dotted [a, b, c, d]).toList =
      ':' :: ':' :: (['f', 'f', 'f', 'f'] ++ ':' :: (dotted [a, b, c, d]).toList) := by
    rw [String.toList_append]
    rfl
  rw [parse?_of_octets?_eq_none (octets?_mapped a b c d), v6?, htext, splitDouble]
  dsimp only
  rw [groupRun?_mapped, hpaired, hgroups]
  rfl

/-- The address is one: version six has eight groups. -/
def IsWhole : Address → Prop
  | .v4 .. => True
  | .v6 groups => groups.length = 8

/-- An address is read back from its text. -/
theorem parse?_text {a : Address} (h : a.IsWhole) : parse? a.text = some a := by
  cases a with
  | v4 a b c d =>
    rw [text, parse?, octets?_dotted]
  | v6 groups =>
    rw [text]
    split
    · rename_i hmapped
      exact parse?_mapped h hmapped
    · dsimp only
      split
      · rename_i hlong
        obtain ⟨before, after, hsplit, hstart⟩ := longestRun_cases 0 groups
        have hstart := hstart.resolve_left (by omega)
        generalize (longestRun 0 groups).2 = count at hlong hsplit hstart ⊢
        generalize (longestRun 0 groups).1 = start at hstart ⊢
        rw [Nat.zero_add] at hstart
        subst hstart
        have hlength : before.length + count + after.length = 8 := by
          have hall : groups.length = 8 := h
          rw [hsplit, List.length_append, List.length_append, List.length_replicate] at hall
          exact hall
        have hbefore : groups.take before.length = before := by
          rw [hsplit, List.append_assoc, List.take_left]
        have hafter : groups.drop (before.length + count) = after := by
          rw [hsplit]
          exact List.drop_left' (by rw [List.length_append, List.length_replicate])
        rw [hbefore, hafter, parse?_shortened hlength (by omega), ← hsplit]
      · exact parse?_colons h

/-- An address of version six that is read has eight groups. -/
theorem isWhole_of_v6? {s : List Char} {a : Address} (h : v6? s = some a) : a.IsWhole := by
  unfold v6? at h
  split at h
  · obtain ⟨groups, -, h⟩ := Option.bind_eq_some_iff.mp h
    split at h
    · cases h
      assumption
    · exact nomatch h
  · obtain ⟨head, -, h⟩ := Option.bind_eq_some_iff.mp h
    obtain ⟨tail, -, h⟩ := Option.bind_eq_some_iff.mp h
    split at h
    · cases h
      change (head ++ List.replicate (8 - head.length - tail.length) 0 ++ tail).length = 8
      rw [List.length_append, List.length_append, List.length_replicate]
      omega
    · exact nomatch h

/-- What is read is an address. -/
theorem isWhole_of_parse? {text : String} {a : Address} (h : parse? text = some a) : a.IsWhole := by
  unfold parse? at h
  split at h
  · cases h
    exact trivial
  · exact isWhole_of_v6? h

end Address

end RemoteCall
