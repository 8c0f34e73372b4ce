import RemoteCall.Text.Utf8

/-!
# Reading back UTF-8

The scanner crosses the bytes of a character and comes out with that character, whatever it had
found before. Text therefore survives its bytes, under the strict reading as under the lenient one.
Conversely, a character that is found without an invalid part has the bytes that were crossed, so
the strict reading accepts the bytes of texts and nothing else.
-/

namespace RemoteCall.Text

/-- The first of two bytes announces one more. -/
theorem lead_of_two {a : Nat} (hlow : 2 ≤ a) (hhigh : a < 32) :
    lead (a + 192) = some (.owing a 0 0x80 0xBF) := by
  have h : ∀ b < 32, 2 ≤ b → lead (b + 192) = some (.owing b 0 0x80 0xBF) := by decide
  exact h a hhigh hlow

/-- The first of three bytes announces two more, and bounds the next so that neither an overlong
form nor a surrogate can follow. -/
theorem lead_of_three {a : Nat} (h : a < 16) :
    lead (a + 224) =
      some (.owing a 1 (if a = 0 then 0xA0 else 0x80) (if a = 13 then 0x9F else 0xBF)) := by
  have h' : ∀ b < 16, lead (b + 224) =
      some (.owing b 1 (if b = 0 then 0xA0 else 0x80) (if b = 13 then 0x9F else 0xBF)) := by decide
  exact h' a h

/-- The first of four bytes announces three more, within the planes that exist. -/
theorem lead_of_four {a : Nat} (h : a < 5) :
    lead (a + 240) =
      some (.owing a 2 (if a = 0 then 0x90 else 0x80) (if a = 4 then 0x8F else 0xBF)) := by
  have h' : ∀ b < 5, lead (b + 240) =
      some (.owing b 2 (if b = 0 then 0x90 else 0x80) (if b = 4 then 0x8F else 0xBF)) := by decide
  exact h' a h

variable {found : List (Option Char)}

/-- A number below 256 is that of its byte. -/
theorem toNat_ofNat_of_lt {n : Nat} (h : n < 256) : (UInt8.ofNat n).toNat = n := by
  simp only [UInt8.toNat_ofNat']
  omega

/-- A leading byte opens a character. -/
theorem step_lead {b : Nat} {state : Scan} (hlow : 128 ≤ b) (hhigh : b < 256)
    (h : lead b = some state) : step (.start, found) (UInt8.ofNat b) = (state, found) := by
  simp only [step, toNat_ofNat_of_lt hhigh, begin, if_neg (Nat.not_lt.mpr hlow), h]

/-- A byte within bounds that is not the last one owed adds its six bits. -/
theorem step_owing_succ {value count low high d : Nat} (hd : d < 64) (hlow : low ≤ d + 128)
    (hhigh : d + 128 ≤ high) :
    step (.owing value (count + 1) low high, found) (UInt8.ofNat (d + 128)) =
      (.owing (value * 64 + d) count 0x80 0xBF, found) := by
  have hmod : (d + 128) % 64 = d := by omega
  simp only [step, toNat_ofNat_of_lt (show d + 128 < 256 by omega), hmod,
    if_pos (And.intro hlow hhigh)]

/-- The last byte owed completes the character. -/
theorem step_owing_zero {value low high d : Nat} (hd : d < 64) (hlow : low ≤ d + 128)
    (hhigh : d + 128 ≤ high) :
    step (.owing value 0 low high, found) (UInt8.ofNat (d + 128)) =
      (.start, some (Char.ofNat (value * 64 + d)) :: found) := by
  have hmod : (d + 128) % 64 = d := by omega
  simp only [step, toNat_ofNat_of_lt (show d + 128 < 256 by omega), hmod,
    if_pos (And.intro hlow hhigh)]

/-- Crossing the bytes of a character finds exactly that character. -/
theorem foldl_step_utf8EncodeChar (c : Char) (found : List (Option Char)) :
    (String.utf8EncodeChar c).foldl step (.start, found) = (.start, some c :: found) := by
  have hc : Char.ofNat c.val.toNat = c := Char.ofNat_toNat c
  have hvalid : c.val.toNat < 0xD800 ∨ 0xDFFF < c.val.toNat ∧ c.val.toNat < 0x110000 := c.valid
  generalize hv : c.val.toNat = v at hc hvalid
  simp only [String.utf8EncodeChar, hv]
  by_cases h1 : v ≤ 127
  · simp only [if_pos h1, List.foldl_cons, List.foldl_nil, step,
      toNat_ofNat_of_lt (show v < 256 by omega), begin, if_pos (show v < 0x80 by omega), hc]
  rw [if_neg h1]
  by_cases h2 : v ≤ 2047
  · have hlead := lead_of_two (show 2 ≤ v / 64 by omega) (show v / 64 < 32 by omega)
    have hvalue : v / 64 * 64 + v % 64 = v := by omega
    rw [if_pos h2, show v / 64 % 32 = v / 64 by omega]
    simp only [List.foldl_cons, List.foldl_nil]
    rw [step_lead (by omega) (by omega) hlead,
      step_owing_zero (by omega) (by omega) (by omega), hvalue, hc]
  rw [if_neg h2]
  by_cases h3 : v ≤ 65535
  · have hlead := lead_of_three (show v / 4096 < 16 by omega)
    have hvalue : (v / 4096 * 64 + v / 64 % 64) * 64 + v % 64 = v := by omega
    rw [if_pos h3, show v / 4096 % 16 = v / 4096 by omega]
    simp only [List.foldl_cons, List.foldl_nil]
    rw [step_lead (by omega) (by omega) hlead,
      step_owing_succ (by omega) (by split <;> omega) (by split <;> omega),
      step_owing_zero (by omega) (by omega) (by omega), hvalue, hc]
  · have hlead := lead_of_four (show v / 262144 < 5 by omega)
    have hvalue : ((v / 262144 * 64 + v / 4096 % 64) * 64 + v / 64 % 64) * 64 + v % 64 = v := by
      omega
    rw [if_neg h3, show v / 262144 % 8 = v / 262144 by omega]
    simp only [List.foldl_cons, List.foldl_nil]
    rw [step_lead (by omega) (by omega) hlead,
      step_owing_succ (by omega) (by split <;> omega) (by split <;> omega),
      step_owing_succ (by omega) (by omega) (by omega),
      step_owing_zero (by omega) (by omega) (by omega), hvalue, hc]

/-- Crossing the bytes of a list of characters finds them all, the last one on top. -/
theorem foldl_step_flatMap (cs : List Char) (found : List (Option Char)) :
    (cs.flatMap String.utf8EncodeChar).foldl step (.start, found) =
      (.start, (cs.map some).reverse ++ found) := by
  induction cs generalizing found with
  | nil => rfl
  | cons c cs ih =>
    rw [List.flatMap_cons, List.foldl_append, foldl_step_utf8EncodeChar, ih]
    simp

/-- The pieces of a text's bytes are its characters. -/
theorem pieces_bytes (s : String) : pieces (bytes s) = s.toList.map some := by
  simp only [pieces, bytes, foldl_step_flatMap, List.append_nil, List.reverse_reverse]

/-- Strict reading gives a text back. -/
@[simp] theorem decode?_bytes (s : String) : decode? (bytes s) = some s := by
  have hall : (s.toList.map some).all Option.isSome = true := by simp
  have hback : (s.toList.map some).filterMap id = s.toList := by simp
  simp only [decode?, pieces_bytes, if_pos hall, hback, String.ofList_toList]

/-- Lenient reading gives a text back. -/
@[simp] theorem decodeLossy_bytes (s : String) : decodeLossy (bytes s) = s := by
  have hback : (s.toList.map some).map (·.getD '\uFFFD') = s.toList := by
    simp [Function.comp_def]
  simp only [decodeLossy, pieces_bytes, hback, String.ofList_toList]

/-- Different texts have different bytes. -/
theorem bytes_injective {s t : String} (h : bytes s = bytes t) : s = t := by
  have hs := decode?_bytes s
  rw [h, decode?_bytes] at hs
  exact (Option.some.inj hs).symm

/-- Every way to supply so many further bytes and one more, the first of them between the bounds,
makes these bytes those of a character. -/
def Completes : Nat → Nat → Nat → Nat → List UInt8 → Prop
  | 0, value, low, high, opened => ∀ b : UInt8, low ≤ b.toNat → b.toNat ≤ high →
      String.utf8EncodeChar (Char.ofNat (value * 64 + b.toNat % 64)) = opened ++ [b]
  | count + 1, value, low, high, opened => ∀ b : UInt8, low ≤ b.toNat → b.toNat ≤ high →
      Completes count (value * 64 + b.toNat % 64) 0x80 0xBF (opened ++ [b])

/-- The scanner stands inside the character that these bytes open. -/
def Scan.Holds : Scan → List UInt8 → Prop
  | .start, opened => opened = []
  | .owing value count low high, opened => Completes count value low high opened

/-- A number that is no surrogate is that of its character. -/
theorem toNat_val_ofNat {n : Nat} (h : n < 0xD800 ∨ 0xDFFF < n ∧ n < 0x110000) :
    (Char.ofNat n).val.toNat = n := by
  have hvalid : n.isValidChar := h
  have hchar : Char.ofNat n = Char.ofNatAux n hvalid := dif_pos hvalid
  rw [hchar]
  rfl

/-- The byte with the number of a byte is that byte. -/
theorem ofNat_eq_of_toNat {b : UInt8} {n : Nat} (h : n = b.toNat) : UInt8.ofNat n = b := by
  rw [h, UInt8.ofNat_toNat]

variable {a low high : Nat} {b : UInt8}

/-- A byte that announces one more makes a character with it. -/
theorem completes_of_two (hb : b.toNat = a + 0xC0) (hlow : 2 ≤ a) (hhigh : a < 32) :
    Completes 0 a 0x80 0xBF [b] := by
  intro c hc hc'
  have hv := toNat_val_ofNat (n := a * 64 + c.toNat % 64) (by omega)
  simp only [String.utf8EncodeChar, hv]
  rw [if_neg (by omega), if_pos (by omega), ofNat_eq_of_toNat (b := b) (by omega),
    ofNat_eq_of_toNat (b := c) (by omega)]
  rfl

/-- A byte that announces two more makes a character with them, since the bounds exclude overlong
forms and surrogates. -/
theorem completes_of_three (hb : b.toNat = a + 0xE0) (ha : a < 16) (hlow : 0x80 ≤ low)
    (hhigh : high ≤ 0xBF) (hoverlong : a = 0 → 0xA0 ≤ low) (hsurrogate : a = 13 → high ≤ 0x9F) :
    Completes 1 a low high [b] := by
  intro c hc hc' d hd hd'
  have hv := toNat_val_ofNat (n := (a * 64 + c.toNat % 64) * 64 + d.toNat % 64) (by omega)
  simp only [String.utf8EncodeChar, hv]
  rw [if_neg (by omega), if_neg (by omega), if_pos (by omega),
    ofNat_eq_of_toNat (b := b) (by omega), ofNat_eq_of_toNat (b := c) (by omega),
    ofNat_eq_of_toNat (b := d) (by omega)]
  rfl

/-- A byte that announces three more makes a character with them, since the bounds exclude overlong
forms and what lies beyond the last plane. -/
theorem completes_of_four (hb : b.toNat = a + 0xF0) (ha : a < 5) (hlow : 0x80 ≤ low)
    (hhigh : high ≤ 0xBF) (hoverlong : a = 0 → 0x90 ≤ low) (hlast : a = 4 → high ≤ 0x8F) :
    Completes 2 a low high [b] := by
  intro c hc hc' d hd hd' e he he'
  have hv := toNat_val_ofNat
    (n := ((a * 64 + c.toNat % 64) * 64 + d.toNat % 64) * 64 + e.toNat % 64) (by omega)
  simp only [String.utf8EncodeChar, hv]
  rw [if_neg (by omega), if_neg (by omega), if_neg (by omega),
    ofNat_eq_of_toNat (b := b) (by omega), ofNat_eq_of_toNat (b := c) (by omega),
    ofNat_eq_of_toNat (b := d) (by omega), ofNat_eq_of_toNat (b := e) (by omega)]
  rfl

/-- The first byte of a character opens it. -/
theorem holds_of_lead {state : Scan} (h : lead b.toNat = some state) : state.Holds [b] := by
  unfold lead at h
  repeat' split at h
  all_goals cases h
  · exact completes_of_two (by omega) (by omega) (by omega)
  · exact completes_of_three (by omega) (by omega) (by omega) (by omega) (by omega) (by omega)
  · exact completes_of_three (by omega) (by omega) (by omega) (by omega) (by omega) (by omega)
  · exact completes_of_three (by omega) (by omega) (by omega) (by omega) (by omega) (by omega)
  · exact completes_of_four (by omega) (by omega) (by omega) (by omega) (by omega) (by omega)
  · exact completes_of_four (by omega) (by omega) (by omega) (by omega) (by omega) (by omega)
  · exact completes_of_four (by omega) (by omega) (by omega) (by omega) (by omega) (by omega)

variable {bs : List UInt8}

/-- What was found without an invalid part spells the bytes that were read, but for those of the
character that is open. -/
def Spells (bs : List UInt8) (r : Scan × List (Option Char)) : Prop :=
  none ∉ r.2 → ∃ opened, r.1.Holds opened ∧
    bs = (r.2.reverse.filterMap id).flatMap String.utf8EncodeChar ++ opened

/-- A byte that begins a character goes behind what was spelt before it. -/
theorem spells_begin (b : UInt8)
    (h : none ∉ found → bs = (found.reverse.filterMap id).flatMap String.utf8EncodeChar) :
    Spells (bs ++ [b]) (begin found b.toNat) := by
  unfold begin
  intro hvalid
  split at hvalid
  · rename_i hsmall
    rw [if_pos hsmall]
    have hv := toNat_val_ofNat (n := b.toNat) (by omega)
    have hchar : String.utf8EncodeChar (Char.ofNat b.toNat) = [b] := by
      simp only [String.utf8EncodeChar, hv]
      rw [if_pos (by omega), UInt8.ofNat_toNat]
    refine ⟨[], rfl, ?_⟩
    rw [h (fun hmem => hvalid (List.mem_cons_of_mem _ hmem))]
    simp [hchar]
  · rename_i hbig
    rw [if_neg hbig]
    cases hlead : lead b.toNat with
    | none =>
      rw [hlead] at hvalid
      exact absurd (List.mem_cons_self ..) hvalid
    | some state =>
      rw [hlead] at hvalid
      exact ⟨[b], holds_of_lead hlead, by rw [h hvalid]⟩

/-- Whatever byte comes next, the scan goes on spelling the bytes. -/
theorem Spells.step {r : Scan × List (Option Char)} (hr : Spells bs r) (b : UInt8) :
    Spells (bs ++ [b]) (step r b) := by
  obtain ⟨state, found⟩ := r
  cases state with
  | start =>
    refine spells_begin b fun hvalid => ?_
    obtain ⟨opened, hopened, hbs⟩ := hr hvalid
    rw [hbs, (hopened : opened = []), List.append_nil]
  | owing value count low high =>
    by_cases hbounds : low ≤ b.toNat ∧ b.toNat ≤ high
    · cases count with
      | zero =>
        intro hvalid
        simp only [Text.step, if_pos hbounds] at hvalid ⊢
        obtain ⟨opened, hopened, hbs⟩ := hr fun hmem => hvalid (List.mem_cons_of_mem _ hmem)
        refine ⟨[], rfl, ?_⟩
        have hchar := hopened b hbounds.1 hbounds.2
        rw [hbs]
        simp [hchar]
      | succ count =>
        intro hvalid
        simp only [Text.step, if_pos hbounds] at hvalid ⊢
        obtain ⟨opened, hopened, hbs⟩ := hr hvalid
        exact ⟨opened ++ [b], hopened b hbounds.1 hbounds.2, by rw [hbs, List.append_assoc]⟩
    · simp only [Text.step, if_neg hbounds]
      exact spells_begin b fun hvalid => absurd (List.mem_cons_self ..) hvalid

/-- Reading on keeps what was found in line with the bytes read. -/
theorem Spells.foldl {r : Scan × List (Option Char)} (hr : Spells bs r) (more : List UInt8) :
    Spells (bs ++ more) (more.foldl Text.step r) := by
  induction more generalizing bs r with
  | nil => rwa [List.append_nil]
  | cons b more ih =>
    rw [List.append_cons]
    exact ih (hr.step b)

/-- Whatever is read from the start on is in line with what is found. -/
theorem spells_foldl (bs : List UInt8) : Spells bs (bs.foldl step (.start, [])) := by
  have hstart : Spells [] (.start, []) := fun _ => ⟨[], rfl, rfl⟩
  exact hstart.foldl bs

/-- Bytes that are text are the bytes of that text. -/
theorem decode?_eq_some {bs : List UInt8} {s : String} :
    decode? bs = some s ↔ bs = bytes s := by
  constructor
  · intro h
    have hspells := spells_foldl bs
    unfold decode? pieces at h
    cases hr : bs.foldl step (.start, []) with
    | mk state found =>
      rw [hr] at h hspells
      cases state with
      | owing value count low high => simp at h
      | start =>
        simp at h
        obtain ⟨hall, rfl⟩ := h
        obtain ⟨opened, hopened, hbs⟩ := hspells (fun hmem => by simpa using hall none hmem)
        rw [hbs, (hopened : opened = []), List.append_nil]
        simp [bytes]
  · rintro rfl
    exact decode?_bytes s

end RemoteCall.Text
