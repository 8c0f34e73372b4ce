import RemoteCall.Proofs.Settings.Address
import RemoteCall.Proofs.Settings.Codec
import RemoteCall.Settings.File

/-!
# Fields of settings files

With any lawful codec, what is written for a field is read back by its own reader. Of a time limit a
file keeps the whole milliseconds, in eight bytes; the rest of what a field can hold is kept as it
is. What a reader gives is in the range of its field.
-/

namespace RemoteCall

/-! ### Durations -/

namespace Duration

variable {d : Duration}

/-- All nanoseconds. -/
def totalNanos (d : Duration) : Nat := d.seconds * 1000000000 + d.nanos

/-- The parts of the duration are in range. -/
structure IsTime (d : Duration) : Prop where
  seconds_lt : d.seconds < 18446744073709551616
  nanos_lt : d.nanos < 1000000000

/-- What a file keeps of a duration: the milliseconds that are full, in eight bytes. -/
def kept (d : Duration) : Duration := ofMillis (d.totalNanos / 1000000 % 18446744073709551616)

/-- The duration is a whole number of milliseconds, and one of eight bytes. -/
def IsWhole (d : Duration) : Prop :=
  d.totalNanos % 1000000 = 0 ∧ d.totalNanos / 1000000 < 18446744073709551616

/-- The milliseconds that are written are the full ones, cut to eight bytes. -/
theorem millis_eq (d : Duration) :
    d.millis = d.totalNanos / 1000000 % 18446744073709551616 := by
  have hsize : UInt64.size = 18446744073709551616 := rfl
  rw [millis, totalNanos, hsize]
  omega

/-- Reading the milliseconds that are written gives what is kept. -/
theorem ofMillis_millis (d : Duration) : ofMillis d.millis = d.kept := by
  rw [millis_eq, kept]

/-- The milliseconds that are written are a number of eight bytes. -/
theorem millis_lt (d : Duration) : d.millis < 18446744073709551616 := Nat.mod_lt _ (by decide)

/-- So many milliseconds are a million times as many nanoseconds. -/
theorem totalNanos_ofMillis (m : Nat) : (ofMillis m).totalNanos = m * 1000000 := by
  rw [totalNanos, ofMillis]
  dsimp only
  omega

/-- What is kept is kept again as it is. -/
theorem millis_kept (d : Duration) : d.kept.millis = d.millis := by
  rw [millis_eq, millis_eq, kept, totalNanos_ofMillis]
  omega

/-- Milliseconds of eight bytes are a duration in range. -/
theorem isTime_ofMillis {m : Nat} (hm : m < 18446744073709551616) : (ofMillis m).IsTime := by
  constructor
  · rw [ofMillis]
    dsimp only
    omega
  · rw [ofMillis]
    dsimp only
    omega

/-- A duration is kept as it is exactly when it is a whole number of milliseconds of eight bytes. -/
theorem kept_eq_self_iff (h : d.IsTime) : d.kept = d ↔ d.IsWhole := by
  have hnanos := h.nanos_lt
  constructor
  · intro hkept
    have htotal := congrArg totalNanos hkept
    rw [kept, totalNanos_ofMillis] at htotal
    rw [IsWhole]
    omega
  · rintro ⟨hwhole, hsmall⟩
    obtain ⟨seconds, nanos⟩ := d
    rw [kept, Nat.mod_eq_of_lt hsmall, ofMillis, Duration.mk.injEq]
    rw [totalNanos] at hwhole ⊢
    dsimp only at hwhole hnanos ⊢
    omega

end Duration

namespace Settings

variable {α : Type}

/-- A property of the value that is there. -/
theorem forall_mem_some {p : α → Prop} {a : α} (h : p a) : ∀ b ∈ some a, p b := by
  intro b hb
  cases hb
  exact h

/-! ### Nesting -/

/-- A time limit is no record. -/
theorem depth_timeoutDocument (t : Option Duration) : (timeoutDocument t).depth = 0 := by
  cases t <;> rfl

/-- A format is a record of scalars. -/
theorem depth_formatDocument (f : Format) : (formatDocument f).depth = 1 := rfl

/-- A format that may be missing is a record of scalars at most. -/
theorem depth_nativeDocument_le (native : Option Format) : (nativeDocument native).depth ≤ 1 := by
  cases native with
  | none => exact Nat.zero_le 1
  | some f => exact Nat.le_of_eq (depth_formatDocument f)

namespace Codec

variable {c : Codec} {part : c.Tree → Option α}

/-! ### Fields -/

namespace Lawful

/-- A natural number of at most eight bytes is read back. -/
theorem natural (hc : c.Lawful) {bits n : Nat} (hbits : bits ≤ 64) (hn : n < Nat.pow 2 bits) :
    c.Keeps (c.natural? bits) (.integer n) n := by
  have hpower : Nat.pow 2 bits ≤ Nat.pow 2 64 := Nat.pow_le_pow_right (by decide) hbits
  have hgreatest : Nat.pow 2 64 = 18446744073709551616 := rfl
  have hinteger : c.Keeps (c.integer? 0 (Nat.pow 2 bits - 1)) (.integer n) n :=
    hc.integer (by decide) (by omega) (by omega) (by omega)
  obtain ⟨t, ht, hread⟩ := hinteger
  refine ⟨t, ht, ?_⟩
  rw [natural?, hread]
  rfl

/-- A part that is there is kept as it is when it need not be there. -/
theorem optional (hc : c.Lawful) {d : Document} {a : α} (hd : d.IsBare) (h : c.Keeps part d a) :
    c.Keeps (c.optional? part) (.present d) (some a) := by
  obtain ⟨t, ht, hread⟩ := h
  obtain ⟨u, hu, hoptional⟩ := hc.present hd ht
  refine ⟨u, hu, ?_⟩
  rw [hoptional, hread]
  rfl

/-- A part that is missing stays missing. -/
theorem optional_absent (hc : c.Lawful) (part : c.Tree → Option α) :
    c.Keeps (c.optional? part) .absent none := by
  obtain ⟨t, ht, hoptional⟩ := hc.absent
  exact ⟨t, ht, hoptional part⟩

/-- Of a time limit the whole milliseconds are kept. -/
theorem timeout (hc : c.Lawful) (t : Option Duration) :
    c.Keeps c.timeout? (timeoutDocument t) (t.map Duration.kept) := by
  cases t with
  | none =>
    obtain ⟨tree, htree, hread⟩ := hc.optional_absent (c.natural? 64)
    refine ⟨tree, htree, ?_⟩
    rw [timeout?, hread]
    rfl
  | some d =>
    have hmillis : c.Keeps (c.natural? 64) (.integer d.millis) d.millis :=
      hc.natural (Nat.le_refl _) d.millis_lt
    have hbare : (Document.integer d.millis).IsBare := trivial
    obtain ⟨tree, htree, hread⟩ := hc.optional hbare hmillis
    refine ⟨tree, htree, ?_⟩
    rw [timeout?, hread]
    exact congrArg (some ∘ some) d.ofMillis_millis

/-- An address is kept by its text. -/
theorem address (hc : c.Lawful) {a : Address} (h : a.IsWhole) :
    c.Keeps c.address? (.text a.text) a := by
  obtain ⟨t, ht, hread⟩ := hc.text a.text
  refine ⟨t, ht, ?_⟩
  rw [address?, hread, Option.bind_some, Address.parse?_text h]

/-- A number kind is kept by its name. -/
theorem kind (hc : c.Lawful) (k : NumberKind) :
    c.Keeps (c.variant? kinds) (.variant (kindName k)) k :=
  hc.variant (by decide) (by cases k <;> decide)

/-- A format that this side can use is one again when it is read back. -/
theorem format (hc : c.Lawful) {f : Format} (hf : f.isSupported = true) :
    c.Keeps c.format? (formatDocument f) f := by
  obtain ⟨order, horder, hreadOrder⟩ := hc.truth f.littleEndian
  obtain ⟨width, hwidth, hreadWidth⟩ :=
    hc.natural (show 8 ≤ 64 by decide) f.width.toNat_lt
  obtain ⟨kind, hkind, hreadKind⟩ := hc.kind f.kind
  have hdepth : (formatDocument f).depth ≤ 127 := by
    rw [depth_formatDocument]
    decide
  have hnodup : formatNames.Nodup := by decide
  obtain ⟨t, ht, hfields⟩ := hc.record hdepth hnodup
    (.cons horder (.cons hwidth (.cons hkind .nil)))
  refine ⟨t, ht, ?_⟩
  change c.fields? formatNames t = some [some order, some width, some kind] at hfields
  rw [format?, hfields]
  simp only [hc.found, hreadOrder, hreadWidth, hreadKind, Option.bind_eq_bind, Option.bind_some,
    UInt8.ofNat_toNat]
  exact if_pos hf

/-- A format that may be missing is kept if this side can use it. -/
theorem native (hc : c.Lawful) {native : Option Format} (h : ∀ f ∈ native, f.isSupported = true) :
    c.Keeps (c.optional? c.format?) (nativeDocument native) native := by
  cases native with
  | none => exact hc.optional_absent c.format?
  | some f =>
    have hbare : (formatDocument f).IsBare := trivial
    exact hc.optional hbare (hc.format (h f rfl))

end Lawful

/-! ### Ranges -/

/-- Whatever is read has the property. -/
def Ensures (part : c.Tree → Option α) (p : α → Prop) : Prop := ∀ t a, part t = some a → p a

variable {p : α → Prop}

namespace Lawful

/-- An integer is in the range of its type. -/
theorem ensures_integer (hc : c.Lawful) (low high : Int) :
    Ensures (c.integer? low high) fun i => low ≤ i ∧ i ≤ high := fun _ _ h => hc.range h

/-- A natural number has no more bits than its type. -/
theorem ensures_natural (hc : c.Lawful) (bits : Nat) :
    Ensures (c.natural? bits) (· < Nat.pow 2 bits) := by
  intro t n h
  obtain ⟨i, hi, rfl⟩ := Option.map_eq_some_iff.mp h
  obtain ⟨hlow, hhigh⟩ := hc.range hi
  omega

/-- The value of an option has the property of its part. -/
theorem ensures_optional (hc : c.Lawful) (h : Ensures part p) :
    Ensures (c.optional? part) fun a => ∀ b ∈ a, p b := by
  intro t a ha b hb
  cases hb
  obtain ⟨u, hu⟩ := hc.value ha
  exact h u b hu

/-- A time limit that is read is a duration. -/
theorem ensures_timeout (hc : c.Lawful) : Ensures c.timeout? fun t => ∀ d ∈ t, d.IsTime := by
  intro tree t h
  obtain ⟨m, hm, rfl⟩ := Option.map_eq_some_iff.mp h
  intro d hd
  obtain ⟨n, hn, rfl⟩ := Option.map_eq_some_iff.mp hd
  exact Duration.isTime_ofMillis (hc.ensures_optional (hc.ensures_natural 64) _ _ hm n hn)

/-- A field that is read has a property of its part that its default has as well. -/
theorem of_field? (hc : c.Lawful) {default a : α} {found : Option c.Tree} (h : Ensures part p)
    (hdefault : p default) (ha : c.field? part (some default) found = some a) : p a := by
  cases found with
  | none =>
    rw [hc.missing] at ha
    cases ha
    exact hdefault
  | some t =>
    rw [hc.found] at ha
    exact h t a ha

end Lawful

/-- An address that is read is one of four bytes or eight groups. -/
theorem ensures_address : Ensures c.address? Address.IsWhole := by
  intro t a h
  obtain ⟨text, -, hparse⟩ := Option.bind_eq_some_iff.mp h
  exact Address.isWhole_of_parse? hparse

/-- A format is checked when it is read, whatever the codec. -/
theorem ensures_format : Ensures c.format? fun f => f.isSupported = true := by
  intro t f h
  unfold format? at h
  obtain ⟨found, -, h⟩ := Option.bind_eq_some_iff.mp h
  split at h
  · simp only [Option.bind_eq_bind, Option.bind_eq_some_iff] at h
    obtain ⟨_, -, _, -, _, -, h⟩ := h
    split at h
    · cases h
      assumption
    · exact nomatch h
  · exact nomatch h

end Codec

end Settings

end RemoteCall
